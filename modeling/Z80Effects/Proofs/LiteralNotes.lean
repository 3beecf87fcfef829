import Z80Effects.Proofs.FilledPrograms

/-!
# Notes are for show

Taking the notes off a program and filling it may be done in either order, and a run does not look
at notes. So programs that are the same up to notes are so after filling, and run alike. Effects are
built without notes: annotated, the program of an instruction has a note on each of its numbers,
put there after all folding, and not annotated it has none.
-/
namespace Z80Effects

open Run

theorem Literal.bare_comp_annotate : bare ∘ annotate = bare := funext bare_annotate

namespace Expr

theorem isFoldable_mapLiterals {f : Literal → Literal} (hf : ∀ l, (f l).constant = l.constant)
    (e : Expr) : (e.mapLiterals f).isFoldable = e.isFoldable := by
  cases e with
  | binary op l r => simp only [mapLiterals, isFoldable_binary, num?_mapLiterals hf]
  | _ => rfl

/-- Folding makes a note only where the number to the left has one. -/
theorem bare_fold (e : Expr) : e.fold.bare = e.bare.fold := by
  cases h : e.isFoldable with
  | true =>
    obtain ⟨op, x, note, y, note', rfl | rfl, rfl⟩ := isFoldable_iff.mp h
    · cases note <;> rfl
    · cases note <;> rfl
  | false =>
    have bareFoldable : e.bare.isFoldable = false := by
      rw [bare, isFoldable_mapLiterals Literal.constant_bare, h]
    rw [fold_of_not_isFoldable h, fold_of_not_isFoldable bareFoldable]

theorem same_fold {e e' : Expr} (h : e.same e') : e.fold.same e'.fold := by
  rw [same_iff, Same] at h ⊢
  rw [bare_fold, bare_fold, h]

mutual

theorem bare_fill (ops : Operands) (e : Expr) : (e.fill ops).bare = e.bare.fill ops := by
  cases e with
  | literal l => rfl
  | var name => rfl
  | register reg => rfl
  | hole a => rfl
  | binary op l r =>
    have parts : (binary op (l.fill ops) (r.fill ops)).bare =
        binary op (l.bare.fill ops) (r.bare.fill ops) := by
      rw [← bare_fill ops l, ← bare_fill ops r]
      rfl
    rw [fill, bare_fold, parts]
    rfl
  | unary op e => exact congrArg (unary op) (bare_fill ops e)
  | logical op l r => exact congrArg₂ (logical op) (bare_fill ops l) (bare_fill ops r)
  | conditional t y n =>
    have test := bare_fill ops t
    have yes := bare_fill ops y
    have no := bare_fill ops n
    simp only [bare] at test yes no ⊢
    simp only [fill, mapLiterals, test, yes, no]
  | index t k => exact congrArg₂ index (bare_fill ops t) (bare_fill ops k)
  | call name args => exact congrArg (call name) (bare_fillList ops args)

theorem bare_fillList (ops : Operands) (es : List Expr) :
    mapLiteralsList Literal.bare (fillList ops es) =
      fillList ops (mapLiteralsList Literal.bare es) := by
  cases es with
  | nil => rfl
  | cons e es => exact congrArg₂ List.cons (bare_fill ops e) (bare_fillList ops es)

end

end Expr

namespace Stmt

mutual

theorem bare_fill (ops : Operands) (s : Stmt) : (s.fill ops).mapLiterals Literal.bare =
    (s.mapLiterals Literal.bare).fill ops := by
  cases s with
  | effect e => exact congrArg effect (e.bare_fill ops)
  | assign op t e => exact congrArg₂ (assign op) (t.bare_fill ops) (e.bare_fill ops)
  | declare name e => exact congrArg (declare name) (e.bare_fill ops)
  | block body => exact congrArg block (bare_fillList ops body)
  | ifThen t s => exact congrArg₂ ifThen (t.bare_fill ops) (bare_fill ops s)
  | ifElse t s z =>
    have test := t.bare_fill ops
    rw [Expr.bare, Expr.bare] at test
    simp only [fill, mapLiterals, test, bare_fill ops s, bare_fill ops z]
  | ret value =>
    cases value with
    | none => rfl
    | some e => exact congrArg (fun e => ret (some e)) (e.bare_fill ops)

theorem bare_fillList (ops : Operands) (p : List Stmt) :
    mapLiteralsList Literal.bare (fillList ops p) =
      fillList ops (mapLiteralsList Literal.bare p) := by
  cases p with
  | nil => rfl
  | cons s ss => exact congrArg₂ List.cons (bare_fill ops s) (bare_fillList ops ss)

end

end Stmt

namespace Program

variable (p : Program)

theorem bare_fill (ops : Operands) : (p.fill ops).bare = p.bare.fill ops := by
  simp only [bare, fill, mapLiterals, ← Stmt.mapLiteralsList_eq_map, ← Stmt.fillList_eq_map,
    Stmt.bare_fillList]

theorem bare_annotate : p.annotate.bare = p.bare := by
  simp only [bare, annotate, mapLiterals, ← Stmt.mapLiteralsList_eq_map,
    Stmt.mapLiteralsList_mapLiteralsList, Literal.bare_comp_annotate]

/-- A pending template, annotated or not, filled and then without notes. -/
theorem bare_instantiate (annotate : Bool) (ops : Operands) :
    ((Template.pending p annotate).instantiate ops).bare = p.bare.fill ops := by
  cases annotate with
  | false => exact p.bare_fill ops
  | true => exact (p.fill ops).bare_annotate.trans (p.bare_fill ops)

theorem run_bare_byKind : byKind p.bare.run = byKind p.run := by
  rw [bare, mapLiterals, ← Stmt.mapLiteralsList_eq_map]
  exact Stmt.alikeList_mapLiteralsList Literal.constant_bare p

/-- From every machine, two programs end in the same way and on the same machine, or with faults of
the same kind that leave the same machine behind. -/
def RunsLike (p p' : Program) : Prop :=
  ∀ m m', (∀ flow, p.run m = .ok flow m' ↔ p'.run m = .ok flow m') ∧
    ∀ kind, (∃ fault : Fault, fault.kind = kind ∧ p.run m = .error fault m') ↔
      ∃ fault : Fault, fault.kind = kind ∧ p'.run m = .error fault m'

variable {p} {p' : Program}

theorem runsLike_of_byKind_eq (h : byKind p.run = byKind p'.run) : p.RunsLike p' := by
  intro m m'
  have same := congrFun h m
  refine ⟨fun flow => ?_, fun kind => ?_⟩
  · rw [← byKind_eq_ok_iff, same, byKind_eq_ok_iff]
  · rw [← byKind_eq_error_iff, same, byKind_eq_error_iff]

theorem same_instantiate (h : p.same p') (ops : Operands) (annotate annotate' : Bool) :
    ((Template.pending p annotate).instantiate ops).same
      ((Template.pending p' annotate').instantiate ops) := by
  rw [same_iff, Same] at h ⊢
  rw [bare_instantiate, bare_instantiate, h]

theorem runsLike_of_same (h : p.same p') : p.RunsLike p' := by
  rw [same_iff, Same] at h
  apply runsLike_of_byKind_eq
  rw [← p.run_bare_byKind, h, p'.run_bare_byKind]

end Program

/-- The note of a literal in an annotated program: numbers have their hexadecimal form. -/
def Literal.ownNote (l : Literal) : Option String :=
  match l.constant with
  | .num v => some (Numeral.hex v)
  | .bool _ => none

namespace Program

/-- Every number carries its hexadecimal form, and no truth value carries anything. -/
def Annotated (p : Program) : Prop := ∀ l, Expr.literal l ∈ p.exprs → l.note = l.ownNote

/-- No literal carries a note. -/
def Unannotated (p : Program) : Prop := ∀ l, Expr.literal l ∈ p.exprs → l.note = none

variable {p : Program}

theorem exists_literal_of_mem_mapLiterals {f : Literal → Literal} {l : Literal}
    (h : Expr.literal l ∈ (p.mapLiterals f).exprs) :
    ∃ l', Expr.literal l' ∈ p.exprs ∧ f l' = l := by
  rw [exprs_mapLiterals] at h
  obtain ⟨e, he, eq⟩ := List.mem_map.mp h
  cases e with
  | literal l' =>
    cases eq
    exact ⟨l', he, rfl⟩
  | _ => cases eq

theorem unannotated_bare (p : Program) : p.bare.Unannotated := by
  intro l hl
  obtain ⟨l', -, rfl⟩ := exists_literal_of_mem_mapLiterals hl
  rfl

/-- Annotating leaves no literal of a program without notes as it should not be. -/
theorem Unannotated.annotate (h : p.Unannotated) : p.annotate.Annotated := by
  intro l hl
  obtain ⟨l', hl', rfl⟩ := exists_literal_of_mem_mapLiterals hl
  have none := h l' hl'
  obtain ⟨constant, note⟩ := l'
  cases constant with
  | num v => rfl
  | bool b => exact none

end Program

/-- Effects are built without notes. -/
theorem EffectForm.bare_eq {policy : Policy} {i : Instruction} {p : Program}
    (h : EffectForm policy i p) : p.bare = p := by
  cases h with
  | loadFromR =>
    obtain ⟨_, refresh, _⟩ := policy
    cases refresh <;> rfl
  | halt =>
    obtain ⟨speedup, _, _⟩ := policy
    cases speedup <;> rfl
  | adcWord src second hs | sbcWord src second hs => cases hs <;> rfl
  | accumulateArithmetic op src operand f hs hf => cases hs <;> rfl
  | accumulateLogical op src operand hs hf =>
    cases hs with
    | register reg _ => cases op <;> cases hf <;> cases reg <;> rfl
    | _ => cases op <;> cases hf <;> rfl
  | addWord q src _ _ => cases src <;> rfl
  | bitRegister op n hn reg | bitMemory op n hn | bitIndexed op n hn x => cases op <;> rfl
  | jumpRelativeIf k _ => cases k <;> rfl
  | jump k | call k | ret k =>
    cases k with
    | none => rfl
    | some k => cases k <;> rfl
  | input dst port | output port src => cases port <;> rfl
  | _ => rfl

namespace Instruction

variable {policy : Policy} {i : Instruction}

/-- Whether numbers are annotated has no part in what an instruction does. -/
theorem effect_annotate (policy : Policy) (i : Instruction) (annotate : Bool) :
    i.effect { policy with annotate := annotate } = i.effect policy := by
  cases i <;> rfl

/-- With annotation and without, an accepted instruction gives one program without notes. -/
theorem exists_program_annotate {t : Template} (h : i.template policy = .ok t) (ops : Operands) :
    ∃ plain : Program, plain.bare = plain ∧
      i.program { policy with annotate := true } ops = .ok plain.annotate ∧
      i.program { policy with annotate := false } ops = .ok plain := by
  cases he : i.effect policy with
  | error refusal =>
    rw [template, he] at h
    cases h
  | ok skeleton =>
    have bare := (EffectForm.of_effect he).bare_eq
    simp only [program, template, effect_annotate, he]
    cases empty : skeleton.holes.isEmpty with
    | true =>
      refine ⟨skeleton, bare, ?_, ?_⟩ <;>
        simp [Except.map, Template.ofProgram, Template.instantiate, empty]
    | false =>
      refine ⟨skeleton.fill ops, by rw [skeleton.bare_fill, bare], ?_, ?_⟩ <;>
        simp [Except.map, Template.ofProgram, Template.instantiate, empty]

end Instruction

/-- Notes are presentation only. Folding, filling and running take programs that are the same up to
notes to results that are the same up to notes, and the program of an instruction is the same with
annotation and without, apart from notes: with it, every number shows its own value in hexadecimal,
and without it, nothing carries a note. -/
theorem Program.notes_irrelevant :
    (∀ e e' : Expr, e.same e' → e.fold.same e'.fold) ∧
    (∀ p p' : Program, p.same p' → p.RunsLike p' ∧
      ∀ (ops : Operands) (annotate annotate' : Bool),
        ((Template.pending p annotate).instantiate ops).same
          ((Template.pending p' annotate').instantiate ops)) ∧
    ∀ (policy : Policy) (i : Instruction) (t : Template), i.template policy = .ok t →
      ∀ ops : Operands, ∃ annotated plain : Program,
        i.program { policy with annotate := true } ops = .ok annotated ∧
        i.program { policy with annotate := false } ops = .ok plain ∧
        annotated.same plain ∧ annotated.Annotated ∧ plain.Unannotated := by
  refine ⟨fun e e' h => Expr.same_fold h, fun p p' h => ⟨runsLike_of_same h, ?_⟩, ?_⟩
  · exact same_instantiate h
  · intro policy i t ht ops
    obtain ⟨plain, bare, annotated, unannotated⟩ := Instruction.exists_program_annotate ht ops
    have none : plain.Unannotated := bare ▸ plain.unannotated_bare
    refine ⟨_, plain, annotated, unannotated, ?_, none.annotate, none⟩
    rw [same_iff, Same, bare_annotate]

/-- The high byte of a number with a note and of the same number without, the programs that store
it, and the program of `LD B,n`. -/
theorem Program.notes_irrelevant_loadByte :
    let noted : Expr := Expr.literal ⟨.num 0x1234, some "0x1234"⟩ >>> 8
    let plain : Expr := Expr.num 0x1234 >>> 8
    let high (e : Expr) : Program := [.set (.var "h") e]
    noted.fold.same plain.fold ∧ (high noted).RunsLike (high plain) ∧
      ∃ annotated plain : Program,
        (Instruction.loadByte .b .immediate).program { annotate := true } { value := 7 } =
          .ok annotated ∧
        (Instruction.loadByte .b .immediate).program { annotate := false } { value := 7 } =
          .ok plain ∧
        annotated.same plain ∧ annotated.Annotated ∧ plain.Unannotated :=
  ⟨notes_irrelevant.1 _ _ rfl, (notes_irrelevant.2.1 _ _ rfl).1,
    notes_irrelevant.2.2 {} (.loadByte .b .immediate) _ rfl { value := 7 }⟩

end Z80Effects
