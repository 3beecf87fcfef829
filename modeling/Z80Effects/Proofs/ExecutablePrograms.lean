import Z80Effects.Proofs.EffectForms

/-!
# Executable programs

A program is executable if it has no holes, calls primitives by their names and with as many
arguments as they take, looks up entries of the two tables only, and assigns to variables and
registers only. The conditions are on the text of the program. They are those under which nothing
can fault, and the program of every accepted instruction meets them, whatever its operands.
-/
namespace Z80Effects

namespace Expr

/-- An expression cannot fault on its own, whatever its parts, given which holes have values. -/
def isSound (known : Hole → Bool) : Expr → Bool
  | hole h => known h
  | call name args => (Primitive.ofName? name).any (args.length == ·.arity)
  | index table _ => table.table?.isSome
  | _ => true

variable {known : Hole → Bool}

theorem isSound_of_mem_subexprs_target {t : Expr} (ht : t.target?.isSome) :
    ∀ x ∈ t.subexprs, x.isSound known := by
  cases t with
  | var name => simp [subexprs, isSound]
  | register reg => simp [subexprs, isSound]
  | _ => simp [target?] at ht

theorem isSound_of_mem_subexprs_table {t : Expr} (ht : t.table?.isSome) :
    ∀ x ∈ t.subexprs, x.isSound known := by
  cases t with
  | var name => simp [subexprs, isSound]
  | _ => simp [table?] at ht

mutual

/-- No part of an expression can fault if each of them cannot fault on its own. -/
theorem wellFormed_iff (e : Expr) :
    e.wellFormed known ↔ ∀ x ∈ e.subexprs, x.isSound known := by
  cases e with
  | literal l => simp [wellFormed, subexprs, isSound]
  | var name => simp [wellFormed, subexprs, isSound]
  | register reg => simp [wellFormed, subexprs, isSound]
  | hole h => simp [wellFormed, subexprs, isSound]
  | binary op l r =>
    simp only [wellFormed, subexprs, Bool.and_eq_true, List.forall_mem_cons,
      List.forall_mem_append, wellFormed_iff l, wellFormed_iff r, isSound, true_and]
  | unary op e =>
    simp only [wellFormed, subexprs, List.forall_mem_cons, wellFormed_iff e, isSound, true_and]
  | logical op l r =>
    simp only [wellFormed, subexprs, Bool.and_eq_true, List.forall_mem_cons,
      List.forall_mem_append, wellFormed_iff l, wellFormed_iff r, isSound, true_and]
  | conditional t y n =>
    simp only [wellFormed, subexprs, Bool.and_eq_true, List.forall_mem_cons,
      List.forall_mem_append, wellFormed_iff t, wellFormed_iff y, wellFormed_iff n, isSound,
      true_and]
  | index t k =>
    simp only [wellFormed, subexprs, Bool.and_eq_true, List.forall_mem_cons,
      List.forall_mem_append, wellFormed_iff k, isSound]
    constructor
    · rintro ⟨ht, hk⟩
      exact ⟨ht, isSound_of_mem_subexprs_table ht, hk⟩
    · rintro ⟨ht, -, hk⟩
      exact ⟨ht, hk⟩
  | call name args =>
    simp only [wellFormed, subexprs, Bool.and_eq_true, List.forall_mem_cons,
      wellFormedList_iff args, isSound]

theorem wellFormedList_iff (es : List Expr) :
    wellFormedList known es ↔ ∀ x ∈ subexprsList es, x.isSound known := by
  cases es with
  | nil => simp [wellFormedList, subexprsList]
  | cons e es =>
    simp only [wellFormedList, subexprsList, Bool.and_eq_true, List.forall_mem_append,
      wellFormed_iff e, wellFormedList_iff es]

end

end Expr

namespace Stmt

mutual

/-- The targets of the assignments in a statement, in the order in which they are written. -/
def targets : Stmt → List Expr
  | effect _ | declare .. | ret _ => []
  | assign _ target _ => [target]
  | block body => targetsList body
  | ifThen _ yes => yes.targets
  | ifElse _ yes no => yes.targets ++ no.targets

def targetsList : List Stmt → List Expr
  | [] => []
  | s :: ss => s.targets ++ targetsList ss

end

theorem targetsList_eq_flatMap (p : Program) : targetsList p = p.flatMap targets := by
  induction p with
  | nil => rfl
  | cons s ss ih => simp [targetsList, ih]

variable {known : Hole → Bool}

mutual

theorem wellFormed_iff (s : Stmt) : s.wellFormed known ↔
    (∀ x ∈ s.exprs, x.isSound known) ∧ ∀ t ∈ s.targets, t.target?.isSome := by
  cases s with
  | effect e => simp [wellFormed, exprs, targets, e.wellFormed_iff]
  | assign op t e =>
    simp only [wellFormed, exprs, targets, Bool.and_eq_true, List.forall_mem_append,
      List.forall_mem_singleton, e.wellFormed_iff]
    constructor
    · rintro ⟨ht, he⟩
      exact ⟨⟨Expr.isSound_of_mem_subexprs_target ht, he⟩, ht⟩
    · rintro ⟨⟨-, he⟩, ht⟩
      exact ⟨ht, he⟩
  | declare name e => simp [wellFormed, exprs, targets, e.wellFormed_iff]
  | block body =>
    simp only [wellFormed, exprs, targets]
    exact wellFormedList_iff body
  | ifThen t s =>
    simp only [wellFormed, exprs, targets, Bool.and_eq_true, List.forall_mem_append,
      t.wellFormed_iff, wellFormed_iff s, and_assoc]
  | ifElse t s z =>
    simp only [wellFormed, exprs, targets, Bool.and_eq_true, List.forall_mem_append,
      t.wellFormed_iff, wellFormed_iff s, wellFormed_iff z]
    constructor
    · rintro ⟨⟨ht, hs, hs'⟩, hz, hz'⟩
      exact ⟨⟨⟨ht, hs⟩, hz⟩, hs', hz'⟩
    · rintro ⟨⟨⟨ht, hs⟩, hz⟩, hs', hz'⟩
      exact ⟨⟨ht, hs, hs'⟩, hz, hz'⟩
  | ret value =>
    cases value with
    | none => simp [wellFormed, exprs, targets]
    | some e => simp [wellFormed, exprs, targets, e.wellFormed_iff]

theorem wellFormedList_iff (p : List Stmt) : wellFormedList known p ↔
    (∀ x ∈ exprsList p, x.isSound known) ∧ ∀ t ∈ targetsList p, t.target?.isSome := by
  cases p with
  | nil => simp [wellFormedList, exprsList, targetsList]
  | cons s ss =>
    simp only [wellFormedList, exprsList, targetsList, Bool.and_eq_true, List.forall_mem_append,
      wellFormed_iff s, wellFormedList_iff ss]
    constructor
    · rintro ⟨⟨hs, hs'⟩, hp, hp'⟩
      exact ⟨⟨hs, hp⟩, hs', hp'⟩
    · rintro ⟨⟨hs, hp⟩, hs', hp'⟩
      exact ⟨⟨hs, hs'⟩, hp, hp'⟩

end

end Stmt

namespace Program

def targets (p : Program) : List Expr := p.flatMap Stmt.targets

/-- Nothing in the text of a program can make it fault. -/
structure Executable (p : Program) : Prop where
  holes : p.holes = []
  calls : ∀ name args, Expr.call name args ∈ p.exprs →
    ∃ f : Primitive, f.name = name ∧ args.length = f.arity
  tables : ∀ table key, Expr.index table key ∈ p.exprs → ∃ t : FlagTable, table = .var t.name
  targets : ∀ target ∈ p.targets, (∃ name, target = .var name) ∨ ∃ reg, target = .register reg

theorem executable_iff (p : Program) :
    p.Executable ↔ Stmt.wellFormedList (fun _ => false) p := by
  rw [Stmt.wellFormedList_iff, Stmt.exprsList_eq_flatMap, Stmt.targetsList_eq_flatMap]
  constructor
  · intro h
    constructor
    · intro x hx
      cases x with
      | hole a =>
        have none := List.filterMap_eq_nil_iff.mp h.holes _ hx
        simp [Expr.hole?] at none
      | call name args =>
        obtain ⟨f, rfl, arity⟩ := h.calls name args hx
        simp [Expr.isSound, arity]
      | index table key =>
        obtain ⟨t, rfl⟩ := h.tables table key hx
        simp [Expr.isSound, Expr.table?]
      | _ => rfl
    · intro t ht
      obtain ⟨name, rfl⟩ | ⟨reg, rfl⟩ := h.targets t ht
      · rfl
      · rfl
  · rintro ⟨sound, assignable⟩
    constructor
    · refine List.filterMap_eq_nil_iff.mpr fun x hx => ?_
      cases x with
      | hole a => exact absurd (sound _ hx) Bool.false_ne_true
      | _ => rfl
    · intro name args hx
      have named := sound _ hx
      simp only [Expr.isSound, Option.any_eq_true, beq_iff_eq] at named
      obtain ⟨f, hf, arity⟩ := named
      exact ⟨f, Primitive.name_of_ofName? hf, arity⟩
    · intro table key hx
      have known := sound _ hx
      cases table with
      | var name =>
        obtain ⟨t, ht⟩ := Option.isSome_iff_exists.mp known
        exact ⟨t, by rw [FlagTable.name_of_ofName? ht]⟩
      | _ => simp [Expr.isSound, Expr.table?] at known
    · intro t ht
      have target := assignable t ht
      cases t with
      | var name => exact .inl ⟨name, rfl⟩
      | register reg => exact .inr ⟨reg, rfl⟩
      | _ => simp [Expr.target?] at target

/-- The operands do not matter to an executable program, which has no holes. -/
theorem Executable.run_eq_outcome {p : Program} (h : p.Executable) (ops : Operands) (m : Machine) :
    p.run m = .ok (p.outcome ops m).1 (p.outcome ops m).2 := by
  have noHoles : ∀ a : Hole, (fun _ => false) a = true → Valuation.none a = some (ops.resolve a) :=
    fun _ known => absurd known Bool.false_ne_true
  exact Stmt.runList_eq_outcomeList noHoles p (p.executable_iff.mp h) m

/-- A primitive is called by its name and with as many arguments as it takes. -/
theorem run_perform (f : Primitive) {args : List Expr} (arity : args.length = f.arity)
    (sound : Expr.wellFormedList (fun _ => false) args) (m : Machine) :
    Program.run [Effect.perform f args] m =
      .ok .continued ((f.call args).outcome (Operands.resolve {}) m).2 := by
  have callable : Program.Executable [Effect.perform f args] := by
    rw [executable_iff]
    simp [Stmt.wellFormedList, Effect.perform, Stmt.wellFormed, Primitive.call, Expr.wellFormed,
      arity, sound]
  rw [callable.run_eq_outcome {} m, Program.outcome, Effect.perform, Stmt.outcomeList_cons,
    Stmt.outcome_effect, Flow.andThen_continued, Stmt.outcomeList_nil]

/-- An executable program runs to its end from every machine. -/
theorem Executable.exists_run {p : Program} (h : p.Executable) (m : Machine) :
    ∃ flow m', p.run m = .ok flow m' :=
  ⟨_, _, h.run_eq_outcome {} m⟩

end Program

namespace Expr

variable {known known' : Hole → Bool}

theorem wellFormed_fold {e : Expr} (h : e.wellFormed known) : e.fold.wellFormed known := by
  unfold fold
  split
  · split
    · rfl
    · exact h
  · exact h

theorem table?_mapLiterals (f : Literal → Literal) (e : Expr) :
    (e.mapLiterals f).table? = e.table? := by
  cases e <;> rfl

theorem target?_mapLiterals (f : Literal → Literal) (e : Expr) :
    (e.mapLiterals f).target? = e.target? := by
  cases e <;> rfl

mutual

/-- Filled, an expression cannot fault for want of an operand. -/
theorem wellFormed_fill (ops : Operands) (e : Expr) (h : e.wellFormed known) :
    (e.fill ops).wellFormed known' := by
  cases e with
  | literal l => rfl
  | var name => rfl
  | register reg => rfl
  | hole a => rfl
  | binary op l r =>
    simp only [wellFormed, Bool.and_eq_true] at h
    have parts : (binary op (l.fill ops) (r.fill ops)).wellFormed known' := by
      simp only [wellFormed, Bool.and_eq_true]
      exact ⟨wellFormed_fill ops l h.1, wellFormed_fill ops r h.2⟩
    exact wellFormed_fold parts
  | unary op e =>
    simp only [wellFormed] at h
    simp only [fill, wellFormed]
    exact wellFormed_fill ops e h
  | logical op l r =>
    simp only [wellFormed, Bool.and_eq_true] at h
    simp only [fill, wellFormed, Bool.and_eq_true]
    exact ⟨wellFormed_fill ops l h.1, wellFormed_fill ops r h.2⟩
  | conditional t y n =>
    simp only [wellFormed, Bool.and_eq_true] at h
    simp only [fill, wellFormed, Bool.and_eq_true]
    exact ⟨⟨wellFormed_fill ops t h.1.1, wellFormed_fill ops y h.1.2⟩, wellFormed_fill ops n h.2⟩
  | index t k =>
    simp only [wellFormed, Bool.and_eq_true] at h
    simp only [fill, wellFormed, Bool.and_eq_true]
    refine ⟨?_, wellFormed_fill ops k h.2⟩
    rw [(alike_fill ops t).table]
    exact h.1
  | call name args =>
    simp only [wellFormed, Bool.and_eq_true] at h
    simp only [fill, wellFormed, Bool.and_eq_true]
    refine ⟨?_, wellFormedList_fillList ops args h.2⟩
    rw [(alikeList_fillList ops args).length]
    exact h.1

theorem wellFormedList_fillList (ops : Operands) (es : List Expr) (h : wellFormedList known es) :
    wellFormedList known' (fillList ops es) := by
  cases es with
  | nil => rfl
  | cons e es =>
    simp only [wellFormedList, Bool.and_eq_true] at h
    simp only [fillList, wellFormedList, Bool.and_eq_true]
    exact ⟨wellFormed_fill ops e h.1, wellFormedList_fillList ops es h.2⟩

end

mutual

theorem wellFormed_mapLiterals (f : Literal → Literal) (e : Expr) :
    (e.mapLiterals f).wellFormed known = e.wellFormed known := by
  cases e with
  | literal l => rfl
  | var name => rfl
  | register reg => rfl
  | hole a => rfl
  | binary op l r =>
    simp only [mapLiterals, wellFormed, wellFormed_mapLiterals f l, wellFormed_mapLiterals f r]
  | unary op e => simp only [mapLiterals, wellFormed, wellFormed_mapLiterals f e]
  | logical op l r =>
    simp only [mapLiterals, wellFormed, wellFormed_mapLiterals f l, wellFormed_mapLiterals f r]
  | conditional t y n =>
    simp only [mapLiterals, wellFormed, wellFormed_mapLiterals f t, wellFormed_mapLiterals f y,
      wellFormed_mapLiterals f n]
  | index t k =>
    simp only [mapLiterals, wellFormed, table?_mapLiterals, wellFormed_mapLiterals f k]
  | call name args =>
    have length : (mapLiteralsList f args).length = args.length := by
      rw [mapLiteralsList_eq_map, List.length_map]
    simp only [mapLiterals, wellFormed, wellFormedList_mapLiteralsList f args, length]

theorem wellFormedList_mapLiteralsList (f : Literal → Literal) (es : List Expr) :
    wellFormedList known (mapLiteralsList f es) = wellFormedList known es := by
  cases es with
  | nil => rfl
  | cons e es =>
    simp only [mapLiteralsList, wellFormedList, wellFormed_mapLiterals f e,
      wellFormedList_mapLiteralsList f es]

end

end Expr

namespace Stmt

variable {known known' : Hole → Bool}

mutual

theorem wellFormed_fill (ops : Operands) (s : Stmt) (h : s.wellFormed known) :
    (s.fill ops).wellFormed known' := by
  cases s with
  | effect e =>
    simp only [wellFormed] at h
    simp only [fill, wellFormed]
    exact e.wellFormed_fill ops h
  | assign op t e =>
    simp only [wellFormed, Bool.and_eq_true] at h
    simp only [fill, wellFormed, Bool.and_eq_true]
    refine ⟨?_, e.wellFormed_fill ops h.2⟩
    rw [(t.alike_fill ops).target]
    exact h.1
  | declare name e =>
    simp only [wellFormed] at h
    simp only [fill, wellFormed]
    exact e.wellFormed_fill ops h
  | block body =>
    simp only [wellFormed] at h
    simp only [fill, wellFormed]
    exact wellFormedList_fillList ops body h
  | ifThen t s =>
    simp only [wellFormed, Bool.and_eq_true] at h
    simp only [fill, wellFormed, Bool.and_eq_true]
    exact ⟨t.wellFormed_fill ops h.1, wellFormed_fill ops s h.2⟩
  | ifElse t s z =>
    simp only [wellFormed, Bool.and_eq_true] at h
    simp only [fill, wellFormed, Bool.and_eq_true]
    exact ⟨⟨t.wellFormed_fill ops h.1.1, wellFormed_fill ops s h.1.2⟩, wellFormed_fill ops z h.2⟩
  | ret value =>
    cases value with
    | none => rfl
    | some e =>
      simp only [wellFormed, Option.all_some] at h
      simp only [fill, wellFormed, Option.map_some, Option.all_some]
      exact e.wellFormed_fill ops h

theorem wellFormedList_fillList (ops : Operands) (p : List Stmt) (h : wellFormedList known p) :
    wellFormedList known' (fillList ops p) := by
  cases p with
  | nil => rfl
  | cons s ss =>
    simp only [wellFormedList, Bool.and_eq_true] at h
    simp only [fillList, wellFormedList, Bool.and_eq_true]
    exact ⟨wellFormed_fill ops s h.1, wellFormedList_fillList ops ss h.2⟩

end

mutual

theorem wellFormed_mapLiterals (f : Literal → Literal) (s : Stmt) :
    (s.mapLiterals f).wellFormed known = s.wellFormed known := by
  cases s with
  | effect e => simp only [mapLiterals, wellFormed, e.wellFormed_mapLiterals f]
  | assign op t e =>
    simp only [mapLiterals, wellFormed, t.target?_mapLiterals f, e.wellFormed_mapLiterals f]
  | declare name e => simp only [mapLiterals, wellFormed, e.wellFormed_mapLiterals f]
  | block body => simp only [mapLiterals, wellFormed, wellFormedList_mapLiteralsList f body]
  | ifThen t s =>
    simp only [mapLiterals, wellFormed, t.wellFormed_mapLiterals f, wellFormed_mapLiterals f s]
  | ifElse t s z =>
    simp only [mapLiterals, wellFormed, t.wellFormed_mapLiterals f, wellFormed_mapLiterals f s,
      wellFormed_mapLiterals f z]
  | ret value =>
    cases value with
    | none => rfl
    | some e =>
      simp only [mapLiterals, wellFormed, Option.map_some, Option.all_some,
        e.wellFormed_mapLiterals f]

theorem wellFormedList_mapLiteralsList (f : Literal → Literal) (p : List Stmt) :
    wellFormedList known (mapLiteralsList f p) = wellFormedList known p := by
  cases p with
  | nil => rfl
  | cons s ss =>
    simp only [mapLiteralsList, wellFormedList, wellFormed_mapLiterals f s,
      wellFormedList_mapLiteralsList f ss]

end

end Stmt

namespace Program

variable {p : Program}

theorem executable_fill (hp : p.wellFormed) (ops : Operands) : (p.fill ops).Executable := by
  rw [executable_iff, fill, ← Stmt.fillList_eq_map]
  exact Stmt.wellFormedList_fillList ops p hp

theorem Executable.annotate (h : p.Executable) : p.annotate.Executable := by
  rw [executable_iff] at h ⊢
  rw [Program.annotate, mapLiterals, ← Stmt.mapLiteralsList_eq_map,
    Stmt.wellFormedList_mapLiteralsList]
  exact h

/-- Without holes, a program cannot fault for want of an operand. -/
theorem executable_of_no_holes (hp : p.wellFormed) (none : p.holes = []) : p.Executable := by
  rw [wellFormed, Stmt.wellFormedList_iff] at hp
  rw [executable_iff, Stmt.wellFormedList_iff]
  refine ⟨fun x hx => ?_, hp.2⟩
  have sound := hp.1 x hx
  cases x with
  | hole a =>
    rw [Stmt.exprsList_eq_flatMap] at hx
    have absent := List.filterMap_eq_nil_iff.mp none _ hx
    simp [Expr.hole?] at absent
  | _ => exact sound

end Program

/-- A template of a program that cannot fault for other reasons than its holes gives executable
programs. -/
theorem Template.executable_instantiate (annotate : Bool) {p : Program} (hp : p.wellFormed)
    (ops : Operands) : ((Template.ofProgram annotate p).instantiate ops).Executable := by
  unfold ofProgram
  split
  · next h =>
    have executable := p.executable_of_no_holes hp (List.isEmpty_iff.mp h)
    cases annotate with
    | false => exact executable
    | true => exact executable.annotate
  · have executable := p.executable_fill hp ops
    cases annotate with
    | false => exact executable
    | true => exact executable.annotate

end Z80Effects
