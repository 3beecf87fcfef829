import Z80Effects.Proofs.PrimitiveCalls

/-!
# Filled programs

An expression is reduced if it is neither a hole nor a shift or mask of two numbers. In a filled
program all expressions are reduced, at whatever depth: the parts of an operation are filled before
the operation itself is folded, and what folding leaves has reduced parts or none. On such a program
filling does nothing, so that a filled program is in normal form.
-/
namespace Z80Effects

namespace Literal

theorem annotate_annotate (l : Literal) : l.annotate.annotate = l.annotate := by
  obtain ⟨constant, note⟩ := l
  cases constant <;> rfl

end Literal

theorem BinaryOp.folds_eq (op : BinaryOp) : op.folds = (op == .shr || op == .and) := by
  cases op <;> rfl

namespace Expr

/-- A right shift or a mask of two numbers. -/
def isFoldable : Expr → Bool
  | binary op (literal ⟨.num _, _⟩) (literal ⟨.num _, _⟩) => op == .shr || op == .and
  | _ => false

/-- The expression is itself nothing to be filled in or folded. -/
def isReduced (e : Expr) : Bool := e.hole?.isNone && !e.isFoldable

theorem isFoldable_iff {e : Expr} : e.isFoldable ↔ ∃ op x note y note',
    (op = .shr ∨ op = .and) ∧
      e = binary op (literal ⟨.num x, note⟩) (literal ⟨.num y, note'⟩) := by
  unfold isFoldable
  split
  · next op x note y note' =>
    rw [Bool.or_eq_true, beq_iff_eq, beq_iff_eq]
    constructor
    · exact fun h => ⟨op, x, note, y, note', h, rfl⟩
    · rintro ⟨_, _, _, _, _, h, same⟩
      cases same
      exact h
  · next h =>
    refine iff_of_false Bool.false_ne_true ?_
    rintro ⟨_, _, _, _, _, -, rfl⟩
    exact h _ _ _ _ _ rfl

theorem fold_of_not_isFoldable {e : Expr} (h : e.isFoldable = false) : e.fold = e := by
  unfold fold
  split
  · rw [if_neg]
    simpa [isFoldable, BinaryOp.folds_eq] using h
  · rfl

theorem num?_isSome_iff {e : Expr} : e.num?.isSome ↔ ∃ v note, e = literal ⟨.num v, note⟩ := by
  unfold num?
  split
  · next v note => simp
  · next h => simpa using h

theorem isFoldable_binary (op : BinaryOp) (l r : Expr) :
    (binary op l r).isFoldable = (l.num?.isSome && r.num?.isSome && (op == .shr || op == .and)) := by
  unfold isFoldable
  split
  · next h =>
    cases h
    rfl
  · next h =>
    rw [eq_comm, ← Bool.not_eq_true]
    intro both
    simp only [Bool.and_eq_true, num?_isSome_iff] at both
    obtain ⟨⟨⟨x, note, rfl⟩, ⟨y, note', rfl⟩⟩, -⟩ := both
    exact h _ _ _ _ _ rfl

theorem exists_fold_eq_literal {e : Expr} (h : e.isFoldable) : ∃ l, e.fold = literal l := by
  obtain ⟨op, x, note, y, note', rfl | rfl, rfl⟩ := isFoldable_iff.mp h
  · exact ⟨_, rfl⟩
  · exact ⟨_, rfl⟩

/-- An operation with reduced parts is reduced by folding it. -/
theorem reduced_fold (op : BinaryOp) {l r : Expr} (hl : ∀ x ∈ l.subexprs, x.isReduced)
    (hr : ∀ x ∈ r.subexprs, x.isReduced) :
    ∀ x ∈ (binary op l r).fold.subexprs, x.isReduced := by
  cases h : (binary op l r).isFoldable with
  | true =>
    obtain ⟨v, folded⟩ := exists_fold_eq_literal h
    rw [folded, subexprs, List.forall_mem_singleton]
    rfl
  | false =>
    rw [fold_of_not_isFoldable h]
    simp only [subexprs, List.forall_mem_cons, List.forall_mem_append]
    exact ⟨by rw [isReduced, h]; rfl, hl, hr⟩

mutual

theorem reduced_fill (ops : Operands) (e : Expr) : ∀ x ∈ (e.fill ops).subexprs, x.isReduced := by
  cases e with
  | literal l => exact List.forall_mem_singleton.mpr rfl
  | var name => exact List.forall_mem_singleton.mpr rfl
  | register reg => exact List.forall_mem_singleton.mpr rfl
  | hole a => exact List.forall_mem_singleton.mpr rfl
  | binary op l r => exact reduced_fold op (reduced_fill ops l) (reduced_fill ops r)
  | unary op e =>
    simp only [fill, subexprs, List.forall_mem_cons]
    exact ⟨rfl, reduced_fill ops e⟩
  | logical op l r =>
    simp only [fill, subexprs, List.forall_mem_cons, List.forall_mem_append]
    exact ⟨rfl, reduced_fill ops l, reduced_fill ops r⟩
  | conditional t y n =>
    simp only [fill, subexprs, List.forall_mem_cons, List.forall_mem_append]
    exact ⟨rfl, ⟨reduced_fill ops t, reduced_fill ops y⟩, reduced_fill ops n⟩
  | index t k =>
    simp only [fill, subexprs, List.forall_mem_cons, List.forall_mem_append]
    exact ⟨rfl, reduced_fill ops t, reduced_fill ops k⟩
  | call name args =>
    simp only [fill, subexprs, List.forall_mem_cons]
    exact ⟨rfl, reduced_fillList ops args⟩

theorem reduced_fillList (ops : Operands) (es : List Expr) :
    ∀ x ∈ subexprsList (fillList ops es), x.isReduced := by
  cases es with
  | nil => exact List.forall_mem_nil _
  | cons e es =>
    simp only [fillList, subexprsList, List.forall_mem_append]
    exact ⟨reduced_fill ops e, reduced_fillList ops es⟩

end

mutual

theorem fill_of_reduced (ops : Operands) (e : Expr) (h : ∀ x ∈ e.subexprs, x.isReduced) :
    e.fill ops = e := by
  cases e with
  | literal l => rfl
  | var name => rfl
  | register reg => rfl
  | hole a => exact absurd (List.forall_mem_singleton.mp h) Bool.false_ne_true
  | binary op l r =>
    simp only [subexprs, List.forall_mem_cons, List.forall_mem_append] at h
    have folded : (binary op l r).isFoldable = false := by
      simpa [isReduced, hole?] using h.1
    rw [fill, fill_of_reduced ops l h.2.1, fill_of_reduced ops r h.2.2,
      fold_of_not_isFoldable folded]
  | unary op e =>
    simp only [subexprs, List.forall_mem_cons] at h
    rw [fill, fill_of_reduced ops e h.2]
  | logical op l r =>
    simp only [subexprs, List.forall_mem_cons, List.forall_mem_append] at h
    rw [fill, fill_of_reduced ops l h.2.1, fill_of_reduced ops r h.2.2]
  | conditional t y n =>
    simp only [subexprs, List.forall_mem_cons, List.forall_mem_append] at h
    rw [fill, fill_of_reduced ops t h.2.1.1, fill_of_reduced ops y h.2.1.2,
      fill_of_reduced ops n h.2.2]
  | index t k =>
    simp only [subexprs, List.forall_mem_cons, List.forall_mem_append] at h
    rw [fill, fill_of_reduced ops t h.2.1, fill_of_reduced ops k h.2.2]
  | call name args =>
    simp only [subexprs, List.forall_mem_cons] at h
    rw [fill, fillList_of_reduced ops args h.2]

theorem fillList_of_reduced (ops : Operands) (es : List Expr)
    (h : ∀ x ∈ subexprsList es, x.isReduced) : fillList ops es = es := by
  cases es with
  | nil => rfl
  | cons e es =>
    simp only [subexprsList, List.forall_mem_append] at h
    rw [fillList, fill_of_reduced ops e h.1, fillList_of_reduced ops es h.2]

end

theorem num?_mapLiterals {f : Literal → Literal} (hf : ∀ l, (f l).constant = l.constant)
    (e : Expr) : (e.mapLiterals f).num? = e.num? := by
  cases e with
  | literal l =>
    have constant := hf l
    rw [mapLiterals]
    generalize f l = l' at constant
    obtain ⟨c, note⟩ := l
    obtain ⟨_, note'⟩ := l'
    cases constant
    cases c <;> rfl
  | _ => rfl

theorem isReduced_mapLiterals {f : Literal → Literal} (hf : ∀ l, (f l).constant = l.constant)
    (e : Expr) : (e.mapLiterals f).isReduced = e.isReduced := by
  cases e with
  | binary op l r =>
    simp only [isReduced, mapLiterals, isFoldable_binary, num?_mapLiterals hf]
    rfl
  | _ => rfl

mutual

theorem mapLiterals_mapLiterals (f g : Literal → Literal) (e : Expr) :
    (e.mapLiterals f).mapLiterals g = e.mapLiterals (g ∘ f) := by
  cases e with
  | literal l => rfl
  | var name => rfl
  | register reg => rfl
  | hole a => rfl
  | binary op l r =>
    simp only [mapLiterals, mapLiterals_mapLiterals f g l, mapLiterals_mapLiterals f g r]
  | unary op e => simp only [mapLiterals, mapLiterals_mapLiterals f g e]
  | logical op l r =>
    simp only [mapLiterals, mapLiterals_mapLiterals f g l, mapLiterals_mapLiterals f g r]
  | conditional t y n =>
    simp only [mapLiterals, mapLiterals_mapLiterals f g t, mapLiterals_mapLiterals f g y,
      mapLiterals_mapLiterals f g n]
  | index t k =>
    simp only [mapLiterals, mapLiterals_mapLiterals f g t, mapLiterals_mapLiterals f g k]
  | call name args => simp only [mapLiterals, mapLiteralsList_mapLiteralsList f g args]

theorem mapLiteralsList_mapLiteralsList (f g : Literal → Literal) (es : List Expr) :
    mapLiteralsList g (mapLiteralsList f es) = mapLiteralsList (g ∘ f) es := by
  cases es with
  | nil => rfl
  | cons e es =>
    simp only [mapLiteralsList, mapLiterals_mapLiterals f g e,
      mapLiteralsList_mapLiteralsList f g es]

end

end Expr

namespace Stmt

mutual

/-- All expressions of a filled statement are reduced. -/
theorem reduced_fill (ops : Operands) (s : Stmt) : ∀ x ∈ (s.fill ops).exprs, x.isReduced := by
  cases s with
  | effect e => exact e.reduced_fill ops
  | assign op t e =>
    simp only [fill, exprs, List.forall_mem_append]
    exact ⟨t.reduced_fill ops, e.reduced_fill ops⟩
  | declare name e => exact e.reduced_fill ops
  | block body => exact reduced_fillList ops body
  | ifThen t s =>
    simp only [fill, exprs, List.forall_mem_append]
    exact ⟨t.reduced_fill ops, reduced_fill ops s⟩
  | ifElse t s z =>
    simp only [fill, exprs, List.forall_mem_append]
    exact ⟨⟨t.reduced_fill ops, reduced_fill ops s⟩, reduced_fill ops z⟩
  | ret value =>
    cases value with
    | none => exact List.forall_mem_nil _
    | some e => exact e.reduced_fill ops

theorem reduced_fillList (ops : Operands) (p : List Stmt) :
    ∀ x ∈ exprsList (fillList ops p), x.isReduced := by
  cases p with
  | nil => exact List.forall_mem_nil _
  | cons s ss =>
    simp only [fillList, exprsList, List.forall_mem_append]
    exact ⟨reduced_fill ops s, reduced_fillList ops ss⟩

end

mutual

/-- Filling does nothing to a statement whose expressions are all reduced. -/
theorem fill_of_reduced (ops : Operands) (s : Stmt) (h : ∀ x ∈ s.exprs, x.isReduced) :
    s.fill ops = s := by
  cases s with
  | effect e => rw [fill, e.fill_of_reduced ops h]
  | assign op t e =>
    simp only [exprs, List.forall_mem_append] at h
    rw [fill, t.fill_of_reduced ops h.1, e.fill_of_reduced ops h.2]
  | declare name e => rw [fill, e.fill_of_reduced ops h]
  | block body => rw [fill, fillList_of_reduced ops body h]
  | ifThen t s =>
    simp only [exprs, List.forall_mem_append] at h
    rw [fill, t.fill_of_reduced ops h.1, fill_of_reduced ops s h.2]
  | ifElse t s z =>
    simp only [exprs, List.forall_mem_append] at h
    rw [fill, t.fill_of_reduced ops h.1.1, fill_of_reduced ops s h.1.2, fill_of_reduced ops z h.2]
  | ret value =>
    cases value with
    | none => rfl
    | some e => rw [fill, Option.map_some, e.fill_of_reduced ops h]

theorem fillList_of_reduced (ops : Operands) (p : List Stmt)
    (h : ∀ x ∈ exprsList p, x.isReduced) : fillList ops p = p := by
  cases p with
  | nil => rfl
  | cons s ss =>
    simp only [exprsList, List.forall_mem_append] at h
    rw [fillList, fill_of_reduced ops s h.1, fillList_of_reduced ops ss h.2]

end

mutual

theorem mapLiterals_mapLiterals (f g : Literal → Literal) (s : Stmt) :
    (s.mapLiterals f).mapLiterals g = s.mapLiterals (g ∘ f) := by
  cases s with
  | effect e => simp only [mapLiterals, e.mapLiterals_mapLiterals f g]
  | assign op t e =>
    simp only [mapLiterals, t.mapLiterals_mapLiterals f g, e.mapLiterals_mapLiterals f g]
  | declare name e => simp only [mapLiterals, e.mapLiterals_mapLiterals f g]
  | block body => simp only [mapLiterals, mapLiteralsList_mapLiteralsList f g body]
  | ifThen t s =>
    simp only [mapLiterals, t.mapLiterals_mapLiterals f g, mapLiterals_mapLiterals f g s]
  | ifElse t s z =>
    simp only [mapLiterals, t.mapLiterals_mapLiterals f g, mapLiterals_mapLiterals f g s,
      mapLiterals_mapLiterals f g z]
  | ret value =>
    cases value with
    | none => rfl
    | some e => simp only [mapLiterals, Option.map_some, e.mapLiterals_mapLiterals f g]

theorem mapLiteralsList_mapLiteralsList (f g : Literal → Literal) (p : List Stmt) :
    mapLiteralsList g (mapLiteralsList f p) = mapLiteralsList (g ∘ f) p := by
  cases p with
  | nil => rfl
  | cons s ss =>
    simp only [mapLiteralsList, mapLiterals_mapLiterals f g s,
      mapLiteralsList_mapLiteralsList f g ss]

end

end Stmt

namespace Program

/-- At no depth is there a hole, or a right shift or a mask of two numbers. -/
structure Reduced (p : Program) : Prop where
  filled : ∀ h, Expr.hole h ∉ p.exprs
  folded : ∀ op x note y note', op = .shr ∨ op = .and →
    Expr.binary op (.literal ⟨.num x, note⟩) (.literal ⟨.num y, note'⟩) ∉ p.exprs

variable {p : Program}

theorem reduced_iff : p.Reduced ↔ ∀ e ∈ p.exprs, e.isReduced := by
  have node (e : Expr) : e.isReduced ↔ e.hole? = none ∧ ¬ e.isFoldable := by
    simp [Expr.isReduced]
  simp only [node]
  constructor
  · intro h e he
    constructor
    · cases e with
      | hole a => exact absurd he (h.filled a)
      | _ => rfl
    · intro foldable
      obtain ⟨op, x, note, y, note', named, rfl⟩ := Expr.isFoldable_iff.mp foldable
      exact h.folded op x note y note' named he
  · intro h
    constructor
    · exact fun a ha => Option.some_ne_none a (h _ ha).1
    · exact fun op x note y note' named he =>
        (h _ he).2 (Expr.isFoldable_iff.mpr ⟨op, x, note, y, note', named, rfl⟩)

theorem reduced_fill (p : Program) (ops : Operands) : (p.fill ops).Reduced := by
  rw [reduced_iff, fill, ← Stmt.fillList_eq_map, exprs, ← Stmt.exprsList_eq_flatMap]
  exact Stmt.reduced_fillList ops p

theorem Reduced.fill_eq (h : p.Reduced) (ops : Operands) : p.fill ops = p := by
  rw [reduced_iff, exprs, ← Stmt.exprsList_eq_flatMap] at h
  rw [fill, ← Stmt.fillList_eq_map]
  exact Stmt.fillList_of_reduced ops p h

theorem Reduced.annotate (h : p.Reduced) : p.annotate.Reduced := by
  rw [reduced_iff] at h ⊢
  rw [Program.annotate, exprs_mapLiterals]
  intro e he
  obtain ⟨e', he', rfl⟩ := List.mem_map.mp he
  rw [Expr.isReduced_mapLiterals Literal.constant_annotate]
  exact h e' he'

theorem annotate_annotate (p : Program) : p.annotate.annotate = p.annotate := by
  have again : Literal.annotate ∘ Literal.annotate = Literal.annotate :=
    funext Literal.annotate_annotate
  simp only [annotate, mapLiterals, ← Stmt.mapLiteralsList_eq_map,
    Stmt.mapLiteralsList_mapLiteralsList, again]

end Program

/-- Filling a skeleton leaves no hole and nothing to fold at any depth, keeps the number of
statements and the calls in their order, and is final: filling the result, with whatever operands,
gives it back. -/
theorem Template.instantiate_pending_reduced (skeleton : Program) (annotate : Bool)
    (ops : Operands) :
    let filled := (Template.pending skeleton annotate).instantiate ops
    filled.Reduced ∧ filled.length = skeleton.length ∧ filled.calls = skeleton.calls ∧
      ∀ ops', filled.fill ops' = filled ∧
        (Template.pending filled annotate).instantiate ops' = filled := by
  have reduced := skeleton.reduced_fill ops
  have length : (skeleton.fill ops).length = skeleton.length := List.length_map _
  cases annotate with
  | false =>
    refine ⟨reduced, length, skeleton.calls_fill ops, fun ops' => ?_⟩
    exact ⟨reduced.fill_eq ops', reduced.fill_eq ops'⟩
  | true =>
    have unchanged (ops' : Operands) : (skeleton.fill ops).annotate.fill ops' =
        (skeleton.fill ops).annotate := reduced.annotate.fill_eq ops'
    refine ⟨reduced.annotate, (List.length_map _).trans length, ?_, fun ops' => ?_⟩
    · exact (skeleton.fill ops).calls_annotate.trans (skeleton.calls_fill ops)
    · refine ⟨unchanged ops', ?_⟩
      simp only [Template.instantiate, if_true, unchanged, Program.annotate_annotate]

end Z80Effects
