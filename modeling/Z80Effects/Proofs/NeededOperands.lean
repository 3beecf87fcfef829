import Z80Effects.Effect.Instruction

/-!
# The operands that a template needs

A template needs an operand if one of its holes is for it. Filling looks at operands through holes
only, at whatever depth these stand, so that operands which agree on what a template needs fill it
alike, notes included. A template that needs nothing has no holes, and is ready.
-/
namespace Z80Effects

/-- Two sets of operands have the same operand for an expression that is a hole. -/
def Operands.AgreeAt (ops ops' : Operands) (e : Expr) : Prop :=
  ∀ a ∈ e.hole?, ops.get a.slot = ops'.get a.slot

variable {ops ops' : Operands}

theorem Operands.AgreeAt.resolve {a : Hole} (h : ops.AgreeAt ops' (.hole a)) :
    ops.resolve a = ops'.resolve a := by
  have same : ops.get a.slot = ops'.get a.slot := h a rfl
  rw [Operands.resolve, Operands.resolve, same]

namespace Expr

mutual

theorem fill_congr (e : Expr) (h : ∀ x ∈ e.subexprs, ops.AgreeAt ops' x) :
    e.fill ops = e.fill ops' := by
  cases e with
  | literal l => rfl
  | var name => rfl
  | register reg => rfl
  | hole a =>
    have agree : ops.AgreeAt ops' (.hole a) := h _ (mem_subexprs_self _)
    rw [fill, fill, agree.resolve]
  | binary op l r =>
    simp only [subexprs, List.forall_mem_cons, List.forall_mem_append] at h
    rw [fill, fill, fill_congr l h.2.1, fill_congr r h.2.2]
  | unary op e =>
    simp only [subexprs, List.forall_mem_cons] at h
    rw [fill, fill, fill_congr e h.2]
  | logical op l r =>
    simp only [subexprs, List.forall_mem_cons, List.forall_mem_append] at h
    rw [fill, fill, fill_congr l h.2.1, fill_congr r h.2.2]
  | conditional t y n =>
    simp only [subexprs, List.forall_mem_cons, List.forall_mem_append] at h
    rw [fill, fill, fill_congr t h.2.1.1, fill_congr y h.2.1.2, fill_congr n h.2.2]
  | index t k =>
    simp only [subexprs, List.forall_mem_cons, List.forall_mem_append] at h
    rw [fill, fill, fill_congr t h.2.1, fill_congr k h.2.2]
  | call name args =>
    simp only [subexprs, List.forall_mem_cons] at h
    rw [fill, fill, fillList_congr args h.2]

theorem fillList_congr (es : List Expr) (h : ∀ x ∈ subexprsList es, ops.AgreeAt ops' x) :
    fillList ops es = fillList ops' es := by
  cases es with
  | nil => rfl
  | cons e es =>
    simp only [subexprsList, List.forall_mem_append] at h
    rw [fillList, fillList, fill_congr e h.1, fillList_congr es h.2]

end

end Expr

namespace Stmt

mutual

/-- Operands that agree on the holes of a statement, in whatever place, fill it alike. -/
theorem fill_congr (s : Stmt) (h : ∀ x ∈ s.exprs, ops.AgreeAt ops' x) :
    s.fill ops = s.fill ops' := by
  cases s with
  | effect e => rw [fill, fill, e.fill_congr h]
  | assign op t e =>
    simp only [exprs, List.forall_mem_append] at h
    rw [fill, fill, t.fill_congr h.1, e.fill_congr h.2]
  | declare name e => rw [fill, fill, e.fill_congr h]
  | block body => rw [fill, fill, fillList_congr body h]
  | ifThen t s =>
    simp only [exprs, List.forall_mem_append] at h
    rw [fill, fill, t.fill_congr h.1, fill_congr s h.2]
  | ifElse t s z =>
    simp only [exprs, List.forall_mem_append] at h
    rw [fill, fill, t.fill_congr h.1.1, fill_congr s h.1.2, fill_congr z h.2]
  | ret value =>
    cases value with
    | none => rfl
    | some e => rw [fill, fill, Option.map_some, Option.map_some, e.fill_congr h]

theorem fillList_congr (p : List Stmt) (h : ∀ x ∈ exprsList p, ops.AgreeAt ops' x) :
    fillList ops p = fillList ops' p := by
  cases p with
  | nil => rfl
  | cons s ss =>
    simp only [exprsList, List.forall_mem_append] at h
    rw [fillList, fillList, fill_congr s h.1, fillList_congr ss h.2]

end

end Stmt

namespace Program

variable {p : Program} {slot : Slot}

theorem needs_iff : p.needs slot ↔ ∃ a ∈ p.holes, a.slot = slot := by
  simp [needs]

/-- A program without holes needs no operand, and only such a program does. -/
theorem holes_eq_nil_iff : p.holes = [] ↔ ∀ slot, p.needs slot = false := by
  simp only [← Bool.not_eq_true, needs_iff, List.eq_nil_iff_forall_not_mem]
  constructor
  · rintro none slot ⟨a, ha, -⟩
    exact none a ha
  · intro unneeded a ha
    exact unneeded a.slot ⟨a, ha, rfl⟩

/-- Operands that agree on those that a program needs fill it alike. -/
theorem fill_congr (h : ∀ slot, p.needs slot → ops.get slot = ops'.get slot) :
    p.fill ops = p.fill ops' := by
  rw [fill, fill, ← Stmt.fillList_eq_map, ← Stmt.fillList_eq_map]
  refine Stmt.fillList_congr p fun x hx a ha => ?_
  rw [Stmt.exprsList_eq_flatMap] at hx
  have hole : a ∈ p.holes := List.mem_filterMap.mpr ⟨x, hx, ha⟩
  exact h a.slot (needs_iff.mpr ⟨a, hole, rfl⟩)

end Program

/-- What a template needs is what it depends on. The template of a program is ready exactly if the
program needs no operand, and templates give the same program for all operands that agree on those
that they need. -/
theorem Template.instantiate_eq_of_needs :
    (∀ (annotate : Bool) (p : Program), (ofProgram annotate p).isReady ↔
      ∀ slot, (pending p annotate).needs slot = false) ∧
    ∀ (t : Template) (ops ops' : Operands),
      (∀ slot, t.needs slot → ops.get slot = ops'.get slot) →
        t.instantiate ops = t.instantiate ops' := by
  constructor
  · intro annotate p
    have unneeded : p.holes = [] ↔ ∀ slot, (pending p annotate).needs slot = false :=
      Program.holes_eq_nil_iff
    rw [← unneeded, ← List.isEmpty_iff, ofProgram]
    split
    · next empty => simp [isReady, empty]
    · next filled => simp [isReady, filled]
  · intro t ops ops' agree
    cases t with
    | ready p => rfl
    | pending skeleton annotate =>
      have same : skeleton.fill ops = skeleton.fill ops' := Program.fill_congr agree
      rw [instantiate, instantiate, same]

/-- A call needs its target and the address after it, but no immediate operand. -/
theorem Template.instantiate_eq_of_needs_call :
    let t := ofProgram true (Effect.call none)
    t.isReady = false ∧ Slot.all.filter t.needs = [.target, .nextAddress] ∧
      t.instantiate { value := 7, target := 0x8000, nextAddress := 0x103 } =
        t.instantiate { target := 0x8000, nextAddress := 0x103 } := by
  refine ⟨rfl, rfl, instantiate_eq_of_needs.2 _ _ _ fun slot needed => ?_⟩
  cases slot with
  | value => cases needed
  | target => rfl
  | nextAddress => rfl

end Z80Effects
