import Z80Effects.Proofs.AssignedVariables
import Z80Effects.Proofs.BlockRepetition

/-!
# How instructions end

A program without an early end runs to its last statement; one with an early end at the top level
never does. Between the two are the conditional branches, whose tests are evaluated here, and the
repeating block instructions. Together this tells of every instruction when it ends early.
-/
namespace Z80Effects

open Effect

namespace Stmt

mutual

def mayReturn : Stmt → Bool
  | effect _ | assign .. | declare .. => false
  | block body => mayReturnList body
  | ifThen _ yes => yes.mayReturn
  | ifElse _ yes no => yes.mayReturn || no.mayReturn
  | ret _ => true

def mayReturnList : List Stmt → Bool
  | [] => false
  | s :: ss => s.mayReturn || mayReturnList ss

end

variable {holes : Hole → Value}

mutual

/-- Without an early end, a statement runs to its end. -/
theorem outcome_continued (s : Stmt) (h : s.mayReturn = false) (m : Machine) :
    (s.outcome holes m).1 = .continued := by
  cases s with
  | effect e => rfl
  | assign op target value => rfl
  | declare name value => rfl
  | block body =>
    simp only [mayReturn] at h
    simp only [outcome]
    exact outcomeList_continued body h m
  | ifThen test yes =>
    simp only [mayReturn] at h
    simp only [outcome]
    split
    · exact outcome_continued yes h _
    · rfl
  | ifElse test yes no =>
    simp only [mayReturn, Bool.or_eq_false_iff] at h
    simp only [outcome]
    split
    · exact outcome_continued yes h.1 _
    · exact outcome_continued no h.2 _
  | ret value => cases h

theorem outcomeList_continued (p : List Stmt) (h : mayReturnList p = false) (m : Machine) :
    (outcomeList holes p m).1 = .continued := by
  cases p with
  | nil => rfl
  | cons s ss =>
    simp only [mayReturnList, Bool.or_eq_false_iff] at h
    simp only [outcomeList]
    rw [Flow.andThen_of_continued (outcome_continued s h.1 m)]
    exact outcomeList_continued ss h.2 _

end

/-- With an early end among its statements, a program ends early. -/
theorem outcomeList_returned {p : List Stmt} (h : done ∈ p) (m : Machine) :
    (outcomeList holes p m).1 = .returned := by
  induction p generalizing m with
  | nil => cases h
  | cons s ss ih =>
    simp only [outcomeList]
    cases hs : s.outcome holes m with
    | mk flow m' =>
      cases flow with
      | returned => rfl
      | continued =>
        rcases List.mem_cons.mp h with rfl | rest
        · rw [outcome_done] at hs
          cases hs
        · exact ih rest m'

end Stmt

section
variable (holes : Hole → Value) (m : Machine)

/-- The counter of a counting jump steps first and then decides. -/
theorem outcome_decrementAndJump : Stmt.outcomeList holes decrementAndJump m =
    let stepped := m.setReg .b (.ofByte (m.reg .b - 1).toByte)
    if (m.reg .b - 1).toByte != 0 then Stmt.outcomeList holes relativeJump stepped
    else (.continued, stepped) := by
  have step : (Stmt.set (.register .b) ((.register .b - 1) &&& 0xFF)).outcome holes m =
      (.continued, m.setReg .b (.ofByte (m.reg .b - 1).toByte)) := by
    simp only [Stmt.set, Stmt.outcome_assign_register, Expr.outcome_and, Expr.outcome_sub,
      Expr.outcome_register, Expr.outcome_ofNat, AssignOp.apply, Value.and_byteMask]
    rfl
  have test : ((Expr.register .b).differs 0).outcome holes
      (m.setReg .b (.ofByte (m.reg .b - 1).toByte)) = (.ofBool ((m.reg .b - 1).toByte != 0),
        m.setReg .b (.ofByte (m.reg .b - 1).toByte)) := by
    simp only [Expr.outcome_differs, Expr.outcome_register, Expr.outcome_ofNat,
      Machine.reg_setReg_self, Value.ofByte_bne_zero]
  rw [decrementAndJump, Stmt.outcomeList_cons, step, Flow.andThen_continued]
  exact Stmt.outcomeList_whenever holes test relativeJump

theorem returned_djnz : (Stmt.outcomeList holes decrementAndJump m).1 = .returned ↔
    (m.reg .b - 1).toNat % 256 ≠ 0 := by
  have next : (m.reg .b - 1).toByte ≠ 0 ↔ (m.reg .b - 1).toNat % 256 ≠ 0 := by
    bv_omega
  rw [outcome_decrementAndJump, ← next, ← bne_iff_ne]
  cases (m.reg .b - 1).toByte != 0 with
  | false => simp
  | true => simp [Stmt.outcomeList_returned (p := relativeJump) (by simp [relativeJump])]

end

section
variable (ops : Operands) (m : Machine)

theorem returned_otir : (otir.outcome ops m).1 = .returned ↔ (m.reg .b - 1).toNat % 256 ≠ 0 := by
  have next : (m.reg .b).toByte - 1 ≠ 0 ↔ (m.reg .b - 1).toNat % 256 ≠ 0 := by
    bv_omega
  rw [← next, ← bne_iff_ne, ← BlockForm.goesOn_outputByte]
  exact BlockForm.output.returned_repeatingProgram ops m

theorem returned_transfer (d : Direction) :
    (d.program.outcome ops m).1 = .returned ↔ (m.pair .bc - 1).toNat % 65536 ≠ 0 := by
  have next : (m.pair .bc).toWord ≠ 1 ↔ (m.pair .bc - 1).toNat % 65536 ≠ 0 := by
    bv_omega
  rw [← next, ← bne_iff_ne, ← BlockForm.goesOn_transferByte m d]
  exact (BlockForm.move d).returned_repeatingProgram ops m

theorem returned_cpir : (cpir.outcome ops m).1 = .returned ↔
    (m.pair .bc - 1).toNat % 65536 ≠ 0 ∧
      m.accumulator ≠ m.memory.get (m.pair .hl).toWord := by
  have next : (m.pair .bc).toWord ≠ 1 ↔ (m.pair .bc - 1).toNat % 65536 ≠ 0 := by
    bv_omega
  rw [← next, ← bne_iff_ne, ← bne_iff_ne, ← Bool.and_eq_true, ← BlockForm.goesOn_examineByte]
  exact BlockForm.search.returned_repeatingProgram ops m

end

namespace Instruction

def condition? : Instruction → Option Condition
  | jumpRelative k | jump k | call k | ret k => k
  | _ => none

/-- The instruction can go on somewhere else than at the next one, by an early end. -/
def isBranch : Instruction → Bool
  | jumpRelative _ | djnz | jump _ | jumpTo _ | call _ | restart _ | ret _ | halt => true
  | _ => false

theorem branch_of_contains_pc (i : Instruction) (h : i.controlVariables.contains "pc" = true) :
    i = retInterrupt ∨ i.isBranch = true := by
  cases i with
  | retInterrupt => exact .inl rfl
  | jumpRelative _ | djnz | jump _ | jumpTo _ | call _ | restart _ | ret _ | halt => exact .inr rfl
  | incWord w | decWord w => cases w <;> cases h
  | _ => cases h

/-- When an instruction ends early: an unconditional branch always, a conditional one if its
condition is met, and a repeating one while its counter, and the byte it looks for, say so. -/
def Returns (m : Machine) : Instruction → Prop
  | jumpRelative none | jump none | jumpTo _ | call none | restart _ | ret none | halt => True
  | jumpRelative (some k) | jump (some k) | call (some k) | ret (some k) => m.Meets k
  | djnz | otir => (m.reg .b - 1).toNat % 256 ≠ 0
  | ldir | lddr => (m.pair .bc - 1).toNat % 65536 ≠ 0
  | cpir => (m.pair .bc - 1).toNat % 65536 ≠ 0 ∧
      m.accumulator ≠ m.memory.get (m.pair .hl).toWord
  | _ => False

end Instruction

namespace EffectForm

variable {policy : Policy} {i : Instruction} {p : Program}

/-- A conditional branch does nothing unless its condition is met, and then ends early. -/
theorem outcome_conditional (h : EffectForm policy i p) {k : Condition} (hk : i.condition? = some k)
    (ops : Operands) (m : Machine) : ∃ body, Stmt.done ∈ body ∧ p.outcome ops m =
      if k.holds m.flags then Stmt.outcomeList ops.resolve body m else (.continued, m) := by
  have test := outcome_holds ops.resolve m k
  cases h with
  | jumpRelativeIf k' _ =>
    cases hk
    exact ⟨_, by simp [relativeJump],
      Stmt.outcomeList_whenever ops.resolve (outcome_holdsRelative ops.resolve m k) _⟩
  | jump k' =>
    cases hk
    exact ⟨_, by simp, Stmt.outcomeList_whenever ops.resolve test _⟩
  | call k' =>
    cases hk
    exact ⟨_, by simp, Stmt.outcomeList_whenever ops.resolve test _⟩
  | ret k' =>
    cases hk
    exact ⟨_, by simp, Stmt.outcomeList_whenever ops.resolve test _⟩
  | _ => cases hk

theorem returned_iff_of_conditional (h : EffectForm policy i p) {k : Condition}
    (hk : i.condition? = some k) (ops : Operands) (m : Machine) :
    (p.outcome ops m).1 = .returned ↔ m.Meets k := by
  obtain ⟨body, ends, outcome⟩ := h.outcome_conditional hk ops m
  rw [outcome, m.meets_iff_holds]
  cases k.holds m.flags with
  | false => simp
  | true => simp [Stmt.outcomeList_returned ends]

/-- An instruction ends early exactly when `Returns` says so. -/
theorem returned_iff (h : EffectForm policy i p) (ops : Operands) (m : Machine) :
    (p.outcome ops m).1 = .returned ↔ i.Returns m := by
  cases hk : i.condition? with
  | some k =>
    rw [h.returned_iff_of_conditional hk ops m]
    cases h with
    | jumpRelativeIf k' _ => cases hk; rfl
    | jump k' | call k' | ret k' => cases hk; rfl
    | _ => cases hk
  | none =>
    have always {p : Program} (ends : Stmt.done ∈ p) : (p.outcome ops m).1 = .returned ↔ True :=
      iff_true_intro (Stmt.outcomeList_returned ends m)
    have never {p : Program} (hp : Stmt.mayReturnList p = false) :
        (p.outcome ops m).1 = .returned ↔ False := by
      rw [Program.outcome, Stmt.outcomeList_continued p hp m]
      simp
    cases h with
    | jumpRelative => exact always (by simp [relativeJump])
    | jump k | call k | ret k =>
      cases k with
      | none => exact always (by simp [Effect.jump, Effect.call, Effect.ret, provided])
      | some k => cases hk
    | jumpTo q _ | restart vector _ => exact always (by simp)
    | halt => exact always (by simp [Effect.halt])
    | djnz => exact returned_djnz ops.resolve m
    | otir => exact returned_otir ops m
    | ldir => exact returned_transfer ops m .up
    | lddr => exact returned_transfer ops m .down
    | cpir => exact returned_cpir ops m
    | accumulateLogical op src operand hs hf =>
      cases hs with
      | register reg _ => cases op <;> cases hf <;> cases reg <;> exact never rfl
      | _ => cases op <;> cases hf <;> exact never rfl
    | bitRegister op n hn reg | bitMemory op n hn | bitIndexed op n hn x =>
      cases op <;> exact never rfl
    | input dst port => cases port <;> exact never rfl
    | loadFromR =>
      obtain ⟨_, refresh, _⟩ := policy
      cases refresh <;> exact never rfl
    | jumpRelativeIf k _ => cases hk
    | _ => exact never rfl

/-- A conditional branch that does not end early has done nothing. -/
theorem outcome_of_untaken (h : EffectForm policy i p) (hk : i.condition?.isSome) {ops : Operands}
    {m : Machine} (hf : (p.outcome ops m).1 = .continued) : (p.outcome ops m).2 = m := by
  obtain ⟨k, hk⟩ := Option.isSome_iff_exists.mp hk
  obtain ⟨body, ends, outcome⟩ := h.outcome_conditional hk ops m
  rw [outcome] at hf ⊢
  cases met : k.holds m.flags with
  | false => rfl
  | true =>
    rw [met, if_pos rfl, Stmt.outcomeList_returned ends] at hf
    cases hf

/-- A branch that is not taken leaves `pc` alone. -/
theorem get_pc_of_untaken (h : EffectForm policy i p) (branch : i.isBranch = true) {ops : Operands}
    {m : Machine} (hf : (p.outcome ops m).1 = .continued) :
    (p.outcome ops m).2.get "pc" = m.get "pc" := by
  cases hk : i.condition?.isSome with
  | true => rw [h.outcome_of_untaken hk hf]
  | false =>
    have untaken : ¬ i.Returns m := by
      rw [← h.returned_iff ops m, hf]
      exact Flow.noConfusion
    cases h with
    | djnz =>
      have last : ¬ (m.reg .b - 1).toNat % 256 ≠ 0 := untaken
      have exhausted : ((m.reg .b - 1).toByte != 0) = false := by
        rw [bne_eq_false_iff_eq]
        bv_omega
      simp only [Program.outcome, outcome_decrementAndJump, exhausted]
      exact m.get_set_of_ne _ (by decide)
    | jumpRelative | jumpTo q _ | restart vector _ | halt => exact absurd trivial untaken
    | jump k | call k | ret k =>
      cases k with
      | none => exact absurd trivial untaken
      | some k => cases hk
    | jumpRelativeIf k _ => cases hk
    | _ => cases branch

/-- Only branches that are taken and returns from an interrupt change `pc`. -/
theorem taken_of_get_pc_ne (h : EffectForm policy i p) {ops : Operands} {m : Machine}
    (changed : (p.outcome ops m).2.get "pc" ≠ m.get "pc") :
    i = .retInterrupt ∨ i.isBranch = true ∧ (p.outcome ops m).1 = .returned := by
  cases controlled : i.controlVariables.contains "pc" with
  | false =>
    have unassigned : "pc" ∉ i.controlVariables := by
      rw [← List.contains_iff_mem, controlled]
      exact Bool.false_ne_true
    exact absurd (h.get_outcome_of_not_mem (by decide) unassigned ops m) changed
  | true =>
    refine (i.branch_of_contains_pc controlled).imp_right fun branch => ⟨branch, ?_⟩
    cases flow : (p.outcome ops m).1 with
    | returned => rfl
    | continued => exact absurd (h.get_pc_of_untaken branch flow) changed

end EffectForm

/-- How each accepted instruction ends. Branches on a condition decide alike, on its flag, and do
nothing at all when it is not met; only branches that are taken and returns from an interrupt change
`pc`. -/
theorem Step.run_returned_iff (s : Step) (m : Machine) :
    ∃ flow m', s.program.run m = .ok flow m' ∧
      (flow = .returned ↔ s.instruction.Returns m) ∧
      (s.instruction.condition?.isSome → flow = .continued → m' = m) ∧
      (m'.get "pc" ≠ m.get "pc" →
        s.instruction = .retInterrupt ∨ s.instruction.isBranch ∧ flow = .returned) ∧
      ∀ k : Condition, m.Meets k.opposite ↔ ¬ m.Meets k := by
  obtain ⟨skeleton, form, run⟩ := s.exists_outcome
  exact ⟨_, _, run m, form.returned_iff s.operands m, fun hk hf => form.outcome_of_untaken hk hf,
    fun changed => form.taken_of_get_pc_ne changed, m.meets_opposite_iff⟩

end Z80Effects
