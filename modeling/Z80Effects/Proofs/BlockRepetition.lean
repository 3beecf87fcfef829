import Mathlib.Logic.Function.Iterate
import Z80Effects.Proofs.BlockOutput
import Z80Effects.Proofs.BlockSearch
import Z80Effects.Proofs.ByteOperands

/-!
# Single and repeating block instructions

A repeating block instruction does the step of its single form, and then ends early at a cost of
five T-states unless the block is exhausted. No step takes notice of the T-states. So the runs of
both forms go side by side and differ in T-states only, and what the runs of a repeating form have
made of a machine is a power of the step.
-/
namespace Z80Effects

open Effect

/-- The block instructions that have a single and a repeating form. -/
inductive BlockForm
  | move (d : Direction)
  | search
  | output

namespace Machine

variable (m : Machine)

def spend (t : Value) : Machine := m.set "tstates" (m.get "tstates" - t)

theorem spend_zero : m.spend 0 = m := by
  have none : m.get "tstates" - 0 = m.get "tstates" := BitVec.sub_zero _
  rw [spend, none, set_get_self]

theorem spend_spend (t u : Value) : (m.spend t).spend u = m.spend (t + u) := by
  rw [spend, spend, spend, get_set_self, set_set_self, BitVec.sub_sub]

theorem get_spend_self (t : Value) : (m.spend t).get "tstates" = m.get "tstates" - t :=
  m.get_set_self _ _

theorem get_spend_of_ne {name : String} (t : Value) (h : ¬ "tstates" = name) :
    (m.spend t).get name = m.get name := m.get_set_of_ne _ h

private theorem tstates_ne_name (reg : Register) : ¬ "tstates" = reg.name :=
  Register.ne_name (by decide) reg

theorem reg_spend (reg : Register) (t : Value) : (m.spend t).reg reg = m.reg reg :=
  m.get_spend_of_ne t (tstates_ne_name reg)

theorem pair_spend (p : RegisterPair) (t : Value) : (m.spend t).pair p = m.pair p := by
  simp only [pair, reg_spend]

theorem flags_spend (t : Value) : (m.spend t).flags = m.flags := by
  simp only [flags, reg_spend]

theorem spend_setFlags (f : Flags) (t : Value) :
    (m.setFlags f).spend t = (m.spend t).setFlags f := by
  have apart : ¬ Register.f.name = "tstates" := by decide
  rw [spend, m.get_setFlags_of_ne f apart, m.set_setFlags f _ apart, spend]

private theorem set_set_tstates {name : String} (v w : Value) (h : ¬ "tstates" = name) :
    (m.set "tstates" v).set name w = (m.set name w).set "tstates" v :=
  m.set_comm h v w

private theorem setPair_set_tstates (p : RegisterPair) (v w : Value) :
    (m.set "tstates" v).setPair p w = (m.setPair p w).set "tstates" v :=
  m.setPair_set_of_ne v w (tstates_ne_name _) (tstates_ne_name _)

private theorem reg_set_tstates (reg : Register) (v : Value) :
    (m.set "tstates" v).reg reg = m.reg reg :=
  m.reg_set_of_ne v (tstates_ne_name reg)

private theorem pair_set_tstates (p : RegisterPair) (v : Value) :
    (m.set "tstates" v).pair p = m.pair p :=
  m.pair_set_of_ne v (tstates_ne_name _) (tstates_ne_name _)

theorem transferByte_set_tstates (d : Direction) (v : Value) :
    (m.set "tstates" v).transferByte d = (m.transferByte d).set "tstates" v := by
  simp (disch := decide) only [transferByte, moveByte, transferSum, accumulator, flags, setReg,
    memory_set, read_set, write_set, pair_set_tstates, reg_set_tstates, set_set_tstates,
    setPair_set_tstates]

theorem examineByte_set_tstates (v : Value) :
    (m.set "tstates" v).examineByte = m.examineByte.set "tstates" v := by
  simp (disch := decide) only [examineByte, searchByte, compareByte, searchFlags, flagsOfSearch,
    accumulator, flags, setFlags, setAccumulator, setReg, memory_set, read_set, pair_set_tstates,
    reg_set_tstates, set_set_tstates, setPair_set_tstates]

theorem outputByte_set_tstates (v : Value) :
    (m.set "tstates" v).outputByte = m.outputByte.set "tstates" v := by
  simp (disch := decide) only [outputByte, stepOutput, sendByte, byteAtHl, setFlags, setReg,
    memory_set, read_set, putOut_set, pair_set_tstates, reg_set_tstates, set_set_tstates,
    setPair_set_tstates]

end Machine

namespace BlockForm

def single : BlockForm → Instruction
  | move .up => .ldi
  | move .down => .ldd
  | search => .cpi
  | output => .outi

def repeating : BlockForm → Instruction
  | move d => d.instruction
  | search => .cpir
  | output => .otir

/-- What one run does, apart from the T-states of a repetition. -/
def step : BlockForm → Machine → Machine
  | move d => Machine.transferByte d
  | search => Machine.examineByte
  | output => Machine.outputByte

/-- Whether there is more to do after a step: the counter has not run out, and a search has not
found its byte. -/
def goesOn : BlockForm → Machine → Bool
  | move _, m => m.pair .bc != 0
  | search, m => m.pair .bc != 0 && !m.flags.zero
  | output, m => m.reg .b != 0

variable (form : BlockForm) (m : Machine)

theorem step_set_tstates (v : Value) :
    form.step (m.set "tstates" v) = (form.step m).set "tstates" v := by
  cases form with
  | move d => exact m.transferByte_set_tstates d v
  | search => exact m.examineByte_set_tstates v
  | output => exact m.outputByte_set_tstates v

theorem tstates_step : (form.step m).get "tstates" = m.get "tstates" := by
  -- the T-states set to what they are make the same machine before the step, hence after it
  have same := form.step_set_tstates m (m.get "tstates")
  rw [m.set_get_self] at same
  rw [same, Machine.get_set_self]

theorem step_spend (t : Value) : form.step (m.spend t) = (form.step m).spend t := by
  rw [Machine.spend, step_set_tstates, Machine.spend, tstates_step]

theorem iterate_step_spend (n : Nat) (t : Value) :
    form.step^[n] (m.spend t) = (form.step^[n] m).spend t :=
  (Function.Commute.iterate_left (g := (·.spend t)) (fun m => form.step_spend m t) n) m

theorem goesOn_spend (t : Value) : form.goesOn (m.spend t) = form.goesOn m := by
  cases form with
  | move d => rw [goesOn, m.pair_spend, goesOn]
  | search => rw [goesOn, m.pair_spend, m.flags_spend, goesOn]
  | output => rw [goesOn, m.reg_spend, goesOn]

/-- How one run of the repeating form ends, and the machine after it. -/
def repeatStep : Flow × Machine :=
  if form.goesOn (form.step m) then (.returned, (form.step m).spend 5)
  else (.continued, form.step m)

end BlockForm

section
variable (holes : Hole → Value) (m : Machine)

theorem outcome_spend : (Effect.spend 5).outcome holes m = (.continued, m.spend 5) := by
  rw [Effect.spend, tstates, Stmt.outcome_assign_var, Expr.outcome_ofNat]
  rfl

/-- A program that ends early at the cost of a repetition if a test holds at its end. -/
theorem outcome_append_repeatWhile {p : Program} {m' : Machine} {test : Expr} {b : Bool}
    (hp : Stmt.outcomeList holes p m = (.continued, m'))
    (ht : test.outcome holes m' = (.ofBool b, m')) :
    Stmt.outcomeList holes (p ++ [repeatWhile test]) m =
      if b then (.returned, m'.spend 5) else (.continued, m') := by
  rw [Stmt.outcomeList_append, hp, Flow.andThen_continued, repeatWhile,
    Stmt.outcomeList_whenever holes ht, Stmt.outcomeList_cons, outcome_spend,
    Flow.andThen_continued, Stmt.outcomeList_cons, Stmt.outcome_done, Flow.andThen_returned]

end

namespace BlockForm

def singleProgram : BlockForm → Program
  | move d => transfer d.stepDe d.stepHl
  | search => cpi
  | output => outi

def repeatingProgram : BlockForm → Program
  | move d => d.program
  | search => cpir
  | output => otir

variable (form : BlockForm) (ops : Operands) (m : Machine)

theorem outcome_singleProgram :
    form.singleProgram.outcome ops m = (.continued, form.step m) := by
  cases form with
  | move d => exact outcome_transfer ops.resolve m d
  | search => exact outcome_cpi ops.resolve m
  | output => exact outcome_outi ops.resolve m

theorem goesOn_transferByte (d : Direction) :
    (move d).goesOn (m.transferByte d) = ((m.pair .bc).toWord != 1) := by
  rw [goesOn, (m.counter_transferByte d).pair_eq, Bool.eq_iff_iff, bne_iff_ne, bne_iff_ne]
  bv_omega

private theorem outcome_move (d : Direction) :
    d.program.outcome ops m = (move d).repeatStep m := by
  rw [d.outcome_program, repeatStep, step, goesOn_transferByte, Machine.spend,
    m.get_transferByte_of_not_mem d (by decide)]
  by_cases last : (m.pair .bc).toWord = 1
  · rw [if_pos last, if_neg (by simpa using last)]
  · rw [if_neg last, if_pos (bne_iff_ne.mpr last)]

theorem goesOn_examineByte : search.goesOn m.examineByte =
    ((m.pair .bc).toWord != 1 && m.accumulator != m.memory.get (m.pair .hl).toWord) := by
  have counter : (m.examineByte.pair .bc != 0#32) = ((m.pair .bc).toWord != 1) := by
    rw [m.counter_examineByte.pair_eq, Value.ofWord_bne_zero, Bool.eq_iff_iff, bne_iff_ne,
      bne_iff_ne]
    bv_omega
  have zero : m.examineByte.flags.zero =
      (m.accumulator == m.memory.get (m.pair .hl).toWord) := by
    rw [m.flags_examineByte]
    exact Byte.zero_compare _ _
  rw [goesOn, zero]
  exact congrArg (· && _) counter

/-- The search decides before the flags are joined, and joins them on both ways out. -/
private theorem outcome_search : cpir.outcome ops m = search.repeatStep m := by
  have again : Stmt.outcomeList ops.resolve [Effect.spend 5, mergeSearchFlags, .done]
      m.searchByte = (.returned, m.examineByte.spend 5) := by
    have merge := outcome_mergeSearchFlags ops.resolve m (m.searchByte.reg_spend .f 5)
      (m.searchByte.get_spend_of_ne 5 (by decide))
    rw [Stmt.outcomeList_cons, outcome_spend, Flow.andThen_continued, Stmt.outcomeList_cons, merge,
      Flow.andThen_continued, Stmt.outcomeList_cons, Stmt.outcome_done, Flow.andThen_returned,
      ← Machine.spend_setFlags, Machine.examineByte]
  have last : Stmt.outcomeList ops.resolve [mergeSearchFlags] m.searchByte =
      (.continued, m.examineByte) := by
    rw [Stmt.outcomeList_cons, outcome_mergeSearchFlags _ m rfl rfl, Flow.andThen_continued,
      Stmt.outcomeList_nil, Machine.examineByte]
  rw [cpir, Program.outcome, Stmt.outcomeList_append, outcome_searchStep, Flow.andThen_continued,
    Stmt.outcomeList_cons, Stmt.outcome_whenever_ofBool _ (outcome_searchGoesOn ops.resolve m),
    again, ← goesOn_examineByte, repeatStep, step]
  split
  · exact Flow.andThen_returned _ _
  · rw [Flow.andThen_continued, last]

theorem goesOn_outputByte :
    output.goesOn m.outputByte = ((m.reg .b).toByte - 1 != 0) := by
  rw [goesOn, m.counter_outputByte]
  exact Value.ofByte_bne_zero _

private theorem outcome_output : otir.outcome ops m = output.repeatStep m := by
  have test : ((Expr.register .b).differs 0).outcome ops.resolve m.outputByte =
      (.ofBool (output.goesOn m.outputByte), m.outputByte) := by
    rw [Expr.outcome_differs, Expr.outcome_register]
    rfl
  exact outcome_append_repeatWhile _ _ (outcome_otirStep ops.resolve m) test

theorem outcome_repeatingProgram :
    form.repeatingProgram.outcome ops m = form.repeatStep m := by
  cases form with
  | move d => exact outcome_move ops m d
  | search => exact outcome_search ops m
  | output => exact outcome_output ops m

theorem returned_repeatStep :
    (form.repeatStep m).1 = .returned ↔ form.goesOn (form.step m) = true := by
  unfold repeatStep
  split <;> simp [*]

theorem returned_repeatingProgram :
    (form.repeatingProgram.outcome ops m).1 = .returned ↔ form.goesOn (form.step m) = true := by
  rw [outcome_repeatingProgram, returned_repeatStep]

/-- The single form is accepted with any operands and choices, and does one step. -/
theorem exists_single (policy : Policy) : ∃ p, form.single.program policy ops = .ok p ∧
    ∀ m, p.run m = .ok .continued (form.step m) := by
  have effect : form.single.effect policy = .ok form.singleProgram := by
    rcases form with (_ | _) | _ | _ <;> rfl
  obtain ⟨p, hp, run⟩ := Instruction.exists_program_of_effect effect ops
  refine ⟨p, hp, fun m => ?_⟩
  rw [run m, outcome_singleProgram]

theorem exists_repeating (policy : Policy) : ∃ q, form.repeating.program policy ops = .ok q ∧
    ∀ m, q.run m = .ok (form.repeatStep m).1 (form.repeatStep m).2 := by
  have effect : form.repeating.effect policy = .ok form.repeatingProgram := by
    rcases form with (_ | _) | _ | _ <;> rfl
  obtain ⟨q, hq, run⟩ := Instruction.exists_program_of_effect effect ops
  refine ⟨q, hq, fun m => ?_⟩
  rw [run m, outcome_repeatingProgram]

variable {form m}

theorem repeatStep_of_goesOn (h : form.goesOn (form.step m) = true) :
    form.repeatStep m = (.returned, (form.step m).spend 5) := if_pos h

theorem repeatStep_of_exhausted (h : form.goesOn (form.step m) = false) :
    form.repeatStep m = (.continued, form.step m) := by
  rw [repeatStep, h]
  rfl

variable {p q : Program}

theorem runTimes_single (run : ∀ m, p.run m = .ok .continued (form.step m)) (n : Nat)
    (m : Machine) : p.runTimes n m = .ok (List.replicate n .continued) (form.step^[n] m) := by
  induction n generalizing m with
  | zero => rfl
  | succ n ih => exact Program.runTimes_succ (run m) (ih (form.step m))

/-- The cost of a number of repetitions, the first one apart. -/
private theorem cost_succ (n : Nat) :
    (5 : Value) + 5 * BitVec.ofNat 32 n = 5 * BitVec.ofNat 32 (n + 1) := by
  rw [BitVec.ofNat_add, BitVec.mul_add, BitVec.add_comm]
  rfl

/-- Each run that ends early costs five T-states more than the single form. -/
theorem exists_runTimes_repeating
    (run : ∀ m, q.run m = .ok (form.repeatStep m).1 (form.repeatStep m).2) (n : Nat)
    (m : Machine) : ∃ flows, flows.length = n ∧ q.runTimes n m =
      .ok flows ((form.step^[n] m).spend (5 * BitVec.ofNat 32 (flows.count .returned))) := by
  induction n generalizing m with
  | zero =>
    refine ⟨[], rfl, ?_⟩
    rw [List.count_nil, show 5 * BitVec.ofNat 32 0 = (0 : Value) from rfl, Machine.spend_zero]
    rfl
  | succ n ih =>
    have first := run m
    cases more : form.goesOn (form.step m) with
    | true =>
      -- the cost of this run is carried through the others, which take no notice of it
      rw [repeatStep_of_goesOn more] at first
      obtain ⟨flows, length, rest⟩ := ih ((form.step m).spend 5)
      refine ⟨.returned :: flows, by rw [List.length_cons, length], ?_⟩
      rw [Program.runTimes_succ first rest, iterate_step_spend, Machine.spend_spend, cost_succ,
        List.count_cons_self]
      rfl
    | false =>
      rw [repeatStep_of_exhausted more] at first
      obtain ⟨flows, length, rest⟩ := ih (form.step m)
      refine ⟨.continued :: flows, by rw [List.length_cons, length], ?_⟩
      rw [Program.runTimes_succ first rest, List.count_cons_of_ne (by decide)]
      rfl

/-- As long as there is more to do, the repeating form asks to be run again. -/
theorem runRepeatedly_repeating
    (run : ∀ m, q.run m = .ok (form.repeatStep m).1 (form.repeatStep m).2) {n : Nat} {m : Machine}
    (on : ∀ i < n, form.goesOn (form.step^[i + 1] m) = true)
    (exhausted : form.goesOn (form.step^[n + 1] m) = false) (count more : Nat) (hn : n ≤ more) :
    q.runRepeatedly count more m =
      .ok (.continued, count + (n + 1)) ((form.step^[n + 1] m).spend (5 * BitVec.ofNat 32 n)) := by
  induction n generalizing m count more with
  | zero =>
    have last := run m
    rw [repeatStep_of_exhausted exhausted] at last
    rw [Program.runRepeatedly_of_continued last, show 5 * BitVec.ofNat 32 0 = (0 : Value) from rfl,
      Machine.spend_zero]
    rfl
  | succ n ih =>
    have first := run m
    rw [repeatStep_of_goesOn (on 0 (Nat.succ_pos n))] at first
    have shift (i : Nat) : form.step^[i + 1] ((form.step m).spend 5) =
        (form.step^[i + 2] m).spend 5 := by
      rw [iterate_step_spend, ← Function.iterate_succ_apply]
    obtain ⟨more, rfl⟩ := Nat.exists_eq_add_of_le' hn
    have rest := ih (m := (form.step m).spend 5)
      (fun i hi => by rw [shift, goesOn_spend, on (i + 1) (Nat.succ_lt_succ hi)])
      (by rw [shift, goesOn_spend, exhausted]) (count + 1) (more + n) (by omega)
    rw [← Nat.add_assoc, Program.runRepeatedly_of_returned first, rest, shift, Machine.spend_spend,
      cost_succ, show count + 1 + (n + 1) = count + (n + 1 + 1) by omega]

end BlockForm

/-- A block instruction in its repeating form is the single form with the decision to repeat: one
run of it leaves what one run of the single form leaves, except that five more T-states are spent
when it ends early. So it is with any number of runs. -/
theorem BlockForm.run_repeating (form : BlockForm) (policy policy' : Policy)
    (ops ops' : Operands) :
    ∃ p q, form.single.program policy ops = .ok p ∧
      form.repeating.program policy' ops' = .ok q ∧
      (∀ m, ∃ m₁ flow, p.run m = .ok .continued m₁ ∧
        (flow = .returned ↔ form.goesOn m₁ = true) ∧
        q.run m = .ok flow (if flow = .returned then m₁.spend 5 else m₁)) ∧
      ∀ n m, ∃ m₁ flows, p.runTimes n m = .ok (List.replicate n .continued) m₁ ∧
        flows.length = n ∧
        q.runTimes n m =
          .ok flows (m₁.spend (5 * BitVec.ofNat 32 (flows.count .returned))) := by
  obtain ⟨p, hp, runSingle⟩ := form.exists_single ops policy
  obtain ⟨q, hq, runRepeating⟩ := form.exists_repeating ops' policy'
  refine ⟨p, q, hp, hq, fun m => ?_, fun n m => ?_⟩
  · refine ⟨form.step m, _, runSingle m, form.returned_repeatStep m, ?_⟩
    rw [runRepeating m]
    unfold repeatStep
    split <;> rfl
  · obtain ⟨flows, length, runs⟩ := exists_runTimes_repeating runRepeating n m
    exact ⟨_, flows, runTimes_single runSingle n m, length, runs⟩

end Z80Effects
