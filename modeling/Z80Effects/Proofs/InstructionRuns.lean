import Z80Effects.Proofs.EffectForms

/-!
# Runs of instructions

`Instruction.Runs` says that one instruction, with its operands, takes a machine to another one and
lets execution go on. A run of several takes accepted instructions one after the other, each with
operands and choices of its own, and collects the machines in between. Whatever every single step
preserves holds after each step of a run.
-/
namespace Z80Effects

namespace Instruction

/-- The instruction is accepted with the operands, and its program runs to its end. -/
def Runs (i : Instruction) (policy : Policy) (ops : Operands) (m m' : Machine) : Prop :=
  ∃ p, i.program policy ops = .ok p ∧ p.run m = .ok .continued m'

theorem runs_of_outcome {i : Instruction} {policy : Policy} {ops : Operands} {skeleton : Program}
    {m m' : Machine} (h : i.effect policy = .ok skeleton)
    (run : skeleton.outcome ops m = (.continued, m')) : i.Runs policy ops m m' := by
  obtain ⟨p, hp, runs⟩ := exists_program_of_effect h ops
  exact ⟨p, hp, by rw [runs, run]⟩

end Instruction

structure Step where
  policy : Policy
  instruction : Instruction
  operands : Operands
  program : Program
  accepted : instruction.program policy operands = .ok program

namespace Step

/-- Runs the steps in order and gives the machine after each of them. -/
def trace : List Step → Run (List Machine)
  | [] => return []
  | s :: ss => do
      let _ ← s.program.run
      let m ← get
      return m :: (← trace ss)

/-- The machine after a step. A step never faults. -/
theorem exists_outcome (s : Step) : ∃ skeleton, EffectForm s.policy s.instruction skeleton ∧
    ∀ m, s.program.run m =
      .ok (skeleton.outcome s.operands m).1 (skeleton.outcome s.operands m).2 :=
  Instruction.exists_form_of_program s.accepted

theorem trace_cons {s : Step} {ss : List Step} {m m₁ m₂ : Machine} {flow : Flow}
    {ms : List Machine} (hs : s.program.run m = .ok flow m₁) (hss : trace ss m₁ = .ok ms m₂) :
    trace (s :: ss) m = .ok (m₁ :: ms) m₂ := by
  have got : (get : Run Machine) m₁ = .ok m₁ m₁ := rfl
  simp only [trace, bind, EStateM.bind, hs, got, hss]
  rfl

theorem trace_append (xs ys : List Step) :
    trace (xs ++ ys) = do return (← trace xs) ++ (← trace ys) := by
  induction xs with
  | nil => simp [trace]
  | cons s ss ih => simp [trace, ih]

theorem trace_append_of_ok {xs ys : List Step} {m m₁ m₂ : Machine} {ms ms' : List Machine}
    (hx : trace xs m = .ok ms m₁) (hy : trace ys m₁ = .ok ms' m₂) :
    trace (xs ++ ys) m = .ok (ms ++ ms') m₂ := by
  simp only [trace_append, bind, EStateM.bind, hx, hy]
  rfl

/-- What every step preserves holds after each step of a run. -/
theorem trace_invariant {P : Machine → Prop} (steps : List Step) {m : Machine} (hm : P m)
    (step : ∀ s ∈ steps, ∀ m, P m → ∃ flow m', s.program.run m = .ok flow m' ∧ P m') :
    ∃ ms m', trace steps m = .ok ms m' ∧ ms.length = steps.length ∧ ∀ x ∈ ms, P x := by
  induction steps generalizing m with
  | nil => exact ⟨[], m, rfl, rfl, by simp⟩
  | cons s ss ih =>
    obtain ⟨flow, m₁, hs, hm₁⟩ := step s List.mem_cons_self m hm
    obtain ⟨ms, m₂, hss, hl, hms⟩ := ih hm₁ fun s' hs' => step s' (List.mem_cons_of_mem s hs')
    exact ⟨m₁ :: ms, m₂, trace_cons hs hss, by simp [hl], List.forall_mem_cons.mpr ⟨hm₁, hms⟩⟩

/-- A run of accepted instructions never faults. -/
theorem exists_trace (steps : List Step) (m : Machine) :
    ∃ ms m', trace steps m = .ok ms m' ∧ ms.length = steps.length := by
  have step : ∀ s ∈ steps, ∀ m, True → ∃ flow m', s.program.run m = .ok flow m' ∧ True := by
    intro s _ m _
    obtain ⟨skeleton, -, run⟩ := s.exists_outcome
    exact ⟨_, _, run m, trivial⟩
  obtain ⟨ms, m', ht, hl, -⟩ := trace_invariant steps (m := m) trivial step
  exact ⟨ms, m', ht, hl⟩

end Step

namespace Program

variable {p : Program} {m m' : Machine}

theorem runRepeatedly_of_continued (h : p.run m = .ok .continued m') (count more : Nat) :
    p.runRepeatedly count more m = .ok (.continued, count + 1) m' := by
  cases more with
  | zero => simp only [runRepeatedly, bind, EStateM.bind, h]; rfl
  | succ more => simp only [runRepeatedly, bind, EStateM.bind, h]; rfl

theorem runRepeatedly_of_returned (h : p.run m = .ok .returned m') (count more : Nat) :
    p.runRepeatedly count (more + 1) m = p.runRepeatedly (count + 1) more m' := by
  simp only [runRepeatedly, bind, EStateM.bind, h]

/-- Runs a program a number of times, however each run ends, and tells how they ended. -/
def runTimes (p : Program) : Nat → Run (List Flow)
  | 0 => return []
  | n + 1 => do
      let flow ← p.run
      return flow :: (← p.runTimes n)

theorem runTimes_succ {flow : Flow} {flows : List Flow} {m₁ m₂ : Machine} {n : Nat}
    (h : p.run m = .ok flow m₁) (rest : p.runTimes n m₁ = .ok flows m₂) :
    p.runTimes (n + 1) m = .ok (flow :: flows) m₂ := by
  simp only [runTimes, bind, EStateM.bind, h, rest]
  rfl

end Program

end Z80Effects
