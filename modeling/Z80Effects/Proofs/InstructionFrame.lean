import Z80Effects.Proofs.AccessRecord
import Z80Effects.Proofs.ControlFlow

/-!
# What instructions leave alone

Each variable apart from registers, temporaries and `pc` belongs to a few instructions, and all
others leave it as it is. T-states are taken by branches and repetitions that end early, and by no
run that goes on. A byte is sent by the instructions for output only, and no instruction writes to
more than two addresses.
-/
namespace Z80Effects

open Effect

/-- What an early end leaves of a number of T-states. -/
def Flow.charge : Flow → Value → Value → Value
  | .continued, _, t => t
  | .returned, cost, t => t - cost

@[simp] theorem Flow.charge_zero (flow : Flow) (t : Value) : flow.charge 0 t = t := by
  cases flow with
  | continued => rfl
  | returned => exact BitVec.sub_zero t

namespace Instruction

def movesStackPointer : Instruction → Bool
  | loadStackPointer _ | incWord .sp | decWord .sp | push _ | pop _ | call _ | restart _ | ret _
  | retInterrupt => true
  | _ => false

def sends : Instruction → Bool
  | output .. | outi | outd | otir => true
  | _ => false

/-- The T-states that an instruction takes if it ends early. -/
def earlyCost : Instruction → Value
  | jumpRelative _ | djnz | otir | ldir | lddr | cpir => 5
  | call (some _) => 7
  | ret (some _) => 6
  | _ => 0

/-- The T-states after a run that ended in the given way. -/
def tstatesAfter (policy : Policy) (flow : Flow) (t : Value) : Instruction → Value
  | halt => if policy.haltSpeedup then 0 else t
  | i => flow.charge i.earlyCost t

theorem tstatesAfter_of_not_controlled {i : Instruction}
    (h : i.controlVariables.contains "tstates" = false) (policy : Policy) (flow : Flow)
    (t : Value) : i.tstatesAfter policy flow t = t := by
  cases i with
  | jumpRelative _ | djnz | otir | ldir | lddr | cpir | halt => cases h
  | call k | ret k =>
    cases k with
    | none => exact flow.charge_zero t
    | some k => cases h
  | _ => exact flow.charge_zero t

end Instruction

/-- The variables, apart from registers and temporaries, with the instructions that may change them.
`tstatesAfter` tells what becomes of T-states. -/
inductive Instruction.MayChange : Instruction → String → Prop
  | pc (i : Instruction) (h : i.isBranch = true ∨ i = .retInterrupt) : MayChange i "pc"
  | tstates (i : Instruction) (h : i.earlyCost ≠ 0 ∨ i = .halt) : MayChange i "tstates"
  | stack (i : Instruction) (h : i.movesStackPointer = true) : MayChange i stackPointer
  | mode (mode : Byte) : MayChange (.interruptMode mode) "im"
  | enable (i : Instruction) (h : i ∈ [.di, .ei, .retInterrupt]) : MayChange i "iff1"
  | savedEnable (i : Instruction) (h : i ∈ [.di, .ei]) : MayChange i "iff2"
  | delay (i : Instruction) (h : i ∈ [.di, .ei]) : MayChange i "EI_inst"
  | halted : MayChange .halt "halt"
  | shadowAf (name : String) (h : name ∈ ["a2", "f2"]) : MayChange .exAf name
  | shadowPairs (name : String) (h : name ∈ ["b2", "c2", "d2", "e2", "h2", "l2"]) :
      MayChange .exx name

/-- What one run of an instruction may make of a machine. -/
structure Instruction.Frame (i : Instruction) (policy : Policy) (flow : Flow) (m m' : Machine) :
    Prop where
  page : m'.get "page" = m.get "page"
  changes : ∀ name ∉ workingVariables, m'.get name ≠ m.get name → i.MayChange name
  tstates : m'.get "tstates" = i.tstatesAfter policy flow (m.get "tstates")
  /-- Outputs grow by one pair or not at all. -/
  outputs : if i.sends then ∃ pair, m'.outputs = m.outputs.push pair else m'.outputs = m.outputs
  memory : ∃ addresses : List Word, addresses.length ≤ 2 ∧
    ∀ address ∉ addresses, m'.memory.get address = m.memory.get address

namespace Instruction

theorem mayChange_of_mem (i : Instruction) : ∀ name ∈ i.controlVariables, i.MayChange name := by
  have none : ∀ name ∈ ([] : List String), i.MayChange name := List.forall_mem_nil _
  have cons {name : String} {names : List String} (h : i.MayChange name)
      (hs : ∀ other ∈ names, i.MayChange other) : ∀ other ∈ name :: names, i.MayChange other :=
    List.forall_mem_cons.mpr ⟨h, hs⟩
  cases i with
  | loadStackPointer _ | push _ | pop _ => exact cons (.stack _ rfl) none
  | incWord w | decWord w =>
    cases w with
    | sp => exact cons (.stack _ rfl) none
    | pair p => exact none
  | jumpRelative _ | djnz =>
    exact cons (.tstates _ (.inl (by simp [earlyCost]))) (cons (.pc _ (.inl rfl)) none)
  | jump _ | jumpTo _ => exact cons (.pc _ (.inl rfl)) none
  | restart _ => exact cons (.stack _ rfl) (cons (.pc _ (.inl rfl)) none)
  | call k | ret k =>
    cases k with
    | none => exact cons (.stack _ rfl) (cons (.pc _ (.inl rfl)) none)
    | some k =>
      exact cons (.tstates _ (.inl (by simp [earlyCost])))
        (cons (.stack _ rfl) (cons (.pc _ (.inl rfl)) none))
  | retInterrupt =>
    exact cons (.stack _ rfl) (cons (.pc _ (.inr rfl)) (cons (.enable _ (by simp)) none))
  | exAf => exact fun name h => .shadowAf name h
  | exx => exact fun name h => .shadowPairs name h
  | otir | ldir | lddr | cpir => exact cons (.tstates _ (.inl (by decide))) none
  | di | ei =>
    exact cons (.enable _ (by simp)) (cons (.savedEnable _ (by simp))
      (cons (.delay _ (by simp)) none))
  | interruptMode mode => exact cons (.mode mode) none
  | halt => exact cons (.tstates _ (.inr rfl)) (cons .halted (cons (.pc _ (.inl rfl)) none))
  | _ => exact none

theorem MayChange.ne_page {i : Instruction} {name : String} (h : i.MayChange name) :
    name ≠ "page" := by
  cases h with
  | shadowAf _ h | shadowPairs _ h =>
    rintro rfl
    revert h
    decide
  | _ => decide

end Instruction

section
variable (holes : Hole → Value) (m : Machine)

/-- Statements that take T-states first and do not set them later. -/
theorem tstates_spend_cons (cost : Value) {rest : Program}
    (unassigned : "tstates" ∉ Stmt.assignsList rest) :
    (Stmt.outcomeList holes (spend (.num cost) :: rest) m).2.get "tstates" =
      m.get "tstates" - cost := by
  have first : (spend (.num cost)).outcome holes m = (.continued, m.spend cost) := by
    rw [spend, tstates, Stmt.outcome_assign_var, Expr.outcome_num]
    rfl
  rw [Stmt.outcomeList_cons, first, Flow.andThen_continued,
    Stmt.get_outcomeList_of_not_mem rest unassigned, m.get_spend_self]

/-- The same under a condition, where the statements end early. -/
theorem tstates_whenever {test : Expr} {b : Bool} (ht : test.outcome holes m = (.ofBool b, m))
    (cost : Value) {rest : Program} (ends : .done ∈ rest)
    (unassigned : "tstates" ∉ Stmt.assignsList rest) :
    let after := Stmt.outcomeList holes [.whenever test (spend (.num cost) :: rest)] m
    after.2.get "tstates" = after.1.charge cost (m.get "tstates") := by
  dsimp only
  rw [Stmt.outcomeList_whenever holes ht]
  cases b with
  | false => rfl
  | true =>
    rw [if_pos rfl, tstates_spend_cons holes m cost unassigned,
      Stmt.outcomeList_returned (List.mem_cons_of_mem _ ends), Flow.charge]

theorem tstates_relativeJump :
    let after := Stmt.outcomeList holes relativeJump m
    after.2.get "tstates" = after.1.charge 5 (m.get "tstates") := by
  dsimp only
  rw [Stmt.outcomeList_returned (by simp [relativeJump])]
  exact tstates_spend_cons holes m 5 (by decide)

theorem BlockForm.tstates_repeatStep (form : BlockForm) :
    (form.repeatStep m).2.get "tstates" = (form.repeatStep m).1.charge 5 (m.get "tstates") := by
  cases more : form.goesOn (form.step m) with
  | false => rw [repeatStep_of_exhausted more, form.tstates_step, Flow.charge]
  | true =>
    rw [repeatStep_of_goesOn more, Machine.get_spend_self, form.tstates_step, Flow.charge]

theorem tstates_halt (speedup : Bool) :
    (Stmt.outcomeList holes (Effect.halt speedup) m).2.get "tstates" =
      if speedup then 0 else m.get "tstates" := by
  cases speedup with
  | false => exact Stmt.get_outcomeList_of_not_mem _ (by decide) m
  | true =>
    have first : (Stmt.set tstates 0).outcome holes m = (.continued, m.set "tstates" 0) := by
      rw [Stmt.set, tstates, Stmt.outcome_assign_var, Expr.outcome_ofNat]
      rfl
    rw [Effect.halt, if_pos rfl, List.singleton_append, Stmt.outcomeList_cons, first,
      Flow.andThen_continued, Stmt.get_outcomeList_of_not_mem _ (by decide), m.get_set_self,
      if_pos rfl]

theorem tstates_decrementAndJump :
    let after := Stmt.outcomeList holes decrementAndJump m
    after.2.get "tstates" = after.1.charge 5 (m.get "tstates") := by
  have stepped : (m.setReg .b (.ofByte (m.reg .b - 1).toByte)).get "tstates" = m.get "tstates" :=
    m.get_set_of_ne _ (by decide)
  dsimp only
  rw [outcome_decrementAndJump]
  cases (m.reg .b - 1).toByte != 0 with
  | false => exact stepped
  | true => rw [if_pos rfl, tstates_relativeJump, stepped]

end

namespace Effect

/-- A pair is set without calls other than those of the word. -/
theorem calleesList_setPair (q : RegisterPair) (e : Expr) :
    Stmt.calleesList (setPair q e) = e.callees := by
  cases e with
  | literal l | hole x => simp [setPair, Expr.isConstant, Expr.callees_fold]
  | _ => simp [setPair, Expr.isConstant, val]

theorem callees_holds (k : Condition) : (holds k).callees = [] := by
  unfold holds
  split <;> rfl

theorem callees_holdsRelative (k : Condition) : (holdsRelative k).callees = [] := by
  unfold holdsRelative
  split <;> rfl

end Effect

namespace EffectForm

variable {policy : Policy} {i : Instruction} {p : Program}

theorem tstates_outcome (h : EffectForm policy i p) (ops : Operands) (m : Machine) :
    (p.outcome ops m).2.get "tstates" =
      i.tstatesAfter policy (p.outcome ops m).1 (m.get "tstates") := by
  have untouched (hc : i.controlVariables.contains "tstates" = false) :
      (p.outcome ops m).2.get "tstates" =
        i.tstatesAfter policy (p.outcome ops m).1 (m.get "tstates") := by
    have unassigned : "tstates" ∉ i.controlVariables := by
      rw [← List.contains_iff_mem, hc]
      exact Bool.false_ne_true
    rw [i.tstatesAfter_of_not_controlled hc, h.get_outcome_of_not_mem (by decide) unassigned]
  have holds (k : Condition) := outcome_holds ops.resolve m k
  have repeats (form : BlockForm) : (form.repeatingProgram.outcome ops m).2.get "tstates" =
      (form.repeatingProgram.outcome ops m).1.charge 5 (m.get "tstates") := by
    rw [form.outcome_repeatingProgram]
    exact form.tstates_repeatStep m
  cases h with
  | jumpRelative => exact tstates_relativeJump ops.resolve m
  | jumpRelativeIf k _ =>
    exact tstates_whenever ops.resolve m (outcome_holdsRelative ops.resolve m k) 5 (by simp)
      (by decide)
  | djnz => exact tstates_decrementAndJump ops.resolve m
  | call k =>
    cases k with
    | none => exact untouched rfl
    | some k => exact tstates_whenever ops.resolve m (holds k) 7 (by simp) (by decide)
  | ret k =>
    cases k with
    | none => exact untouched rfl
    | some k => exact tstates_whenever ops.resolve m (holds k) 6 (by simp) (by decide)
  | otir => exact repeats .output
  | ldir => exact repeats (.move .up)
  | lddr => exact repeats (.move .down)
  | cpir => exact repeats .search
  | halt => exact tstates_halt ops.resolve m policy.haltSpeedup
  | _ => exact untouched rfl

section

attribute [local simp] Expr.num Expr.byte Expr.bool Expr.singleBit Expr.flagMask
  Stmt.calleesList_append perform readByte readWord writeByte pairValue wordValue joinedHalves
  displaced locate sp pc page tstates temp val location value valueNext target Effect.inLivePage
  flagBit signZeroParity setFlag clearFlag spend calleesList_setPair callees_holds
  callees_holdsRelative Primitive.writes Primitive.sends Instruction.sends

/-- No instruction writes more than two bytes, and only those that send a byte call for it. -/
theorem calls_bounded (h : EffectForm policy i p) :
    Primitive.total Primitive.writes (Stmt.calleesList p) ≤ 2 ∧
      Primitive.total Primitive.sends (Stmt.calleesList p) = i.sends.toNat := by
  cases h with
  | loadFromI => simp [specialLoadFlags]
  | loadFromR =>
    obtain ⟨_, refresh, _⟩ := policy
    cases refresh <;> simp [specialLoadFlags, Policy.refresh]
  | loadIndexed => simp [Effect.loadIndexed]
  | storePairDirect | storeWordPair => simp [storePair]
  | incPair | decPair => simp [Effect.incPair, Effect.decPair]
  | addWord q src => cases src <;> simp
  | adcWord src second hs | sbcWord src second hs =>
    cases hs <;> simp [carrySum, carryDifference, carryArithmetic, addend, wordHalfCarry, wordCarry,
      wordSign, wordZero, wordSumOverflow, wordDifferenceOverflow]
  | accumulateArithmetic op src operand f hs hf => cases hs <;> cases op <;> cases hf <;> simp
  | accumulateLogical op src operand hs hf =>
    cases hs with
    | register reg _ =>
      cases op <;> cases hf <;> cases reg <;> simp [logical, logicalFlags]
    | _ => cases op <;> cases hf <;> simp [logical, logicalFlags]
  | scf => simp [setCarry]
  | neg => simp [negate]
  | bitRegister op | bitMemory op | bitIndexed op =>
    cases op <;> simp [bitOfRegister, bitOfMemory]
  | jumpRelative | jumpRelativeIf => simp [relativeJump]
  | djnz => simp [decrementAndJump, relativeJump]
  | jump k => cases k <;> simp [Effect.jump, provided]
  | call k => cases k <;> simp [Effect.call, provided, pushReturnAddress]
  | ret k => cases k <;> simp [Effect.ret, provided, popIntoPc]
  | restart => simp [pushReturnAddress]
  | retInterrupt => simp [Effect.retInterrupt, popIntoPc]
  | exAf => simp [Effect.exAf, swapShadow, swap, Register.shadow?]
  | exx => simp [Effect.exx, swapShadow, swap, Register.shadow?]
  | exDeHl => simp [Effect.exDeHl, swap]
  | exStackIndex => simp [Effect.exStackIndex]
  | input dst port => cases port <;> simp [Effect.input]
  | output port src => cases port <;> simp [Effect.output, portNumber]
  | ini => simp [Effect.ini, decB, negativeFrom, topBit]
  | outi | outd | otir =>
    simp [Effect.outi, Effect.outd, Effect.otir, outStep, decB, byteAtHl, negativeFrom, topBit,
      repeatWhile]
  | ldi | ldd | ldir | lddr =>
    simp [Effect.ldi, Effect.ldd, Effect.ldir, Effect.lddr, transfer, transferFlags, byteAtHl,
      repeatWhile]
  | cpi | cpir =>
    simp [Effect.cpi, Effect.cpir, searchStep, mergeSearchFlags, searchGoesOn, byteAtHl]
  | di | ei => simp [setInterrupts]
  | halt =>
    obtain ⟨speedup, _, _⟩ := policy
    cases speedup <;> simp [Effect.halt]
  | _ => simp

end

/-- A run writes and sends no more than the calls in the program do. -/
theorem outcome_grows (hp : p.wellFormed) (ops : Operands) (m : Machine) :
    Machine.Grows (Stmt.calleesList p) m (p.outcome ops m).2 := by
  have grows := Stmt.runList_within (v := ops.valuation) p m
  have ran : Stmt.runList ops.valuation p m = .ok _ _ := Program.runWith_eq_outcome hp ops m
  rwa [Run.after_of_ok ran] at grows

/-- After the byte at `(HL)` has been sent, nothing else is. -/
theorem exists_sent_of_sendByte (h : EffectForm policy i p) (hs : i.sends = true)
    (first : p.take 2 = [.set temp byteAtHl, perform .portOut [.register .c, temp]])
    (ops : Operands) (m : Machine) : ∃ pair, (p.outcome ops m).2.outputs = m.outputs.push pair := by
  have form := List.take_append_drop 2 p
  rw [first] at form
  have sends := h.calls_bounded.2
  have wellFormed := h.wellFormed
  rw [← form] at sends wellFormed ⊢
  simp only [Program.wellFormed, List.cons_append, List.nil_append, Stmt.wellFormedList,
    Bool.and_eq_true] at wellFormed
  have silent : Primitive.total Primitive.sends (Stmt.calleesList (p.drop 2)) = 0 := by
    simpa [hs, perform, temp, byteAtHl, readByte, pairValue, Primitive.sends] using sends
  have grows := outcome_grows wellFormed.2.2 ops m.sendByte
  refine ⟨((m.reg .c).toByte, m.byteAtHl), ?_⟩
  rw [Program.outcome, List.cons_append, List.cons_append, outcome_sendByte]
  exact (grows.outputs_eq silent).trans (Machine.outputs_putOut _ _ _)

theorem exists_sent (h : EffectForm policy i p) (hs : i.sends = true) (ops : Operands)
    (m : Machine) : ∃ pair, (p.outcome ops m).2.outputs = m.outputs.push pair := by
  have block := fun first => h.exists_sent_of_sendByte hs first ops m
  cases h with
  | output port src =>
    refine ⟨(((portNumber port).outcome ops.resolve m).1.toByte, (m.reg src).toByte), ?_⟩
    cases port <;>
      simp [Program.outcome, Effect.output, perform, portNumber, value, Primitive.apply]
  | outi | outd | otir => exact block rfl
  | _ => cases hs

/-- Besides registers and temporaries, a run changes only what its instruction may change. -/
theorem mayChange_of_get_ne (h : EffectForm policy i p) {name : String}
    (hw : name ∉ workingVariables) {ops : Operands} {m : Machine}
    (changed : (p.outcome ops m).2.get name ≠ m.get name) : i.MayChange name := by
  by_contra fixed
  have unassigned : name ∉ i.controlVariables := fun hc => fixed (i.mayChange_of_mem name hc)
  exact changed (h.get_outcome_of_not_mem hw unassigned ops m)

theorem frame (h : EffectForm policy i p) (ops : Operands) (m : Machine) :
    i.Frame policy (p.outcome ops m).1 m (p.outcome ops m).2 := by
  have grows := outcome_grows h.wellFormed ops m
  obtain ⟨writes, sends⟩ := h.calls_bounded
  constructor
  case page =>
    by_contra changed
    exact (h.mayChange_of_get_ne (by decide) changed).ne_page rfl
  case changes => exact fun name hw changed => h.mayChange_of_get_ne hw changed
  case tstates => exact h.tstates_outcome ops m
  case outputs =>
    cases hs : i.sends with
    | true => exact h.exists_sent hs ops m
    | false => exact grows.outputs_eq (by rw [sends, hs]; rfl)
  case memory =>
    obtain ⟨addresses, few, unwritten⟩ := grows.exists_written
    exact ⟨addresses, Nat.le_trans few writes, unwritten⟩

end EffectForm

/-- One run of an accepted instruction changes a machine only as the instruction may. T-states are
taken by branches and repetitions that end early, and dropped by a halt on request. -/
theorem Step.run_frame (s : Step) (m : Machine) : ∃ flow m', s.program.run m = .ok flow m' ∧
    (flow = .returned ↔ s.instruction.Returns m) ∧ s.instruction.Frame s.policy flow m m' := by
  obtain ⟨skeleton, form, run⟩ := s.exists_outcome
  exact ⟨_, _, run m, form.returned_iff s.operands m, form.frame s.operands m⟩

end Z80Effects
