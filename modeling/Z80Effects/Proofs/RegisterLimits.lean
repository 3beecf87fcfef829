import Z80Effects.Proofs.ByteOperands
import Z80Effects.Proofs.InstructionRuns

/-!
# Limits of the registers and of the stack pointer

Registers are not cut to their width when they are set. That the eight-bit registers hold bytes all
the same is a matter of the programs: each of them keeps to the limits of `registerLimits`.

The instructions that take a word off the stack add two to the stack pointer and do not reduce the
sum to an address. All other instructions leave an address there. Hence the stack pointer leaves the
address space in a run exactly if a word is taken off one of the two topmost addresses.
-/
namespace Z80Effects

open Effect

/-- The variables that should hold bytes: the registers and their shadows. -/
def byteVariables : List String :=
  Register.all.map Register.name ++ Register.all.filterMap Register.shadow?

/-- All registers, shadows included, hold bytes. -/
structure Machine.HoldsBytes (m : Machine) : Prop where
  register : m.ByteRegisters
  shadow : ∀ (reg : Register) name, reg.shadow? = some name → (m.get name).toNat < 256

theorem Machine.HoldsBytes.set_stackPointer {m : Machine} (h : m.HoldsBytes) (v : Value) :
    (m.set stackPointer v).HoldsBytes where
  register := h.register.set_stackPointer v
  shadow reg name hr := by
    have ne : ¬ stackPointer = name := by
      rintro rfl
      cases reg <;> simp [Register.shadow?, stackPointer] at hr
    rw [m.get_set_of_ne v ne]
    exact h.shadow reg name hr

theorem Machine.blank_holdsBytes : blank.HoldsBytes where
  register := blank_byteRegisters
  shadow reg name _ := by simp

/-- Bytes in the registers, and an address in the stack pointer if that is asked for. -/
def registerLimits (tracksStack : Bool) (immediate : Nat) : Discipline where
  limit name :=
    if name = stackPointer then some (if tracksStack then 16 else 32)
    else if name ∈ byteVariables then some 8 else none
  immediate := immediate
  limit_register reg := by cases reg <;> rfl
  limit_stackPointer := ⟨_, rfl, by cases tracksStack <;> decide⟩

theorem byteVariables_iff {name : String} : name ∈ byteVariables ↔
    (∃ reg : Register, reg.name = name) ∨ ∃ reg : Register, reg.shadow? = some name := by
  simp [byteVariables, Register.mem_all]

theorem keeps_registerLimits_iff {tracksStack : Bool} {immediate : Nat} {m : Machine} :
    (registerLimits tracksStack immediate).Keeps m ↔
      m.HoldsBytes ∧ (tracksStack → m.StackInRange) := by
  have apart : stackPointer ∉ byteVariables := by decide
  constructor
  · intro h
    have limited : ∀ name ∈ byteVariables, (m.get name).toNat < 256 := by
      intro name hn
      refine h name 8 ?_
      have ne : name ≠ stackPointer := fun eq => apart (eq ▸ hn)
      simp only [registerLimits, if_neg ne, if_pos hn]
    refine ⟨⟨fun reg => ?_, fun reg name hr => ?_⟩, fun ht => ?_⟩
    · exact limited _ (byteVariables_iff.mpr (.inl ⟨reg, rfl⟩))
    · exact limited _ (byteVariables_iff.mpr (.inr ⟨reg, hr⟩))
    · refine h stackPointer 16 ?_
      simp only [registerLimits, ht, if_true]
  · rintro ⟨bytes, hsp⟩ name w hw
    simp only [registerLimits] at hw
    split at hw
    · next eq =>
      subst eq
      cases tracksStack with
      | false => cases hw; exact Value.fits_thirtyTwo _
      | true => cases hw; exact hsp rfl
    · simp only [Option.ite_none_right_eq_some, Option.some.injEq] at hw
      obtain ⟨hn, rfl⟩ := hw
      obtain ⟨reg, rfl⟩ | ⟨reg, hr⟩ := byteVariables_iff.mp hn
      · exact bytes.register reg
      · exact bytes.shadow reg name hr

namespace Instruction

/-- The width of the immediate operand that an instruction can put into a register. -/
def immediateWidth (tracksStack : Bool) : Instruction → Nat
  | loadByte _ .immediate | accumulate _ .immediate => 8
  | loadWord _ .immediate => 16
  | loadStackPointer .immediate => if tracksStack then 16 else 32
  | _ => 32

/-- The instruction is one of those that take a word off the stack, perhaps on a condition. -/
def mayPop : Instruction → Bool
  | pop _ | ret _ | retInterrupt => true
  | _ => false

end Instruction

namespace EffectForm

variable {policy : Policy}

/-- No program of an instruction exceeds the limits of the eight-bit registers, and only those that
take a word off the stack exceed that of the stack pointer. -/
theorem keeps_limits {i : Instruction} {p : Program} (h : EffectForm policy i p)
    (tracksStack : Bool) (hp : tracksStack → i.mayPop = false) :
    p.keeps (registerLimits tracksStack (i.immediateWidth tracksStack)) := by
  cases h with
  | loadFromR =>
    obtain ⟨_, refresh, _⟩ := policy
    cases refresh <;> rfl
  | halt =>
    obtain ⟨speedup, _, _⟩ := policy
    cases speedup <;> rfl
  | loadSpImmediate | loadSpDirect | incSp | decSp => cases tracksStack <;> rfl
  | loadSpPair q _ => cases q <;> cases tracksStack <;> rfl
  | pop q | retInterrupt =>
    cases tracksStack with
    | true => cases hp rfl
    | false => rfl
  | ret k =>
    cases tracksStack with
    | true => cases hp rfl
    | false =>
      cases k with
      | none => rfl
      | some k => cases k <;> rfl
  | adcWord src second hs | sbcWord src second hs =>
    cases hs with
    | sp => cases tracksStack <;> rfl
    | pair q hq => obtain rfl | rfl | rfl := hq <;> cases tracksStack <;> rfl
  | loadIndirect dst q _ _ | storeRegister q src _ _ | jumpTo q _ => cases q <;> rfl
  | loadIndexed dst x | storeIndexedImmediate x | storeIndexedRegister x src | incIndexed x
  | decIndexed x | exStackIndex x => cases x <;> rfl
  | addWord q src _ hs =>
    cases src with
    | sp => cases q <;> rfl
    | pair q' => cases q <;> cases q' <;> rfl
  | accumulateArithmetic op src operand f hs hf =>
    cases hs with
    | indexed x => cases op <;> cases hf <;> cases x <;> rfl
    | _ => cases op <;> cases hf <;> rfl
  | accumulateLogical op src operand hs hf =>
    cases hs with
    | indexed x => cases op <;> cases hf <;> cases x <;> rfl
    | register reg hr => cases op <;> cases hf <;> cases reg <;> rfl
    | _ => cases op <;> cases hf <;> rfl
  | bitRegister op n hn reg =>
    cases op with
    | test | reset => rfl
    | set =>
      -- the bit is not known, so that the width of the mask does not compute
      have mask : (Value.ofByte (Byte.singleBit ⟨n.toNat, hn⟩)).width ≤ 8 :=
        Value.width_le (Value.fits_ofByte _)
      simp only [Program.keeps, bitOfRegister, Stmt.widthsList, Stmt.widths]
      split
      · rfl
      · next exceeds => exact absurd (Nat.max_le.mpr ⟨Nat.le_refl 8, mask⟩) exceeds
  | shiftRegister op reg hr | shiftMemory op | bitMemory op n hn => cases op <;> rfl
  | shiftIndexed op x | shiftIndexedCopy op x reg hr | bitIndexed op n hn x =>
    cases op <;> cases x <;> rfl
  | jumpRelativeIf k _ => cases k <;> rfl
  | jump k | call k =>
    cases k with
    | none => rfl
    | some k => cases k <;> rfl
  | input dst port => cases port <;> rfl
  | output port src => cases port <;> rfl
  | _ => rfl

end EffectForm

namespace Step

/-- The immediate operand is one that decoding can give, where it goes into eight-bit registers. -/
def ImmediateInRange (s : Step) : Prop :=
  match s.instruction with
  | .loadByte _ .immediate | .accumulate _ .immediate => s.operands.value.toNat < 256
  | .loadWord _ .immediate => s.operands.value.toNat < 65536
  | _ => True

/-- The immediate operand is an address where it goes into the stack pointer. -/
def StackImmediateInRange (s : Step) : Prop :=
  s.instruction = .loadStackPointer .immediate → s.operands.value.toNat < 65536

theorem fits_immediateWidth {s : Step} (h : s.ImmediateInRange) {tracksStack : Bool}
    (hs : tracksStack → s.StackImmediateInRange) :
    s.operands.value.Fits (s.instruction.immediateWidth tracksStack) := by
  obtain ⟨policy, i, ops, p, accepted⟩ := s
  cases i with
  | loadByte dst src =>
    cases src with
    | immediate => exact h
    | _ => exact Value.fits_thirtyTwo _
  | accumulate op src =>
    cases src with
    | immediate => exact h
    | _ => exact Value.fits_thirtyTwo _
  | loadWord dst src =>
    cases src with
    | immediate => exact h
    | _ => exact Value.fits_thirtyTwo _
  | loadStackPointer src =>
    cases src with
    | immediate =>
      cases tracksStack with
      | false => exact Value.fits_thirtyTwo _
      | true => exact hs rfl rfl
    | _ => exact Value.fits_thirtyTwo _
  | _ => exact Value.fits_thirtyTwo _

/-- One step keeps bytes in the registers. -/
theorem run_holdsBytes (s : Step) (hv : s.ImmediateInRange) {m : Machine} (hm : m.HoldsBytes) :
    ∃ flow m', s.program.run m = .ok flow m' ∧ m'.HoldsBytes := by
  obtain ⟨skeleton, form, run⟩ := s.exists_outcome
  have limits := form.keeps_limits false (by simp)
  have keeps := Program.keeps_outcome limits (keeps_registerLimits_iff.mpr ⟨hm, by simp⟩)
    s.operands (fits_immediateWidth hv (by simp))
  exact ⟨_, _, run m, (keeps_registerLimits_iff.mp keeps).1⟩

/-- Registers hold bytes after each step of a run, if they did before it. -/
theorem trace_holdsBytes (steps : List Step) (hv : ∀ s ∈ steps, s.ImmediateInRange) (m : Machine)
    (hm : m.HoldsBytes) : ∃ ms m', trace steps m = .ok ms m' ∧ ms.length = steps.length ∧
      ∀ x ∈ ms, x.HoldsBytes :=
  trace_invariant steps hm fun s hs _ hx => s.run_holdsBytes (hv s hs) hx

def loadAndAdjust : List Step :=
  [{ policy := {}, instruction := .loadByte .a .immediate, operands := { value := 0xFF },
     program := [.set (.register .a) (.literal ⟨.num 0xFF, some "0xFF"⟩)], accepted := by rfl },
   { policy := {}, instruction := .daa, operands := {}, program := [perform .daa []],
     accepted := by rfl }]

theorem trace_holdsBytes_loadAndAdjust : (∀ s ∈ loadAndAdjust, s.ImmediateInRange) ∧
    Machine.blank.HoldsBytes ∧ ∃ ms m', trace loadAndAdjust .blank = .ok ms m' ∧
      ms.length = loadAndAdjust.length ∧ ∀ x ∈ ms, x.HoldsBytes := by
  have inRange : ∀ s ∈ loadAndAdjust, s.ImmediateInRange := by
    intro s hs
    simp only [loadAndAdjust, List.mem_cons, List.not_mem_nil, or_false] at hs
    obtain rfl | rfl := hs
    · simp [ImmediateInRange]
    · simp [ImmediateInRange]
  exact ⟨inRange, Machine.blank_holdsBytes,
    trace_holdsBytes loadAndAdjust inRange .blank Machine.blank_holdsBytes⟩

end Step

namespace Instruction

/-- The instruction takes a word off the stack when it runs on the machine. -/
def pops (m : Machine) : Instruction → Bool
  | pop _ | ret none | retInterrupt => true
  | ret (some k) => k.holds m.flags
  | _ => false

theorem pops_of_not_mayPop {i : Instruction} (h : i.mayPop = false) (m : Machine) :
    i.pops m = false := by
  cases i with
  | pop w => cases h
  | ret k => cases h
  | retInterrupt => cases h
  | _ => rfl

end Instruction

section
variable (ops : Operands) (m : Machine)

theorem continued_popIntoPc : (Stmt.outcomeList ops.resolve popIntoPc m).1 = .continued := by
  simp [popIntoPc, Stmt.set, pc, sp]

theorem stackPointer_popIntoPc : (Stmt.outcomeList ops.resolve popIntoPc m).2.get stackPointer =
    m.get stackPointer + 2 := by
  simp [popIntoPc, Stmt.set, pc, sp, readWord, Primitive.apply, AssignOp.apply, Machine.get_set,
    stackPointer]

theorem stackPointer_pop (p : RegisterPair) :
    (Program.outcome (setPair p (readWord sp) ++ [.assign .add sp 2]) ops m).2.get stackPointer =
      m.get stackPointer + 2 := by
  have apart : ¬ "val" = stackPointer := by decide
  simp [Program.outcome, Effect.setPair, readWord, Stmt.set, sp, val, Primitive.apply,
    AssignOp.apply, Machine.setReg_eq_set, Machine.get_set, Register.name_ne_stackPointer, apart]

theorem stackPointer_retInterrupt : (Program.outcome retInterrupt ops m).2.get stackPointer =
    m.get stackPointer + 2 := by
  have apart : ¬ "iff1" = stackPointer := by decide
  rw [Program.outcome, retInterrupt, Stmt.outcomeList_append,
    Flow.andThen_of_continued (continued_popIntoPc ops m)]
  simp [Stmt.set, Machine.get_set, apart, stackPointer_popIntoPc]

theorem stackPointer_ret (k : Option Condition) :
    (Program.outcome (ret k) ops m).2.get stackPointer =
      if (Instruction.ret k).pops m then m.get stackPointer + 2 else m.get stackPointer := by
  have continued := continued_popIntoPc ops
  cases k with
  | none =>
    simp [ret, Program.outcome, Stmt.outcomeList_append, Flow.andThen_of_continued (continued m),
      Instruction.pops, stackPointer_popIntoPc]
  | some k =>
    cases hk : k.holds m.flags with
    | false => simp [ret, Program.outcome, provided, outcome_holds, Instruction.pops, hk]
    | true =>
      have apart : ¬ "tstates" = stackPointer := by decide
      simp [ret, Program.outcome, provided, outcome_holds, Instruction.pops, hk,
        Stmt.outcomeList_append, Flow.andThen_of_continued (continued _), spend, tstates,
        stackPointer_popIntoPc, Machine.get_set, apart]

end

theorem EffectForm.stackPointer_of_mayPop {policy : Policy} {i : Instruction} {p : Program}
    (h : EffectForm policy i p) (hp : i.mayPop) (ops : Operands) (m : Machine) :
    (p.outcome ops m).2.get stackPointer =
      if i.pops m then m.get stackPointer + 2 else m.get stackPointer := by
  cases h with
  | pop q => exact stackPointer_pop ops m q
  | ret k => exact stackPointer_ret ops m k
  | retInterrupt => exact stackPointer_retInterrupt ops m
  | _ => cases hp

namespace Step

/-- One step leaves an address in the stack pointer, unless it takes a word off the stack at one of
the two topmost addresses. -/
theorem run_stackInRange_iff (s : Step) (hv : s.ImmediateInRange) (hl : s.StackImmediateInRange)
    {m : Machine} (hm : m.HoldsBytes) (hsp : m.StackInRange) :
    ∃ flow m', s.program.run m = .ok flow m' ∧ m'.HoldsBytes ∧
      (m'.StackInRange ↔
        (s.instruction.pops m → (m.get stackPointer).toNat < 65534)) := by
  obtain ⟨flow, m', run, bytes⟩ := s.run_holdsBytes hv hm
  refine ⟨flow, m', run, bytes, ?_⟩
  obtain ⟨skeleton, form, run'⟩ := s.exists_outcome
  obtain rfl : (skeleton.outcome s.operands m).2 = m' := by
    have same := (run' m).symm.trans run
    simp only [EStateM.Result.ok.injEq] at same
    exact same.2
  cases hp : s.instruction.mayPop with
  | false =>
    have limits := form.keeps_limits true fun _ => hp
    have keeps := Program.keeps_outcome limits
      (keeps_registerLimits_iff.mpr ⟨hm, fun _ => hsp⟩) s.operands
      (fits_immediateWidth hv fun _ => hl)
    simp [Instruction.pops_of_not_mayPop hp, (keeps_registerLimits_iff.mp keeps).2 rfl]
  | true =>
    have after := form.stackPointer_of_mayPop hp s.operands m
    simp only [Machine.StackInRange] at hsp ⊢
    rw [after]
    cases s.instruction.pops m with
    | false => simpa using hsp
    | true =>
      simp only [if_true, true_imp_iff]
      bv_omega

/-- The stack pointer stays within the address space through a run exactly if no word is taken off
one of the two topmost addresses. -/
theorem trace_stackInRange_iff (steps : List Step)
    (hv : ∀ s ∈ steps, s.ImmediateInRange ∧ s.StackImmediateInRange) (m : Machine)
    (hm : m.HoldsBytes) (hsp : m.StackInRange) :
    ∃ ms m', trace steps m = .ok ms m' ∧ ms.length = steps.length ∧
      ((∀ x ∈ ms, x.StackInRange) ↔ ∀ q ∈ steps.zip (m :: ms),
        q.1.instruction.pops q.2 → (q.2.get stackPointer).toNat < 65534) := by
  induction steps generalizing m with
  | nil => exact ⟨[], m, rfl, rfl, by simp⟩
  | cons s ss ih =>
    obtain ⟨hs, hss⟩ := List.forall_mem_cons.mp hv
    obtain ⟨flow, m₁, run, bytes, iff⟩ := s.run_stackInRange_iff hs.1 hs.2 hm hsp
    by_cases inRange : m₁.StackInRange
    · obtain ⟨ms, m₂, rest, hl, ih⟩ := ih hss m₁ bytes inRange
      refine ⟨m₁ :: ms, m₂, trace_cons run rest, by simp [hl], ?_⟩
      rw [List.zip_cons_cons, List.forall_mem_cons, List.forall_mem_cons, ih, iff]
    · -- the first step already leaves the address space, so that both sides are false
      obtain ⟨ms, m₂, rest, hl⟩ := exists_trace ss m₁
      refine ⟨m₁ :: ms, m₂, trace_cons run rest, by simp [hl], ?_⟩
      rw [List.zip_cons_cons, List.forall_mem_cons, List.forall_mem_cons, ← iff]
      simp only [inRange, false_and]

def popBc : Step where
  policy := { annotate := false }
  instruction := .pop (.pair .bc)
  operands := {}
  program := setPair .bc (readWord sp) ++ [.assign .add sp 2]
  accepted := by rfl

private theorem popBc_inRange :
    ∀ s ∈ [popBc], s.ImmediateInRange ∧ s.StackImmediateInRange := by
  simp [ImmediateInRange, StackImmediateInRange, popBc]

theorem trace_stackInRange_iff_popBc :
    (∀ s ∈ [popBc], s.ImmediateInRange ∧ s.StackImmediateInRange) ∧
      (Machine.blank.set stackPointer 0x8000).HoldsBytes ∧
      (Machine.blank.set stackPointer 0x8000).StackInRange ∧
      ∃ ms m', trace [popBc] (Machine.blank.set stackPointer 0x8000) = .ok ms m' ∧
        ms.length = 1 ∧ ((∀ x ∈ ms, x.StackInRange) ↔
          ∀ q ∈ [popBc].zip (Machine.blank.set stackPointer 0x8000 :: ms),
            q.1.instruction.pops q.2 → (q.2.get stackPointer).toNat < 65534) := by
  have bytes := Machine.blank_holdsBytes.set_stackPointer 0x8000
  have inRange := Machine.blank.stackInRange_set (show (0x8000 : Value).toNat < 65536 by decide)
  exact ⟨popBc_inRange, bytes, inRange, trace_stackInRange_iff _ popBc_inRange _ bytes inRange⟩

/-- The stack pointer does not stay within the address space through every run: popping the word at
the last two addresses takes it out. -/
theorem not_forall_trace_stackInRange : ¬ ∀ (steps : List Step) (m : Machine),
    (∀ s ∈ steps, s.ImmediateInRange ∧ s.StackImmediateInRange) → m.HoldsBytes →
      m.StackInRange → ∃ ms m', trace steps m = .ok ms m' ∧ ∀ x ∈ ms, x.StackInRange := by
  intro h
  have bytes := Machine.blank_holdsBytes.set_stackPointer 0xFFFE
  have inRange := Machine.blank.stackInRange_set (show (0xFFFE : Value).toNat < 65536 by decide)
  obtain ⟨ms, m', run, hms⟩ := h [popBc] _ popBc_inRange bytes inRange
  have popped := popBc_inRange popBc List.mem_cons_self
  obtain ⟨flow, m₁, step, -, iff⟩ := popBc.run_stackInRange_iff popped.1 popped.2 bytes inRange
  have same := (trace_cons step (rfl : trace [] m₁ = .ok [] m₁)).symm.trans run
  simp only [EStateM.Result.ok.injEq] at same
  obtain ⟨rfl, -⟩ := same
  have below := iff.mp (hms m₁ List.mem_cons_self) rfl
  simp at below

end Step

end Z80Effects
