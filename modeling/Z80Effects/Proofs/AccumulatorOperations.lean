import Z80Effects.Proofs.ByteOperands
import Z80Effects.Proofs.CarryResults
import Z80Effects.Proofs.ExecutablePrograms

/-!
# Operations on the accumulator

Sums and differences go through primitives on bytes, logical operations through assignments in 32
bits and a table of flags. `AccumulatorOp.result` gives the byte and the flags of both, and
`AccumulatorOp.Meets` defines them through exact numbers and single bits.
-/
namespace Z80Effects

open Effect

namespace AccumulatorOp

/-- The byte that an operation leaves in the accumulator, and all flags. -/
def result : AccumulatorOp → Byte → Byte → Bool → FlaggedResult 8
  | add, x, v, _ => Byte.add x v false
  | adc, x, v, c => Byte.add x v c
  | sub, x, v, _ => Byte.sub x v false
  | sbc, x, v, c => Byte.sub x v c
  | and, x, v, _ => ⟨x &&& v, { Flags.signZeroParity (x &&& v) with half := true }⟩
  | xor, x, v, _ => ⟨x ^^^ v, Flags.signZeroParity (x ^^^ v)⟩
  | or, x, v, _ => ⟨x ||| v, Flags.signZeroParity (x ||| v)⟩
  | cp, x, v, _ => Byte.compare x v

/-- The flags of a logical operation are those of its result. Its parity is that of the number of
bits that are set. -/
structure MeetsBits (half : Bool) (r : Byte) (f : Flags) : Prop where
  carry : f.carry = false
  negative : f.negative = false
  half : f.half = half
  sign : f.sign ↔ 128 ≤ r.toNat
  zero : f.zero ↔ r.toNat = 0
  parity : f.parity ↔ (List.range 8).countP r.getLsbD % 2 = 0
  bit5 : f.bit5 = r.getLsbD 5
  bit3 : f.bit3 = r.getLsbD 3

/-- The accumulator and the flags after an operation on a byte and an operand, under a carry. A
comparison has the flags of a difference that it does not keep, but for two bits of the operand. -/
def Meets (op : AccumulatorOp) (x v : Byte) (c : Bool) (r : Byte) (f : Flags) : Prop :=
  match op with
  | add => CarryOperation.sum.MeetsOnBytes x v false r f
  | adc => CarryOperation.sum.MeetsOnBytes x v c r f
  | sub => CarryOperation.difference.MeetsOnBytes x v false r f
  | sbc => CarryOperation.difference.MeetsOnBytes x v c r f
  | and => r = x &&& v ∧ MeetsBits true r f
  | xor => r = x ^^^ v ∧ MeetsBits false r f
  | or => r = x ||| v ∧ MeetsBits false r f
  | cp => r = x ∧ f.bit5 = v.getLsbD 5 ∧ f.bit3 = v.getLsbD 3 ∧
      ∃ d, CarryOperation.difference.MeetsOnBytes x v false d (f.copyBits d)

theorem signZeroParity_meetsBits (r : Byte) (half : Bool) :
    MeetsBits half r { Flags.signZeroParity r with half := half } where
  carry := rfl
  negative := rfl
  half := rfl
  sign := by
    simp only [Flags.signZeroParity, Flags.signZero, BitVec.msb_eq_decide, decide_eq_true_eq]
  zero := by
    simp only [Flags.signZeroParity, Flags.signZero, beq_iff_eq]
    exact BitVec.toNat_inj.symm
  parity := by simp only [Flags.signZeroParity, evenParity, beq_iff_eq]
  bit5 := rfl
  bit3 := rfl

theorem compare_meets (x v : Byte) : ∃ d, CarryOperation.difference.MeetsOnBytes x v false d
    ((Byte.compare x v).flags.copyBits d) :=
  ⟨(Byte.sub x v false).value, CarryOperation.difference.byteResult_meets x v false⟩

theorem result_meets (op : AccumulatorOp) (x v : Byte) (c : Bool) :
    op.Meets x v c (op.result x v c).value (op.result x v c).flags := by
  cases op with
  | add => exact CarryOperation.sum.byteResult_meets x v false
  | adc => exact CarryOperation.sum.byteResult_meets x v c
  | sub => exact CarryOperation.difference.byteResult_meets x v false
  | sbc => exact CarryOperation.difference.byteResult_meets x v c
  | and => exact ⟨rfl, signZeroParity_meetsBits _ true⟩
  | xor => exact ⟨rfl, signZeroParity_meetsBits _ false⟩
  | or => exact ⟨rfl, signZeroParity_meetsBits _ false⟩
  | cp => exact ⟨rfl, rfl, rfl, compare_meets x v⟩

end AccumulatorOp

namespace AccumulatorSource

def isAccepted : AccumulatorSource → Bool
  | immediate | indexed _ => true
  | register reg => reg.isGeneral
  | indirect w => w = .pair .hl

def address? (ops : Operands) (m : Machine) : AccumulatorSource → Option Word
  | immediate | register _ => none
  | indirect w => some (m.word w).toWord
  | indexed x => some (m.displacedAddress x ops.value)

def operand (ops : Operands) (m : Machine) : AccumulatorSource → Byte
  | immediate => ops.value.toByte
  | register reg => (m.reg reg).toByte
  | indirect w => m.memory.get (m.word w).toWord
  | indexed x => m.memory.get (m.displacedAddress x ops.value)

def fetched (src : AccumulatorSource) (ops : Operands) (m : Machine) : Machine :=
  match src.address? ops m with
  | some a => (m.read a).2
  | none => m

variable (src : AccumulatorSource) (ops : Operands) (m : Machine)

@[simp] theorem get_fetched (name : String) : (src.fetched ops m).get name = m.get name := by
  unfold fetched
  split
  · exact m.get_read _ name
  · rfl

@[simp] theorem reg_fetched (reg : Register) : (src.fetched ops m).reg reg = m.reg reg := by
  rw [Machine.reg_eq_get, get_fetched, Machine.reg_eq_get]

theorem log_fetched :
    (src.fetched ops m).log = m.log ++ ((src.address? ops m).map Access.read).toArray := by
  unfold fetched
  cases src.address? ops m with
  | none => simp
  | some a => simp [Machine.read]

/-- Reading the operand changes the record of accesses only. -/
theorem fetched_eq : src.fetched ops m = { m with log := (src.fetched ops m).log } := by
  unfold fetched
  split
  · rfl
  · rfl

@[simp] theorem accumulator_fetched : (src.fetched ops m).accumulator = m.accumulator := by
  rw [Machine.accumulator, reg_fetched, Machine.accumulator]

@[simp] theorem flags_fetched : (src.fetched ops m).flags = m.flags := by
  rw [Machine.flags, reg_fetched, Machine.flags]

end AccumulatorSource

variable {ops : Operands} {m : Machine}

theorem outcome_accumulatorOperand {src : AccumulatorSource} {e : Expr}
    (h : AccumulatorOperand src e) (hm : m.ByteRegisters)
    (hv : src = .immediate → ops.value.toNat < 256) :
    e.outcome ops.resolve m = (.ofByte (src.operand ops m), src.fetched ops m) := by
  cases h with
  | immediate =>
    have byte : ops.value = .ofByte ops.value.toByte := by
      have bound := hv rfl
      bv_omega
    rw [outcome_value, byte, AccumulatorSource.operand, ← byte]
    rfl
  | register reg hr =>
    rw [Expr.outcome_register, hm.reg_eq reg]
    rfl
  | indirect =>
    rw [outcome_readByte (outcome_pairValue m ops.resolve .hl)]
    rfl
  | indexed x =>
    rw [outcome_readByte (outcome_displaced ops m x), m.toWord_displaced]
    rfl

/-- A logical operation that assigns to the accumulator, whatever the operand. -/
def inPlace (op : AccumulatorOp) (operand : Expr) : Program :=
  [.assign (logicalAssignment op) (.register .a) operand, logicalFlags op]

theorem outcome_signZeroParity (holes : Hole → Value) (m : Machine) (reg : Register) :
    (signZeroParity reg).outcome holes m =
      (.ofByte (Flags.signZeroParity (m.reg reg).toByte).toByte, m) := by
  rw [signZeroParity, Expr.outcome_lookup, Expr.outcome_register]
  rfl

/-- The flags of a logical operation come from its result. -/
theorem outcome_logicalFlags (holes : Hole → Value) (m : Machine) (op : AccumulatorOp) :
    (logicalFlags op).outcome holes m = (.continued, m.setFlags
      { Flags.signZeroParity m.accumulator with half := decide (op = .and) }) := by
  unfold logicalFlags Stmt.set
  rw [Stmt.outcome_assign_register]
  by_cases h : op = .and
  · simp only [h, if_true, Expr.outcome_or, outcome_signZeroParity, Expr.outcome_flagMask,
      AssignOp.apply]
    rw [Value.ofByte, Value.ofByte, ← BitVec.setWidth_or, Flags.toByte_or_mask]
    rfl
  · simp only [h, if_false, outcome_signZeroParity, AssignOp.apply]
    rfl

/-- What a logical operation assigns, and the flags that it sets afterwards. -/
theorem AccumulatorOp.result_of_logical {op : AccumulatorOp} (h : op.primitive? = none)
    (x v : Byte) (c : Bool) :
    (logicalAssignment op).apply (.ofByte x) (.ofByte v) = .ofByte (op.result x v c).value ∧
      (op.result x v c).flags =
        { Flags.signZeroParity (op.result x v c).value with half := decide (op = .and) } := by
  cases op with
  | and => exact ⟨BitVec.setWidth_and.symm, rfl⟩
  | xor => exact ⟨BitVec.setWidth_xor.symm, rfl⟩
  | or => exact ⟨BitVec.setWidth_or.symm, rfl⟩
  | _ => cases h

theorem outcome_inPlace {op : AccumulatorOp} (hop : op.primitive? = none) {e : Expr}
    {holes : Hole → Value} {m m' : Machine} {v : Byte} (he : e.outcome holes m = (.ofByte v, m'))
    (ha : m'.reg .a = .ofByte m'.accumulator) (c : Bool) :
    Stmt.outcomeList holes (inPlace op e) m =
      (.continued, m'.setAccumulator (op.result m'.accumulator v c)) := by
  obtain ⟨value, flags⟩ := AccumulatorOp.result_of_logical hop m'.accumulator v c
  have result : (m'.setReg .a (.ofByte (op.result m'.accumulator v c).value)).accumulator =
      (op.result m'.accumulator v c).value := by
    rw [Machine.accumulator, Machine.reg_setReg_self, Value.toByte_ofByte]
  rw [inPlace, Stmt.outcomeList_cons, Stmt.outcome_assign_register, he, Flow.andThen_continued,
    Stmt.outcomeList_cons, outcome_logicalFlags, Flow.andThen_continued, Stmt.outcomeList_nil, ha,
    value, result, ← flags, Machine.setAccumulator]

/-- With the accumulator as second operand, a logical operation does what it does with another
operand. -/
theorem outcome_logical_self {op : AccumulatorOp} (hop : op.primitive? = none)
    (holes : Hole → Value) (m : Machine) :
    Stmt.outcomeList holes (logical op (.register .a) (.register .a)) m =
      Stmt.outcomeList holes (inPlace op (.register .a)) m := by
  have kept : m.setReg .a (m.reg .a) = m := m.set_get_self _
  cases op with
  | and =>
    simp only [logical, inPlace, Stmt.outcomeList_cons, Stmt.outcome_assign_register,
      Expr.outcome_register, logicalAssignment, AssignOp.apply, BitVec.and_self, kept,
      Flow.andThen_continued]
  | or =>
    simp only [logical, inPlace, Stmt.outcomeList_cons, Stmt.outcome_assign_register,
      Expr.outcome_register, logicalAssignment, AssignOp.apply, BitVec.or_self, kept,
      Flow.andThen_continued]
  | xor =>
    have zero : (m.setReg .a 0#32).accumulator = 0 := by
      rw [Machine.accumulator, Machine.reg_setReg_self]
      rfl
    simp only [logical, inPlace, Stmt.set, Stmt.outcomeList_cons, Stmt.outcomeList_nil,
      Stmt.outcome_assign_register, Expr.outcome_register, Expr.outcome_lookup,
      Expr.outcome_ofNat, logicalAssignment, AssignOp.apply, BitVec.xor_self,
      Flow.andThen_continued, outcome_logicalFlags, zero]
    rfl
  | _ => cases hop

theorem outcome_arithmetic {op : AccumulatorOp} {f : Primitive} (hf : op.primitive? = some f)
    {e : Expr} {holes : Hole → Value} {m m' : Machine} {v : Byte}
    (he : e.outcome holes m = (.ofByte v, m')) :
    Stmt.outcomeList holes [perform f [e]] m =
      (.continued, m'.setAccumulator (op.result m'.accumulator v m'.flags.carry)) := by
  have call : ∀ y, f.apply (.ofByte v) y m' =
      (0, m'.setAccumulator (op.result m'.accumulator v m'.flags.carry)) := by
    intro y
    cases op <;> cases hf <;>
      simp only [Primitive.apply, AccumulatorOp.result, Value.toByte_ofByte]
  rw [perform, Stmt.outcomeList_cons, Stmt.outcome_effect, Expr.outcome_call,
    Expr.outcomeList_cons, he, Expr.outcomeList_nil, List.getD_cons_zero, call,
    Flow.andThen_continued, Stmt.outcomeList_nil]

theorem logical_of_ne (op : AccumulatorOp) {src : AccumulatorSource} (h : src ≠ .register .a)
    (operand : Expr) : logical op src operand = inPlace op operand := by
  unfold logical
  split
  · exact absurd rfl h
  · exact absurd rfl h
  · exact absurd rfl h
  · rfl

theorem EffectForm.outcome_accumulate {policy : Policy} {op : AccumulatorOp}
    {src : AccumulatorSource} {p : Program} (h : EffectForm policy (.accumulate op src) p)
    (hm : m.ByteRegisters) (hv : src = .immediate → ops.value.toNat < 256) :
    p.outcome ops m = (.continued, (src.fetched ops m).setAccumulator
      (op.result m.accumulator (src.operand ops m) m.flags.carry)) := by
  cases h with
  | accumulateArithmetic _ _ operand f hs hf =>
    have operated := outcome_arithmetic hf (outcome_accumulatorOperand hs hm hv)
    rwa [src.accumulator_fetched, src.flags_fetched] at operated
  | accumulateLogical _ _ operand hs hf =>
    have accumulator : (src.fetched ops m).reg .a = .ofByte (src.fetched ops m).accumulator := by
      rw [src.accumulator_fetched, src.reg_fetched]
      exact hm.reg_eq .a
    have operated := outcome_inPlace hf (outcome_accumulatorOperand hs hm hv) accumulator
      m.flags.carry
    rw [src.accumulator_fetched] at operated
    rw [← operated]
    by_cases self : src = .register .a
    · subst self
      cases hs with
      | register reg hr => exact outcome_logical_self hf _ m
    · rw [Program.outcome, logical_of_ne op self]

namespace AccumulatorOp

/-- What an operation makes of a machine. -/
structure Operates (op : AccumulatorOp) (src : AccumulatorSource) (ops : Operands)
    (m m' : Machine) : Prop where
  accumulator : m'.reg .a = .ofByte m'.accumulator
  flags : m'.reg .f = .ofByte m'.flags.toByte
  meets : op.Meets m.accumulator (src.operand ops m) m.flags.carry m'.accumulator m'.flags
  get_of_ne : ∀ name, name ≠ "a" → name ≠ "f" → m'.get name = m.get name
  memory : m'.memory = m.memory
  log : m'.log = m.log ++ ((src.address? ops m).map Access.read).toArray
  ports : m'.ports = m.ports
  outputs : m'.outputs = m.outputs
  randomSource : m'.randomSource = m.randomSource

theorem setAccumulator_operates (op : AccumulatorOp) (src : AccumulatorSource) (ops : Operands)
    (m : Machine) : op.Operates src ops m ((src.fetched ops m).setAccumulator
      (op.result m.accumulator (src.operand ops m) m.flags.carry)) := by
  have meets := op.result_meets m.accumulator (src.operand ops m) m.flags.carry
  generalize op.result m.accumulator (src.operand ops m) m.flags.carry = r at meets ⊢
  have ne : ¬ Register.f.name = Register.a.name := by decide
  have accumulator : ((src.fetched ops m).setAccumulator r).reg .a = .ofByte r.value := by
    rw [Machine.setAccumulator_eq_set, Machine.reg_eq_get, Machine.get_set_of_ne _ _ ne,
      Machine.get_set_self]
  have value : ((src.fetched ops m).setAccumulator r).accumulator = r.value := by
    rw [Machine.accumulator, accumulator, Value.toByte_ofByte]
  have flags : ((src.fetched ops m).setAccumulator r).flags = r.flags := Machine.flags_setFlags _ _
  constructor
  case accumulator => rw [accumulator, value]
  case flags => rw [flags, Machine.setAccumulator_eq_set, Machine.reg_eq_get, Machine.get_set_self]
  case meets => rwa [value, flags]
  case get_of_ne =>
    intro name ha hf
    have other (reg : Register) (h : name ≠ reg.name) : ¬ reg.name = name := Ne.symm h
    rw [Machine.setAccumulator_eq_set, Machine.get_set_of_ne _ _ (other .f hf),
      Machine.get_set_of_ne _ _ (other .a ha), src.get_fetched]
  case log => rw [Machine.setAccumulator_eq_set, Machine.log_set, Machine.log_set, src.log_fetched]
  all_goals rw [src.fetched_eq, Machine.setAccumulator_eq_set]; simp

theorem exists_accumulatorOperand_iff (src : AccumulatorSource) :
    (∃ e, accumulatorOperand src = .ok e) ↔ src.isAccepted := by
  cases src with
  | immediate => exact iff_of_true ⟨_, rfl⟩ rfl
  | indexed x => exact iff_of_true ⟨_, rfl⟩ rfl
  | register reg =>
    simp only [accumulatorOperand, general, AccumulatorSource.isAccepted]
    cases reg.isGeneral <;> simp
  | indirect w =>
    cases w with
    | sp => simp [accumulatorOperand, AccumulatorSource.isAccepted]
    | pair q => cases q <;> simp [accumulatorOperand, AccumulatorSource.isAccepted]

/-- An operation is accepted if its second operand is. -/
theorem exists_program_iff (op : AccumulatorOp) (src : AccumulatorSource) (policy : Policy)
    (ops : Operands) :
    (∃ p, (Instruction.accumulate op src).program policy ops = .ok p) ↔ src.isAccepted := by
  rw [← exists_accumulatorOperand_iff]
  simp only [Instruction.program, Instruction.template, Instruction.effect, Effect.accumulate]
  cases accumulatorOperand src with
  | error refusal =>
    refine iff_of_false ?_ ?_
    · rintro ⟨_, h⟩
      cases h
    · rintro ⟨_, h⟩
      cases h
  | ok e =>
    refine iff_of_true ?_ ⟨e, rfl⟩
    cases op.primitive? with
    | none => exact ⟨_, rfl⟩
    | some f => exact ⟨_, rfl⟩

private theorem executable_inPlace {op : AccumulatorOp} (h : op.primitive? = none) :
    (inPlace op (.register .a)).Executable := by
  refine (Program.executable_iff _).mpr ?_
  cases op <;> cases h <;> rfl

/-- An operation accepts the listed operands. With any of them, it leaves the byte and the flags of
the exact result, reads an operand in memory once, and changes nothing else. A logical operation
that has the accumulator as second operand too does what it does with another operand. -/
theorem run_operates (op : AccumulatorOp) (src : AccumulatorSource) (policy : Policy)
    (ops : Operands) :
    ((∃ p, (Instruction.accumulate op src).program policy ops = .ok p) ↔ src.isAccepted) ∧
      ∀ p, (Instruction.accumulate op src).program policy ops = .ok p →
        (∀ m : Machine, m.ByteRegisters → (src = .immediate → ops.value.toNat < 256) →
          ∃ m', p.run m = .ok .continued m' ∧ op.Operates src ops m m') ∧
        (op.primitive? = none → src = .register .a →
          ∀ m, p.run m = Program.run (inPlace op (.register .a)) m) := by
  refine ⟨op.exists_program_iff src policy ops, fun p hp => ?_⟩
  obtain ⟨skeleton, form, run⟩ := Instruction.exists_form_of_program hp
  constructor
  · intro m hm hv
    have after := form.outcome_accumulate hm hv
    have run := run m
    rw [after] at run
    exact ⟨_, run, op.setAccumulator_operates src ops m⟩
  · rintro hop rfl m
    rw [run m, (executable_inPlace hop).run_eq_outcome ops m]
    cases form with
    | accumulateArithmetic _ _ operand f hs hf => cases hop.symm.trans hf
    | accumulateLogical _ _ operand hs hf =>
      cases hs
      rw [Program.outcome, Program.outcome, outcome_logical_self hop]

/-- One subtracted from zero, under no carry. -/
theorem run_operates_subtractOne :
    AccumulatorSource.isAccepted .immediate ∧ Machine.blank.ByteRegisters ∧
      ∃ p m', (Instruction.accumulate .sbc .immediate).program {} { value := 1 } = .ok p ∧
        p.run .blank = .ok .continued m' ∧ m'.reg .a = 0xFF := by
  obtain ⟨accepts, runs⟩ := run_operates .sbc .immediate {} { value := 1 }
  obtain ⟨p, hp⟩ := accepts.mpr rfl
  obtain ⟨m', run, operates⟩ :=
    (runs p hp).1 .blank Machine.blank_byteRegisters (fun _ => by decide)
  have first : Machine.blank.accumulator = 0 := by
    rw [Machine.accumulator, Machine.reg_blank]
    rfl
  have carry : Machine.blank.flags.carry = false := by
    rw [Machine.flags, Machine.reg_blank]
    rfl
  have difference := operates.meets.result
  rw [first, carry] at difference
  have value : m'.accumulator = 0xFF := BitVec.eq_of_toNat_eq (Int.ofNat.inj difference)
  exact ⟨rfl, Machine.blank_byteRegisters, p, m', hp, run, by rw [operates.accumulator, value]; rfl⟩

end AccumulatorOp

end Z80Effects
