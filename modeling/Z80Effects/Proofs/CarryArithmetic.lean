import Z80Effects.Proofs.ByteOperands
import Z80Effects.Proofs.CarryResults
import Z80Effects.Proofs.InstructionRuns

/-!
# Arithmetic with carry on `HL`

The program computes the flags by masks and shifts of its operands and of the result in 32 bits. One
lemma for each flag finds the bit that the expression reads. Together they give the flags of the
result on words.
-/
namespace Z80Effects

open Effect

variable (holes : Hole → Value) (m : Machine)

theorem outcome_wordHalfCarry : wordHalfCarry.outcome holes m =
    (if (m.get "val" ^^^ m.get "temp" ^^^ m.get "value").getLsbD 12 then
      Value.ofByte Flag.half.mask else 0, m) := by
  simp only [wordHalfCarry, val, temp, addend, Expr.outcome_and, Expr.outcome_shiftRight,
    Expr.outcome_xor, Expr.outcome_var, Expr.outcome_ofNat]
  exact congrArg (·, m) (Flag.half.sshiftRight_and_mask _ (show 8 ≤ 24 by decide))

theorem outcome_wordCarry : wordCarry.outcome holes m =
    (if (m.get "temp").getLsbD 16 then Value.ofByte Flag.carry.mask else 0, m) := by
  simp only [wordCarry, temp, Expr.outcome_and, Expr.outcome_shiftRight, Expr.outcome_var,
    Expr.outcome_ofNat]
  exact congrArg (·, m) (Flag.carry.sshiftRight_and_mask _ (show 16 ≤ 24 by decide))

theorem outcome_wordSign : wordSign.outcome holes m =
    (if (m.get "temp").getLsbD 15 then Value.ofByte Flag.sign.mask else 0, m) := by
  simp only [wordSign, temp, Expr.outcome_and, Expr.outcome_shiftRight, Expr.outcome_var,
    Expr.outcome_ofNat]
  exact congrArg (·, m) (Flag.sign.sshiftRight_and_mask _ (show 8 ≤ 24 by decide))

theorem outcome_wordZero : wordZero.outcome holes m =
    (if (m.get "temp").toWord == 0 then Value.ofByte Flag.zero.mask else 0, m) := by
  have zero : (Value.ofWord (m.get "temp").toWord != 0#32) = !((m.get "temp").toWord == 0) := by
    rw [Bool.eq_iff_iff, bne_iff_ne, Bool.not_eq_true', beq_eq_false_iff_ne]
    bv_omega
  simp only [wordZero, temp, Expr.outcome_conditional, Expr.outcome_differs, Expr.outcome_and,
    Expr.outcome_var, Expr.outcome_ofNat, Value.and_wordMask, zero]
  cases (m.get "temp").toWord == 0 <;> rfl

private theorem sshiftRight_topBit (v : Value) : (v &&& 32768#32).sshiftRight 13 =
    if v.getLsbD 15 then Value.ofByte Flag.parity.mask else 0 := by
  rw [show 32768#32 = BitVec.twoPow 32 15 from rfl, BitVec.and_twoPow]
  cases v.getLsbD 15 <;> rfl

theorem outcome_wordSumOverflow : wordSumOverflow.outcome holes m =
    (if (m.get "val").getLsbD 15 == (m.get "value").getLsbD 15 &&
        (m.get "val").getLsbD 15 != (m.get "temp").getLsbD 15 then
      Value.ofByte Flag.parity.mask else 0, m) := by
  have bit (x y t : Value) : ((y ^^^ x ^^^ 32768#32) &&& (y ^^^ t)).getLsbD 15 =
      (x.getLsbD 15 == y.getLsbD 15 && x.getLsbD 15 != t.getLsbD 15) := by
    rw [BitVec.getLsbD_and, BitVec.getLsbD_xor, BitVec.getLsbD_xor, BitVec.getLsbD_xor]
    cases x.getLsbD 15 <;> cases y.getLsbD 15 <;> cases t.getLsbD 15 <;> rfl
  simp only [wordSumOverflow, val, temp, addend, Expr.outcome_and, Expr.outcome_shiftRight,
    Expr.outcome_xor, Expr.outcome_var, Expr.outcome_ofNat, ← bit]
  exact congrArg (·, m) (sshiftRight_topBit _)

theorem outcome_wordDifferenceOverflow : wordDifferenceOverflow.outcome holes m =
    (if (m.get "val").getLsbD 15 != (m.get "value").getLsbD 15 &&
        (m.get "value").getLsbD 15 == (m.get "temp").getLsbD 15 then
      Value.ofByte Flag.parity.mask else 0, m) := by
  have bit (x y t : Value) : ((y ^^^ x) &&& (x ^^^ t)).getLsbD 15 =
      (x.getLsbD 15 != y.getLsbD 15 && y.getLsbD 15 == t.getLsbD 15) := by
    rw [BitVec.getLsbD_and, BitVec.getLsbD_xor, BitVec.getLsbD_xor]
    cases x.getLsbD 15 <;> cases y.getLsbD 15 <;> cases t.getLsbD 15 <;> rfl
  simp only [wordDifferenceOverflow, val, temp, addend, Expr.outcome_and, Expr.outcome_shiftRight,
    Expr.outcome_xor, Expr.outcome_var, Expr.outcome_ofNat, ← bit]
  exact congrArg (·, m) (sshiftRight_topBit _)

namespace CarryOperation

def instruction : CarryOperation → WordRegister → Instruction
  | sum, src => .adcWord src
  | difference, src => .sbcWord src

def program : CarryOperation → Expr → Program
  | sum => carrySum
  | difference => carryDifference

/-- The flags that the program sets: the two without a documented meaning are cleared. -/
def flags (op : CarryOperation) (x y : Word) (c : Bool) : Flags :=
  { (op.result x y c).flags with bit5 := false, bit3 := false }

def wideExpr : CarryOperation → Expr
  | sum => (val + addend) + flagBit .carry
  | difference => (val - addend) - flagBit .carry

def flagsExpr : CarryOperation → Expr
  | sum => wordHalfCarry ||| wordCarry ||| wordSign ||| wordZero ||| wordSumOverflow
  | difference => wordHalfCarry ||| .flagMask .negative ||| wordCarry ||| wordSign ||| wordZero |||
      wordDifferenceOverflow

theorem program_eq (op : CarryOperation) (second : Expr) :
    op.program second = carryArithmetic second op.wideExpr op.flagsExpr := by
  cases op <;> rfl

variable (op : CarryOperation) {x y : Word} {c : Bool}

private theorem topBit (w : Word) : (Value.ofWord w).getLsbD 15 = w.msb := by
  rw [BitVec.msb_eq_getLsbD_last, BitVec.getLsbD_setWidth]
  rfl

theorem outcome_flagsExpr (hx : m.get "val" = .ofWord x) (hy : m.get "value" = .ofWord y)
    (ht : m.get "temp" = op.wide (.ofWord x) (.ofWord y) c) :
    op.flagsExpr.outcome holes m = (.ofByte (op.flags x y c).toByte, m) := by
  have half := op.half_wide x y c
  have carry := op.carry_wide x y c
  have sign := op.sign_wide x y c
  have value := op.toWord_wide x y c
  have meets := op.result_meets x y c
  have zero : ((op.result x y c).value == 0) = (op.result x y c).flags.zero := by
    rw [Bool.eq_iff_iff, beq_iff_eq, meets.zero]
  cases op with
  | sum =>
    have parity : (x.msb == y.msb && x.msb != (sum.result x y c).flags.sign) =
        (sum.result x y c).flags.parity := by
      rw [meets.sign]
      rfl
    have negative : (sum.result x y c).flags.negative = false := rfl
    simp only [flagsExpr, Expr.outcome_or, outcome_wordHalfCarry, outcome_wordCarry,
      outcome_wordSign, outcome_wordZero, outcome_wordSumOverflow, hx, hy, ht, half, carry, sign,
      topBit, parity, value, zero, flags]
    generalize (sum.result x y c).flags = f at negative
    obtain ⟨s, z, b5, h, b3, p, n, c⟩ := f
    obtain rfl : n = false := negative
    cases s <;> cases z <;> cases h <;> cases p <;> cases c <;>
      simp only [if_true, if_false, Bool.false_eq_true] <;> rfl
  | difference =>
    have parity : (x.msb != y.msb && y.msb == (difference.result x y c).flags.sign) =
        (difference.result x y c).flags.parity := by
      rw [meets.sign]
      rfl
    have negative : (difference.result x y c).flags.negative = true := rfl
    simp only [flagsExpr, Expr.outcome_or, outcome_wordHalfCarry, outcome_wordCarry,
      outcome_wordSign, outcome_wordZero, outcome_wordDifferenceOverflow, Expr.outcome_flagMask,
      hx, hy, ht, half, carry, sign, topBit, parity, value, zero, flags]
    generalize (difference.result x y c).flags = f at negative
    obtain ⟨s, z, b5, h, b3, p, n, c⟩ := f
    obtain rfl : n = true := negative
    cases s <;> cases z <;> cases h <;> cases p <;> cases c <;>
      simp only [if_true, if_false, Bool.false_eq_true] <;> rfl

theorem outcome_wideExpr (hx : m.get "val" = .ofWord x) (hy : m.get "value" = .ofWord y) :
    op.wideExpr.outcome holes m = (op.wide (.ofWord x) (.ofWord y) m.flags.carry, m) := by
  have carry : (flagBit .carry).outcome holes m = (.ofBool m.flags.carry, m) := by
    rw [outcome_flagBit, Flag.carry.and_mask]
    have flag : (Flags.ofByte (m.reg .f).toByte).get .carry = m.flags.carry := rfl
    rw [flag]
    cases m.flags.carry <;> rfl
  cases op <;> simp only [wideExpr, wide, val, addend, Expr.outcome_add, Expr.outcome_sub,
    Expr.outcome_var, carry, hx, hy]

end CarryOperation

def Machine.operateWithCarry (op : CarryOperation) (x y : Word) (m : Machine) : Machine :=
  ((((m.set "value" (.ofWord y)).set "val" (.ofWord x)).set "temp"
    (op.wide (.ofWord x) (.ofWord y) m.flags.carry)).setReg .f
      (.ofByte (op.flags x y m.flags.carry).toByte)).setPair .hl
        (op.wide (.ofWord x) (.ofWord y) m.flags.carry)

private theorem toByte_sshiftRight (v : Value) :
    Value.toByte (v.sshiftRight 8) = v.toWord.high := by
  apply BitVec.eq_of_getLsbD_eq
  intro i hi
  rw [Word.high, BitVec.getLsbD_setWidth, BitVec.getLsbD_sshiftRight, BitVec.getLsbD_extractLsb',
    BitVec.getLsbD_setWidth, if_pos (by omega)]
  simp [hi, show 8 + i < 16 by omega, show i < 32 by omega]

private theorem toByte_eq_low (v : Value) : v.toByte = v.toWord.low := by
  apply BitVec.eq_of_getLsbD_eq
  intro i hi
  simp [Word.low, hi, show i < 16 by omega]

theorem outcome_joinedHalves (p : RegisterPair) :
    (joinedHalves p).outcome holes m = (m.pair p, m) := by
  simp only [joinedHalves, Expr.outcome_or, Expr.outcome_shiftLeft, Expr.outcome_register]
  rfl

/-- The last two statements split the result over `HL`. -/
theorem outcome_store {r : Value} (hr : m.get "temp" = r) :
    Stmt.outcomeList holes [.set (.register .h) ((temp >>> 8) &&& 0xFF),
      .set (.register .l) (temp &&& 0xFF)] m = (.continued, m.setPair .hl r) := by
  have kept : ∀ v, (m.setReg .h v).get "temp" = r := by
    intro v
    rw [Machine.setReg_eq_set, Machine.get_set_of_ne _ _ (by decide), hr]
  simp only [Stmt.set, temp, Stmt.outcomeList_cons, Stmt.outcomeList_nil,
    Stmt.outcome_assign_register, Flow.andThen_continued, AssignOp.apply, Expr.outcome_and,
    Expr.outcome_shiftRight, Expr.outcome_var, Expr.outcome_ofNat, Value.and_byteMask, hr, kept,
    Machine.setPair]
  rw [show shiftCount 8#32 = 8 from rfl, toByte_sshiftRight, toByte_eq_low]
  rfl

/-- The program keeps the operands and the result in variables, and sets the flags and `HL` from
them. -/
theorem outcome_carryArithmetic {second result flags : Expr} {y x r f : Value}
    (hy : second.outcome holes m = (y, m)) (hx : m.pair .hl = x)
    (hr : result.outcome holes ((m.set "value" y).set "val" x) =
      (r, (m.set "value" y).set "val" x))
    (hf : flags.outcome holes (((m.set "value" y).set "val" x).set "temp" r) =
      (f, ((m.set "value" y).set "val" x).set "temp" r)) :
    Stmt.outcomeList holes (carryArithmetic second result flags) m =
      (.continued, ((((m.set "value" y).set "val" x).set "temp" r).setReg .f f).setPair .hl r) := by
  have hl : (m.set "value" y).pair .hl = x := by
    rw [Machine.pair_set_of_ne _ _ (by decide) (by decide), hx]
  have first : (joinedHalves .hl).outcome holes (m.set "value" y) = (x, m.set "value" y) := by
    rw [outcome_joinedHalves, hl]
  have kept : ((((m.set "value" y).set "val" x).set "temp" r).setReg .f f).get "temp" = r := by
    rw [Machine.setReg_eq_set, Machine.get_set_of_ne _ _ (by decide), Machine.get_set_self]
  rw [carryArithmetic, Stmt.outcomeList_cons, Stmt.outcome_declare, hy, Flow.andThen_continued,
    Stmt.outcomeList_cons, Stmt.outcome_declare, first, Flow.andThen_continued,
    Stmt.outcomeList_cons, Stmt.set, temp, Stmt.outcome_assign_var, hr, Flow.andThen_continued,
    Stmt.outcomeList_cons, Stmt.set, Stmt.outcome_assign_register]
  simp only [AssignOp.apply]
  rw [hf, Flow.andThen_continued]
  exact outcome_store holes _ kept

theorem CarryOperation.outcome_program (op : CarryOperation) {second : Expr} {x y : Word}
    (hx : m.pair .hl = .ofWord x) (hy : second.outcome holes m = (.ofWord y, m)) :
    Stmt.outcomeList holes (op.program second) m = (.continued, m.operateWithCarry op x y) := by
  have carry : ((m.set "value" (.ofWord y)).set "val" (.ofWord x)).flags = m.flags := by
    rw [Machine.flags, Machine.reg_set_of_ne _ _ (by decide), Machine.reg_set_of_ne _ _ (by decide),
      Machine.flags]
  have wide := op.outcome_wideExpr holes ((m.set "value" (.ofWord y)).set "val" (.ofWord x))
    (x := x) (y := y) (by simp) (by simp [Machine.get_set])
  rw [carry] at wide
  have flags := op.outcome_flagsExpr holes (((m.set "value" (.ofWord y)).set "val" (.ofWord x)).set
    "temp" (op.wide (.ofWord x) (.ofWord y) m.flags.carry)) (x := x) (y := y) (c := m.flags.carry)
    (by simp [Machine.get_set]) (by simp [Machine.get_set]) (by simp)
  rw [program_eq, outcome_carryArithmetic holes m hy hx wide flags, Machine.operateWithCarry]

namespace Machine

variable (op : CarryOperation) (x y : Word)

def carryTargets : List String := ["h", "l", "f", "temp", "val", "value"]

theorem result_operateWithCarry :
    (m.operateWithCarry op x y).HoldsWord .hl (op.result x y m.flags.carry).value := by
  rw [← op.toWord_wide]
  exact holdsWord_setPair _ .hl _

theorem flags_operateWithCarry : (m.operateWithCarry op x y).reg .f =
    .ofByte (op.flags x y m.flags.carry).toByte := by
  rw [operateWithCarry, reg_eq_get, get_setPair_of_ne _ _ (by decide) (by decide), ← reg_eq_get,
    reg_setReg_self]

theorem memory_operateWithCarry : (m.operateWithCarry op x y).memory = m.memory := by
  simp [operateWithCarry, setReg_eq_set]

theorem outputs_operateWithCarry : (m.operateWithCarry op x y).outputs = m.outputs := by
  simp [operateWithCarry, setReg_eq_set]

theorem get_operateWithCarry_of_not_mem {name : String} (h : name ∉ carryTargets) :
    (m.operateWithCarry op x y).get name = m.get name := by
  simp only [carryTargets, List.mem_cons, List.not_mem_nil, or_false, not_or] at h
  obtain ⟨hh, hl, hf, ht, hv, hv'⟩ := h
  simp [operateWithCarry, setReg_eq_set, setPair_eq_set, get_set, RegisterPair.high,
    RegisterPair.low, Register.name, Ne.symm hh, Ne.symm hl, Ne.symm hf, Ne.symm ht, Ne.symm hv,
    Ne.symm hv']

end Machine

theorem outcome_carryAddend {src : WordRegister} {second : Expr} (h : CarryAddend src second) :
    second.outcome holes m = (m.word src, m) := by
  cases h with
  | pair p hp => exact outcome_joinedHalves holes m p
  | sp => rw [Effect.sp, Expr.outcome_var, Machine.word]

namespace CarryOperation

/-- What a sum or difference with carry makes of a machine. -/
structure Computes (op : CarryOperation) (x y : Word) (m m' : Machine) : Prop where
  result : m'.HoldsWord .hl (op.result x y m.flags.carry).value
  flags : m'.reg .f = .ofByte (op.flags x y m.flags.carry).toByte
  meets : op.Meets x y m.flags.carry (m'.pair .hl).toWord m'.flags
  get_of_not_mem : ∀ name ∉ Machine.carryTargets, m'.get name = m.get name
  memory : m'.memory = m.memory
  outputs : m'.outputs = m.outputs

theorem operateWithCarry_computes (op : CarryOperation) (x y : Word) :
    op.Computes x y m (m.operateWithCarry op x y) where
  result := m.result_operateWithCarry op x y
  flags := m.flags_operateWithCarry op x y
  meets := by
    have meets := op.result_meets x y m.flags.carry
    have flags : (m.operateWithCarry op x y).flags = op.flags x y m.flags.carry := by
      rw [Machine.flags, m.flags_operateWithCarry op x y, Value.toByte_ofByte,
        Flags.ofByte_toByte]
    rw [(m.result_operateWithCarry op x y).toWord_pair, flags]
    exact ⟨meets.result, meets.carry, meets.half, meets.sign, meets.zero, meets.parity,
      meets.negative⟩
  get_of_not_mem _ h := m.get_operateWithCarry_of_not_mem op x y h
  memory := m.memory_operateWithCarry op x y
  outputs := m.outputs_operateWithCarry op x y

/-- The sources that a sum or difference with carry accepts. -/
def sources : List WordRegister := [.pair .bc, .pair .de, .pair .hl, .sp]

theorem exists_program (op : CarryOperation) {src : WordRegister} (hsrc : src ∈ sources)
    (policy : Policy) (ops : Operands) : ∃ p second,
      (op.instruction src).program policy ops = .ok p ∧ CarryAddend src second ∧ ∀ m, p.run m =
        .ok ((op.program second).outcome ops m).1 ((op.program second).outcome ops m).2 := by
  have accepted : ∃ p, (op.instruction src).program policy ops = .ok p := by
    simp only [sources, List.mem_cons, List.not_mem_nil, or_false] at hsrc
    rcases hsrc with rfl | rfl | rfl | rfl <;> cases op <;> exact ⟨_, rfl⟩
  obtain ⟨p, hp⟩ := accepted
  obtain ⟨skeleton, form, run⟩ := Instruction.exists_form_of_program hp
  cases op with
  | sum => cases form with | adcWord src second hs => exact ⟨p, second, hp, hs, run⟩
  | difference => cases form with | sbcWord src second hs => exact ⟨p, second, hp, hs, run⟩

/-- A sum or difference with carry, computed in place, gives the result and the flags of the words
and of the exact integers, and changes nothing else. -/
theorem run_computes (op : CarryOperation) {src : WordRegister} (hsrc : src ∈ sources)
    (policy : Policy) (ops : Operands) {m : Machine} (hm : m.ByteRegisters) (hsp : m.StackInRange) :
    ∃ p m', (op.instruction src).program policy ops = .ok p ∧ p.run m = .ok .continued m' ∧
      op.Computes (m.pair .hl).toWord (m.word src).toWord m m' := by
  obtain ⟨p, second, hp, hs, run⟩ := op.exists_program hsrc policy ops
  have hy := outcome_carryAddend ops.resolve m hs
  rw [hm.word_eq hsp src] at hy
  have after := op.outcome_program ops.resolve m (hm.pair_eq .hl) hy
  have run' := run m
  rw [Program.outcome, after] at run'
  exact ⟨p, _, hp, run', operateWithCarry_computes m op _ _⟩

theorem run_computes_subtractStackPointer : .sp ∈ sources ∧
    (Machine.blank.set stackPointer 1).ByteRegisters ∧
      (Machine.blank.set stackPointer 1).StackInRange ∧
      ∃ p m', (difference.instruction .sp).program { annotate := false } {} = .ok p ∧
        p.run (Machine.blank.set stackPointer 1) = .ok .continued m' ∧
        m'.HoldsWord .hl 0xFFFF ∧ m'.reg .f = 0x93 := by
  have source : .sp ∈ sources := by decide
  have bytes := Machine.blank_byteRegisters.set_stackPointer 1
  have inRange := Machine.blank.stackInRange_set (show (1 : Value).toNat < 65536 by decide)
  have first : ((Machine.blank.set stackPointer 1).pair .hl).toWord = 0 := by
    rw [Machine.pair_set_of_ne _ _ (by decide) (by decide), Machine.pair, Machine.reg_blank,
      Machine.reg_blank]
    rfl
  have second : ((Machine.blank.set stackPointer 1).word .sp).toWord = 1 := by
    rw [Machine.word, Machine.get_set_self]
    rfl
  have carry : (Machine.blank.set stackPointer 1).flags.carry = false := by
    rw [Machine.flags, Machine.reg_set_of_ne _ _ (by decide), Machine.reg_blank]
    rfl
  obtain ⟨p, m', accepted, run, computes⟩ :=
    run_computes difference source { annotate := false } {} bytes inRange
  have result := computes.result
  have flags := computes.flags
  rw [first, second, carry] at result flags
  exact ⟨source, bytes, inRange, p, m', accepted, run, result, flags⟩

end CarryOperation

end Z80Effects
