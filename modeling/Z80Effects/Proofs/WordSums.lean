import Z80Effects.Proofs.AssignedVariables
import Z80Effects.Proofs.CarryArithmetic

/-!
# Sums of register pairs

A primitive adds the two words and sets the flags on the way. The result is split over the
destination through a temporary. On `HL` this leaves the word, the carry and the half carry that a
sum with carry leaves if there is no carry to add.
-/
namespace Z80Effects

open Effect

/-- The flags after a sum of two words. Sign, zero and parity stay. -/
def Flags.afterSum (f : Flags) (x y : Word) : Flags :=
  { (Word.add x y).flags with sign := f.sign, zero := f.zero, parity := f.parity }

namespace Word

theorem carry_add (x y : Word) : (add x y).flags.carry ↔ 65535 < x.toNat + y.toNat :=
  decide_eq_true_iff

theorem half_add (x y : Word) :
    (add x y).flags.half ↔ 4095 < x.toNat % 4096 + y.toNat % 4096 :=
  decide_eq_true_iff

/-- A sum with carry, without a carry to add, is a sum. -/
theorem adc_false (x y : Word) : (adc x y false).value = x + y ∧
    (adc x y false).flags.carry = (add x y).flags.carry ∧
    (adc x y false).flags.half = (add x y).flags.half :=
  ⟨BitVec.add_zero _, rfl, rfl⟩

end Word

namespace Machine

def setSum (m : Machine) (p : RegisterPair) (x y : Word) : Machine :=
  ((m.setFlags (m.flags.afterSum x y)).set "val" (.ofWord (x + y))).setPair p (.ofWord (x + y))

/-- What a sum of two words in registers makes of a machine. -/
structure Adds (dst : RegisterPair) (src : WordRegister) (m m' : Machine) : Prop where
  registers : m'.ByteRegisters
  sum : (m'.pair dst).toNat = ((m.pair dst).toNat + (m.word src).toNat) % 65536
  carry : m'.flags.carry ↔ 65535 < (m.pair dst).toNat + (m.word src).toNat
  half : m'.flags.half ↔ 4095 < (m.pair dst).toNat % 4096 + (m.word src).toNat % 4096
  negative : m'.flags.negative = false
  bit5 : m'.flags.bit5 = (m'.reg dst.high).getLsbD 5
  bit3 : m'.flags.bit3 = (m'.reg dst.high).getLsbD 3
  sign : m'.flags.sign = m.flags.sign
  zero : m'.flags.zero = m.flags.zero
  parity : m'.flags.parity = m.flags.parity
  get : ∀ name, name ∉ "f" :: "val" :: dst.names → m'.get name = m.get name
  memory : m'.memory = m.memory
  log : m'.log = m.log
  ports : m'.ports = m.ports
  outputs : m'.outputs = m.outputs
  randomSource : m'.randomSource = m.randomSource

variable {m : Machine} {p : RegisterPair} {x y : Word}

theorem ByteRegisters.setFlags (h : m.ByteRegisters) (f : Flags) : (m.setFlags f).ByteRegisters := by
  rw [setFlags_eq_set]
  exact h.set fun _ _ => Value.fits_ofByte _

/-- Setting a pair other than `AF`, or a temporary, leaves the flags. -/
theorem flags_setSum (hp : p ≠ .af) : (m.setSum p x y).flags = m.flags.afterSum x y := by
  rw [setSum, set_setFlags _ _ _ (by decide), setPair_setFlags _ hp, flags_setFlags]

theorem holdsWord_setSum : (m.setSum p x y).HoldsWord p (x + y) := by
  have holds := holdsWord_setPair ((m.setFlags (m.flags.afterSum x y)).set "val" (.ofWord (x + y)))
    p (.ofWord (x + y))
  rwa [Value.toWord_ofWord] at holds

theorem setSum_adds {src : WordRegister} (hp : p ≠ .af) (registers : m.ByteRegisters)
    (hx : m.pair p = .ofWord x) (hy : m.word src = .ofWord y) : m.Adds p src (m.setSum p x y) := by
  have high : (m.setSum p x y).reg p.high = .ofByte (x + y).high := holdsWord_setSum.high
  have bit {n : Nat} (hn : n < 8) :
      (Value.ofByte (x + y).high).getLsbD n = (x + y).high.getLsbD n := by
    simp [hn, show n < 32 by omega]
  constructor
  case registers => exact ((registers.setFlags _).set fun reg same =>
    absurd same (Register.name_ne (by decide) reg)).setPair p _
  case sum =>
    rw [holdsWord_setSum.pair_eq, hx, hy, Value.toNat_ofWord, Value.toNat_ofWord,
      Value.toNat_ofWord, BitVec.toNat_add]
  case carry =>
    rw [flags_setSum hp, hx, hy, Value.toNat_ofWord, Value.toNat_ofWord, ← Word.carry_add]
    rfl
  case half =>
    rw [flags_setSum hp, hx, hy, Value.toNat_ofWord, Value.toNat_ofWord, ← Word.half_add]
    rfl
  case bit5 =>
    rw [flags_setSum hp, high, bit (by decide)]
    rfl
  case bit3 =>
    rw [flags_setSum hp, high, bit (by decide)]
    rfl
  case get =>
    intro name outside
    simp only [List.mem_cons, not_or] at outside
    rw [setSum, get_setPair_of_not_mem _ _ outside.2.2, get_set_of_ne _ _ (Ne.symm outside.2.1),
      get_setFlags_of_ne _ _ (Ne.symm outside.1)]
  case negative | sign | zero | parity =>
    rw [flags_setSum hp]
    rfl
  all_goals rfl

end Machine

namespace Effect

variable (holes : Hole → Value) (m : Machine)

theorem outcome_wordValue (w : WordRegister) :
    (wordValue w).outcome holes m = (m.word w, m) := by
  cases w with
  | pair p => exact outcome_pairValue m holes p
  | sp => exact Expr.outcome_var holes m stackPointer

theorem outcome_addWord {p : RegisterPair} {src : WordRegister} {x y : Word}
    (hx : m.pair p = .ofWord x) (hy : m.word src = .ofWord y) :
    Stmt.outcomeList holes (setPair p (Primitive.addWord.call [pairValue p, wordValue src])) m =
      (.continued, m.setSum p x y) := by
  refine outcome_setPair p rfl ?_
  rw [Expr.outcome_call, Expr.outcomeList_cons, outcome_pairValue, Expr.outcomeList_cons,
    outcome_wordValue, Expr.outcomeList_nil, hx, hy]
  simp only [Primitive.apply, List.getD_cons_zero, List.getD_cons_succ, Value.toWord_ofWord]
  rfl

end Effect

namespace CarryOperation

theorem runs_operateWithCarry (op : CarryOperation) {src : WordRegister} (hs : src ∈ sources)
    (policy : Policy) (ops : Operands) {m : Machine} {x y : Word} (hx : m.pair .hl = .ofWord x)
    (hy : m.word src = .ofWord y) :
    (op.instruction src).Runs policy ops m (m.operateWithCarry op x y) := by
  obtain ⟨p, second, accepted, addend, run⟩ := op.exists_program hs policy ops
  have value := outcome_carryAddend ops.resolve m addend
  rw [hy] at value
  refine ⟨p, accepted, ?_⟩
  rw [run, Program.outcome, op.outcome_program ops.resolve m hx value]

end CarryOperation

namespace WordSum

def destinations : List RegisterPair := [.hl, .ix, .iy]

def addends (dst : RegisterPair) : List WordRegister := [.pair .bc, .pair .de, .sp, .pair dst]

variable {dst : RegisterPair} {src : WordRegister} {m : Machine} {x y : Word}

theorem ne_af_of_mem (hd : dst ∈ destinations) : dst ≠ .af := ne_of_mem_of_not_mem hd (by decide)

theorem runs_setSum (policy : Policy) (ops : Operands) (hd : dst ∈ destinations)
    (hs : src ∈ addends dst) (hx : m.pair dst = .ofWord x) (hy : m.word src = .ofWord y) :
    (Instruction.addWord (.pair dst) src).Runs policy ops m (m.setSum dst x y) := by
  have accepted : (Instruction.addWord (.pair dst) src).effect policy =
      .ok (setPair dst (Primitive.addWord.call [pairValue dst, wordValue src])) := by
    have destination : isWordAccumulator dst := by
      revert hd
      cases dst <;> decide
    have addend : isAddend dst src := by
      simp only [addends, List.mem_cons, List.not_mem_nil, or_false] at hs
      obtain rfl | rfl | rfl | rfl := hs
      · rfl
      · rfl
      · rfl
      · cases dst <;> rfl
    rw [Instruction.effect, Effect.addWord, destination, addend]
    rfl
  exact Instruction.runs_of_outcome accepted (outcome_addWord ops.resolve m hx hy)

/-- Without a carry to add, a sum with carry leaves the same word, carry and half carry. -/
theorem exists_sumWithCarry (policy : Policy) (ops : Operands) (hs : src ∈ addends .hl)
    (hx : m.pair .hl = .ofWord x) (hy : m.word src = .ofWord y) : ∃ m',
      (Instruction.adcWord src).Runs policy ops (m.setFlags (m.flags.put false .carry)) m' ∧
        m'.HoldsWord .hl (x + y) ∧ m'.flags.carry = (Word.add x y).flags.carry ∧
        m'.flags.half = (Word.add x y).flags.half := by
  have source : ∀ w ∈ addends .hl, w ∈ CarryOperation.sources := by decide
  have first : (m.setFlags (m.flags.put false .carry)).pair .hl = .ofWord x := by
    rw [m.pair_setFlags (by decide), hx]
  have second : (m.setFlags (m.flags.put false .carry)).word src = .ofWord y := by
    rw [← hy]
    simp only [addends, List.mem_cons, List.not_mem_nil, or_false] at hs
    obtain rfl | rfl | rfl | rfl := hs
    · exact m.pair_setFlags (by decide) _
    · exact m.pair_setFlags (by decide) _
    · exact m.get_setFlags_of_ne _ (by decide)
    · exact m.pair_setFlags (by decide) _
  have carry : (m.setFlags (m.flags.put false .carry)).flags.carry = false := by
    rw [m.flags_setFlags]
    rfl
  have run := CarryOperation.sum.runs_operateWithCarry (source src hs) policy ops first second
  have computes := CarryOperation.operateWithCarry_computes
    (m.setFlags (m.flags.put false .carry)) .sum x y
  generalize (m.setFlags (m.flags.put false .carry)).operateWithCarry .sum x y = m' at run computes
  have result := computes.result
  have flags : m'.flags = CarryOperation.sum.flags x y false := by
    rw [Machine.flags, computes.flags, carry, Value.toByte_ofByte, Flags.ofByte_toByte]
  obtain ⟨value, same⟩ := Word.adc_false x y
  rw [carry, CarryOperation.result, value] at result
  rw [← same.1, ← same.2]
  refine ⟨m', run, result, ?_, ?_⟩
  · rw [flags]
    rfl
  · rw [flags]
    rfl

/-- A sum leaves the exact result, reduced to sixteen bits, with its carries, and changes nothing
else. On `HL` the word and the carries are those of a sum with carry that finds the carry clear. -/
theorem run_adds (policy : Policy) (ops : Operands) (hd : dst ∈ destinations)
    (hs : src ∈ addends dst) (registers : m.ByteRegisters)
    (pointer : m.StackInRange) :
    ∃ m', (Instruction.addWord (.pair dst) src).Runs policy ops m m' ∧ m.Adds dst src m' ∧
      (dst = .hl → ∃ m'',
        (Instruction.adcWord src).Runs policy ops (m.setFlags (m.flags.put false .carry)) m'' ∧
          m''.reg .h = m'.reg .h ∧ m''.reg .l = m'.reg .l ∧
          m''.flags.carry = m'.flags.carry ∧ m''.flags.half = m'.flags.half) := by
  have outside := ne_af_of_mem hd
  have hx := registers.pair_eq dst
  have hy := registers.word_eq pointer src
  refine ⟨_, runs_setSum policy ops hd hs hx hy, Machine.setSum_adds outside registers hx hy, ?_⟩
  rintro rfl
  obtain ⟨m'', run, holds, carry, half⟩ := exists_sumWithCarry policy ops hs hx hy
  have sum : (m.setSum .hl (m.pair .hl).toWord (m.word src).toWord).HoldsWord .hl _ :=
    Machine.holdsWord_setSum
  refine ⟨m'', run, holds.high.trans sum.high.symm, holds.low.trans sum.low.symm, ?_, ?_⟩
  · rw [carry, Machine.flags_setSum outside]
    rfl
  · rw [half, Machine.flags_setSum outside]
    rfl

/-- `HL` doubled: bits 15 and 11 are carried out. -/
theorem run_adds_doubled :
    let m := Machine.blank.setPair .hl 0x8800
    .hl ∈ destinations ∧ .pair .hl ∈ addends .hl ∧ m.ByteRegisters ∧
      m.StackInRange ∧ ∃ m' m'',
        (Instruction.addWord (.pair .hl) (.pair .hl)).Runs {} {} m m' ∧
        (m'.pair .hl).toNat = 0x1000 ∧ m'.flags.carry ∧ m'.flags.half ∧
        (Instruction.adcWord (.pair .hl)).Runs {} {} (m.setFlags (m.flags.put false .carry)) m'' ∧
        m''.reg .h = m'.reg .h ∧ m''.reg .l = m'.reg .l := by
  intro m
  have destination : .hl ∈ destinations := by decide
  have addend : .pair .hl ∈ addends .hl := by decide
  have registers : m.ByteRegisters := Machine.blank_byteRegisters.setPair .hl 0x8800
  have pointer : m.StackInRange := by
    rw [Machine.StackInRange, Machine.get_setPair_of_ne _ _ (by decide) (by decide)]
    exact Machine.blank_stackInRange
  have content : (m.pair .hl).toNat = 0x8800 := by
    rw [Machine.pair_setPair_self]
    rfl
  obtain ⟨m', run, adds, withCarry⟩ := run_adds {} {} destination addend registers pointer
  obtain ⟨m'', run', high, low, -⟩ := withCarry rfl
  have sum := adds.sum
  have carry := adds.carry
  have half := adds.half
  rw [Machine.word, content] at sum carry half
  exact ⟨destination, addend, registers, pointer, m', m'', run, sum, carry.mpr (by decide),
    half.mpr (by decide), run', high, low⟩

end WordSum

end Z80Effects
