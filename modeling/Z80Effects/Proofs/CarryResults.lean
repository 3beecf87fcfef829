import Mathlib.Algebra.Group.Nat.Defs
import Z80Effects.Arithmetic.Adjustment

/-!
# Sums and differences with carry

The result on words or bytes is the exact result reduced to their width, and its flags tell which
ranges the exact result leaves. The flags of a word result can also be read off single bits of the
result in 32 bits.
-/
namespace Z80Effects

inductive CarryOperation
  | sum | difference
  deriving DecidableEq

namespace CarryOperation

/-- The result on words, and its flags. -/
def result : CarryOperation → Word → Word → Bool → FlaggedResult 16
  | sum => Word.adc
  | difference => Word.sbc

def exact : CarryOperation → Int → Int → Bool → Int
  | sum, x, y, carry => x + y + carry.toNat
  | difference, x, y, carry => x - y - carry.toNat

def wide : CarryOperation → Value → Value → Bool → Value
  | sum, x, y, carry => x + y + .ofBool carry
  | difference, x, y, carry => x - y - .ofBool carry

/-- A result and its flags are those of the exact result: carry, half carry and overflow are set if
it leaves the range of sixteen bits, of twelve bits, and of sixteen bits with a sign. -/
structure Meets (op : CarryOperation) (x y : Word) (c : Bool) (r : Word) (f : Flags) : Prop where
  result : (r.toNat : Int) = op.exact x.toNat y.toNat c % 65536
  carry : f.carry ↔ op.exact x.toNat y.toNat c < 0 ∨ 65535 < op.exact x.toNat y.toNat c
  half : f.half ↔ op.exact (x.toNat % 4096) (y.toNat % 4096) c < 0 ∨
    4095 < op.exact (x.toNat % 4096) (y.toNat % 4096) c
  sign : f.sign = r.msb
  zero : f.zero ↔ r = 0
  parity : f.parity ↔ op.exact x.toInt y.toInt c < -32768 ∨ 32767 < op.exact x.toInt y.toInt c
  negative : f.negative ↔ op = .difference

/-- A number with a sign, from its value without one. -/
theorem toInt_cases {width : Nat} (x : BitVec width) :
    2 * x.toNat < 2 ^ width ∧ x.toInt = x.toNat ∨
      2 ^ width ≤ 2 * x.toNat ∧ x.toInt = x.toNat - (2 ^ width : Nat) := by
  have value := x.toInt_eq_toNat_cond
  split at value <;> omega

section
variable (op : CarryOperation) (x y : Word) (c : Bool)

theorem toNat_result :
    ((op.result x y c).value.toNat : Int) = op.exact x.toNat y.toNat c % 65536 := by
  cases op with
  | sum =>
    simp only [result, exact, Word.adc, carryIn, BitVec.toNat_add, BitVec.toNat_ofNat]
    cases c <;> simp only [Bool.toNat_true, Bool.toNat_false] <;> omega
  | difference =>
    simp only [result, exact, Word.sbc, carryIn, BitVec.toNat_sub, BitVec.toNat_ofNat]
    cases c <;> simp only [Bool.toNat_true, Bool.toNat_false] <;> omega

private theorem msb_high (w : Word) : w.high.msb = w.msb := by
  rw [BitVec.msb_eq_getLsbD_last, BitVec.msb_eq_getLsbD_last, Word.high, BitVec.getLsbD_extractLsb']
  rfl

/-- Overflow is read off the signs. -/
theorem parity_result : (op.result x y c).flags.parity ↔
    op.exact x.toInt y.toInt c < -32768 ∨ 32767 < op.exact x.toInt y.toInt c := by
  have value := op.toNat_result x y c
  have carry := Bool.toNat_le c
  have first := toInt_cases x
  have second := toInt_cases y
  cases op with
  | sum =>
    simp only [result, exact] at value ⊢
    simp only [Word.adc, sumOverflows, Bool.and_eq_true, beq_iff_eq, bne_iff_ne, ne_eq,
      BitVec.msb_eq_decide, decide_eq_decide] at value ⊢
    omega
  | difference =>
    simp only [result, exact] at value ⊢
    simp only [Word.sbc, differenceOverflows, Bool.and_eq_true, beq_iff_eq, bne_iff_ne, ne_eq,
      BitVec.msb_eq_decide, decide_eq_decide] at value ⊢
    omega

theorem result_meets : op.Meets x y c (op.result x y c).value (op.result x y c).flags where
  result := op.toNat_result x y c
  carry := by
    cases op <;> simp only [result, exact, Word.adc, Word.sbc, decide_eq_true_eq] <;> omega
  half := by
    cases op <;> simp only [result, exact, Word.adc, Word.sbc, decide_eq_true_eq] <;> omega
  sign := by
    cases op <;> simp only [result, Word.adc, Word.sbc, Word.signZero, Flags.signZero, msb_high]
  zero := by
    cases op <;> simp only [result, Word.adc, Word.sbc, Word.signZero, beq_iff_eq]
  parity := op.parity_result x y c
  negative := by
    cases op <;> simp [result, Word.adc, Word.sbc, Word.signZero, Flags.signZero]

theorem toNat_wide : ((op.wide (.ofWord x) (.ofWord y) c).toNat : Int) =
    op.exact x.toNat y.toNat c % 4294967296 := by
  cases op with
  | sum =>
    cases c <;> simp only [wide, exact, Value.ofBool_true, Value.ofBool_false, Bool.toNat_true,
      Bool.toNat_false] <;> bv_omega
  | difference =>
    cases c <;> simp only [wide, exact, Value.ofBool_true, Value.ofBool_false, Bool.toNat_true,
      Bool.toNat_false] <;> bv_omega

theorem toWord_wide :
    (op.wide (.ofWord x) (.ofWord y) c).toWord = (op.result x y c).value := by
  have value := op.toNat_result x y c
  have wide := op.toNat_wide x y c
  apply BitVec.eq_of_toNat_eq
  rw [Value.toWord, BitVec.toNat_setWidth]
  omega

private theorem getLsbD_eq (v : Value) (i : Nat) :
    v.getLsbD i = decide (v.toNat >>> i % 2 = 1) := by
  rw [Nat.shiftRight_eq_div_pow]
  exact Nat.testBit_eq_decide_div_mod_eq

theorem carry_wide :
    (op.wide (.ofWord x) (.ofWord y) c).getLsbD 16 = (op.result x y c).flags.carry := by
  have wide := op.toNat_wide x y c
  have carry := Bool.toNat_le c
  rw [Bool.eq_iff_iff, (op.result_meets x y c).carry, getLsbD_eq, decide_eq_true_eq]
  cases op <;> simp only [exact] at wide ⊢ <;> omega

private theorem xor_xor_decide (p q r : Prop) [Decidable p] [Decidable q] [Decidable r] :
    ((decide p ^^ decide q) ^^ decide r) = true ↔ (p ↔ (q ↔ r)) := by
  by_cases hp : p <;> by_cases hq : q <;> by_cases hr : r <;> simp [hp, hq, hr]

/-- Bit 12 differs from the bit that the operands alone give if there is a carry into it. -/
theorem half_wide : (Value.ofWord x ^^^ op.wide (.ofWord x) (.ofWord y) c ^^^
    .ofWord y).getLsbD 12 = (op.result x y c).flags.half := by
  have wide := op.toNat_wide x y c
  have carry := Bool.toNat_le c
  rw [Bool.eq_iff_iff, (op.result_meets x y c).half, BitVec.getLsbD_xor, BitVec.getLsbD_xor,
    getLsbD_eq, getLsbD_eq, getLsbD_eq, xor_xor_decide]
  generalize op.wide (.ofWord x) (.ofWord y) c = t at wide ⊢
  simp only [Value.ofWord, BitVec.toNat_setWidth]
  cases op <;> simp only [exact] at wide ⊢ <;> omega

theorem sign_wide :
    (op.wide (.ofWord x) (.ofWord y) c).getLsbD 15 = (op.result x y c).flags.sign := by
  rw [(op.result_meets x y c).sign, ← op.toWord_wide x y c, BitVec.msb_eq_getLsbD_last,
    BitVec.getLsbD_setWidth]
  rfl

end

/-- The result on bytes, and its flags. -/
def byteResult : CarryOperation → Byte → Byte → Bool → FlaggedResult 8
  | sum => Byte.add
  | difference => Byte.sub

/-- A byte and its flags are those of the exact result: carry, half carry and overflow are set if
it leaves the range of eight bits, of four bits, and of eight bits with a sign. -/
structure MeetsOnBytes (op : CarryOperation) (x y : Byte) (c : Bool) (r : Byte) (f : Flags) :
    Prop where
  result : (r.toNat : Int) = op.exact x.toNat y.toNat c % 256
  carry : f.carry ↔ op.exact x.toNat y.toNat c < 0 ∨ 255 < op.exact x.toNat y.toNat c
  half : f.half ↔ op.exact (x.toNat % 16) (y.toNat % 16) c < 0 ∨
    15 < op.exact (x.toNat % 16) (y.toNat % 16) c
  sign : f.sign ↔ 128 ≤ r.toNat
  zero : f.zero ↔ r.toNat = 0
  parity : f.parity ↔ op.exact x.toInt y.toInt c < -128 ∨ 127 < op.exact x.toInt y.toInt c
  negative : f.negative ↔ op = .difference
  bit5 : f.bit5 = r.getLsbD 5
  bit3 : f.bit3 = r.getLsbD 3

section
variable (op : CarryOperation) (x y : Byte) (c : Bool)

theorem toNat_byteResult :
    ((op.byteResult x y c).value.toNat : Int) = op.exact x.toNat y.toNat c % 256 := by
  cases op with
  | sum =>
    simp only [byteResult, exact, Byte.add, carryIn, BitVec.toNat_add, BitVec.toNat_ofNat]
    cases c <;> simp only [Bool.toNat_true, Bool.toNat_false] <;> omega
  | difference =>
    simp only [byteResult, exact, Byte.sub, carryIn, BitVec.toNat_sub, BitVec.toNat_ofNat]
    cases c <;> simp only [Bool.toNat_true, Bool.toNat_false] <;> omega

/-- Overflow is read off the signs. -/
theorem parity_byteResult : (op.byteResult x y c).flags.parity ↔
    op.exact x.toInt y.toInt c < -128 ∨ 127 < op.exact x.toInt y.toInt c := by
  have value := op.toNat_byteResult x y c
  have carry := Bool.toNat_le c
  have first := toInt_cases x
  have second := toInt_cases y
  cases op with
  | sum =>
    simp only [byteResult, exact] at value ⊢
    simp only [Byte.add, sumOverflows, Bool.and_eq_true, beq_iff_eq, bne_iff_ne, ne_eq,
      BitVec.msb_eq_decide, decide_eq_decide] at value ⊢
    omega
  | difference =>
    simp only [byteResult, exact] at value ⊢
    simp only [Byte.sub, differenceOverflows, Bool.and_eq_true, beq_iff_eq, bne_iff_ne, ne_eq,
      BitVec.msb_eq_decide, decide_eq_decide] at value ⊢
    omega

/-- The flags that a byte result alone decides. -/
theorem signZero_byteResult :
    (op.byteResult x y c).flags.sign = (op.byteResult x y c).value.msb ∧
      (op.byteResult x y c).flags.zero = ((op.byteResult x y c).value == 0) ∧
      (op.byteResult x y c).flags.bit5 = (op.byteResult x y c).value.getLsbD 5 ∧
      (op.byteResult x y c).flags.bit3 = (op.byteResult x y c).value.getLsbD 3 := by
  cases op <;> exact ⟨rfl, rfl, rfl, rfl⟩

theorem byteResult_meets :
    op.MeetsOnBytes x y c (op.byteResult x y c).value (op.byteResult x y c).flags where
  result := op.toNat_byteResult x y c
  carry := by
    cases op <;> simp only [byteResult, exact, Byte.add, Byte.sub, decide_eq_true_eq] <;> omega
  half := by
    cases op <;> simp only [byteResult, exact, Byte.add, Byte.sub, decide_eq_true_eq] <;> omega
  sign := by
    rw [(op.signZero_byteResult x y c).1, BitVec.msb_eq_decide, decide_eq_true_eq]
  zero := by
    rw [(op.signZero_byteResult x y c).2.1, beq_iff_eq]
    exact BitVec.toNat_inj.symm
  parity := op.parity_byteResult x y c
  negative := by
    cases op <;> simp [byteResult, Byte.add, Byte.sub, Flags.signZero]
  bit5 := (op.signZero_byteResult x y c).2.2.1
  bit3 := (op.signZero_byteResult x y c).2.2.2

end

end CarryOperation

end Z80Effects
