import Mathlib.Data.List.Basic
import Mathlib.Data.Nat.Digits.Defs
import Mathlib.Tactic.LinearCombination
import Z80Effects.Proofs.CarryResults

/-!
# Sums and differences of several bytes

A list of bytes stands for a number, with the least significant byte first. Adding or subtracting
byte by byte, with the carry of each step going into the next, gives the exact result reduced to the
length of the operands. The flags of the last step tell which ranges the exact result leaves. For two
bytes they are those of the operation on words, except the zero flag.
-/
namespace Z80Effects

namespace Bytes

/-- The number that bytes stand for. -/
def number (bytes : List Byte) : Nat := Nat.ofDigits 256 (bytes.map BitVec.toNat)

/-- The number that bytes stand for in two's complement. -/
def signed (bytes : List Byte) : Int :=
  if 2 * number bytes < 256 ^ bytes.length then number bytes
  else number bytes - 256 ^ bytes.length

@[simp] theorem number_nil : number [] = 0 := rfl

@[simp] theorem number_cons (b : Byte) (bytes : List Byte) :
    number (b :: bytes) = b.toNat + 256 * number bytes := by
  simp [number, Nat.ofDigits_cons]

theorem number_append (low high : List Byte) :
    number (low ++ high) = number low + 256 ^ low.length * number high := by
  rw [number, List.map_append, Nat.ofDigits_append, List.length_map, number, number]

private theorem lt_of_mem_digits (bytes : List Byte) : ∀ d ∈ bytes.map BitVec.toNat, d < 256 := by
  simpa using fun b _ => b.isLt

theorem number_lt (bytes : List Byte) : number bytes < 256 ^ bytes.length := by
  simpa [number] using Nat.ofDigits_lt_base_pow_length (by decide) (lt_of_mem_digits bytes)

/-- Bytes are determined by the number that they stand for and by how many they are. -/
theorem eq_of_number_eq {bytes bytes' : List Byte} (length : bytes.length = bytes'.length)
    (same : number bytes = number bytes') : bytes = bytes' := by
  have digits : bytes.map BitVec.toNat = bytes'.map BitVec.toNat :=
    Nat.ofDigits_inj_of_len_eq (by decide) (by simpa using length) (lt_of_mem_digits bytes)
      (lt_of_mem_digits bytes') same
  exact (List.map_injective_iff.mpr fun _ _ => BitVec.eq_of_toNat_eq) digits

theorem signed_singleton (b : Byte) : signed [b] = b.toInt := by
  have value := b.toInt_eq_toNat_cond
  simp only [signed, number_cons, number_nil, List.length_singleton]
  split <;> split at value <;> omega

/-- A remainder is taken byte by byte. -/
theorem toNat_add_mul_emod (b : Byte) (e : Int) {m : Int} (hm : 0 < m) :
    (b.toNat + 256 * e) % (m * 256) = b.toNat + 256 * (e % m) := by
  have split := Int.emod_add_mul_ediv e m
  have nonneg := Int.emod_nonneg e hm.ne'
  have below := Int.emod_lt_of_pos e hm
  have low := b.isLt
  have whole : b.toNat + 256 * e = b.toNat + 256 * (e % m) + m * 256 * (e / m) := by
    linear_combination (-256) * split
  rw [whole, Int.add_mul_emod_self_left, Int.emod_eq_of_lt (by omega) (by omega)]

/-- Only the last byte carries the sign. -/
theorem signed_cons (b : Byte) {bytes : List Byte} (h : bytes ≠ []) :
    signed (b :: bytes) = b.toNat + 256 * signed bytes := by
  obtain ⟨top, rest, rfl⟩ := List.exists_cons_of_ne_nil h
  have low := b.isLt
  simp only [signed, number_cons b, List.length_cons, pow_succ]
  generalize number (top :: rest) = high
  generalize 256 ^ rest.length = bound
  split <;> split <;> push_cast <;> omega

end Bytes

/-- Steps through a list, each with the carry that the step before it left. -/
def carryThrough {α : Type} (step : α → Bool → FlaggedResult 8) :
    List α → Bool → List (FlaggedResult 8)
  | [], _ => []
  | x :: xs, carry => step x carry :: carryThrough step xs (step x carry).flags.carry

@[simp] theorem length_carryThrough {α : Type} (step : α → Bool → FlaggedResult 8) (xs : List α)
    (carry : Bool) : (carryThrough step xs carry).length = xs.length := by
  induction xs generalizing carry with
  | nil => rfl
  | cons x xs ih => rw [carryThrough, List.length_cons, List.length_cons, ih]

/-- The carry that the last step left, or the one before all steps if there is none. -/
def carryAfter (results : List (FlaggedResult 8)) (carry : Bool) : Bool :=
  results.getLast?.elim carry (·.flags.carry)

@[simp] theorem carryAfter_nil (carry : Bool) : carryAfter [] carry = carry := rfl

@[simp] theorem carryAfter_cons (r : FlaggedResult 8) (results : List (FlaggedResult 8))
    (carry : Bool) : carryAfter (r :: results) carry = carryAfter results r.flags.carry := by
  cases results with
  | nil => rfl
  | cons next results =>
    rw [carryAfter, carryAfter, List.getLast?_cons_cons]
    rfl

open Bytes

namespace CarryOperation

/-- The results of all steps on two numbers of the same length. -/
def byteResults (op : CarryOperation) (xs ys : List Byte) (c : Bool) : List (FlaggedResult 8) :=
  carryThrough (fun p c => op.byteResult p.1 p.2 c) (xs.zip ys) c

/-- The bytes of a result and the flags of its last step are those of the exact result: carry and
overflow are set if it leaves the range of that many bytes, without and with a sign. -/
structure MeetsOnNumbers (op : CarryOperation) (xs ys : List Byte) (c : Bool) (rs : List Byte)
    (f : Flags) : Prop where
  length : rs.length = xs.length
  result : (number rs : Int) = op.exact (number xs) (number ys) c % 256 ^ xs.length
  carry : f.carry ↔ op.exact (number xs) (number ys) c < 0 ∨
    256 ^ xs.length ≤ op.exact (number xs) (number ys) c
  parity : f.parity ↔ 2 * op.exact (signed xs) (signed ys) c < -256 ^ xs.length ∨
    256 ^ xs.length ≤ 2 * op.exact (signed xs) (signed ys) c
  sign : f.sign ↔ signed rs < 0

variable (op : CarryOperation)

/-- An exact result comes from that of the low bytes and, with the carry of these, from that of the
rest. -/
theorem exact_cons (x y : Byte) (u v : Int) (c : Bool) :
    op.exact (x.toNat + 256 * u) (y.toNat + 256 * v) c = (op.byteResult x y c).value.toNat +
      256 * op.exact u v (op.byteResult x y c).flags.carry := by
  have result := (op.byteResult_meets x y c).result
  have carry := (op.byteResult_meets x y c).carry
  have first := x.isLt
  have second := y.isLt
  have carried := Bool.toNat_le c
  cases next : (op.byteResult x y c).flags.carry with
  | false =>
    simp only [next, Bool.false_eq_true, false_iff, not_or] at carry
    cases op <;> simp only [exact, Bool.toNat_false] at result carry ⊢ <;> omega
  | true =>
    simp only [next, true_iff] at carry
    cases op <;> simp only [exact, Bool.toNat_true] at result carry ⊢ <;> omega

variable {op} {x y : Byte} {xs ys rs : List Byte} {c : Bool} {f : Flags}

theorem meetsOnNumbers_singleton (x y : Byte) (c : Bool) :
    op.MeetsOnNumbers [x] [y] c [(op.byteResult x y c).value] (op.byteResult x y c).flags := by
  have meets := op.byteResult_meets x y c
  constructor
  case length => rfl
  case result => simpa using meets.result
  case carry =>
    simp only [meets.carry, number_cons, number_nil, List.length_singleton, Nat.mul_zero,
      Nat.add_zero]
    omega
  case parity =>
    simp only [meets.parity, signed_singleton, List.length_singleton]
    omega
  case sign =>
    rw [meets.sign, signed_singleton]
    have value := toInt_cases (op.byteResult x y c).value
    omega

/-- One more step before the others. -/
theorem MeetsOnNumbers.cons (x y : Byte) (hx : xs ≠ []) (hy : ys ≠ [])
    (h : op.MeetsOnNumbers xs ys (op.byteResult x y c).flags.carry rs f) :
    op.MeetsOnNumbers (x :: xs) (y :: ys) c ((op.byteResult x y c).value :: rs) f := by
  have low := (op.byteResult x y c).value.isLt
  have unsigned := op.exact_cons x y (number xs) (number ys) c
  have withSign := op.exact_cons x y (signed xs) (signed ys) c
  have hr : rs ≠ [] := by
    intro none
    rw [none] at h
    exact hx (List.length_eq_zero_iff.mp h.length.symm)
  have even : (256 : Int) ^ xs.length = 2 * (128 * 256 ^ (xs.length - 1)) := by
    rw [← Int.mul_assoc]
    exact (mul_pow_sub_one (by simpa using hx) 256).symm
  constructor
  case length => simp [h.length]
  case result =>
    simp only [number_cons, List.length_cons, pow_succ]
    push_cast
    rw [unsigned, h.result, toNat_add_mul_emod _ _ (by positivity)]
  case carry =>
    rw [h.carry]
    simp only [number_cons, List.length_cons, pow_succ]
    push_cast
    rw [unsigned]
    omega
  case parity =>
    rw [h.parity, signed_cons x hx, signed_cons y hy, withSign, List.length_cons, pow_succ, even]
    omega
  case sign =>
    rw [h.sign, signed_cons _ hr]
    omega

/-- The bytes of all steps and the flags of the last one. -/
theorem exists_last_byteResults (op : CarryOperation) (same : xs.length = ys.length)
    (nonempty : xs ≠ []) (c : Bool) : ∃ last, (op.byteResults xs ys c).getLast? = some last ∧
      op.MeetsOnNumbers xs ys c ((op.byteResults xs ys c).map (·.value)) last.flags := by
  induction xs generalizing ys c with
  | nil => exact absurd rfl nonempty
  | cons x xs ih =>
    obtain ⟨y, ys, rfl⟩ := List.exists_cons_of_length_eq_add_one same.symm
    have same : xs.length = ys.length := by simpa using same
    cases xs with
    | nil =>
      obtain rfl := List.length_eq_zero_iff.mp same.symm
      exact ⟨op.byteResult x y c, rfl, meetsOnNumbers_singleton x y c⟩
    | cons x' xs =>
      have hy : ys ≠ [] := by
        rintro rfl
        cases same
      have hx : x' :: xs ≠ [] := List.cons_ne_nil _ _
      obtain ⟨last, ends, meets⟩ := ih same hx (op.byteResult x y c).flags.carry
      refine ⟨last, ?_, meets.cons x y hx hy⟩
      obtain ⟨y', ys, rfl⟩ := List.exists_cons_of_ne_nil hy
      exact (List.getLast?_cons_cons ..).trans ends

theorem natCast_ofBytes (high low : Byte) :
    ((Word.ofBytes high low).toNat : Int) = low.toNat + 256 * high.toNat := by
  rw [Word.toNat_ofBytes]
  omega

theorem toInt_ofBytes (high low : Byte) :
    (Word.ofBytes high low).toInt = low.toNat + 256 * high.toInt := by
  have word := (Word.ofBytes high low).toInt_eq_toNat_cond
  have value := Word.toNat_ofBytes high low
  have below := low.isLt
  have signed := high.toInt_eq_toNat_cond
  split at word <;> split at signed <;> omega

/-- The flags that the high byte of a word result decides. -/
theorem signs_result (x y : Word) (c : Bool) :
    (op.result x y c).flags.sign = (Word.high (op.result x y c).value).msb ∧
      (op.result x y c).flags.bit5 = (Word.high (op.result x y c).value).getLsbD 5 ∧
      (op.result x y c).flags.bit3 = (Word.high (op.result x y c).value).getLsbD 3 := by
  cases op <;> exact ⟨rfl, rfl, rfl⟩

/-- A word result comes from that of the low bytes and that of the high bytes with their carry. -/
theorem value_result_ofBytes (xh xl yh yl : Byte) (c : Bool) :
    (op.result (Word.ofBytes xh xl) (Word.ofBytes yh yl) c).value =
      Word.ofBytes (op.byteResult xh yh (op.byteResult xl yl c).flags.carry).value
        (op.byteResult xl yl c).value := by
  have word := op.toNat_result (Word.ofBytes xh xl) (Word.ofBytes yh yl) c
  have high := op.toNat_byteResult xh yh (op.byteResult xl yl c).flags.carry
  have low := (op.byteResult xl yl c).value.isLt
  rw [natCast_ofBytes, natCast_ofBytes, exact_cons] at word
  apply BitVec.eq_of_toNat_eq
  rw [Word.toNat_ofBytes]
  omega

/-- The flags of a word result are those of the high bytes, except the zero flag. -/
theorem get_flags_result_ofBytes (xh xl yh yl : Byte) (c : Bool) {flag : Flag}
    (h : flag ≠ .zero) :
    (op.result (Word.ofBytes xh xl) (Word.ofBytes yh yl) c).flags.get flag =
      (op.byteResult xh yh (op.byteResult xl yl c).flags.carry).flags.get flag := by
  have word := op.result_meets (Word.ofBytes xh xl) (Word.ofBytes yh yl) c
  have wordSigns := op.signs_result (Word.ofBytes xh xl) (Word.ofBytes yh yl) c
  have bytes := op.byteResult_meets xh yh (op.byteResult xl yl c).flags.carry
  have byteSigns := op.signZero_byteResult xh yh (op.byteResult xl yl c).flags.carry
  have low := (op.byteResult xl yl c).value.isLt
  rw [value_result_ofBytes, Word.high_ofBytes] at wordSigns
  cases flag with
  | zero => exact absurd rfl h
  | sign => exact wordSigns.1.trans byteSigns.1.symm
  | bit5 => exact wordSigns.2.1.trans byteSigns.2.2.1.symm
  | bit3 => exact wordSigns.2.2.trans byteSigns.2.2.2.symm
  | negative => exact Bool.eq_iff_iff.mpr (word.negative.trans bytes.negative.symm)
  | carry =>
    refine Bool.eq_iff_iff.mpr (word.carry.trans (Iff.trans ?_ bytes.carry.symm))
    rw [natCast_ofBytes, natCast_ofBytes, exact_cons]
    omega
  | half =>
    have digits (high low : Byte) : (((Word.ofBytes high low).toNat : Int) % 4096) =
        low.toNat + 256 * (high.toNat % 16) := by
      have below := low.isLt
      rw [natCast_ofBytes]
      omega
    refine Bool.eq_iff_iff.mpr (word.half.trans (Iff.trans ?_ bytes.half.symm))
    rw [digits, digits, exact_cons]
    omega
  | parity =>
    refine Bool.eq_iff_iff.mpr (word.parity.trans (Iff.trans ?_ bytes.parity.symm))
    rw [toInt_ofBytes, toInt_ofBytes, exact_cons]
    omega

/-- Sums and differences byte by byte are those of the whole numbers. On two bytes they agree with
the operation on words in the result and all flags but the zero flag. -/
theorem byteResults_exact (op : CarryOperation) (xs ys : List Byte) (c : Bool)
    (same : xs.length = ys.length) (nonempty : xs ≠ []) :
    ∃ last, (op.byteResults xs ys c).getLast? = some last ∧
      op.MeetsOnNumbers xs ys c ((op.byteResults xs ys c).map (·.value)) last.flags ∧
      ∀ xl xh yl yh, xs = [xl, xh] → ys = [yl, yh] →
        let word := op.result (Word.ofBytes xh xl) (Word.ofBytes yh yl) c
        (op.byteResults xs ys c).map (·.value) = [Word.low word.value, Word.high word.value] ∧
          ∀ flag ≠ .zero, last.flags.get flag = word.flags.get flag := by
  obtain ⟨last, ends, meets⟩ := op.exists_last_byteResults same nonempty c
  refine ⟨last, ends, meets, ?_⟩
  rintro xl xh yl yh rfl rfl
  obtain rfl : op.byteResult xh yh (op.byteResult xl yl c).flags.carry = last :=
    Option.some.inj ends
  constructor
  · rw [value_result_ofBytes, Word.low_ofBytes, Word.high_ofBytes]
    rfl
  · intro flag h
    exact (op.get_flags_result_ofBytes xh xl yh yl c h).symm

/-- One more than the greatest number of two bytes with a sign. -/
theorem byteResults_exact_overflow :
    [(0xFF : Byte), 0x7F].length = [(0x01 : Byte), 0x00].length ∧ [(0xFF : Byte), 0x7F] ≠ [] ∧
      ∃ last, (sum.byteResults [0xFF, 0x7F] [0x01, 0x00] false).getLast? = some last ∧
        last.flags.parity ∧ last.flags.sign ∧ ¬ last.flags.carry := by
  have same : [(0xFF : Byte), 0x7F].length = [(0x01 : Byte), 0x00].length := rfl
  have nonempty : [(0xFF : Byte), 0x7F] ≠ [] := List.cons_ne_nil _ _
  obtain ⟨last, ends, meets, -⟩ :=
    byteResults_exact sum [0xFF, 0x7F] [0x01, 0x00] false same nonempty
  refine ⟨same, nonempty, last, ends, meets.parity.mpr ?_, meets.sign.mpr ?_, fun carry => ?_⟩
  · decide
  · decide
  · exact absurd (meets.carry.mp carry) (by decide)

end CarryOperation

end Z80Effects
