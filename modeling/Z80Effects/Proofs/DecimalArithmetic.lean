import Z80Effects.Proofs.LongArithmetic

/-!
# Decimal sums and differences

A byte can hold two decimal digits, one in each half. A sum or difference of such bytes, adjusted
afterwards, is that of the numbers that the digits stand for, and its carry is the decimal one: the
adjustment acts on each digit as a decimal adder with carry does. Going through numbers of any
length with the carry of each step, the exact result comes out digit by digit.
-/
namespace Z80Effects

namespace Byte

/-- Both halves of the byte are decimal digits. -/
def IsDecimal (b : Byte) : Prop := b.toNat / 16 ≤ 9 ∧ b.toNat % 16 ≤ 9

instance : DecidablePred IsDecimal := fun b =>
  inferInstanceAs (Decidable (b.toNat / 16 ≤ 9 ∧ b.toNat % 16 ≤ 9))

def decimal (b : Byte) : Nat := 10 * (b.toNat / 16) + b.toNat % 16

theorem IsDecimal.decimal_lt {b : Byte} (h : b.IsDecimal) : b.decimal < 100 := by
  unfold IsDecimal at h
  unfold decimal
  omega

def adjustsLow (x : Byte) (f : Flags) : Bool := f.half || x.toNat % 16 > 9

def adjustsHigh (x : Byte) (f : Flags) : Bool := f.carry || x.toNat > 0x99

theorem toNat_decimalCorrection (x : Byte) (f : Flags) : (decimalCorrection x f).toNat =
    6 * (adjustsLow x f).toNat + 96 * (adjustsHigh x f).toNat := by
  rw [decimalCorrection, ← adjustsLow, ← adjustsHigh]
  cases adjustsLow x f <;> cases adjustsHigh x f <;> rfl

theorem toNat_decimalAdjust (x : Byte) (f : Flags) : (decimalAdjust x f).value.toNat =
    if f.negative then (256 - (decimalCorrection x f).toNat + x.toNat) % 256
    else (x.toNat + (decimalCorrection x f).toNat) % 256 := by
  rw [decimalAdjust]
  split
  · exact BitVec.toNat_sub ..
  · exact BitVec.toNat_add ..

end Byte

namespace Bytes

/-- The number that bytes of two decimal digits stand for. -/
def decimal (bytes : List Byte) : Nat := Nat.ofDigits 100 (bytes.map Byte.decimal)

@[simp] theorem decimal_nil : decimal [] = 0 := rfl

@[simp] theorem decimal_cons (b : Byte) (bytes : List Byte) :
    decimal (b :: bytes) = b.decimal + 100 * decimal bytes := by
  simp [decimal, Nat.ofDigits_cons]

theorem decimal_lt {bytes : List Byte} (h : ∀ b ∈ bytes, b.IsDecimal) :
    decimal bytes < 100 ^ bytes.length := by
  have small : ∀ d ∈ bytes.map Byte.decimal, d < 100 := by
    simpa using fun b hb => (h b hb).decimal_lt
  simpa [decimal] using Nat.ofDigits_lt_base_pow_length (by decide) small

end Bytes

namespace CarryOperation

open Bytes

def decimalResult (op : CarryOperation) (x y : Byte) (c : Bool) : FlaggedResult 8 :=
  Byte.decimalAdjust (op.byteResult x y c).value (op.byteResult x y c).flags

/-- The adjusted results of all steps on two numbers of the same length. -/
def decimalResults (op : CarryOperation) (xs ys : List Byte) (c : Bool) : List (FlaggedResult 8) :=
  carryThrough (fun p c => op.decimalResult p.1 p.2 c) (xs.zip ys) c

/-- The bytes of a result hold the digits of the exact one, and the carry tells whether that leaves
the range of so many digits. -/
structure MeetsOnDecimals (op : CarryOperation) (xs ys : List Byte) (c : Bool) (rs : List Byte)
    (carry : Bool) : Prop where
  length : rs.length = xs.length
  isDecimal : ∀ b ∈ rs, b.IsDecimal
  result : (decimal rs : Int) = op.exact (decimal xs) (decimal ys) c % 100 ^ xs.length
  carry : carry ↔ op.exact (decimal xs) (decimal ys) c < 0 ∨
    100 ^ xs.length ≤ op.exact (decimal xs) (decimal ys) c

section
variable (op : CarryOperation) {x y : Byte}

def lowCarry (x y : Byte) (c : Bool) : Bool :=
  Byte.adjustsLow (op.byteResult x y c).value (op.byteResult x y c).flags

def highCarry (x y : Byte) (c : Bool) : Bool :=
  Byte.adjustsHigh (op.byteResult x y c).value (op.byteResult x y c).flags

theorem carry_decimalResult (x y : Byte) (c : Bool) :
    (op.decimalResult x y c).flags.carry = op.highCarry x y c := rfl

theorem lowCarry_iff (hx : x.IsDecimal) (hy : y.IsDecimal) (c : Bool) : op.lowCarry x y c ↔
    op.exact (x.toNat % 16 : Nat) (y.toNat % 16 : Nat) c < 0 ∨
      9 < op.exact (x.toNat % 16 : Nat) (y.toNat % 16 : Nat) c := by
  have result := (op.byteResult_meets x y c).result
  have half := (op.byteResult_meets x y c).half
  have carried := Bool.toNat_le c
  unfold Byte.IsDecimal at hx hy
  simp only [lowCarry, Byte.adjustsLow, Bool.or_eq_true, decide_eq_true_eq, half]
  cases op <;> simp only [exact] at result ⊢ <;> omega

/-- The high digit takes in the carry of the low one. -/
theorem highCarry_iff (hx : x.IsDecimal) (hy : y.IsDecimal) (c : Bool) : op.highCarry x y c ↔
    op.exact (x.toNat / 16 : Nat) (y.toNat / 16 : Nat) (op.lowCarry x y c) < 0 ∨
      9 < op.exact (x.toNat / 16 : Nat) (y.toNat / 16 : Nat) (op.lowCarry x y c) := by
  have result := (op.byteResult_meets x y c).result
  have carry := (op.byteResult_meets x y c).carry
  have low := op.lowCarry_iff hx hy c
  have carried := Bool.toNat_le c
  unfold Byte.IsDecimal at hx hy
  generalize op.lowCarry x y c = l at low
  simp only [highCarry, Byte.adjustsHigh, Bool.or_eq_true, decide_eq_true_eq, carry]
  cases op <;> cases l <;> simp [exact] at result low ⊢ <;> omega

/-- A decimal digit and the carry that goes with it. -/
theorem exists_digit {u v : Nat} (hu : u ≤ 9) (hv : v ≤ 9) {c carry : Bool}
    (h : carry ↔ op.exact u v c < 0 ∨ 9 < op.exact u v c) :
    ∃ d : Nat, d ≤ 9 ∧ op.exact u v c = d + 10 * op.exact 0 0 carry := by
  have carried := Bool.toNat_le c
  refine ⟨(op.exact u v c - 10 * op.exact 0 0 carry).toNat, ?_⟩
  cases op <;> cases carry <;> simp [exact] at h ⊢ <;> omega

/-- An adjusted result has decimal digits. With its carry in front, they are those of the exact
result. -/
theorem decimalResult_exact (hx : x.IsDecimal) (hy : y.IsDecimal) (c : Bool) :
    Byte.IsDecimal (op.decimalResult x y c).value ∧
      op.exact x.decimal y.decimal c = Byte.decimal (op.decimalResult x y c).value +
        100 * op.exact 0 0 (op.decimalResult x y c).flags.carry := by
  obtain ⟨low, hlow, lowExact⟩ := op.exists_digit hx.2 hy.2 (op.lowCarry_iff hx hy c)
  obtain ⟨high, hhigh, highExact⟩ := op.exists_digit hx.1 hy.1 (op.highCarry_iff hx hy c)
  -- the correction makes up for the six numbers that each half has too many
  have digits : (op.decimalResult x y c).value.toNat = 16 * high + low := by
    have adjusted := Byte.toNat_decimalAdjust (op.byteResult x y c).value
      (op.byteResult x y c).flags
    have result := (op.byteResult_meets x y c).result
    have lowLe := Bool.toNat_le (op.lowCarry x y c)
    have highLe := Bool.toNat_le (op.highCarry x y c)
    rw [Byte.toNat_decimalCorrection, ← lowCarry, ← highCarry, ← decimalResult] at adjusted
    cases op with
    | sum =>
      rw [if_neg (by simp [(byteResult_meets ..).negative])] at adjusted
      simp only [exact] at result lowExact highExact
      omega
    | difference =>
      rw [if_pos ((byteResult_meets ..).negative.mpr rfl)] at adjusted
      simp only [exact] at result lowExact highExact
      omega
  rw [carry_decimalResult]
  unfold Byte.IsDecimal Byte.decimal
  cases op <;> simp only [exact] at lowExact highExact ⊢ <;> omega

/-- An exact result comes from that of the low bytes and, with the carry of these, from that of the
rest. -/
theorem exact_decimal_cons (hx : x.IsDecimal) (hy : y.IsDecimal) (u v : Int) (c : Bool) :
    op.exact (x.decimal + 100 * u) (y.decimal + 100 * v) c =
      Byte.decimal (op.decimalResult x y c).value +
        100 * op.exact u v (op.decimalResult x y c).flags.carry := by
  have step := (op.decimalResult_exact hx hy c).2
  cases op <;> simp only [exact] at step ⊢ <;> omega

end

/-- All steps together leave the digits of the exact result with the last carry in front. -/
theorem decimalResults_digits (op : CarryOperation) {xs ys : List Byte}
    (same : xs.length = ys.length) (hx : ∀ b ∈ xs, b.IsDecimal) (hy : ∀ b ∈ ys, b.IsDecimal)
    (c : Bool) : (∀ r ∈ op.decimalResults xs ys c, Byte.IsDecimal r.value) ∧
      op.exact (decimal xs) (decimal ys) c =
        decimal ((op.decimalResults xs ys c).map (·.value)) +
          100 ^ xs.length * op.exact 0 0 (carryAfter (op.decimalResults xs ys c) c) := by
  induction xs generalizing ys c with
  | nil =>
    obtain rfl := List.length_eq_zero_iff.mp same.symm
    refine ⟨by simp [decimalResults, carryThrough], ?_⟩
    simp [decimalResults, carryThrough]
  | cons x xs ih =>
    obtain ⟨y, ys, rfl⟩ := List.exists_cons_of_length_eq_add_one same.symm
    obtain ⟨hx, hxs⟩ := List.forall_mem_cons.mp hx
    obtain ⟨hy, hys⟩ := List.forall_mem_cons.mp hy
    obtain ⟨digits, exact⟩ :=
      ih (by simpa using same) hxs hys (op.decimalResult x y c).flags.carry
    have results : op.decimalResults (x :: xs) (y :: ys) c = op.decimalResult x y c ::
        op.decimalResults xs ys (op.decimalResult x y c).flags.carry := rfl
    rw [results]
    constructor
    · exact List.forall_mem_cons.mpr ⟨(op.decimalResult_exact hx hy c).1, digits⟩
    · simp only [decimal_cons, List.map_cons, List.length_cons, carryAfter_cons]
      push_cast
      rw [op.exact_decimal_cons hx hy, exact]
      ring

/-- Decimal sums and differences of any length: the bytes are the decimal digits of the exact
result, reduced to as many digits as the operands have, and a carry is left over if the exact
result is negative or has more digits. -/
theorem decimalResults_exact (op : CarryOperation) {xs ys : List Byte}
    (same : xs.length = ys.length) (hx : ∀ b ∈ xs, b.IsDecimal) (hy : ∀ b ∈ ys, b.IsDecimal)
    (c : Bool) : op.MeetsOnDecimals xs ys c ((op.decimalResults xs ys c).map (·.value))
      (carryAfter (op.decimalResults xs ys c) c) := by
  obtain ⟨digits, exact⟩ := op.decimalResults_digits same hx hy c
  have length : ((op.decimalResults xs ys c).map (·.value)).length = xs.length := by
    simp [decimalResults, same]
  have isDecimal : ∀ b ∈ (op.decimalResults xs ys c).map (·.value), Byte.IsDecimal b := by
    simpa using digits
  have below : (decimal ((op.decimalResults xs ys c).map (·.value)) : Int) < 100 ^ xs.length := by
    exact_mod_cast length ▸ decimal_lt isDecimal
  generalize carryAfter (op.decimalResults xs ys c) c = carry at exact ⊢
  refine ⟨length, isDecimal, ?_, ?_⟩
  · rw [exact, Int.add_mul_emod_self_left, Int.emod_eq_of_lt (by omega) below]
  · rw [exact]
    cases op <;> cases carry <;> simp [CarryOperation.exact] <;> omega

/-- One less than a thousand. -/
theorem decimalResults_exact_borrow : [(0x00 : Byte), 0x10].length = [(0x01 : Byte), 0x00].length ∧
    (∀ b ∈ [(0x00 : Byte), 0x10], b.IsDecimal) ∧ (∀ b ∈ [(0x01 : Byte), 0x00], b.IsDecimal) ∧
      (difference.decimalResults [0x00, 0x10] [0x01, 0x00] false).map (·.value) = [0x99, 0x09] ∧
      difference.MeetsOnDecimals [0x00, 0x10] [0x01, 0x00] false [0x99, 0x09] false := by
  have same : [(0x00 : Byte), 0x10].length = [(0x01 : Byte), 0x00].length := rfl
  have hx : ∀ b ∈ [(0x00 : Byte), 0x10], b.IsDecimal := by decide
  have hy : ∀ b ∈ [(0x01 : Byte), 0x00], b.IsDecimal := by decide
  exact ⟨same, hx, hy, rfl, decimalResults_exact difference same hx hy false⟩

end CarryOperation

end Z80Effects
