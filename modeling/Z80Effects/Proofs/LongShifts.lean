import Z80Effects.Arithmetic.Rotation
import Z80Effects.Proofs.LongArithmetic

/-!
# Shifts of several bytes

A shift of a number goes through its bytes, from the least significant one if bits move up and from
the most significant one if they move down. The first byte may be shifted in any way; the others are
rotated through the carry, so that the bit that leaves one byte enters the next. Together the steps
double the number or halve it, and a rotation in one direction undoes one in the other.
-/
namespace Z80Effects

namespace Bytes

def topBit (bytes : List Byte) : Bool := (number bytes).testBit (8 * bytes.length - 1)

theorem two_mul_pow_length {bytes : List Byte} (h : bytes ≠ []) :
    256 ^ bytes.length = 2 * 2 ^ (8 * bytes.length - 1) := by
  have positive := List.length_pos_iff.mpr h
  rw [← pow_succ', show 8 * bytes.length - 1 + 1 = 8 * bytes.length by omega, pow_mul]
  rfl

theorem topBit_iff {bytes : List Byte} (h : bytes ≠ []) :
    topBit bytes ↔ 256 ^ bytes.length ≤ 2 * number bytes := by
  have below := number_lt bytes
  have half : 0 < 2 ^ (8 * bytes.length - 1) := by positivity
  have atMost := Nat.div_lt_iff_lt_mul (x := number bytes) (y := 2) half
  have atLeast := Nat.le_div_iff_mul_le (x := 1) (y := number bytes) half
  rw [two_mul_pow_length h] at below ⊢
  rw [topBit, Nat.testBit_eq_decide_div_mod_eq, decide_eq_true_eq]
  generalize number bytes / 2 ^ (8 * bytes.length - 1) = quotient at *
  omega

theorem topBit_append (bytes : List Byte) (b : Byte) : topBit (bytes ++ [b]) = b.msb := by
  have below := number_lt bytes
  rw [Bool.eq_iff_iff, topBit_iff (by simp), number_append, b.msb_eq_decide, decide_eq_true_eq]
  simp only [List.length_append, List.length_singleton, pow_succ, number_cons, number_nil,
    Nat.mul_zero, Nat.add_zero]
  generalize 256 ^ bytes.length = bound at *
  constructor
  · intro h
    by_contra small
    have := Nat.mul_le_mul_left bound (show b.toNat ≤ 127 by omega)
    omega
  · intro h
    have := Nat.mul_le_mul_left bound h
    omega

end Bytes

namespace ShiftOp

open Bytes

/-- The rotation through the carry that moves bits in the same direction. -/
def rotation (op : ShiftOp) : ShiftOp := if op.isLeft then rl else rr

/-- The bit that a shift moves in, at the end that falls empty. -/
def entering (op : ShiftOp) (x : Byte) (carry : Bool) : Bool :=
  match op with
  | rl | rr => carry
  | rlc | sra => x.msb
  | rrc => x.getLsbD 0
  | sla | srl => false
  | sll => true

theorem toNat_carryIn (c : Bool) : (carryIn 8 c).toNat = c.toNat := by
  cases c <;> rfl

theorem toNat_shifted_rl (x : Byte) (c : Bool) :
    (rl.shifted x c).toNat = 2 * (x.toNat % 128) + c.toNat := by
  have low : c.toNat < 2 ^ 1 := Bool.toNat_lt c
  have moved : (x <<< 1).toNat = 2 ^ 1 * (x.toNat % 128) := by
    rw [BitVec.toNat_shiftLeft, Nat.shiftLeft_eq]
    omega
  rw [shifted, BitVec.toNat_or, moved, toNat_carryIn, ← Nat.two_pow_add_eq_or_of_lt low, pow_one]

theorem toNat_shifted_rr (x : Byte) (c : Bool) :
    (rr.shifted x c).toNat = x.toNat / 2 + 128 * c.toNat := by
  have low : x.toNat / 2 < 2 ^ 7 := by omega
  have carried := Bool.toNat_le c
  have moved : (x >>> 1).toNat = x.toNat / 2 := by
    rw [BitVec.toNat_ushiftRight, Nat.shiftRight_eq_div_pow, pow_one]
  have top : (carryIn 8 c <<< 7).toNat = 2 ^ 7 * c.toNat := by
    rw [BitVec.toNat_shiftLeft, Nat.shiftLeft_eq, toNat_carryIn]
    omega
  rw [shifted, BitVec.toNat_or, top, moved, Nat.or_comm, ← Nat.two_pow_add_eq_or_of_lt low,
    Nat.add_comm]

theorem toNat_carryOut_rl (x : Byte) : (rl.carryOut x).toNat = x.toNat / 128 := by
  have bound := x.isLt
  rw [carryOut, if_pos (by rfl), BitVec.msb_eq_decide]
  by_cases h : 128 ≤ x.toNat <;> simp [h] <;> omega

theorem toNat_carryOut_rr (x : Byte) : (rr.carryOut x).toNat = x.toNat % 2 := by
  rw [carryOut, if_neg (by decide), BitVec.getLsbD, Nat.toNat_testBit, pow_zero, Nat.div_one]

/-- Every shift is a rotation through a carry. -/
theorem apply_eq_rotation (op : ShiftOp) (x : Byte) (c : Bool) :
    op.apply x c = op.rotation.apply x (op.entering x c) := by
  have top : x >>> 7 = carryIn 8 x.msb := by
    apply BitVec.eq_of_toNat_eq
    rw [toNat_carryIn, BitVec.toNat_ushiftRight, Nat.shiftRight_eq_div_pow]
    exact (toNat_carryOut_rl x).symm
  have bottom : x <<< 7 = carryIn 8 (x.getLsbD 0) <<< 7 := by
    have bit : (x.getLsbD 0).toNat = x.toNat % 2 := toNat_carryOut_rr x
    apply BitVec.eq_of_toNat_eq
    rw [BitVec.toNat_shiftLeft, BitVec.toNat_shiftLeft, toNat_carryIn, bit, Nat.shiftLeft_eq,
      Nat.shiftLeft_eq]
    omega
  have same : op.shifted x c = op.rotation.shifted x (op.entering x c) := by
    cases op with
    | rl | rr | sll => rfl
    | sla | srl => exact BitVec.or_zero.symm
    | rlc => exact congrArg (x <<< 1 ||| ·) top
    | rrc => exact congrArg (x >>> 1 ||| ·) bottom
    | sra =>
      have signed := x.msb_eq_decide
      apply BitVec.eq_of_toNat_eq
      rw [rotation, if_neg (by decide), toNat_shifted_rr, shifted, BitVec.toNat_sshiftRight]
      cases h : x.msb <;> simp [h, entering, Nat.shiftRight_eq_div_pow] at signed ⊢
      omega
  have direction : op.rotation.isLeft = op.isLeft := by
    cases op <;> rfl
  rw [apply, apply, same, carryOut, carryOut, direction]

/-- The steps of a shift through bytes in the order in which bits move. -/
def steps (op : ShiftOp) : List Byte → Bool → List (FlaggedResult 8)
  | [], _ => []
  | b :: bytes, c =>
      op.apply b c :: carryThrough op.rotation.apply bytes (op.apply b c).flags.carry

/-- The bytes after a shift of a number, and the carry that its last step leaves. -/
def shiftBytes (op : ShiftOp) (bytes : List Byte) (c : Bool) : List Byte × Bool :=
  if op.isLeft then
    ((op.steps bytes c).map (·.value), carryAfter (op.steps bytes c) c)
  else
    (((op.steps bytes.reverse c).map (·.value)).reverse, carryAfter (op.steps bytes.reverse c) c)

/-- The number is doubled, with the carry in front of its lowest bit, and loses its top bit. -/
structure Doubles (bytes : List Byte) (c : Bool) (rs : List Byte) (carry : Bool) : Prop where
  length : rs.length = bytes.length
  result : number rs = (2 * number bytes + c.toNat) % 256 ^ bytes.length
  carry : carry = topBit bytes

/-- The number is halved, with the carry as its top bit, and loses its lowest bit. -/
structure Halves (bytes : List Byte) (c : Bool) (rs : List Byte) (carry : Bool) : Prop where
  length : rs.length = bytes.length
  result : number rs = number bytes / 2 + c.toNat * (256 ^ bytes.length / 2)
  carry : carry.toNat = number bytes % 2

theorem steps_rl (bytes : List Byte) (c : Bool) :
    rl.steps bytes c = carryThrough rl.apply bytes c := by
  cases bytes <;> rfl

theorem steps_rr (bytes : List Byte) (c : Bool) :
    rr.steps bytes c = carryThrough rr.apply bytes c := by
  cases bytes <;> rfl

/-- A shift is a rotation that starts with the bit that enters the first byte. -/
theorem steps_cons (op : ShiftOp) (b : Byte) (bytes : List Byte) (c : Bool) :
    op.steps (b :: bytes) c = op.rotation.steps (b :: bytes) (op.entering b c) := by
  have twice : op.rotation.rotation = op.rotation := by
    cases op <;> rfl
  rw [steps, steps, twice, ← op.apply_eq_rotation]

/-- No bit is lost on the way up. -/
theorem number_carryThrough_rl (bytes : List Byte) (c : Bool) :
    number ((carryThrough rl.apply bytes c).map (·.value)) +
      256 ^ bytes.length * (carryAfter (carryThrough rl.apply bytes c) c).toNat =
        2 * number bytes + c.toNat := by
  induction bytes generalizing c with
  | nil => simp [carryThrough]
  | cons b bytes ih =>
    have value : (rl.apply b c).value.toNat = 2 * (b.toNat % 128) + c.toNat :=
      toNat_shifted_rl b c
    have carry : (rl.apply b c).flags.carry.toNat = b.toNat / 128 := toNat_carryOut_rl b
    have rest := ih (rl.apply b c).flags.carry
    rw [carry] at rest
    rw [carryThrough, List.map_cons, number_cons, value, carryAfter_cons, number_cons,
      List.length_cons, pow_succ', Nat.mul_assoc]
    omega

/-- No bit is lost on the way down. -/
theorem number_carryThrough_rr (bytes : List Byte) (c : Bool) :
    2 * number ((carryThrough rr.apply bytes c).map (·.value)).reverse +
      (carryAfter (carryThrough rr.apply bytes c) c).toNat =
        number bytes.reverse + 256 ^ bytes.length * c.toNat := by
  induction bytes generalizing c with
  | nil => simp [carryThrough]
  | cons b bytes ih =>
    have value : (rr.apply b c).value.toNat = b.toNat / 2 + 128 * c.toNat := toNat_shifted_rr b c
    have carry : (rr.apply b c).flags.carry.toNat = b.toNat % 2 := toNat_carryOut_rr b
    have rest := ih (rr.apply b c).flags.carry
    have bits := Nat.div_add_mod b.toNat 2
    rw [carry] at rest
    rw [carryThrough, List.map_cons, List.reverse_cons, List.reverse_cons, number_append,
      number_append, number_cons, number_cons, number_nil, value, carryAfter_cons,
      List.length_cons, pow_succ]
    simp only [List.length_reverse, List.length_map, length_carryThrough]
    linear_combination rest + 256 ^ bytes.length * bits

section
variable (bytes : List Byte) (c : Bool)

theorem number_shiftBytes_rl : number (rl.shiftBytes bytes c).1 +
    256 ^ bytes.length * (rl.shiftBytes bytes c).2.toNat = 2 * number bytes + c.toNat := by
  rw [shiftBytes, if_pos (by rfl), steps_rl]
  exact number_carryThrough_rl bytes c

theorem number_shiftBytes_rr : 2 * number (rr.shiftBytes bytes c).1 +
    (rr.shiftBytes bytes c).2.toNat = number bytes + 256 ^ bytes.length * c.toNat := by
  rw [shiftBytes, if_neg (by decide), steps_rr]
  simpa using number_carryThrough_rr bytes.reverse c

theorem length_shiftBytes_rl : (rl.shiftBytes bytes c).1.length = bytes.length := by
  rw [shiftBytes, if_pos (by rfl), steps_rl, List.length_map, length_carryThrough]

theorem length_shiftBytes_rr : (rr.shiftBytes bytes c).1.length = bytes.length := by
  rw [shiftBytes, if_neg (by decide), steps_rr, List.length_reverse, List.length_map,
    length_carryThrough, List.length_reverse]

variable {bytes}

theorem shiftBytes_rl_doubles (h : bytes ≠ []) :
    Doubles bytes c (rl.shiftBytes bytes c).1 (rl.shiftBytes bytes c).2 := by
  have length := length_shiftBytes_rl bytes c
  have whole := number_shiftBytes_rl bytes c
  have below := number_lt (rl.shiftBytes bytes c).1
  have even := two_mul_pow_length h
  have carried := Bool.toNat_le c
  rw [length] at below
  refine ⟨length, ?_, ?_⟩
  · rw [← whole, Nat.add_mul_mod_self_left, Nat.mod_eq_of_lt below]
  · rw [Bool.eq_iff_iff, topBit_iff h]
    cases out : (rl.shiftBytes bytes c).2 <;> simp [out] at whole ⊢ <;> omega

theorem shiftBytes_rr_halves (h : bytes ≠ []) :
    Halves bytes c (rr.shiftBytes bytes c).1 (rr.shiftBytes bytes c).2 := by
  have whole := number_shiftBytes_rr bytes c
  have carried := Bool.toNat_le (rr.shiftBytes bytes c).2
  have even := two_mul_pow_length h
  refine ⟨length_shiftBytes_rr bytes c, ?_, ?_⟩
  · cases c <;> simp at whole ⊢ <;> omega
  · cases c <;> simp at whole ⊢ <;> omega

/-- A rotation down undoes one up that has left its carry. -/
theorem shiftBytes_rr_shiftBytes_rl (bytes : List Byte) (c : Bool) :
    rr.shiftBytes (rl.shiftBytes bytes c).1 (rl.shiftBytes bytes c).2 = (bytes, c) := by
  have up := number_shiftBytes_rl bytes c
  have down := number_shiftBytes_rr (rl.shiftBytes bytes c).1 (rl.shiftBytes bytes c).2
  have length := length_shiftBytes_rr (rl.shiftBytes bytes c).1 (rl.shiftBytes bytes c).2
  rw [length_shiftBytes_rl] at down length
  generalize rr.shiftBytes _ (rl.shiftBytes bytes c).2 = back at down length ⊢
  have carried := Bool.toNat_le c
  have carried' := Bool.toNat_le back.2
  have same : number back.1 = number bytes := by omega
  have out : back.2.toNat = c.toNat := by omega
  refine Prod.ext (eq_of_number_eq length same) ?_
  rw [Bool.eq_iff_iff, ← Bool.toNat_eq_one, ← Bool.toNat_eq_one, out]

variable {op : ShiftOp}

/-- Upwards, the bit that enters the first byte decides. -/
theorem shiftBytes_cons (h : op.isLeft) (b : Byte) (bytes : List Byte) (c : Bool) :
    op.shiftBytes (b :: bytes) c = rl.shiftBytes (b :: bytes) (op.entering b c) := by
  have rotation : op.rotation = rl := if_pos h
  rw [shiftBytes, if_pos h, shiftBytes, if_pos (by rfl), op.steps_cons, rotation]
  rfl

/-- Downwards, the bit that enters the last byte decides. -/
theorem shiftBytes_append (h : ¬ op.isLeft) (bytes : List Byte) (b : Byte) (c : Bool) :
    op.shiftBytes (bytes ++ [b]) c = rr.shiftBytes (bytes ++ [b]) (op.entering b c) := by
  have rotation : op.rotation = rr := if_neg h
  rw [shiftBytes, if_neg h, shiftBytes, if_neg (by decide), List.reverse_append,
    List.reverse_singleton, List.singleton_append, op.steps_cons, rotation]
  rfl

end

/-- Shifts of numbers are exact: a rotation through the carry doubles a number on the way up, halves
it on the way down, and there undoes what it did on the way up with the carry that it left. The
shifts that take in a bit of their own are rotations that start with that bit as the carry. -/
theorem shiftBytes_exact {bytes : List Byte} (h : bytes ≠ []) (c : Bool) :
    Doubles bytes c (rl.shiftBytes bytes c).1 (rl.shiftBytes bytes c).2 ∧
      Halves bytes c (rr.shiftBytes bytes c).1 (rr.shiftBytes bytes c).2 ∧
      sla.shiftBytes bytes c = rl.shiftBytes bytes false ∧
      srl.shiftBytes bytes c = rr.shiftBytes bytes false ∧
      sra.shiftBytes bytes c = rr.shiftBytes bytes (topBit bytes) ∧
      rr.shiftBytes (rl.shiftBytes bytes c).1 (rl.shiftBytes bytes c).2 = (bytes, c) := by
  refine ⟨shiftBytes_rl_doubles c h, shiftBytes_rr_halves c h, ?_, ?_, ?_,
    shiftBytes_rr_shiftBytes_rl bytes c⟩
  · obtain ⟨b, rest, rfl⟩ := List.exists_cons_of_ne_nil h
    exact shiftBytes_cons (by rfl) b rest c
  · obtain ⟨rest, b, rfl⟩ := (List.eq_nil_or_concat' bytes).resolve_left h
    exact shiftBytes_append (by decide) rest b c
  · obtain ⟨rest, b, rfl⟩ := (List.eq_nil_or_concat' bytes).resolve_left h
    rw [topBit_append]
    exact shiftBytes_append (by decide) rest b c

/-- Two bytes whose top bits both move on, and the way back. -/
theorem shiftBytes_exact_twoBytes : [(0x80 : Byte), 0xC1] ≠ [] ∧
    Doubles [0x80, 0xC1] true [0x01, 0x83] true ∧
      rr.shiftBytes [0x01, 0x83] true = ([0x80, 0xC1], true) := by
  have nonempty : [(0x80 : Byte), 0xC1] ≠ [] := List.cons_ne_nil _ _
  obtain ⟨doubles, -, -, -, -, back⟩ := shiftBytes_exact nonempty true
  exact ⟨nonempty, doubles, back⟩

end ShiftOp

end Z80Effects
