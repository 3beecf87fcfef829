import Z80Effects.Effect.Instruction
import Z80Effects.Proofs.MachineUpdates
import Z80Effects.Proofs.Outcome

/-!
# Bits of the flag register

A flag is read off the flag register under its mask, and is set or cleared in place by the same
mask. Where the register holds a byte, this replaces the flag and leaves the others. The test of a
branch condition is true if the condition holds.
-/
namespace Z80Effects

namespace Value

theorem toByte_ofByte (b : Byte) : (ofByte b).toByte = b := by
  simp

theorem toWord_ofWord (w : Word) : (ofWord w).toWord = w := by
  simp

theorem ofByte_bne_zero (b : Byte) : (ofByte b != 0#32) = (b != 0) := by
  have zero : ofByte b = 0#32 ↔ b = 0 := by
    bv_omega
  rw [Bool.eq_iff_iff, bne_iff_ne, bne_iff_ne, ne_eq, zero]

theorem ofWord_bne_zero (w : Word) : (ofWord w != 0#32) = (w != 0) := by
  have zero : ofWord w = 0#32 ↔ w = 0 := by
    bv_omega
  rw [Bool.eq_iff_iff, bne_iff_ne, bne_iff_ne, ne_eq, zero]

/-- A narrow mask leaves a narrow number. -/
theorem and_setWidth {k : Nat} (v : Value) (b : BitVec k) :
    v &&& b.setWidth 32 = (v.setWidth k &&& b).setWidth 32 := by
  apply BitVec.eq_of_getLsbD_eq
  intro i hi
  simp only [BitVec.getLsbD_and, BitVec.getLsbD_setWidth]
  by_cases hk : i < k
  · simp [hi, hk]
  · simp [hk, BitVec.getLsbD_of_ge b i (by omega)]

theorem and_byteMask (v : Value) : v &&& 255#32 = ofByte v.toByte := by
  rw [show 255#32 = ofByte (.allOnes 8) from rfl, v.and_setWidth, BitVec.and_allOnes]

theorem and_wordMask (v : Value) : v &&& 65535#32 = ofWord v.toWord := by
  rw [show 65535#32 = ofWord (.allOnes 16) from rfl, v.and_setWidth, BitVec.and_allOnes]

theorem ofByte_and_complement (x y : Byte) :
    ofByte x &&& ~~~ofByte y = ofByte (x &&& ~~~y) := by
  apply BitVec.eq_of_getLsbD_eq
  intro i hi
  by_cases h : i < 8
  · simp [hi, h]
  · simp [h, BitVec.getLsbD_of_ge x i (by omega)]

end Value

namespace Flag

theorem ofByte_mask (f : Flag) : Value.ofByte f.mask = BitVec.twoPow 32 f.position := by
  cases f <;> decide

theorem position_lt (f : Flag) : f.position < 8 := by
  cases f <;> decide

/-- Under the mask of a flag, its mask is left if the flag is set. -/
theorem and_mask (f : Flag) (v : Value) : v &&& .ofByte f.mask =
    if (Flags.ofByte v.toByte).get f then .ofByte f.mask else 0 := by
  rw [f.ofByte_mask, BitVec.and_twoPow, Flags.get_ofByte, BitVec.getLsbD_setWidth,
    decide_eq_true f.position_lt, Bool.true_and]
  rfl

theorem and_mask_beq_zero (f : Flag) (v : Value) :
    (v &&& .ofByte f.mask == 0#32) = !(Flags.ofByte v.toByte).get f := by
  rw [f.and_mask]
  cases (Flags.ofByte v.toByte).get f with
  | false => rfl
  | true => cases f <;> rfl

theorem and_mask_bne_zero (f : Flag) (v : Value) :
    (v &&& .ofByte f.mask != 0#32) = (Flags.ofByte v.toByte).get f := by
  rw [bne, f.and_mask_beq_zero, Bool.not_not]

theorem and_mask_ne_zero_iff (f : Flag) (v : Value) :
    v &&& .ofByte f.mask ≠ 0 ↔ (Flags.ofByte v.toByte).get f = true := by
  rw [← f.and_mask_bne_zero, bne_iff_ne]
  rfl

/-- Under the mask of a flag, a shifted number is the mask if the bit that the shift brings there
is set. -/
theorem sshiftRight_and_mask (f : Flag) (v : Value) {n : Nat} (hn : n ≤ 24) :
    v.sshiftRight n &&& Value.ofByte f.mask =
      if v.getLsbD (n + f.position) then Value.ofByte f.mask else 0 := by
  have bit : (Value.toByte (v.sshiftRight n)).getLsbD f.position = v.getLsbD (n + f.position) := by
    have position := f.position_lt
    rw [BitVec.getLsbD_setWidth, BitVec.getLsbD_sshiftRight, if_pos (by omega),
      decide_eq_true position, decide_eq_false (by omega), Bool.not_false, Bool.true_and,
      Bool.true_and]
  rw [f.and_mask, Flags.get_ofByte, bit]

end Flag

set_option maxRecDepth 4000 in
/-- What is left of a byte of flags under the masks of sign, zero and carry. -/
theorem Flags.and_signZeroCarry (b : Byte) : b &&& 0xC1 =
    ({ sign := (ofByte b).sign, zero := (ofByte b).zero, carry := (ofByte b).carry } :
      Flags).toByte := by
  revert b; decide

namespace Flags

/-- The flags with one of them replaced. -/
def put (f : Flags) (b : Bool) : Flag → Flags
  | .sign => { f with sign := b } | .zero => { f with zero := b }
  | .bit5 => { f with bit5 := b } | .half => { f with half := b }
  | .bit3 => { f with bit3 := b } | .parity => { f with parity := b }
  | .negative => { f with negative := b } | .carry => { f with carry := b }

/-- Two bytes with the same flags are equal. -/
theorem ofByte_injective {b b' : Byte} (h : ofByte b = ofByte b') : b = b' := by
  rw [← toByte_ofByte b, h, toByte_ofByte]

theorem ofByte_or_mask (b : Byte) (flag : Flag) :
    ofByte (b ||| flag.mask) = (ofByte b).put true flag := by
  cases flag <;> simp [ofByte, put, Flag.mask]

theorem ofByte_and_complement_mask (b : Byte) (flag : Flag) :
    ofByte (b &&& ~~~flag.mask) = (ofByte b).put false flag := by
  cases flag <;> simp [ofByte, put, Flag.mask]

theorem toByte_or_mask (f : Flags) (flag : Flag) :
    f.toByte ||| flag.mask = (f.put true flag).toByte := by
  apply ofByte_injective
  rw [ofByte_or_mask, ofByte_toByte, ofByte_toByte]

theorem toByte_and_complement_mask (f : Flags) (flag : Flag) :
    f.toByte &&& ~~~flag.mask = (f.put false flag).toByte := by
  apply ofByte_injective
  rw [ofByte_and_complement_mask, ofByte_toByte, ofByte_toByte]

end Flags

namespace Machine

variable (m : Machine)

@[simp] theorem setFlags_setFlags (f g : Flags) : (m.setFlags f).setFlags g = m.setFlags g := by
  rw [setFlags, setFlags, setFlags, setReg, setReg, setReg, set_set_self]

@[simp] theorem reg_setFlags_self (f : Flags) : (m.setFlags f).reg .f = .ofByte f.toByte := by
  rw [setFlags, reg_setReg_self]

/-- The flags that a setting of the flag register leaves. -/
@[simp] theorem flags_setFlags (f : Flags) : (m.setFlags f).flags = f := by
  rw [flags, reg_setFlags_self, Value.toByte_ofByte, Flags.ofByte_toByte]

theorem get_setFlags_of_ne {name : String} (f : Flags) (h : ¬ Register.f.name = name) :
    (m.setFlags f).get name = m.get name := by
  rw [setFlags_eq_set, get_set_of_ne _ _ h]

theorem pair_setFlags {p : RegisterPair} (hp : ¬ p = .af) (f : Flags) :
    (m.setFlags f).pair p = m.pair p := by
  rw [setFlags_eq_set, pair_set_of_ne] <;> revert hp <;> cases p <;> decide

/-- The flag register is set before another register or after it. -/
theorem set_setFlags {name : String} (f : Flags) (v : Value) (h : ¬ Register.f.name = name) :
    (m.setFlags f).set name v = (m.set name v).setFlags f := by
  rw [setFlags_eq_set, setFlags_eq_set, set_comm _ h]

theorem setPair_setFlags {p : RegisterPair} (hp : ¬ p = .af) (f : Flags) (v : Value) :
    (m.setFlags f).setPair p v = (m.setPair p v).setFlags f := by
  have halves : ¬ Register.f.name = p.high.name ∧ ¬ Register.f.name = p.low.name := by
    revert hp
    cases p <;> decide
  rw [setPair_eq_set, setPair_eq_set, set_setFlags _ _ _ halves.1, set_setFlags _ _ _ halves.2]

end Machine

namespace Effect

variable (holes : Hole → Value) (m : Machine)

theorem outcome_setFlag (f : Flags) (flag : Flag) :
    (setFlag flag).outcome holes (m.setFlags f) = (.continued, m.setFlags (f.put true flag)) := by
  rw [setFlag, Stmt.outcome_assign_register, Expr.outcome_flagMask]
  simp only [AssignOp.apply, Machine.reg_setFlags_self]
  rw [← BitVec.setWidth_or, f.toByte_or_mask, ← Machine.setFlags, Machine.setFlags_setFlags]

theorem outcome_clearFlag (f : Flags) (flag : Flag) :
    (clearFlag flag).outcome holes (m.setFlags f) = (.continued, m.setFlags (f.put false flag)) := by
  rw [clearFlag, Stmt.outcome_assign_register, Expr.outcome_complement, Expr.outcome_flagMask]
  simp only [AssignOp.apply, Machine.reg_setFlags_self]
  rw [Value.ofByte_and_complement, f.toByte_and_complement_mask, ← Machine.setFlags,
    Machine.setFlags_setFlags]

theorem outcome_flagBit (f : Flag) :
    (flagBit f).outcome holes m = (m.reg .f &&& .ofByte f.mask, m) := by
  simp [flagBit]

/-- The test of a condition is true if the condition holds. -/
theorem outcome_holds (k : Condition) :
    (Effect.holds k).outcome holes m = (.ofBool (k.holds m.flags), m) := by
  unfold Effect.holds Condition.holds Machine.flags
  cases k.whenSet with
  | false =>
    simp only [Bool.false_eq_true, if_false, Expr.outcome_equals, Expr.outcome_ofNat,
      outcome_flagBit, Flag.and_mask_beq_zero, beq_false]
  | true =>
    simp only [if_true, Expr.outcome_differs, Expr.outcome_ofNat, outcome_flagBit,
      Flag.and_mask_bne_zero, beq_true]

/-- The test of a relative jump agrees with that of the other branches. -/
theorem outcome_holdsRelative (k : Condition) :
    (holdsRelative k).outcome holes m = (.ofBool (k.holds m.flags), m) := by
  have isSet : ((flagBit k.flag).differs 0).outcome holes m =
      (.ofBool (m.flags.get k.flag), m) := by
    simp only [Expr.outcome_differs, Expr.outcome_ofNat, outcome_flagBit, Flag.and_mask_bne_zero,
      Machine.flags]
  unfold holdsRelative Condition.holds
  cases k.whenSet with
  | false =>
    simp only [Bool.false_eq_true, if_false, Expr.outcome_unary, isSet, UnaryOp.apply, beq_false]
    cases m.flags.get k.flag <;> rfl
  | true => simp only [if_true, isSet, beq_true]

end Effect

/-- The flag that decides on a condition is set in the flag register if the condition wants it set,
and clear otherwise. -/
def Machine.Meets (m : Machine) (k : Condition) : Prop :=
  m.reg .f &&& .ofByte k.flag.mask ≠ 0 ↔ k.whenSet = true

theorem Machine.meets_iff_holds (m : Machine) (k : Condition) :
    m.Meets k ↔ k.holds m.flags = true := by
  rw [Meets, Flag.and_mask_ne_zero_iff, ← Bool.eq_iff_iff, Condition.holds, beq_iff_eq, flags]

namespace Condition

/-- The condition on the same flag that holds if this one does not. -/
def opposite : Condition → Condition
  | nz => z | z => nz | nc => c | c => nc | po => pe | pe => po | p => m | m => p

theorem flag_opposite (k : Condition) : k.opposite.flag = k.flag := by
  cases k <;> rfl

theorem whenSet_opposite (k : Condition) : k.opposite.whenSet = !k.whenSet := by
  cases k <;> rfl

end Condition

/-- Exactly one of a condition and its opposite is met. -/
theorem Machine.meets_opposite_iff (m : Machine) (k : Condition) :
    m.Meets k.opposite ↔ ¬ m.Meets k := by
  simp only [Meets, k.flag_opposite, k.whenSet_opposite]
  cases k.whenSet <;> simp

end Z80Effects
