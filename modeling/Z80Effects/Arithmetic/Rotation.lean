import Z80Effects.Arithmetic.Adjustment
import Z80Effects.Instruction

/-!
# Rotations, shifts and operations on single bits

Shifts move a byte by one bit. The operations on single bits are the test of one, the inversion of
the carry, and that of all bits of the accumulator.
-/
namespace Z80Effects

namespace ShiftOp

/-- The shifted byte. Rotations through the carry take it in at the end that falls empty. -/
def shifted (op : ShiftOp) (x : Byte) (carry : Bool) : Byte :=
  match op with
  | rlc => x.rotateLeft 1
  | rrc => x.rotateRight 1
  | rl => x <<< 1 ||| carryIn 8 carry
  | rr => x >>> 1 ||| carryIn 8 carry <<< 7
  | sla => x <<< 1
  | sra => x.sshiftRight 1
  | sll => x <<< 1 ||| 1
  | srl => x >>> 1

def isLeft : ShiftOp → Bool
  | rlc | rl | sla | sll => true
  | rrc | rr | sra | srl => false

def carryOut (op : ShiftOp) (x : Byte) : Bool := if op.isLeft then x.msb else x.getLsbD 0

def apply (op : ShiftOp) (x : Byte) (carry : Bool) : FlaggedResult 8 :=
  let result := op.shifted x carry
  { value := result
    flags := { Flags.signZeroParity result with carry := op.carryOut x } }

/-- The short rotations of the accumulator keep sign, zero and parity. -/
def applyShort (op : ShiftOp) (x : Byte) (f : Flags) : FlaggedResult 8 :=
  let result := op.shifted x f.carry
  { value := result
    flags := Flags.copyBits { f with half := false, negative := false, carry := op.carryOut x }
      result }

end ShiftOp

def Byte.complement (x : Byte) (f : Flags) : FlaggedResult 8 :=
  let result := ~~~x
  { value := result, flags := Flags.copyBits { f with half := true, negative := true } result }

namespace Flags

/-- The carry inverted; its old value goes to the half carry. -/
def invertCarry (f : Flags) (accumulator : Byte) : Flags :=
  copyBits { f with half := f.carry, negative := false, carry := !f.carry } accumulator

/-- Flags after a test of one bit, from the operand with all other bits cleared. -/
def ofBitTest (f : Flags) (masked : Byte) : Flags where
  sign := masked.msb
  zero := masked == 0
  bit5 := masked.getLsbD 5
  half := true
  bit3 := masked.getLsbD 3
  parity := masked == 0
  carry := f.carry

end Flags

end Z80Effects
