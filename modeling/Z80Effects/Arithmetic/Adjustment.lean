import Z80Effects.Word

/-!
# Sums, differences and decimal adjustment

Results of bytes and words modulo their width. The half carry leaves bit 3 of a byte or bit 11 of
a word; overflow is read off the signs of the operands and of the result.
-/
namespace Z80Effects

structure FlaggedResult (width : Nat) where
  value : BitVec width
  flags : Flags
  deriving DecidableEq

def carryIn (width : Nat) (carry : Bool) : BitVec width := BitVec.ofNat width carry.toNat

/-- Operands of one sign gave a result of the other. -/
def sumOverflows {width : Nat} (x y result : BitVec width) : Bool :=
  x.msb == y.msb && x.msb != result.msb

/-- Operands of two signs gave a result with the sign of the subtrahend. -/
def differenceOverflows {width : Nat} (x y result : BitVec width) : Bool :=
  x.msb != y.msb && y.msb == result.msb

namespace Byte

def add (x y : Byte) (carry : Bool) : FlaggedResult 8 :=
  let sum := x + y + carryIn 8 carry
  { value := sum
    flags := { Flags.signZero sum with
      half := x.toNat % 16 + y.toNat % 16 + carry.toNat > 0xF
      parity := sumOverflows x y sum
      carry := x.toNat + y.toNat + carry.toNat > 0xFF } }

def sub (x y : Byte) (borrow : Bool) : FlaggedResult 8 :=
  let difference := x - y - carryIn 8 borrow
  { value := difference
    flags := { Flags.signZero difference with
      half := x.toNat % 16 < y.toNat % 16 + borrow.toNat
      parity := differenceOverflows x y difference
      negative := true
      carry := x.toNat < y.toNat + borrow.toNat } }

/-- A comparison leaves the first operand as it is. Its undocumented flags come from the second
operand, all others from the difference. -/
def compare (x y : Byte) : FlaggedResult 8 :=
  { value := x, flags := (sub x y false).flags.copyBits y }

/-- One more. The carry flag is not part of the result. -/
def inc (x : Byte) : FlaggedResult 8 :=
  let next := x + 1
  { value := next
    flags := { Flags.signZero next with half := x.toNat % 16 == 0xF, parity := x == 0x7F } }

/-- One less. The carry flag is not part of the result. -/
def dec (x : Byte) : FlaggedResult 8 :=
  let previous := x - 1
  { value := previous
    flags := { Flags.signZero previous with
      half := x.toNat % 16 == 0, parity := x == 0x80, negative := true } }

end Byte

namespace Word

def high (w : Word) : Byte := w.extractLsb' 8 8

def low (w : Word) : Byte := w.extractLsb' 0 8

theorem high_ofBytes (high low : Byte) : (ofBytes high low).high = high := by
  have bound := low.isLt
  apply BitVec.eq_of_toNat_eq
  rw [Word.high, BitVec.extractLsb'_toNat, toNat_ofBytes, Nat.shiftRight_eq_div_pow]
  omega

theorem low_ofBytes (high low : Byte) : (ofBytes high low).low = low := by
  have bound := low.isLt
  apply BitVec.eq_of_toNat_eq
  rw [Word.low, BitVec.extractLsb'_toNat, toNat_ofBytes, Nat.shiftRight_eq_div_pow]
  omega

theorem ofBytes_high_low (w : Word) : ofBytes w.high w.low = w := by
  have bound := w.isLt
  apply BitVec.eq_of_toNat_eq
  rw [toNat_ofBytes, Word.high, Word.low, BitVec.extractLsb'_toNat, BitVec.extractLsb'_toNat,
    Nat.shiftRight_eq_div_pow, Nat.shiftRight_eq_div_pow]
  omega

/-- Flags copied from a word: the zero flag from all of it, the others from its high byte. -/
def signZero (w : Word) : Flags := { Flags.signZero w.high with zero := w == 0 }

/-- The sum of two words. Sign, zero and overflow are not part of the result. -/
def add (x y : Word) : FlaggedResult 16 :=
  let sum := x + y
  { value := sum
    flags := Flags.copyBits
      { half := x.toNat % 0x1000 + y.toNat % 0x1000 > 0xFFF, carry := x.toNat + y.toNat > 0xFFFF }
      sum.high }

def adc (x y : Word) (carry : Bool) : FlaggedResult 16 :=
  let sum := x + y + carryIn 16 carry
  { value := sum
    flags := { signZero sum with
      half := x.toNat % 0x1000 + y.toNat % 0x1000 + carry.toNat > 0xFFF
      parity := sumOverflows x y sum
      carry := x.toNat + y.toNat + carry.toNat > 0xFFFF } }

def sbc (x y : Word) (borrow : Bool) : FlaggedResult 16 :=
  let difference := x - y - carryIn 16 borrow
  { value := difference
    flags := { signZero difference with
      half := x.toNat % 0x1000 < y.toNat % 0x1000 + borrow.toNat
      parity := differenceOverflows x y difference
      negative := true
      carry := x.toNat < y.toNat + borrow.toNat } }

end Word

namespace Byte

/-- What a decimal adjustment adds or subtracts: six for each decimal digit that a sum carried
out of or that exceeds nine. -/
def decimalCorrection (x : Byte) (f : Flags) : Byte :=
  (if f.half || x.toNat % 16 > 9 then 0x06 else 0) |||
    (if f.carry || x.toNat > 0x99 then 0x60 else 0)

/-- The byte of two decimal digits that an addition or subtraction should have given. -/
def decimalAdjust (x : Byte) (f : Flags) : FlaggedResult 8 :=
  let correction := decimalCorrection x f
  let result := if f.negative then x - correction else x + correction
  { value := result
    flags := { Flags.signZeroParity result with
      half := if f.negative then f.half && x.toNat % 16 < 6 else x.toNat % 16 > 9
      negative := f.negative
      carry := f.carry || x.toNat > 0x99 } }

end Byte

end Z80Effects
