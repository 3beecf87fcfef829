/-!
# Machine words, written numbers and flags

Bytes, addresses and the 32-bit values of expressions; the decimal and hexadecimal form of a value;
and the flag register, with the flags that a result byte alone decides.
-/
namespace Z80Effects

/-- Content of a memory cell, a port or an eight-bit register. -/
abbrev Byte := BitVec 8

/-- Address of a memory cell, or content of a register pair. -/
abbrev Word := BitVec 16

/-- Value of an expression or a named variable: a 32-bit integer in two's complement. -/
abbrev Value := BitVec 32

namespace Value

def ofBool (b : Bool) : Value := if b then 1 else 0

abbrev toByte (v : Value) : Byte := v.setWidth 8

abbrev toWord (v : Value) : Word := v.setWidth 16

/-- A byte as a non-negative number. -/
abbrev ofByte (b : Byte) : Value := b.setWidth 32

/-- A word as a non-negative number. -/
abbrev ofWord (w : Word) : Value := w.setWidth 32

@[simp] theorem ofBool_true : ofBool true = 1 := rfl
@[simp] theorem ofBool_false : ofBool false = 0 := rfl

@[simp] theorem ofBool_eq_zero_iff (b : Bool) : ofBool b = 0 ↔ b = false := by
  cases b <;> decide

end Value

/-- The byte whose only set bit is bit `n`. -/
def Byte.singleBit (n : Fin 8) : Byte := 1 <<< n.val

def Word.ofBytes (high low : Byte) : Word := high ++ low

@[simp] theorem Word.toNat_ofBytes (high low : Byte) :
    (Word.ofBytes high low).toNat = 256 * high.toNat + low.toNat := by
  rw [Word.ofBytes, BitVec.toNat_append, ← Nat.shiftLeft_add_eq_or_of_lt low.isLt,
    Nat.shiftLeft_eq, Nat.mul_comm]

/-- Size of a banked page. Branch targets and return addresses are reduced by it. -/
def pageSize : Nat := 0x4000

namespace Numeral

/-- The sign of a written number, which only negative numbers have. -/
def sign (v : Value) : String := if v.msb then "-" else ""

def magnitude (v : Value) : Nat := v.toInt.natAbs

def decimalDigits (n : Nat) : String := String.ofList (Nat.toDigits 10 n)

/-- Upper-case hexadecimal digits, filled up with zeros to the given width. -/
def hexDigits (width n : Nat) : String :=
  let digits := (Nat.toDigits 16 n).map Char.toUpper
  String.ofList (List.replicate (width - digits.length) '0' ++ digits)

def decimal (v : Value) : String := sign v ++ decimalDigits (magnitude v)

def signedDecimal (v : Value) : String :=
  (if v.msb then "-" else "+") ++ decimalDigits (magnitude v)

/-- A number in hexadecimal: two digits if they suffice for its magnitude, otherwise at least
four. -/
def hex (v : Value) : String :=
  sign v ++ "0x" ++ hexDigits (if magnitude v ≤ 0xFF then 2 else 4) (magnitude v)

end Numeral

/-- Names of the flag bits. The two bits without a documented meaning copy a result bit. -/
inductive Flag
  | sign | zero | bit5 | half | bit3 | parity | negative | carry
  deriving DecidableEq

namespace Flag

def position : Flag → Nat
  | .sign => 7 | .zero => 6 | .bit5 => 5 | .half => 4
  | .bit3 => 3 | .parity => 2 | .negative => 1 | .carry => 0

/-- The flag register with this bit alone set. -/
def mask : Flag → Byte
  | .sign => 0x80 | .zero => 0x40 | .bit5 => 0x20 | .half => 0x10
  | .bit3 => 0x08 | .parity => 0x04 | .negative => 0x02 | .carry => 0x01

theorem mask_eq_shift (f : Flag) : f.mask = 1 <<< f.position := by
  cases f <;> rfl

end Flag

structure Flags where
  sign : Bool := false
  zero : Bool := false
  bit5 : Bool := false
  half : Bool := false
  bit3 : Bool := false
  parity : Bool := false
  negative : Bool := false
  carry : Bool := false
  deriving DecidableEq

namespace Flags

def get (f : Flags) : Flag → Bool
  | .sign => f.sign | .zero => f.zero | .bit5 => f.bit5 | .half => f.half
  | .bit3 => f.bit3 | .parity => f.parity | .negative => f.negative | .carry => f.carry

def toByte (f : Flags) : Byte :=
  let weigh (flag : Flag) : Byte := if f.get flag then flag.mask else 0
  weigh .sign ||| weigh .zero ||| weigh .bit5 ||| weigh .half |||
    weigh .bit3 ||| weigh .parity ||| weigh .negative ||| weigh .carry

def ofByte (b : Byte) : Flags where
  sign := b.getLsbD 7
  zero := b.getLsbD 6
  bit5 := b.getLsbD 5
  half := b.getLsbD 4
  bit3 := b.getLsbD 3
  parity := b.getLsbD 2
  negative := b.getLsbD 1
  carry := b.getLsbD 0

@[simp] theorem get_ofByte (b : Byte) (f : Flag) : (ofByte b).get f = b.getLsbD f.position := by
  cases f <;> rfl

set_option maxRecDepth 4000 in
@[simp] theorem toByte_ofByte (b : Byte) : (ofByte b).toByte = b := by
  revert b; decide

@[simp] theorem ofByte_toByte (f : Flags) : ofByte f.toByte = f := by
  obtain ⟨s, z, y, h, x, p, n, c⟩ := f
  cases s <;> cases z <;> cases y <;> cases h <;> cases x <;> cases p <;> cases n <;>
    cases c <;> rfl

end Flags

/-- A byte has even parity if an even number of its bits is set. -/
def evenParity (b : Byte) : Bool := (List.range 8).countP b.getLsbD % 2 == 0

namespace Flags

/-- Flags copied from a result: sign, zero and the two undocumented bits. -/
def signZero (b : Byte) : Flags where
  sign := b.msb
  zero := b == 0
  bit5 := b.getLsbD 5
  bit3 := b.getLsbD 3

/-- Flags copied from a result, and its parity. -/
def signZeroParity (b : Byte) : Flags :=
  { signZero b with parity := evenParity b }

/-- These flags with the undocumented bits taken from a byte. -/
def copyBits (f : Flags) (b : Byte) : Flags :=
  { f with bit5 := b.getLsbD 5, bit3 := b.getLsbD 3 }

end Flags

/-- Tables of flags that an expression can consult, indexed by a byte. -/
inductive FlagTable
  | signZero | signZeroParity
  deriving DecidableEq

namespace FlagTable

def name : FlagTable → String
  | .signZero => "SZ_TABLE"
  | .signZeroParity => "SZP_TABLE"

def ofName? (name : String) : Option FlagTable :=
  [signZero, signZeroParity].find? (·.name == name)

def entry : FlagTable → Byte → Flags
  | .signZero => Flags.signZero
  | .signZeroParity => Flags.signZeroParity

@[simp] theorem ofName?_name (t : FlagTable) : ofName? t.name = some t := by
  cases t <;> rfl

theorem name_of_ofName? {n : String} {t : FlagTable} (h : ofName? n = some t) : t.name = n := by
  simpa using List.find?_some h

end FlagTable

end Z80Effects
