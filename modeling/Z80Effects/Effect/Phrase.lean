import Z80Effects.Program.Template

/-!
# Refusals and shared phrases

Not every combination of operand forms has an encoding. A refusal records what is at fault: one
operand, a pair of operands that do not go together, or a bit number beyond a byte. The phrases are
expressions and statements that the effects of many instructions share.
-/
namespace Z80Effects

inductive Culprit
  | register (reg : Register)
  | word (w : WordRegister)
  | condition (k : Condition)
  | number (n : Nat)
  | byteSource (s : ByteSource)
  | wordSource (s : WordSource)
  | storeAddress (s : StoreAddress)
  | storeSource (s : StoreSource)
  | stackPointerSource (s : StackPointerSource)
  | accumulatorSource (s : AccumulatorSource)
  deriving DecidableEq

def Culprit.designation : Culprit → String
  | register reg => reg.designation
  | word w => w.designation
  | condition k => k.designation
  | number n => Numeral.decimalDigits n
  | byteSource s => s.designation
  | wordSource s => s.designation
  | storeAddress s => s.designation
  | storeSource s => s.designation
  | stackPointerSource s => s.designation
  | accumulatorSource s => s.designation

inductive Refusal
  /-- An operand that the instruction does not take. -/
  | operand (c : Culprit)
  /-- Two operands that the instruction does not take together. -/
  | operands (first second : Culprit)
  /-- A bit number above seven. -/
  | bitNumber (n : Byte)
  deriving DecidableEq

namespace Refusal

def message (i : Instruction) : Refusal → String
  | operand c => i.family ++ ": unsupported operands " ++ c.designation
  | operands first second =>
      i.family ++ ": unsupported operands (" ++ first.designation ++ ", " ++
        second.designation ++ ")"
  | bitNumber n =>
      "bit number " ++ Numeral.decimalDigits n.toNat ++ " out of range (0-7)"

end Refusal

abbrev Attempt (α : Type) := Except Refusal α

namespace Effect

def sp : Expr := .var stackPointer
def pc : Expr := .var "pc"
def page : Expr := .var "page"
def tstates : Expr := .var "tstates"
def temp : Expr := .var "temp"
def val : Expr := .var "val"
def location : Expr := .var "location"

/-- The immediate byte or word, or the displacement. -/
def value : Expr := .hole { slot := .value }

/-- The number after the immediate word: the address of the high byte of a word stored there. -/
def valueNext : Expr := .hole { slot := .value, offset := 1 }

def target : Expr := .hole { slot := .target }

def general (reg : Register) : Attempt Expr :=
  if reg.isGeneral then .ok (.register reg) else .error (.operand (.register reg))

def readByte (address : Expr) : Expr := Primitive.readByte.call [address]
def readWord (address : Expr) : Expr := Primitive.readWord.call [address]

def writeByte (address byte : Expr) : Stmt := .effect (Primitive.writeByte.call [address, byte])

def perform (p : Primitive) (args : List Expr) : Stmt := .effect (p.call args)

/-- The content of a pair, through its getter. -/
def pairValue (p : RegisterPair) : Expr := (Primitive.getPair p).call []

def wordValue : WordRegister → Expr
  | .pair p => pairValue p
  | .sp => sp

/-- The content of a pair, put together from its halves. -/
def joinedHalves (p : RegisterPair) : Expr := Expr.register p.high <<< 8 ||| .register p.low

/-- Splits a word over a pair. A literal or hole is split as it is, so that the halves fold to
literals; any other expression is evaluated once, into a temporary. -/
def setPair (p : RegisterPair) (e : Expr) : Program :=
  if e.isConstant then
    [.set (.register p.high) (e >>> 8).fold, .set (.register p.low) (e &&& 0xFF).fold]
  else
    [.declare "val" e, .set (.register p.high) (val >>> 8), .set (.register p.low) (val &&& 0xFF)]

def displaced (x : IndexRegister) : Expr := pairValue x.pair + value

def locate (x : IndexRegister) : Stmt := .set location (displaced x &&& 0xFFFF)

/-- The address in the live page with the same offset as the hole. -/
def inLivePage (h : Hole) : Expr :=
  .hole { h with inPage := true } + page * .num (BitVec.ofNat 32 pageSize)

def flagBit (f : Flag) : Expr := .register .f &&& .flagMask f

def holds (k : Condition) : Expr :=
  if k.whenSet then (flagBit k.flag).differs 0 else (flagBit k.flag).equals 0

def signZeroParity (reg : Register) : Expr := .lookup .signZeroParity (.register reg)

def setFlag (f : Flag) : Stmt := .assign .or (.register .f) (.flagMask f)
def clearFlag (f : Flag) : Stmt := .assign .and (.register .f) (~~~ .flagMask f)

/-- Takes T-states off the budget of the frame. -/
def spend (n : Expr) : Stmt := .assign .sub tstates n

end Effect

end Z80Effects
