import Z80Effects.Instruction

/-!
# Expressions

An expression computes a value from variables, registers and calls of primitives. A hole stands
for an operand that is known only when an instruction has been decoded.
-/
namespace Z80Effects

/-- Binary operators. Comparisons yield one or zero. -/
inductive BinaryOp
  | add | sub | mul | shl | shr | and | or | xor | eq | ne | gt
  deriving DecidableEq

/-- Shift counts use the low five bits of the right operand. -/
def shiftCount (v : Value) : Nat := v.toNat % 32

namespace BinaryOp

def symbol : BinaryOp → String
  | add => "+" | sub => "-" | mul => "*" | shl => "<<" | shr => ">>"
  | and => "&" | or => "|" | xor => "^" | eq => "==" | ne => "!=" | gt => ">"

/-- Arithmetic wraps, right shifts copy the sign, and comparison is signed. -/
def apply : BinaryOp → Value → Value → Value
  | add, x, y => x + y
  | sub, x, y => x - y
  | mul, x, y => x * y
  | shl, x, y => x <<< shiftCount y
  | shr, x, y => x.sshiftRight (shiftCount y)
  | and, x, y => x &&& y
  | or, x, y => x ||| y
  | xor, x, y => x ^^^ y
  | eq, x, y => Value.ofBool (x == y)
  | ne, x, y => Value.ofBool (x != y)
  | gt, x, y => Value.ofBool (y.slt x)

end BinaryOp

inductive UnaryOp
  | not | complement
  deriving DecidableEq

namespace UnaryOp

def symbol : UnaryOp → String
  | not => "!" | complement => "~"

def apply : UnaryOp → Value → Value
  | not, x => Value.ofBool (x == 0)
  | complement, x => ~~~x

end UnaryOp

/-- Operators that decide on their left operand whether to evaluate the right one. -/
inductive LogicalOp
  | and | or
  deriving DecidableEq

namespace LogicalOp

def symbol : LogicalOp → String
  | and => "&&" | or => "||"

/-- Whether the left operand already is the result. -/
def decidedBy : LogicalOp → Value → Bool
  | and, x => x == 0
  | or, x => x != 0

end LogicalOp

inductive AssignOp
  | set | add | sub | and | or | xor
  deriving DecidableEq

namespace AssignOp

def symbol : AssignOp → String
  | set => "=" | add => "+=" | sub => "-=" | and => "&=" | or => "|=" | xor => "^="

/-- The new content of a variable, from its present content and the assigned value. -/
def apply : AssignOp → Value → Value → Value
  | set, _, y => y
  | add, x, y => x + y
  | sub, x, y => x - y
  | and, x, y => x &&& y
  | or, x, y => x ||| y
  | xor, x, y => x ^^^ y

end AssignOp

inductive Constant
  | num (v : Value)
  | bool (b : Bool)
  deriving DecidableEq

/-- Truth values count as one and zero. -/
def Constant.value : Constant → Value
  | num v => v
  | bool b => Value.ofBool b

/-- A literal, and the note that is shown in its place if it carries one. -/
structure Literal where
  constant : Constant
  note : Option String := none
  deriving DecidableEq

/-- The operands that decoding an instruction provides. -/
inductive Slot
  /-- Immediate byte or word, or displacement. -/
  | value
  /-- Branch target. -/
  | target
  /-- Address of the following instruction. -/
  | nextAddress
  deriving DecidableEq

namespace Slot

def all : List Slot := [value, target, nextAddress]

def name : Slot → String
  | value => "value" | target => "target" | nextAddress => "nextAddress"

def designation : Slot → String
  | value => "Value" | target => "Target" | nextAddress => "NextAddress"

end Slot

/-- A place for an operand plus an offset, reduced to an offset within a page on request. -/
structure Hole where
  slot : Slot
  offset : Value := 0
  inPage : Bool := false
  deriving DecidableEq

inductive Expr
  | literal (l : Literal)
  /-- A variable of the machine, by name. -/
  | var (name : String)
  | register (reg : Register)
  | hole (h : Hole)
  | binary (op : BinaryOp) (left right : Expr)
  | unary (op : UnaryOp) (arg : Expr)
  | logical (op : LogicalOp) (left right : Expr)
  | conditional (test yes no : Expr)
  /-- An entry of a table. -/
  | index (table key : Expr)
  /-- A call of a primitive, by name. -/
  | call (name : String) (args : List Expr)

namespace Expr

def num (v : Value) : Expr := .literal ⟨.num v, none⟩

def bool (b : Bool) : Expr := .literal ⟨.bool b, none⟩

def byte (b : Byte) : Expr := num (Value.ofByte b)

def singleBit (n : Fin 8) : Expr := byte (Byte.singleBit n)

def flagMask (f : Flag) : Expr := byte f.mask

instance (n : Nat) : OfNat Expr n := ⟨num (BitVec.ofNat 32 n)⟩
instance : Add Expr := ⟨binary .add⟩
instance : Sub Expr := ⟨binary .sub⟩
instance : Mul Expr := ⟨binary .mul⟩
instance : HShiftLeft Expr Nat Expr := ⟨fun e n => binary .shl e (num (BitVec.ofNat 32 n))⟩
instance : HShiftRight Expr Nat Expr := ⟨fun e n => binary .shr e (num (BitVec.ofNat 32 n))⟩
instance : AndOp Expr := ⟨binary .and⟩
instance : OrOp Expr := ⟨binary .or⟩
instance : XorOp Expr := ⟨binary .xor⟩
instance : Complement Expr := ⟨unary .complement⟩

def equals (left right : Expr) : Expr := binary .eq left right
def differs (left right : Expr) : Expr := binary .ne left right
def exceeds (left right : Expr) : Expr := binary .gt left right

def lookup (table : FlagTable) (key : Expr) : Expr := index (var table.name) key

def num? : Expr → Option Value
  | literal ⟨.num v, _⟩ => some v
  | _ => none

/-- A literal or a hole: a value that is fixed once all operands are known. -/
def isConstant : Expr → Bool
  | literal _ | hole _ => true
  | _ => false

def hole? : Expr → Option Hole
  | hole h => some h
  | _ => none

def callee? : Expr → Option String
  | call name _ => some name
  | _ => none

mutual

/-- The expression and all below it, each before its own parts. -/
def subexprs : Expr → List Expr
  | literal l => [literal l]
  | var name => [var name]
  | register reg => [register reg]
  | hole h => [hole h]
  | binary op l r => binary op l r :: (l.subexprs ++ r.subexprs)
  | unary op e => unary op e :: e.subexprs
  | logical op l r => logical op l r :: (l.subexprs ++ r.subexprs)
  | conditional t y n => conditional t y n :: (t.subexprs ++ y.subexprs ++ n.subexprs)
  | index t k => index t k :: (t.subexprs ++ k.subexprs)
  | call name args => call name args :: subexprsList args

def subexprsList : List Expr → List Expr
  | [] => []
  | e :: es => e.subexprs ++ subexprsList es

end

theorem mem_subexprs_self (e : Expr) : e ∈ e.subexprs := by
  cases e <;> simp [subexprs]

mutual

def mapLiterals (f : Literal → Literal) : Expr → Expr
  | literal l => literal (f l)
  | var name => var name
  | register reg => register reg
  | hole h => hole h
  | binary op l r => binary op (l.mapLiterals f) (r.mapLiterals f)
  | unary op e => unary op (e.mapLiterals f)
  | logical op l r => logical op (l.mapLiterals f) (r.mapLiterals f)
  | conditional t y n => conditional (t.mapLiterals f) (y.mapLiterals f) (n.mapLiterals f)
  | index t k => index (t.mapLiterals f) (k.mapLiterals f)
  | call name args => call name (mapLiteralsList f args)

def mapLiteralsList (f : Literal → Literal) : List Expr → List Expr
  | [] => []
  | e :: es => e.mapLiterals f :: mapLiteralsList f es

end

theorem mapLiteralsList_eq_map (f : Literal → Literal) (es : List Expr) :
    mapLiteralsList f es = es.map (mapLiterals f) := by
  induction es with
  | nil => rfl
  | cons e es ih => simp [mapLiteralsList, ih]

theorem callee?_mapLiterals (f : Literal → Literal) (e : Expr) :
    (e.mapLiterals f).callee? = e.callee? := by
  cases e <;> rfl

mutual

theorem subexprs_mapLiterals (f : Literal → Literal) (e : Expr) :
    (e.mapLiterals f).subexprs = e.subexprs.map (mapLiterals f) := by
  cases e with
  | literal l => rfl
  | var name => rfl
  | register reg => rfl
  | hole a => rfl
  | binary op l r =>
    simp only [mapLiterals, subexprs, List.map_cons, List.map_append, subexprs_mapLiterals f l,
      subexprs_mapLiterals f r]
  | unary op e => simp only [mapLiterals, subexprs, List.map_cons, subexprs_mapLiterals f e]
  | logical op l r =>
    simp only [mapLiterals, subexprs, List.map_cons, List.map_append, subexprs_mapLiterals f l,
      subexprs_mapLiterals f r]
  | conditional t y n =>
    simp only [mapLiterals, subexprs, List.map_cons, List.map_append, subexprs_mapLiterals f t,
      subexprs_mapLiterals f y, subexprs_mapLiterals f n]
  | index t k =>
    simp only [mapLiterals, subexprs, List.map_cons, List.map_append, subexprs_mapLiterals f t,
      subexprs_mapLiterals f k]
  | call name args =>
    simp only [mapLiterals, subexprs, List.map_cons, subexprsList_mapLiteralsList f args]

theorem subexprsList_mapLiteralsList (f : Literal → Literal) (es : List Expr) :
    subexprsList (mapLiteralsList f es) = (subexprsList es).map (mapLiterals f) := by
  cases es with
  | nil => rfl
  | cons e es =>
    simp only [mapLiteralsList, subexprsList, List.map_append, subexprs_mapLiterals f e,
      subexprsList_mapLiteralsList f es]

end

end Expr

end Z80Effects
