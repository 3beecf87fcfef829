import Z80Effects.Program.Statement

/-! # The written form of programs -/
namespace Z80Effects

namespace Constant

def text : Constant → String
  | num v => Numeral.decimal v
  | bool true => "true"
  | bool false => "false"

end Constant

/-- A note takes the place of the literal that carries it. -/
def Literal.text (l : Literal) : String := l.note.getD l.constant.text

namespace Hole

def sum (h : Hole) : String :=
  if h.offset = 0 then "$" ++ h.slot.name
  else "($" ++ h.slot.name ++ " " ++ Numeral.signedDecimal h.offset ++ ")"

def text (h : Hole) : String :=
  if h.inPage then "(" ++ h.sum ++ " % 0x4000)" else h.sum

end Hole

namespace Expr

mutual

/-- Operations are bracketed, except the unary ones. -/
def text : Expr → String
  | literal l => l.text
  | var name => name
  | register reg => reg.name
  | hole h => h.text
  | binary op l r => "(" ++ l.text ++ " " ++ op.symbol ++ " " ++ r.text ++ ")"
  | unary op e => op.symbol ++ e.text
  | logical op l r => "(" ++ l.text ++ " " ++ op.symbol ++ " " ++ r.text ++ ")"
  | conditional t y n => "(" ++ t.text ++ " ? " ++ y.text ++ " : " ++ n.text ++ ")"
  | index t k => t.text ++ "[" ++ k.text ++ "]"
  | call name args => name ++ "(" ++ ", ".intercalate (texts args) ++ ")"

def texts : List Expr → List String
  | [] => []
  | e :: es => e.text :: texts es

end

end Expr

namespace Stmt

/-- Two spaces for each enclosing block. -/
def indentation (depth : Nat) : String := String.ofList (List.replicate (2 * depth) ' ')

def line (depth : Nat) (content : String) : String := indentation depth ++ content ++ "\n"

mutual

/-- The lines of a statement inside the given number of blocks. The branches of a conditional
stand under their keyword at the same depth. -/
def textAt (depth : Nat) : Stmt → String
  | effect e => line depth (e.text ++ ";")
  | assign op target value =>
      line depth (target.text ++ " " ++ op.symbol ++ " " ++ value.text ++ ";")
  | declare name value => line depth ("var " ++ name ++ " = " ++ value.text ++ ";")
  | block body => line depth "\x7b" ++ textsAt (depth + 1) body ++ line depth "\x7d"
  | ifThen test yes => line depth ("if (" ++ test.text ++ ")") ++ yes.textAt depth
  | ifElse test yes no =>
      line depth ("if (" ++ test.text ++ ")") ++ yes.textAt depth ++
        line depth "else" ++ no.textAt depth
  | ret none => line depth "return;"
  | ret (some e) => line depth ("return " ++ e.text ++ ";")

def textsAt (depth : Nat) : List Stmt → String
  | [] => ""
  | s :: ss => s.textAt depth ++ textsAt depth ss

end

def text (s : Stmt) : String := s.textAt 0

end Stmt

def Program.text (p : Program) : String := Stmt.textsAt 0 p

end Z80Effects
