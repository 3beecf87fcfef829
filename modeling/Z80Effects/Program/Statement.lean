import Z80Effects.Program.Expression

/-!
# Statements, programs and primitives

A program is a list of statements. The operations of the machine that its expressions can call are
the primitives. A program refers to them by name; a name belongs to at most one primitive.
-/
namespace Z80Effects

inductive Stmt
  /-- An expression evaluated for what it does. -/
  | effect (e : Expr)
  | assign (op : AssignOp) (target value : Expr)
  /-- Declaration of a variable with its first value. -/
  | declare (name : String) (value : Expr)
  | block (body : List Stmt)
  | ifThen (test : Expr) (yes : Stmt)
  | ifElse (test : Expr) (yes no : Stmt)
  /-- Early end of the whole program. -/
  | ret (value : Option Expr)

abbrev Program := List Stmt

namespace Stmt

def set (target value : Expr) : Stmt := assign .set target value

def whenever (test : Expr) (body : Program) : Stmt := ifThen test (block body)

def choose (test : Expr) (body otherwise : Program) : Stmt :=
  ifElse test (block body) (block otherwise)

def done : Stmt := ret none

mutual

/-- All expressions of a statement, in the order in which they are written. -/
def exprs : Stmt → List Expr
  | effect e => e.subexprs
  | assign _ target value => target.subexprs ++ value.subexprs
  | declare _ value => value.subexprs
  | block body => exprsList body
  | ifThen test yes => test.subexprs ++ yes.exprs
  | ifElse test yes no => test.subexprs ++ yes.exprs ++ no.exprs
  | ret none => []
  | ret (some e) => e.subexprs

def exprsList : List Stmt → List Expr
  | [] => []
  | s :: ss => s.exprs ++ exprsList ss

end

theorem exprsList_eq_flatMap (p : Program) : exprsList p = p.flatMap exprs := by
  induction p with
  | nil => rfl
  | cons s ss ih => simp [exprsList, ih]

mutual

def mapLiterals (f : Literal → Literal) : Stmt → Stmt
  | effect e => effect (e.mapLiterals f)
  | assign op target value => assign op (target.mapLiterals f) (value.mapLiterals f)
  | declare name value => declare name (value.mapLiterals f)
  | block body => block (mapLiteralsList f body)
  | ifThen test yes => ifThen (test.mapLiterals f) (yes.mapLiterals f)
  | ifElse test yes no => ifElse (test.mapLiterals f) (yes.mapLiterals f) (no.mapLiterals f)
  | ret value => ret (value.map (·.mapLiterals f))

def mapLiteralsList (f : Literal → Literal) : List Stmt → List Stmt
  | [] => []
  | s :: ss => s.mapLiterals f :: mapLiteralsList f ss

end

theorem mapLiteralsList_eq_map (f : Literal → Literal) (p : Program) :
    mapLiteralsList f p = p.map (mapLiterals f) := by
  induction p with
  | nil => rfl
  | cons s ss ih => simp [mapLiteralsList, ih]

mutual

theorem exprs_mapLiterals (f : Literal → Literal) (s : Stmt) :
    (s.mapLiterals f).exprs = s.exprs.map (Expr.mapLiterals f) := by
  cases s with
  | effect e => exact e.subexprs_mapLiterals f
  | assign op t e =>
    simp only [mapLiterals, exprs, List.map_append, t.subexprs_mapLiterals f,
      e.subexprs_mapLiterals f]
  | declare name e => exact e.subexprs_mapLiterals f
  | block body => exact exprsList_mapLiteralsList f body
  | ifThen t s =>
    simp only [mapLiterals, exprs, List.map_append, t.subexprs_mapLiterals f, exprs_mapLiterals f s]
  | ifElse t s z =>
    simp only [mapLiterals, exprs, List.map_append, t.subexprs_mapLiterals f,
      exprs_mapLiterals f s, exprs_mapLiterals f z]
  | ret value =>
    cases value with
    | none => rfl
    | some e => exact e.subexprs_mapLiterals f

theorem exprsList_mapLiteralsList (f : Literal → Literal) (p : List Stmt) :
    exprsList (mapLiteralsList f p) = (exprsList p).map (Expr.mapLiterals f) := by
  cases p with
  | nil => rfl
  | cons s ss =>
    simp only [mapLiteralsList, exprsList, List.map_append, exprs_mapLiterals f s,
      exprsList_mapLiteralsList f ss]

end

end Stmt

namespace Program

def exprs (p : Program) : List Expr := p.flatMap Stmt.exprs

/-- The names of the primitives called, in the order in which they are written. -/
def calls (p : Program) : List String := p.exprs.filterMap Expr.callee?

/-- The holes, in the order in which they are written. -/
def holes (p : Program) : List Hole := p.exprs.filterMap Expr.hole?

def mapLiterals (f : Literal → Literal) (p : Program) : Program := p.map (Stmt.mapLiterals f)

theorem exprs_mapLiterals (f : Literal → Literal) (p : Program) :
    (p.mapLiterals f).exprs = p.exprs.map (Expr.mapLiterals f) := by
  rw [exprs, exprs, mapLiterals, ← Stmt.mapLiteralsList_eq_map, ← Stmt.exprsList_eq_flatMap,
    ← Stmt.exprsList_eq_flatMap, Stmt.exprsList_mapLiteralsList]

end Program

inductive Primitive
  | getPair (p : RegisterPair)
  | setPair (p : RegisterPair)
  | readByte
  | readWord
  | writeByte
  | incMemory
  | decMemory
  | incHl | decHl | incBc | decBc | incDe | decDe
  /-- Push of a word. -/
  | pushWord
  /-- Push of a high and a low byte. -/
  | pushBytes
  | portIn
  | portOut
  /-- Operations of the accumulator with one operand. -/
  | addA | adcA | subA | sbcA | cpA
  | addWord
  | inc
  | dec
  | rlca | rrca | rla | rra | daa | cpl
  | ccf
  | testBit
  | shift (op : ShiftOp)
  | random
  deriving DecidableEq

namespace Primitive

def all : List Primitive :=
  RegisterPair.all.map getPair ++ RegisterPair.all.map setPair ++
  [readByte, readWord, writeByte, incMemory, decMemory,
    incHl, decHl, incBc, decBc, incDe, decDe, pushWord, pushBytes, portIn, portOut,
    addA, adcA, subA, sbcA, cpA, addWord, inc, dec, rlca, rrca, rla, rra, daa, cpl, ccf,
    testBit] ++ ShiftOp.all.map shift ++ [random]

def name : Primitive → String
  | getPair p => p.getter
  | setPair p => p.setter
  | readByte => "readMem" | readWord => "readMemWord" | writeByte => "writeMem"
  | incMemory => "incMem" | decMemory => "decMem"
  | incHl => "incHL" | decHl => "decHL" | incBc => "incBC" | decBc => "decBC"
  | incDe => "incDE" | decDe => "decDE"
  | pushWord => "push1" | pushBytes => "push2"
  | portIn => "port.in_" | portOut => "port.out"
  | addA => "add_a" | adcA => "adc_a" | subA => "sub_a" | sbcA => "sbc_a" | cpA => "cp_a"
  | addWord => "add16" | inc => "inc8" | dec => "dec8"
  | rlca => "rlca_a" | rrca => "rrca_a" | rla => "rla_a" | rra => "rra_a"
  | daa => "daa" | cpl => "cpl_a" | ccf => "ccf" | testBit => "bit"
  | shift .rlc => "rlc" | shift .rrc => "rrc" | shift .rl => "rl" | shift .rr => "rr"
  | shift .sla => "sla" | shift .sra => "sra" | shift .sll => "sll" | shift .srl => "srl"
  | random => "rndInt"

def ofName? (name : String) : Option Primitive := all.find? (·.name == name)

def arity : Primitive → Nat
  | getPair _ | incHl | decHl | incBc | decBc | incDe | decDe
  | rlca | rrca | rla | rra | daa | cpl | ccf => 0
  | setPair _ | readByte | readWord | incMemory | decMemory | pushWord | portIn
  | addA | adcA | subA | sbcA | cpA | inc | dec | testBit | shift _ | random => 1
  | writeByte | pushBytes | portOut | addWord => 2

@[simp] theorem ofName?_name (p : Primitive) : ofName? p.name = some p := by
  cases p with
  | getPair p => cases p <;> rfl
  | setPair p => cases p <;> rfl
  | shift op => cases op <;> rfl
  | _ => rfl

theorem name_of_ofName? {n : String} {p : Primitive} (h : ofName? n = some p) : p.name = n := by
  simpa using List.find?_some h

def call (p : Primitive) (args : List Expr) : Expr := .call p.name args

end Primitive

/-- The primitive of an accumulator operation. The logical ones have none: their result is an
expression. -/
def AccumulatorOp.primitive? : AccumulatorOp → Option Primitive
  | add => some .addA
  | adc => some .adcA
  | sub => some .subA
  | sbc => some .sbcA
  | cp => some .cpA
  | and | xor | or => none

end Z80Effects
