import Z80Effects.Arithmetic.Rotation
import Z80Effects.Machine.State
import Z80Effects.Program.Template
import Z80Effects.Program.Text

/-!
# Running programs

A run changes the machine step by step; a fault ends it and leaves the machine as it is then.
The value of a hole comes from a valuation of holes. A filled program has no holes and is run
under the valuation that gives none a value.
-/
namespace Z80Effects

inductive FaultKind
  | unfilledHole | unknownPrimitive | arity | unknownTable | invalidTarget
  deriving DecidableEq

inductive Fault
  /-- A hole without a number. -/
  | unfilledHole (h : Hole)
  /-- A call of a name that no primitive has. -/
  | unknownPrimitive (name : String)
  /-- A call with the wrong number of arguments. -/
  | arity (name : String) (expected got : Nat)
  /-- An index into something that is not a table. -/
  | unknownTable (e : Expr)
  /-- An assignment to something that is neither a variable nor a register. -/
  | invalidTarget (e : Expr)

namespace Fault

def kind : Fault → FaultKind
  | unfilledHole _ => .unfilledHole
  | unknownPrimitive _ => .unknownPrimitive
  | arity .. => .arity
  | unknownTable _ => .unknownTable
  | invalidTarget _ => .invalidTarget

def holeFields (h : Hole) : String :=
  "Hole \x7b operand: " ++ h.slot.designation ++ ", offset: " ++ Numeral.decimal h.offset ++
    ", in_page: " ++ (if h.inPage then "true" else "false") ++ " \x7d"

def message : Fault → String
  | unfilledHole h => "unfilled hole " ++ holeFields h
  | unknownPrimitive name => "unknown primitive " ++ name
  | arity name expected got =>
      name ++ " takes " ++ Numeral.decimalDigits expected ++ " arguments, got " ++
        Numeral.decimalDigits got
  | unknownTable e => "unknown lookup table " ++ e.text
  | invalidTarget e => "cannot assign to " ++ e.text

end Fault

namespace Primitive

/-- The value and the effect of a call. A primitive ignores the arguments beyond its arity. A call
for its effect alone has the value zero. -/
def apply (x y : Value) (m : Machine) : Primitive → Value × Machine
  | getPair p => (m.pair p, m)
  | setPair p => (0, m.setPair p x)
  | readByte =>
      let (b, m) := m.read x.toWord
      (.ofByte b, m)
  | readWord =>
      let (low, m) := m.read x.toWord
      let (high, m) := m.read (x + 1).toWord
      (.ofWord (.ofBytes high low), m)
  | writeByte => (0, m.write x.toWord y.toByte)
  | incMemory =>
      let (old, m) := m.read x.toWord
      let r := Byte.inc old
      (0, (m.setFlagsKeepingCarry r.flags).write x.toWord r.value)
  | decMemory =>
      let (old, m) := m.read x.toWord
      let r := Byte.dec old
      (0, (m.setFlagsKeepingCarry r.flags).write x.toWord r.value)
  | incHl => (0, m.setPair .hl (m.pair .hl + 1))
  | decHl => (0, m.setPair .hl (m.pair .hl - 1))
  | incBc => (0, m.setPair .bc (m.pair .bc + 1))
  | decBc => (0, m.setPair .bc (m.pair .bc - 1))
  | incDe => (0, m.setPair .de (m.pair .de + 1))
  | decDe => (0, m.setPair .de (m.pair .de - 1))
  | pushWord => (0, m.push x.toWord.high x.toWord.low)
  | pushBytes => (0, m.push x.toByte y.toByte)
  | portIn => (.ofByte (m.ports x.toByte), m)
  | portOut => (0, m.putOut x.toByte y.toByte)
  | addA => (0, m.setAccumulator (Byte.add m.accumulator x.toByte false))
  | adcA => (0, m.setAccumulator (Byte.add m.accumulator x.toByte m.flags.carry))
  | subA => (0, m.setAccumulator (Byte.sub m.accumulator x.toByte false))
  | sbcA => (0, m.setAccumulator (Byte.sub m.accumulator x.toByte m.flags.carry))
  | cpA => (0, m.setAccumulator (Byte.compare m.accumulator x.toByte))
  | addWord =>
      let r := Word.add x.toWord y.toWord
      let f := m.flags
      (.ofWord r.value,
        m.setFlags { r.flags with sign := f.sign, zero := f.zero, parity := f.parity })
  | inc =>
      let r := Byte.inc x.toByte
      (.ofByte r.value, m.setFlagsKeepingCarry r.flags)
  | dec =>
      let r := Byte.dec x.toByte
      (.ofByte r.value, m.setFlagsKeepingCarry r.flags)
  | rlca => (0, m.setAccumulator (ShiftOp.rlc.applyShort m.accumulator m.flags))
  | rrca => (0, m.setAccumulator (ShiftOp.rrc.applyShort m.accumulator m.flags))
  | rla => (0, m.setAccumulator (ShiftOp.rl.applyShort m.accumulator m.flags))
  | rra => (0, m.setAccumulator (ShiftOp.rr.applyShort m.accumulator m.flags))
  | daa => (0, m.setAccumulator (Byte.decimalAdjust m.accumulator m.flags))
  | cpl => (0, m.setAccumulator (Byte.complement m.accumulator m.flags))
  | ccf => (0, m.setFlags (m.flags.invertCarry m.accumulator))
  | testBit => (0, m.setFlags (m.flags.ofBitTest x.toByte))
  | shift op =>
      let r := op.apply x.toByte m.flags.carry
      (.ofByte r.value, m.setFlags r.flags)
  | random => (m.randomSource &&& x, m)

end Primitive

inductive Flow
  /-- After the last statement. -/
  | continued
  /-- By an early end. -/
  | returned
  deriving DecidableEq

/-- A computation on a machine that may end with a fault. -/
abbrev Run := EStateM Fault Machine

abbrev Valuation := Hole → Option Value

def Valuation.none : Valuation := fun _ => Option.none

def Operands.valuation (ops : Operands) : Valuation := fun h => some (ops.resolve h)

namespace Expr

def table? : Expr → Option FlagTable
  | var name => FlagTable.ofName? name
  | _ => none

/-- The variable that an assignment to the expression sets. -/
def target? : Expr → Option String
  | var name => some name
  | register reg => some reg.name
  | _ => none

mutual

/-- The value of an expression. Operands and arguments are evaluated from left to right; the name
and the number of arguments of a call are checked first, the name of a table last. -/
def eval (valuation : Valuation) : Expr → Run Value
  | literal l => pure l.constant.value
  | var name => do return (← get).get name
  | register reg => do return (← get).reg reg
  | hole h =>
      match valuation h with
      | some v => pure v
      | none => throw (.unfilledHole h)
  | binary op l r => do
      let x ← l.eval valuation
      let y ← r.eval valuation
      return op.apply x y
  | unary op e => do return op.apply (← e.eval valuation)
  | logical op l r => do
      let x ← l.eval valuation
      if op.decidedBy x then return x else r.eval valuation
  | conditional t y n => do
      if (← t.eval valuation) ≠ 0 then y.eval valuation else n.eval valuation
  | index t k => do
      let key ← k.eval valuation
      match t.table? with
      | some table => return .ofByte (table.entry key.toByte).toByte
      | none => throw (.unknownTable t)
  | call name args =>
      match Primitive.ofName? name with
      | none => throw (.unknownPrimitive name)
      | some p =>
          if args.length = p.arity then do
            let values ← evalList valuation args
            modifyGet fun m => p.apply (values.getD 0 0) (values.getD 1 0) m
          else throw (.arity name p.arity args.length)

def evalList (valuation : Valuation) : List Expr → Run (List Value)
  | [] => pure []
  | e :: es => do
      let v ← e.eval valuation
      let vs ← evalList valuation es
      return v :: vs

end

end Expr

namespace Stmt

mutual

/-- Carries out a statement. The target of an assignment is checked before the value is evaluated,
and read after. -/
def run (valuation : Valuation) : Stmt → Run Flow
  | effect e => do
      let _ ← e.eval valuation
      return .continued
  | assign op target value =>
      match target.target? with
      | some name => do
          let v ← value.eval valuation
          modify fun m => m.set name (op.apply (m.get name) v)
          return .continued
      | none => throw (.invalidTarget target)
  | declare name value => do
      let v ← value.eval valuation
      modify fun m => m.set name v
      return .continued
  | block body => runList valuation body
  | ifThen test yes => do
      if (← test.eval valuation) ≠ 0 then yes.run valuation else return .continued
  | ifElse test yes no => do
      if (← test.eval valuation) ≠ 0 then yes.run valuation else no.run valuation
  | ret none => return .returned
  | ret (some e) => do
      let _ ← e.eval valuation
      return .returned

/-- Carries out statements in order, up to an early end. -/
def runList (valuation : Valuation) : List Stmt → Run Flow
  | [] => return .continued
  | s :: ss => do
      match ← s.run valuation with
      | .returned => return .returned
      | .continued => runList valuation ss

end

end Stmt

namespace Program

def runWith (p : Program) (valuation : Valuation) : Run Flow := Stmt.runList valuation p

def run (p : Program) : Run Flow := p.runWith .none

/-- Runs a program again and again while it ends early, at most the given number of times after
the first. Gives the end of the last run, and the number of runs added to `count`. -/
def runRepeatedly (p : Program) (count : Nat) : Nat → Run (Flow × Nat)
  | 0 => do return (← p.run, count + 1)
  | more + 1 => do
      match ← p.run with
      | .continued => return (.continued, count + 1)
      | .returned => p.runRepeatedly (count + 1) more

end Program

end Z80Effects
