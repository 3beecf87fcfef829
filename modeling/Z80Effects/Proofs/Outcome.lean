import Z80Effects.Machine.Run

/-!
# Outcomes of well-formed programs

`outcome` says what an expression or a statement does where nothing can go wrong: it is total, and
gives a value and a machine instead of a computation that may fault. A program is well-formed if
its holes have values, its calls name primitives with the right number of arguments, its tables
exist and its assignments set something. Such a program runs to its outcome from every machine.
-/
namespace Z80Effects

namespace Expr

mutual

/-- The value of an expression and the machine after it, given the values of the holes. -/
def outcome (holes : Hole → Value) : Expr → Machine → Value × Machine
  | literal l, m => (l.constant.value, m)
  | var name, m => (m.get name, m)
  | register reg, m => (m.reg reg, m)
  | hole h, m => (holes h, m)
  | binary op l r, m =>
      let x := l.outcome holes m
      let y := r.outcome holes x.2
      (op.apply x.1 y.1, y.2)
  | unary op e, m =>
      let x := e.outcome holes m
      (op.apply x.1, x.2)
  | logical op l r, m =>
      let x := l.outcome holes m
      if op.decidedBy x.1 then x else r.outcome holes x.2
  | conditional t y n, m =>
      let x := t.outcome holes m
      if x.1 ≠ 0 then y.outcome holes x.2 else n.outcome holes x.2
  | index t k, m =>
      let key := k.outcome holes m
      (t.table?.elim 0 fun table => .ofByte (table.entry key.1.toByte).toByte, key.2)
  | call name args, m =>
      let values := outcomeList holes args m
      (Primitive.ofName? name).elim (0, values.2) fun p =>
        p.apply (values.1.getD 0 0) (values.1.getD 1 0) values.2

def outcomeList (holes : Hole → Value) : List Expr → Machine → List Value × Machine
  | [], m => ([], m)
  | e :: es, m =>
      let v := e.outcome holes m
      let vs := outcomeList holes es v.2
      (v.1 :: vs.1, vs.2)

end

section
variable (holes : Hole → Value) (m : Machine)

attribute [local simp] outcome outcomeList

@[simp] theorem outcome_num (v : Value) : (num v).outcome holes m = (v, m) := by
  simp only [num, outcome, Constant.value]

@[simp] theorem outcome_ofNat (n : Nat) :
    (no_index (OfNat.ofNat n) : Expr).outcome holes m = (BitVec.ofNat 32 n, m) :=
  outcome_num holes m _

@[simp] theorem outcome_bool (b : Bool) : (bool b).outcome holes m = (Value.ofBool b, m) := by
  simp only [bool, outcome, Constant.value]

@[simp] theorem outcome_byte (b : Byte) : (byte b).outcome holes m = (.ofByte b, m) :=
  outcome_num holes m _

@[simp] theorem outcome_singleBit (n : Fin 8) :
    (singleBit n).outcome holes m = (.ofByte (Byte.singleBit n), m) := outcome_num holes m _

@[simp] theorem outcome_flagMask (f : Flag) :
    (flagMask f).outcome holes m = (.ofByte f.mask, m) := outcome_num holes m _

@[simp] theorem outcome_var (name : String) : (var name).outcome holes m = (m.get name, m) := by
  simp only [outcome]

@[simp] theorem outcome_register (reg : Register) :
    (register reg).outcome holes m = (m.reg reg, m) := by
  simp only [outcome]

@[simp] theorem outcome_hole (h : Hole) : (hole h).outcome holes m = (holes h, m) := by
  simp only [outcome]

theorem outcome_binary (op : BinaryOp) (l r : Expr) : (binary op l r).outcome holes m =
    (op.apply (l.outcome holes m).1 (r.outcome holes (l.outcome holes m).2).1,
      (r.outcome holes (l.outcome holes m).2).2) := by
  simp only [outcome]

@[simp] theorem outcome_add (l r : Expr) : (l + r).outcome holes m =
    ((l.outcome holes m).1 + (r.outcome holes (l.outcome holes m).2).1,
      (r.outcome holes (l.outcome holes m).2).2) := outcome_binary holes m .add l r

@[simp] theorem outcome_sub (l r : Expr) : (l - r).outcome holes m =
    ((l.outcome holes m).1 - (r.outcome holes (l.outcome holes m).2).1,
      (r.outcome holes (l.outcome holes m).2).2) := outcome_binary holes m .sub l r

@[simp] theorem outcome_mul (l r : Expr) : (l * r).outcome holes m =
    ((l.outcome holes m).1 * (r.outcome holes (l.outcome holes m).2).1,
      (r.outcome holes (l.outcome holes m).2).2) := outcome_binary holes m .mul l r

@[simp] theorem outcome_and (l r : Expr) : (l &&& r).outcome holes m =
    ((l.outcome holes m).1 &&& (r.outcome holes (l.outcome holes m).2).1,
      (r.outcome holes (l.outcome holes m).2).2) := outcome_binary holes m .and l r

@[simp] theorem outcome_or (l r : Expr) : (l ||| r).outcome holes m =
    ((l.outcome holes m).1 ||| (r.outcome holes (l.outcome holes m).2).1,
      (r.outcome holes (l.outcome holes m).2).2) := outcome_binary holes m .or l r

@[simp] theorem outcome_xor (l r : Expr) : (l ^^^ r).outcome holes m =
    ((l.outcome holes m).1 ^^^ (r.outcome holes (l.outcome holes m).2).1,
      (r.outcome holes (l.outcome holes m).2).2) := outcome_binary holes m .xor l r

@[simp] theorem outcome_shiftLeft (e : Expr) (n : Nat) : (e <<< n).outcome holes m =
    ((e.outcome holes m).1 <<< shiftCount (BitVec.ofNat 32 n), (e.outcome holes m).2) := by
  rw [show e <<< n = binary .shl e (num (BitVec.ofNat 32 n)) from rfl, outcome_binary, outcome_num]
  rfl

@[simp] theorem outcome_shiftRight (e : Expr) (n : Nat) : (e >>> n).outcome holes m =
    ((e.outcome holes m).1.sshiftRight (shiftCount (BitVec.ofNat 32 n)),
      (e.outcome holes m).2) := by
  rw [show e >>> n = binary .shr e (num (BitVec.ofNat 32 n)) from rfl, outcome_binary, outcome_num]
  rfl

@[simp] theorem outcome_equals (l r : Expr) : (l.equals r).outcome holes m =
    (.ofBool ((l.outcome holes m).1 == (r.outcome holes (l.outcome holes m).2).1),
      (r.outcome holes (l.outcome holes m).2).2) := outcome_binary holes m .eq l r

@[simp] theorem outcome_differs (l r : Expr) : (l.differs r).outcome holes m =
    (.ofBool ((l.outcome holes m).1 != (r.outcome holes (l.outcome holes m).2).1),
      (r.outcome holes (l.outcome holes m).2).2) := outcome_binary holes m .ne l r

@[simp] theorem outcome_exceeds (l r : Expr) : (l.exceeds r).outcome holes m =
    (.ofBool ((r.outcome holes (l.outcome holes m).2).1.slt (l.outcome holes m).1),
      (r.outcome holes (l.outcome holes m).2).2) := outcome_binary holes m .gt l r

@[simp] theorem outcome_unary (op : UnaryOp) (e : Expr) : (unary op e).outcome holes m =
    (op.apply (e.outcome holes m).1, (e.outcome holes m).2) := by
  simp only [outcome]

@[simp] theorem outcome_complement (e : Expr) : (~~~e).outcome holes m =
    (~~~(e.outcome holes m).1, (e.outcome holes m).2) := outcome_unary holes m .complement e

@[simp] theorem outcome_logical (op : LogicalOp) (l r : Expr) :
    (logical op l r).outcome holes m =
      if op.decidedBy (l.outcome holes m).1 then l.outcome holes m
      else r.outcome holes (l.outcome holes m).2 := by
  simp only [outcome]

@[simp] theorem outcome_conditional (t y n : Expr) : (conditional t y n).outcome holes m =
    if (t.outcome holes m).1 ≠ 0 then y.outcome holes (t.outcome holes m).2
    else n.outcome holes (t.outcome holes m).2 := by
  simp only [outcome]

/-- Two values chosen from on one machine. -/
@[simp] theorem ite_outcome (c : Prop) [Decidable c] (x y : Value) :
    (if c then (x, m) else (y, m)) = (if c then x else y, m) := by
  split <;> rfl

@[simp] theorem outcome_lookup (table : FlagTable) (key : Expr) :
    (lookup table key).outcome holes m =
      (.ofByte (table.entry (key.outcome holes m).1.toByte).toByte, (key.outcome holes m).2) := by
  simp only [lookup, outcome, table?, FlagTable.ofName?_name, Option.elim]

@[simp] theorem outcomeList_nil : outcomeList holes [] m = ([], m) := by
  simp only [outcomeList]

@[simp] theorem outcomeList_cons (e : Expr) (es : List Expr) : outcomeList holes (e :: es) m =
    ((e.outcome holes m).1 :: (outcomeList holes es (e.outcome holes m).2).1,
      (outcomeList holes es (e.outcome holes m).2).2) := by
  simp only [outcomeList]

@[simp] theorem isConstant_call (p : Primitive) (args : List Expr) :
    (p.call args).isConstant = false := rfl

@[simp] theorem outcome_call (p : Primitive) (args : List Expr) :
    (p.call args).outcome holes m =
      p.apply ((outcomeList holes args m).1.getD 0 0) ((outcomeList holes args m).1.getD 1 0)
        (outcomeList holes args m).2 := by
  simp only [Primitive.call, outcome, Primitive.ofName?_name, Option.elim]

end

mutual

/-- No part of the expression can fault, given which holes have values. -/
def wellFormed (known : Hole → Bool) : Expr → Bool
  | literal _ | var _ | register _ => true
  | hole h => known h
  | binary _ l r | logical _ l r => l.wellFormed known && r.wellFormed known
  | unary _ e => e.wellFormed known
  | conditional t y n => t.wellFormed known && y.wellFormed known && n.wellFormed known
  | index t k => t.table?.isSome && k.wellFormed known
  | call name args =>
      (Primitive.ofName? name).any (args.length == ·.arity) && wellFormedList known args

def wellFormedList (known : Hole → Bool) : List Expr → Bool
  | [] => true
  | e :: es => e.wellFormed known && wellFormedList known es

end

variable {valuation : Valuation} {holes : Hole → Value} {known : Hole → Bool}

mutual

theorem eval_eq_outcome (hv : ∀ h, known h → valuation h = some (holes h)) (e : Expr)
    (he : e.wellFormed known) (m : Machine) :
    e.eval valuation m = .ok (e.outcome holes m).1 (e.outcome holes m).2 := by
  cases e with
  | literal l => rfl
  | var name => rfl
  | register reg => rfl
  | hole h =>
    simp only [wellFormed] at he
    simp only [eval, hv h he]
    rfl
  | binary op l r =>
    simp only [wellFormed, Bool.and_eq_true] at he
    simp only [eval, outcome, bind, EStateM.bind, eval_eq_outcome hv l he.1,
      eval_eq_outcome hv r he.2]
    rfl
  | unary op e =>
    simp only [wellFormed] at he
    simp only [eval, outcome, bind, EStateM.bind, eval_eq_outcome hv e he]
    rfl
  | logical op l r =>
    simp only [wellFormed, Bool.and_eq_true] at he
    simp only [eval, outcome, bind, EStateM.bind, eval_eq_outcome hv l he.1]
    split
    · rfl
    · exact eval_eq_outcome hv r he.2 _
  | conditional t y n =>
    simp only [wellFormed, Bool.and_eq_true] at he
    simp only [eval, outcome, bind, EStateM.bind, eval_eq_outcome hv t he.1.1]
    split
    · exact eval_eq_outcome hv y he.1.2 _
    · exact eval_eq_outcome hv n he.2 _
  | index t k =>
    simp only [wellFormed, Bool.and_eq_true] at he
    obtain ⟨table, ht⟩ := Option.isSome_iff_exists.mp he.1
    simp only [eval, outcome, bind, EStateM.bind, eval_eq_outcome hv k he.2, ht]
    rfl
  | call name args =>
    simp only [wellFormed, Bool.and_eq_true] at he
    cases hp : Primitive.ofName? name with
    | none => simp [hp] at he
    | some p =>
      simp only [hp, Option.any_some, beq_iff_eq] at he
      simp only [eval, outcome, hp, if_pos he.1, bind, EStateM.bind,
        evalList_eq_outcomeList hv args he.2]
      rfl

theorem evalList_eq_outcomeList (hv : ∀ h, known h → valuation h = some (holes h))
    (es : List Expr) (he : wellFormedList known es) (m : Machine) :
    evalList valuation es m = .ok (outcomeList holes es m).1 (outcomeList holes es m).2 := by
  cases es with
  | nil => rfl
  | cons e es =>
    simp only [wellFormedList, Bool.and_eq_true] at he
    simp only [evalList, outcomeList, bind, EStateM.bind, eval_eq_outcome hv e he.1,
      evalList_eq_outcomeList hv es he.2]
    rfl

end

end Expr

/-- Goes on from the end of a statement, unless that ended the program. -/
def Flow.andThen : Flow × Machine → (Machine → Flow × Machine) → Flow × Machine
  | (.continued, m), rest => rest m
  | (.returned, m), _ => (.returned, m)

@[simp] theorem Flow.andThen_continued (m : Machine) (rest : Machine → Flow × Machine) :
    andThen (.continued, m) rest = rest m := by
  simp only [andThen]

@[simp] theorem Flow.andThen_returned (m : Machine) (rest : Machine → Flow × Machine) :
    andThen (.returned, m) rest = (.returned, m) := by
  simp only [andThen]

theorem Flow.andThen_of_continued {x : Flow × Machine} (h : x.1 = .continued)
    (rest : Machine → Flow × Machine) : andThen x rest = rest x.2 := by
  obtain ⟨_, m⟩ := x
  cases h
  rfl

/-- Nothing happens after the last statement. -/
@[simp] theorem Flow.andThen_last (x : Flow × Machine) :
    andThen x (fun m => (.continued, m)) = x := by
  obtain ⟨_ | _, m⟩ := x <;> rfl

namespace Stmt

mutual

/-- How a statement ends and the machine after it, given the values of the holes. -/
def outcome (holes : Hole → Value) : Stmt → Machine → Flow × Machine
  | effect e, m => (.continued, (e.outcome holes m).2)
  | assign op target value, m =>
      let v := value.outcome holes m
      (.continued, target.target?.elim v.2 fun name =>
        v.2.set name (op.apply (v.2.get name) v.1))
  | declare name value, m =>
      let v := value.outcome holes m
      (.continued, v.2.set name v.1)
  | block body, m => outcomeList holes body m
  | ifThen test yes, m =>
      let x := test.outcome holes m
      if x.1 ≠ 0 then yes.outcome holes x.2 else (.continued, x.2)
  | ifElse test yes no, m =>
      let x := test.outcome holes m
      if x.1 ≠ 0 then yes.outcome holes x.2 else no.outcome holes x.2
  | ret value, m => (.returned, value.elim m fun e => (e.outcome holes m).2)

def outcomeList (holes : Hole → Value) : List Stmt → Machine → Flow × Machine
  | [], m => (.continued, m)
  | s :: ss, m => Flow.andThen (s.outcome holes m) fun m => outcomeList holes ss m

end

section
variable (holes : Hole → Value) (m : Machine)

attribute [local simp] outcome outcomeList

@[simp] theorem outcome_effect (e : Expr) :
    (effect e).outcome holes m = (.continued, (e.outcome holes m).2) := by
  simp only [outcome]

@[simp] theorem outcome_assign_var (op : AssignOp) (name : String) (e : Expr) :
    (assign op (.var name) e).outcome holes m =
      (.continued, (e.outcome holes m).2.set name
        (op.apply ((e.outcome holes m).2.get name) (e.outcome holes m).1)) := by
  simp only [outcome, Expr.target?, Option.elim]

@[simp] theorem outcome_assign_register (op : AssignOp) (reg : Register) (e : Expr) :
    (assign op (.register reg) e).outcome holes m =
      (.continued, (e.outcome holes m).2.setReg reg
        (op.apply ((e.outcome holes m).2.reg reg) (e.outcome holes m).1)) := by
  simp only [outcome, Expr.target?, Option.elim, Machine.reg, Machine.setReg]

@[simp] theorem outcome_declare (name : String) (e : Expr) :
    (declare name e).outcome holes m =
      (.continued, (e.outcome holes m).2.set name (e.outcome holes m).1) := by
  simp only [outcome]

@[simp] theorem outcome_block (body : Program) :
    (block body).outcome holes m = outcomeList holes body m := by
  simp only [outcome]

@[simp] theorem outcome_whenever (test : Expr) (body : Program) :
    (whenever test body).outcome holes m =
      if (test.outcome holes m).1 ≠ 0 then outcomeList holes body (test.outcome holes m).2
      else (.continued, (test.outcome holes m).2) := by
  simp only [whenever, outcome]

@[simp] theorem outcome_choose (test : Expr) (body otherwise : Program) :
    (choose test body otherwise).outcome holes m =
      if (test.outcome holes m).1 ≠ 0 then outcomeList holes body (test.outcome holes m).2
      else outcomeList holes otherwise (test.outcome holes m).2 := by
  simp only [choose, outcome]

@[simp] theorem outcome_done : done.outcome holes m = (.returned, m) := by
  simp only [done, outcome, Option.elim]

@[simp] theorem outcomeList_nil : outcomeList holes [] m = (.continued, m) := by
  simp only [outcomeList]

@[simp] theorem outcomeList_cons (s : Stmt) (ss : Program) : outcomeList holes (s :: ss) m =
    Flow.andThen (s.outcome holes m) fun m => outcomeList holes ss m := by
  simp only [outcomeList]

theorem outcomeList_append (p q : Program) : outcomeList holes (p ++ q) m =
    Flow.andThen (outcomeList holes p m) fun m => outcomeList holes q m := by
  induction p generalizing m with
  | nil => simp
  | cons s ss ih =>
    simp only [List.cons_append, outcomeList_cons]
    rcases s.outcome holes m with ⟨_ | _, m'⟩
    · exact ih m'
    · rfl

variable {m} {test : Expr} {b : Bool}

/-- A conditional statement whose test changes nothing. -/
theorem outcome_whenever_ofBool (h : test.outcome holes m = (.ofBool b, m)) (body : Program) :
    (whenever test body).outcome holes m =
      if b then outcomeList holes body m else (.continued, m) := by
  rw [outcome_whenever, h]
  cases b with
  | false => rfl
  | true => rw [if_pos (show Value.ofBool true ≠ 0 by decide), if_pos rfl]

/-- A conditional statement on its own. -/
theorem outcomeList_whenever (h : test.outcome holes m = (.ofBool b, m)) (body : Program) :
    outcomeList holes [whenever test body] m =
      if b then outcomeList holes body m else (.continued, m) := by
  simp only [outcomeList_cons, outcomeList_nil, Flow.andThen_last]
  exact outcome_whenever_ofBool holes h body

end

mutual

def wellFormed (known : Hole → Bool) : Stmt → Bool
  | effect e | declare _ e => e.wellFormed known
  | assign _ target value => target.target?.isSome && value.wellFormed known
  | block body => wellFormedList known body
  | ifThen test yes => test.wellFormed known && yes.wellFormed known
  | ifElse test yes no => test.wellFormed known && yes.wellFormed known && no.wellFormed known
  | ret value => value.all (·.wellFormed known)

def wellFormedList (known : Hole → Bool) : List Stmt → Bool
  | [] => true
  | s :: ss => s.wellFormed known && wellFormedList known ss

end

variable {valuation : Valuation} {holes : Hole → Value} {known : Hole → Bool}

mutual

theorem run_eq_outcome (hv : ∀ h, known h → valuation h = some (holes h)) (s : Stmt)
    (hs : s.wellFormed known) (m : Machine) :
    s.run valuation m = .ok (s.outcome holes m).1 (s.outcome holes m).2 := by
  cases s with
  | effect e =>
    simp only [wellFormed] at hs
    simp only [run, outcome, bind, EStateM.bind, Expr.eval_eq_outcome hv e hs]
    rfl
  | assign op target value =>
    simp only [wellFormed, Bool.and_eq_true] at hs
    obtain ⟨name, ht⟩ := Option.isSome_iff_exists.mp hs.1
    simp only [run, outcome, bind, EStateM.bind, ht, Expr.eval_eq_outcome hv value hs.2]
    rfl
  | declare name value =>
    simp only [wellFormed] at hs
    simp only [run, outcome, bind, EStateM.bind, Expr.eval_eq_outcome hv value hs]
    rfl
  | block body =>
    simp only [wellFormed] at hs
    simp only [run, outcome]
    exact runList_eq_outcomeList hv body hs m
  | ifThen test yes =>
    simp only [wellFormed, Bool.and_eq_true] at hs
    simp only [run, outcome, bind, EStateM.bind, Expr.eval_eq_outcome hv test hs.1]
    split
    · exact run_eq_outcome hv yes hs.2 _
    · rfl
  | ifElse test yes no =>
    simp only [wellFormed, Bool.and_eq_true] at hs
    simp only [run, outcome, bind, EStateM.bind, Expr.eval_eq_outcome hv test hs.1.1]
    split
    · exact run_eq_outcome hv yes hs.1.2 _
    · exact run_eq_outcome hv no hs.2 _
  | ret value =>
    cases value with
    | none => rfl
    | some e =>
      simp only [wellFormed, Option.all_some] at hs
      simp only [run, outcome, bind, EStateM.bind, Expr.eval_eq_outcome hv e hs]
      rfl

theorem runList_eq_outcomeList (hv : ∀ h, known h → valuation h = some (holes h))
    (p : List Stmt) (hp : wellFormedList known p) (m : Machine) :
    runList valuation p m = .ok (outcomeList holes p m).1 (outcomeList holes p m).2 := by
  cases p with
  | nil => rfl
  | cons s ss =>
    simp only [wellFormedList, Bool.and_eq_true] at hp
    simp only [runList, outcomeList, bind, EStateM.bind, run_eq_outcome hv s hp.1]
    rcases s.outcome holes m with ⟨_ | _, m'⟩
    · exact runList_eq_outcomeList hv ss hp.2 m'
    · rfl

end

end Stmt

namespace Program

/-- How a program ends and the machine after it, with the operands in its holes. -/
def outcome (p : Program) (ops : Operands) (m : Machine) : Flow × Machine :=
  Stmt.outcomeList ops.resolve p m

/-- No part of the program can fault once its holes are filled. -/
def wellFormed (p : Program) : Bool := Stmt.wellFormedList (fun _ => true) p

/-- A well-formed program never faults. -/
theorem runWith_eq_outcome {p : Program} (hp : p.wellFormed) (ops : Operands) (m : Machine) :
    p.runWith ops.valuation m = .ok (p.outcome ops m).1 (p.outcome ops m).2 :=
  Stmt.runList_eq_outcomeList (fun _ _ => rfl) p hp m

end Program

end Z80Effects
