import Z80Effects.Program.Statement

/-!
# Templates

A template is a program with holes for the operands of one instruction. Filling puts numbers into
the holes and folds the operations around them: a right shift or a mask of two numbers, which are the
operations that split a word into its bytes, is replaced by its value. A program without holes is
ready as it is.

A note on a literal changes how it is shown and nothing else. Two programs are `Same` if they are
equal once all notes are taken away; the decision procedure `same` agrees with it.
-/
namespace Z80Effects

def BinaryOp.folds : BinaryOp → Bool
  | .shr | .and => true
  | _ => false

namespace Expr

/-- The value of a right shift or mask of two numbers, with a note if the left one has one; any
other expression itself. Parts of the expression are not looked at. -/
def fold : Expr → Expr
  | binary op (literal ⟨.num x, note⟩) (literal ⟨.num y, note'⟩) =>
      if op.folds then
        let v := op.apply x y
        literal ⟨.num v, note.map fun _ => Numeral.hex v⟩
      else binary op (literal ⟨.num x, note⟩) (literal ⟨.num y, note'⟩)
  | e => e

end Expr

namespace Literal

/-- A number with its hexadecimal form as note; truth values stay as they are. -/
def annotate (l : Literal) : Literal :=
  match l.constant with
  | .num v => { l with note := some (Numeral.hex v) }
  | .bool _ => l

def bare (l : Literal) : Literal := { l with note := none }

@[simp] theorem constant_annotate (l : Literal) : l.annotate.constant = l.constant := by
  unfold annotate; split <;> rfl

@[simp] theorem constant_bare (l : Literal) : l.bare.constant = l.constant := rfl

@[simp] theorem bare_annotate (l : Literal) : l.annotate.bare = l.bare := by
  simp [bare]

end Literal

namespace Expr

def annotate (e : Expr) : Expr := e.mapLiterals Literal.annotate

def bare (e : Expr) : Expr := e.mapLiterals Literal.bare

/-- Equality up to notes. -/
def Same (e e' : Expr) : Prop := e.bare = e'.bare

mutual

def same : Expr → Expr → Bool
  | literal l, literal l' => l.constant == l'.constant
  | var n, var n' => n == n'
  | register reg, register reg' => reg == reg'
  | hole h, hole h' => h == h'
  | binary op l r, binary op' l' r' => op == op' && l.same l' && r.same r'
  | unary op e, unary op' e' => op == op' && e.same e'
  | logical op l r, logical op' l' r' => op == op' && l.same l' && r.same r'
  | conditional t y n, conditional t' y' n' => t.same t' && y.same y' && n.same n'
  | index t k, index t' k' => t.same t' && k.same k'
  | call n es, call n' es' => n == n' && sameList es es'
  | _, _ => false

def sameList : List Expr → List Expr → Bool
  | [], [] => true
  | e :: es, e' :: es' => e.same e' && sameList es es'
  | _, _ => false

end

mutual

theorem same_iff (e e' : Expr) : e.same e' ↔ e.Same e' := by
  cases e <;> cases e' <;>
    simp [same, Same, bare, mapLiterals, Literal.bare, and_assoc, same_iff, sameList_iff]

theorem sameList_iff (es es' : List Expr) :
    sameList es es' ↔ mapLiteralsList Literal.bare es = mapLiteralsList Literal.bare es' := by
  cases es <;> cases es' <;> simp [sameList, mapLiteralsList, same_iff, sameList_iff, Same, bare]

end

instance (e e' : Expr) : Decidable (e.Same e') := decidable_of_iff _ (same_iff e e')

end Expr

namespace Stmt

mutual

def same : Stmt → Stmt → Bool
  | effect e, effect e' => e.same e'
  | assign op t e, assign op' t' e' => op == op' && t.same t' && e.same e'
  | declare n e, declare n' e' => n == n' && e.same e'
  | block body, block body' => sameList body body'
  | ifThen t s, ifThen t' s' => t.same t' && s.same s'
  | ifElse t s z, ifElse t' s' z' => t.same t' && s.same s' && z.same z'
  | ret none, ret none => true
  | ret (some e), ret (some e') => e.same e'
  | _, _ => false

def sameList : List Stmt → List Stmt → Bool
  | [], [] => true
  | s :: ss, s' :: ss' => s.same s' && sameList ss ss'
  | _, _ => false

end

mutual

theorem same_iff (s s' : Stmt) :
    s.same s' ↔ s.mapLiterals Literal.bare = s'.mapLiterals Literal.bare := by
  cases s with
  | ret value =>
    cases s' with
    | ret value' =>
      cases value <;> cases value' <;> simp [same, mapLiterals, Expr.same_iff, Expr.Same, Expr.bare]
    | _ => simp [same, mapLiterals]
  | _ =>
    cases s' <;>
      simp [same, mapLiterals, and_assoc, Expr.same_iff, Expr.Same, Expr.bare, same_iff,
        sameList_iff]

theorem sameList_iff (p p' : List Stmt) :
    sameList p p' ↔ mapLiteralsList Literal.bare p = mapLiteralsList Literal.bare p' := by
  cases p <;> cases p' <;> simp [sameList, mapLiteralsList, same_iff, sameList_iff]

end

end Stmt

namespace Program

def annotate (p : Program) : Program := p.mapLiterals Literal.annotate

def bare (p : Program) : Program := p.mapLiterals Literal.bare

/-- Equality up to notes. -/
def Same (p p' : Program) : Prop := p.bare = p'.bare

def same (p p' : Program) : Bool := Stmt.sameList p p'

theorem same_iff (p p' : Program) : p.same p' ↔ p.Same p' := by
  rw [same, Stmt.sameList_iff, Stmt.mapLiteralsList_eq_map, Stmt.mapLiteralsList_eq_map]
  rfl

instance (p p' : Program) : Decidable (p.Same p') := decidable_of_iff _ (same_iff p p')

end Program

structure Operands where
  /-- Immediate byte or word, or signed displacement. -/
  value : Value := 0
  /-- Branch target. -/
  target : Value := 0
  /-- Address of the following instruction. -/
  nextAddress : Value := 0
  deriving DecidableEq

namespace Operands

def get (ops : Operands) : Slot → Value
  | .value => ops.value
  | .target => ops.target
  | .nextAddress => ops.nextAddress

/-- The number that goes into a hole. The offset within a page has the sign of the address. -/
def resolve (ops : Operands) (h : Hole) : Value :=
  let address := ops.get h.slot + h.offset
  if h.inPage then address.srem (BitVec.ofNat 32 pageSize) else address

end Operands

namespace Expr

mutual

/-- The expression with numbers in its holes, folded from the holes outwards. -/
def fill (ops : Operands) : Expr → Expr
  | literal l => literal l
  | var name => var name
  | register reg => register reg
  | hole h => num (ops.resolve h)
  | binary op l r => fold (binary op (l.fill ops) (r.fill ops))
  | unary op e => unary op (e.fill ops)
  | logical op l r => logical op (l.fill ops) (r.fill ops)
  | conditional t y n => conditional (t.fill ops) (y.fill ops) (n.fill ops)
  | index t k => index (t.fill ops) (k.fill ops)
  | call name args => call name (fillList ops args)

def fillList (ops : Operands) : List Expr → List Expr
  | [] => []
  | e :: es => e.fill ops :: fillList ops es

end

end Expr

namespace Stmt

mutual

def fill (ops : Operands) : Stmt → Stmt
  | effect e => effect (e.fill ops)
  | assign op target value => assign op (target.fill ops) (value.fill ops)
  | declare name value => declare name (value.fill ops)
  | block body => block (fillList ops body)
  | ifThen test yes => ifThen (test.fill ops) (yes.fill ops)
  | ifElse test yes no => ifElse (test.fill ops) (yes.fill ops) (no.fill ops)
  | ret value => ret (value.map (·.fill ops))

def fillList (ops : Operands) : List Stmt → List Stmt
  | [] => []
  | s :: ss => s.fill ops :: fillList ops ss

end

theorem fillList_eq_map (ops : Operands) (p : Program) : fillList ops p = p.map (fill ops) := by
  induction p with
  | nil => rfl
  | cons s ss ih => simp [fillList, ih]

end Stmt

namespace Program

def fill (p : Program) (ops : Operands) : Program := p.map (Stmt.fill ops)

def needs (p : Program) (slot : Slot) : Bool := p.holes.any (·.slot == slot)

end Program

inductive Template
  | ready (program : Program)
  /-- A program with holes, and whether to annotate it once they are filled. -/
  | pending (skeleton : Program) (annotate : Bool)

namespace Template

/-- The template of a program, which is ready exactly if the program has no holes. -/
def ofProgram (annotate : Bool) (p : Program) : Template :=
  if p.holes.isEmpty then ready (if annotate then p.annotate else p) else pending p annotate

def instantiate : Template → Operands → Program
  | ready p, _ => p
  | pending skeleton annotate, ops =>
      let p := skeleton.fill ops
      if annotate then p.annotate else p

/-- Whether the program depends on the operand for a slot. -/
def needs : Template → Slot → Bool
  | ready _, _ => false
  | pending skeleton _, slot => skeleton.needs slot

def isReady : Template → Bool
  | ready _ => true
  | pending .. => false

end Template

end Z80Effects
