import Z80Effects.Effect.Instruction
import Z80Effects.Machine.Run

/-!
# Programs that run alike

Filling and annotating a program may change what a fault says it found, but not the kind of a fault
and nothing else about a run. Two expressions are `Alike` if they cannot be told apart by a run in
this sense. Being alike is a congruence, so that each rewriting of programs needs to be looked at
where it changes something and nowhere else.
-/
namespace Z80Effects

namespace Run

/-- A run that tells of a fault only its kind. -/
def byKind {α : Type} (x : Run α) : EStateM FaultKind Machine α := x.adaptExcept Fault.kind

variable {α β : Type}

@[simp] theorem byKind_pure (a : α) : byKind (pure a) = pure a := rfl

@[simp] theorem byKind_bind (x : Run α) (f : α → Run β) :
    byKind (x >>= f) = byKind x >>= fun a => byKind (f a) := by
  funext m
  simp only [byKind, EStateM.adaptExcept, bind, EStateM.bind]
  cases x m <;> rfl

@[simp] theorem byKind_throw (fault : Fault) :
    byKind (throw fault : Run α) = throw fault.kind := rfl

/-- A run with a result has the same result when faults are reduced to their kinds, and only
such a run has. -/
theorem byKind_eq_ok_iff (x : Run α) (m m' : Machine) (a : α) :
    byKind x m = .ok a m' ↔ x m = .ok a m' := by
  simp only [byKind, EStateM.adaptExcept]
  cases x m <;> simp

/-- A run that ends with a fault ends with the kind of that fault on the same machine. -/
theorem byKind_eq_error_iff (x : Run α) (m m' : Machine) (kind : FaultKind) :
    byKind x m = .error kind m' ↔ ∃ fault : Fault, fault.kind = kind ∧ x m = .error fault m' := by
  simp only [byKind, EStateM.adaptExcept]
  cases h : x m with
  | ok a m₁ => simp
  | error fault m₁ =>
    simp only [EStateM.Result.error.injEq]
    constructor
    · rintro ⟨rfl, rfl⟩
      exact ⟨fault, rfl, rfl, rfl⟩
    · rintro ⟨fault', rfl, rfl, rfl⟩
      exact ⟨rfl, rfl⟩

end Run

open Run

namespace Expr

/-- Two expressions, each under its own valuation, that no run can tell apart. -/
structure Alike (v v' : Valuation) (e e' : Expr) : Prop where
  eval : byKind (e.eval v) = byKind (e'.eval v')
  table : e.table? = e'.table?
  target : e.target? = e'.target?

structure AlikeList (v v' : Valuation) (es es' : List Expr) : Prop where
  evalList : byKind (evalList v es) = byKind (Expr.evalList v' es')
  length : es.length = es'.length

variable {v v' : Valuation}

namespace Alike

theorem literal {l l' : Literal} (h : l.constant = l'.constant) :
    Alike v v' (.literal l) (.literal l') where
  eval := by simp only [Expr.eval, h]
  table := rfl
  target := rfl

theorem var (name : String) : Alike v v' (.var name) (.var name) := ⟨rfl, rfl, rfl⟩

theorem register (reg : Register) : Alike v v' (.register reg) (.register reg) :=
  ⟨rfl, rfl, rfl⟩

theorem binary (op : BinaryOp) {l l' r r' : Expr} (hl : Alike v v' l l') (hr : Alike v v' r r') :
    Alike v v' (.binary op l r) (.binary op l' r') where
  eval := by simp only [Expr.eval, byKind_bind, byKind_pure, hl.eval, hr.eval]
  table := rfl
  target := rfl

theorem unary (op : UnaryOp) {e e' : Expr} (he : Alike v v' e e') :
    Alike v v' (.unary op e) (.unary op e') where
  eval := by simp only [Expr.eval, byKind_bind, byKind_pure, he.eval]
  table := rfl
  target := rfl

theorem logical (op : LogicalOp) {l l' r r' : Expr} (hl : Alike v v' l l')
    (hr : Alike v v' r r') : Alike v v' (.logical op l r) (.logical op l' r') where
  eval := by
    simp only [Expr.eval, byKind_bind, hl.eval]
    congr 1
    funext x
    split
    · rfl
    · exact hr.eval
  table := rfl
  target := rfl

theorem conditional {t t' y y' n n' : Expr} (ht : Alike v v' t t') (hy : Alike v v' y y')
    (hn : Alike v v' n n') : Alike v v' (.conditional t y n) (.conditional t' y' n') where
  eval := by
    simp only [Expr.eval, byKind_bind, ht.eval]
    congr 1
    funext x
    split
    · exact hy.eval
    · exact hn.eval
  table := rfl
  target := rfl

theorem index {t t' k k' : Expr} (ht : Alike v v' t t') (hk : Alike v v' k k') :
    Alike v v' (.index t k) (.index t' k') where
  eval := by
    simp only [Expr.eval, byKind_bind, hk.eval, ht.table]
    congr 1
    funext key
    cases t'.table? <;> rfl
  table := rfl
  target := rfl

theorem call (name : String) {es es' : List Expr} (h : AlikeList v v' es es') :
    Alike v v' (.call name es) (.call name es') where
  eval := by
    simp only [Expr.eval, h.length]
    split
    · rfl
    · split
      · simp only [byKind_bind, h.evalList]
      · rfl
  table := rfl
  target := rfl

end Alike

theorem AlikeList.nil : AlikeList v v' [] [] := ⟨rfl, rfl⟩

theorem AlikeList.cons {e e' : Expr} {es es' : List Expr} (he : Alike v v' e e')
    (hes : AlikeList v v' es es') : AlikeList v v' (e :: es) (e' :: es') where
  evalList := by simp only [Expr.evalList, byKind_bind, byKind_pure, he.eval, hes.evalList]
  length := by simp only [List.length_cons, hes.length]

/-- Folding changes neither value nor effect. -/
theorem eval_fold (e : Expr) : e.fold.eval v = e.eval v := by
  unfold fold
  split
  · split <;> rfl
  · rfl

/-- A folded operation is no more a table or a variable than the operation itself. -/
theorem Alike.fold {op : BinaryOp} {l r e : Expr} (h : Alike v v' (.binary op l r) e) :
    Alike v v' (Expr.binary op l r).fold e where
  eval := by rw [eval_fold, h.eval]
  table := by
    rw [← h.table]
    unfold Expr.fold
    split
    · split <;> rfl
    · rfl
  target := by
    rw [← h.target]
    unfold Expr.fold
    split
    · split <;> rfl
    · rfl

mutual

/-- A filled expression is like the expression itself with the operands for its holes. -/
theorem alike_fill (ops : Operands) (e : Expr) :
    Alike .none ops.valuation (e.fill ops) e := by
  cases e with
  | literal l => exact .literal rfl
  | var name => exact .var name
  | register reg => exact .register reg
  | hole h => exact ⟨rfl, rfl, rfl⟩
  | binary op l r => exact .fold (.binary op (alike_fill ops l) (alike_fill ops r))
  | unary op e => exact .unary op (alike_fill ops e)
  | logical op l r => exact .logical op (alike_fill ops l) (alike_fill ops r)
  | conditional t y n =>
    exact .conditional (alike_fill ops t) (alike_fill ops y) (alike_fill ops n)
  | index t k => exact .index (alike_fill ops t) (alike_fill ops k)
  | call name args => exact .call name (alikeList_fillList ops args)

theorem alikeList_fillList (ops : Operands) (es : List Expr) :
    AlikeList .none ops.valuation (fillList ops es) es := by
  cases es with
  | nil => exact .nil
  | cons e es => exact .cons (alike_fill ops e) (alikeList_fillList ops es)

end

mutual

/-- What a literal carries besides its constant does not matter. -/
theorem alike_mapLiterals {f : Literal → Literal} (hf : ∀ l, (f l).constant = l.constant)
    (e : Expr) : Alike v v (e.mapLiterals f) e := by
  cases e with
  | literal l => exact .literal (hf l)
  | var name => exact .var name
  | register reg => exact .register reg
  | hole h => exact ⟨rfl, rfl, rfl⟩
  | binary op l r => exact .binary op (alike_mapLiterals hf l) (alike_mapLiterals hf r)
  | unary op e => exact .unary op (alike_mapLiterals hf e)
  | logical op l r => exact .logical op (alike_mapLiterals hf l) (alike_mapLiterals hf r)
  | conditional t y n =>
    exact .conditional (alike_mapLiterals hf t) (alike_mapLiterals hf y) (alike_mapLiterals hf n)
  | index t k => exact .index (alike_mapLiterals hf t) (alike_mapLiterals hf k)
  | call name args => exact .call name (alikeList_mapLiteralsList hf args)

theorem alikeList_mapLiteralsList {f : Literal → Literal}
    (hf : ∀ l, (f l).constant = l.constant) (es : List Expr) :
    AlikeList v v (mapLiteralsList f es) es := by
  cases es with
  | nil => exact .nil
  | cons e es => exact .cons (alike_mapLiterals hf e) (alikeList_mapLiteralsList hf es)

end

mutual

/-- Without holes, the valuation does not matter. -/
theorem alike_of_no_holes (e : Expr) (he : ∀ x ∈ e.subexprs, x.hole? = none) :
    Alike v v' e e := by
  cases e with
  | literal l => exact .literal rfl
  | var name => exact .var name
  | register reg => exact .register reg
  | hole h => simp [subexprs, hole?] at he
  | binary op l r =>
    simp only [subexprs, List.forall_mem_cons, List.forall_mem_append] at he
    exact .binary op (alike_of_no_holes l he.2.1) (alike_of_no_holes r he.2.2)
  | unary op e =>
    simp only [subexprs, List.forall_mem_cons] at he
    exact .unary op (alike_of_no_holes e he.2)
  | logical op l r =>
    simp only [subexprs, List.forall_mem_cons, List.forall_mem_append] at he
    exact .logical op (alike_of_no_holes l he.2.1) (alike_of_no_holes r he.2.2)
  | conditional t y n =>
    simp only [subexprs, List.forall_mem_cons, List.forall_mem_append] at he
    exact .conditional (alike_of_no_holes t he.2.1.1) (alike_of_no_holes y he.2.1.2)
      (alike_of_no_holes n he.2.2)
  | index t k =>
    simp only [subexprs, List.forall_mem_cons, List.forall_mem_append] at he
    exact .index (alike_of_no_holes t he.2.1) (alike_of_no_holes k he.2.2)
  | call name args =>
    simp only [subexprs, List.forall_mem_cons] at he
    exact .call name (alikeList_of_no_holes args he.2)

theorem alikeList_of_no_holes (es : List Expr)
    (hes : ∀ x ∈ subexprsList es, x.hole? = none) : AlikeList v v' es es := by
  cases es with
  | nil => exact .nil
  | cons e es =>
    simp only [subexprsList, List.forall_mem_append] at hes
    exact .cons (alike_of_no_holes e hes.1) (alikeList_of_no_holes es hes.2)

end

end Expr

namespace Stmt

/-- Two statements, each under its own valuation, that no run can tell apart. -/
def Alike (v v' : Valuation) (s s' : Stmt) : Prop := byKind (s.run v) = byKind (s'.run v')

def AlikeList (v v' : Valuation) (p p' : List Stmt) : Prop :=
  byKind (runList v p) = byKind (runList v' p')

variable {v v' : Valuation}

namespace Alike

theorem effect {e e' : Expr} (he : e.Alike v v' e') : Alike v v' (.effect e) (.effect e') := by
  simp only [Alike, Stmt.run, byKind_bind, byKind_pure, he.eval]

theorem assign (op : AssignOp) {t t' e e' : Expr} (ht : t.Alike v v' t') (he : e.Alike v v' e') :
    Alike v v' (.assign op t e) (.assign op t' e') := by
  simp only [Alike, Stmt.run, ht.target]
  cases t'.target? with
  | none => rfl
  | some name => simp only [byKind_bind, he.eval]

theorem declare (name : String) {e e' : Expr} (he : e.Alike v v' e') :
    Alike v v' (.declare name e) (.declare name e') := by
  simp only [Alike, Stmt.run, byKind_bind, he.eval]

theorem block {p p' : List Stmt} (hp : AlikeList v v' p p') :
    Alike v v' (.block p) (.block p') := by
  simp only [Alike, Stmt.run]
  exact hp

theorem ifThen {t t' : Expr} {s s' : Stmt} (ht : t.Alike v v' t') (hs : Alike v v' s s') :
    Alike v v' (.ifThen t s) (.ifThen t' s') := by
  simp only [Alike, Stmt.run, byKind_bind, ht.eval]
  congr 1
  funext x
  split
  · exact hs
  · rfl

theorem ifElse {t t' : Expr} {s s' z z' : Stmt} (ht : t.Alike v v' t') (hs : Alike v v' s s')
    (hz : Alike v v' z z') : Alike v v' (.ifElse t s z) (.ifElse t' s' z') := by
  simp only [Alike, Stmt.run, byKind_bind, ht.eval]
  congr 1
  funext x
  split
  · exact hs
  · exact hz

theorem done : Alike v v' (.ret none) (.ret none) := rfl

theorem ret {e e' : Expr} (he : e.Alike v v' e') : Alike v v' (.ret (some e)) (.ret (some e')) := by
  simp only [Alike, Stmt.run, byKind_bind, byKind_pure, he.eval]

end Alike

theorem AlikeList.nil : AlikeList v v' [] [] := rfl

theorem AlikeList.cons {s s' : Stmt} {p p' : List Stmt} (hs : Alike v v' s s')
    (hp : AlikeList v v' p p') : AlikeList v v' (s :: p) (s' :: p') := by
  simp only [AlikeList, Stmt.runList, byKind_bind, show byKind (s.run v) = _ from hs]
  congr 1
  funext flow
  cases flow with
  | continued => exact hp
  | returned => rfl

mutual

theorem alike_fill (ops : Operands) (s : Stmt) : Alike .none ops.valuation (s.fill ops) s := by
  cases s with
  | effect e => exact .effect (e.alike_fill ops)
  | assign op t e => exact .assign op (t.alike_fill ops) (e.alike_fill ops)
  | declare name e => exact .declare name (e.alike_fill ops)
  | block body => exact .block (alikeList_fillList ops body)
  | ifThen t s => exact .ifThen (t.alike_fill ops) (alike_fill ops s)
  | ifElse t s z => exact .ifElse (t.alike_fill ops) (alike_fill ops s) (alike_fill ops z)
  | ret value =>
    cases value with
    | none => exact .done
    | some e => exact .ret (e.alike_fill ops)

theorem alikeList_fillList (ops : Operands) (p : List Stmt) :
    AlikeList .none ops.valuation (fillList ops p) p := by
  cases p with
  | nil => exact .nil
  | cons s p => exact .cons (alike_fill ops s) (alikeList_fillList ops p)

end

mutual

theorem alike_mapLiterals {f : Literal → Literal} (hf : ∀ l, (f l).constant = l.constant)
    (s : Stmt) : Alike v v (s.mapLiterals f) s := by
  cases s with
  | effect e => exact .effect (e.alike_mapLiterals hf)
  | assign op t e => exact .assign op (t.alike_mapLiterals hf) (e.alike_mapLiterals hf)
  | declare name e => exact .declare name (e.alike_mapLiterals hf)
  | block body => exact .block (alikeList_mapLiteralsList hf body)
  | ifThen t s => exact .ifThen (t.alike_mapLiterals hf) (alike_mapLiterals hf s)
  | ifElse t s z =>
    exact .ifElse (t.alike_mapLiterals hf) (alike_mapLiterals hf s) (alike_mapLiterals hf z)
  | ret value =>
    cases value with
    | none => exact .done
    | some e => exact .ret (e.alike_mapLiterals hf)

theorem alikeList_mapLiteralsList {f : Literal → Literal}
    (hf : ∀ l, (f l).constant = l.constant) (p : List Stmt) :
    AlikeList v v (mapLiteralsList f p) p := by
  cases p with
  | nil => exact .nil
  | cons s p => exact .cons (alike_mapLiterals hf s) (alikeList_mapLiteralsList hf p)

end

mutual

theorem alike_of_no_holes (s : Stmt) (hs : ∀ x ∈ s.exprs, x.hole? = none) :
    Alike v v' s s := by
  cases s with
  | effect e => exact .effect (e.alike_of_no_holes hs)
  | assign op t e =>
    simp only [exprs, List.forall_mem_append] at hs
    exact .assign op (t.alike_of_no_holes hs.1) (e.alike_of_no_holes hs.2)
  | declare name e => exact .declare name (e.alike_of_no_holes hs)
  | block body => exact .block (alikeList_of_no_holes body hs)
  | ifThen t s =>
    simp only [exprs, List.forall_mem_append] at hs
    exact .ifThen (t.alike_of_no_holes hs.1) (alike_of_no_holes s hs.2)
  | ifElse t s z =>
    simp only [exprs, List.forall_mem_append] at hs
    exact .ifElse (t.alike_of_no_holes hs.1.1) (alike_of_no_holes s hs.1.2)
      (alike_of_no_holes z hs.2)
  | ret value =>
    cases value with
    | none => exact .done
    | some e => exact .ret (e.alike_of_no_holes hs)

theorem alikeList_of_no_holes (p : List Stmt) (hp : ∀ x ∈ exprsList p, x.hole? = none) :
    AlikeList v v' p p := by
  cases p with
  | nil => exact .nil
  | cons s p =>
    simp only [exprsList, List.forall_mem_append] at hp
    exact .cons (alike_of_no_holes s hp.1) (alikeList_of_no_holes p hp.2)

end

end Stmt

namespace Program

/-- A filled program runs like the program itself with the operands for its holes. -/
theorem run_fill_byKind (p : Program) (ops : Operands) :
    byKind (p.fill ops).run = byKind (p.runWith ops.valuation) := by
  rw [fill, ← Stmt.fillList_eq_map]
  exact Stmt.alikeList_fillList ops p

/-- An annotated program runs like the program itself. -/
theorem run_annotate_byKind (p : Program) : byKind p.annotate.run = byKind p.run := by
  rw [annotate, mapLiterals, ← Stmt.mapLiteralsList_eq_map]
  exact Stmt.alikeList_mapLiteralsList Literal.constant_annotate p

/-- A program without holes runs alike under every valuation. -/
theorem run_byKind_of_no_holes {p : Program} (hp : p.holes = []) (v : Valuation) :
    byKind p.run = byKind (p.runWith v) := by
  refine Stmt.alikeList_of_no_holes p fun x hx => ?_
  rw [Stmt.exprsList_eq_flatMap] at hx
  exact List.filterMap_eq_nil_iff.mp hp x hx

end Program

/-- A pending template, filled with some operands, runs like its skeleton with the operands for its
holes, annotated or not. -/
theorem Template.run_pending_byKind (p : Program) (annotate : Bool) (ops : Operands) :
    byKind ((pending p annotate).instantiate ops).run = byKind (p.runWith ops.valuation) := by
  cases annotate with
  | false => exact p.run_fill_byKind ops
  | true => exact (p.fill ops).run_annotate_byKind.trans (p.run_fill_byKind ops)

/-- The program that a template gives for some operands runs like its skeleton with the operands
for its holes. -/
theorem Template.run_instantiate_byKind (annotate : Bool) (p : Program) (ops : Operands) :
    byKind ((Template.ofProgram annotate p).instantiate ops).run =
      byKind (p.runWith ops.valuation) := by
  unfold ofProgram
  split
  · next h =>
    have noHoles := p.run_byKind_of_no_holes (List.isEmpty_iff.mp h) ops.valuation
    cases annotate with
    | false => exact noHoles
    | true => exact p.run_annotate_byKind.trans noHoles
  · exact run_pending_byKind p annotate ops

/-- Filling keeps the meaning of every skeleton. From every machine, the filled program ends in the
same way and on the same machine as the skeleton with the operands for its holes, or it ends with a
fault of the same kind and leaves the same machine behind. Folding keeps the meaning of every single
expression, whatever its holes are worth. -/
theorem Template.run_pending_iff (skeleton : Program) (annotate : Bool) (ops : Operands)
    (m m' : Machine) :
    (∀ flow, ((pending skeleton annotate).instantiate ops).run m = .ok flow m' ↔
      skeleton.runWith ops.valuation m = .ok flow m') ∧
    (∀ kind, (∃ fault : Fault, fault.kind = kind ∧
        ((pending skeleton annotate).instantiate ops).run m = .error fault m') ↔
      ∃ fault : Fault, fault.kind = kind ∧ skeleton.runWith ops.valuation m = .error fault m') ∧
    ∀ (e : Expr) (valuation : Valuation), e.fold.eval valuation m = e.eval valuation m := by
  have same := congrFun (run_pending_byKind skeleton annotate ops) m
  refine ⟨fun flow => ?_, fun kind => ?_, fun e valuation => ?_⟩
  · rw [← byKind_eq_ok_iff, same, byKind_eq_ok_iff]
  · rw [← byKind_eq_error_iff, same, byKind_eq_error_iff]
  · rw [e.eval_fold]

end Z80Effects
