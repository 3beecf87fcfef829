import Z80Effects.Proofs.EffectForms
import Z80Effects.Proofs.VariableWidths

/-!
# The calls that a run makes

`callsOn` follows a run and lists the primitives that it calls, with the machine on which each of
them works. The primitives called are among those that the program names, which filling and
annotating leave as they are, and the machines keep to the limits to which the program keeps.
-/
namespace Z80Effects

namespace Expr

mutual

/-- The primitives that the evaluation of an expression calls, each with the machine on which it is
called, in the order of the calls. -/
def callsOn (holes : Hole → Value) : Expr → Machine → List (Primitive × Machine)
  | literal _, _ | var _, _ | register _, _ | hole _, _ => []
  | binary _ l r, m => l.callsOn holes m ++ r.callsOn holes (l.outcome holes m).2
  | unary _ e, m => e.callsOn holes m
  | logical op l r, m =>
      let x := l.outcome holes m
      l.callsOn holes m ++ if op.decidedBy x.1 then [] else r.callsOn holes x.2
  | conditional t y n, m =>
      let x := t.outcome holes m
      t.callsOn holes m ++ if x.1 ≠ 0 then y.callsOn holes x.2 else n.callsOn holes x.2
  | index _ k, m => k.callsOn holes m
  | call name args, m =>
      callsOnList holes args m ++
        (Primitive.ofName? name).toList.map fun f => (f, (outcomeList holes args m).2)

def callsOnList (holes : Hole → Value) : List Expr → Machine → List (Primitive × Machine)
  | [], _ => []
  | e :: es, m => e.callsOn holes m ++ callsOnList holes es (e.outcome holes m).2

end

end Expr

namespace Stmt

mutual

def callsOn (holes : Hole → Value) : Stmt → Machine → List (Primitive × Machine)
  | effect e, m | declare _ e, m | assign _ _ e, m => e.callsOn holes m
  | block body, m => callsOnList holes body m
  | ifThen test yes, m =>
      let x := test.outcome holes m
      test.callsOn holes m ++ if x.1 ≠ 0 then yes.callsOn holes x.2 else []
  | ifElse test yes no, m =>
      let x := test.outcome holes m
      test.callsOn holes m ++ if x.1 ≠ 0 then yes.callsOn holes x.2 else no.callsOn holes x.2
  | ret value, m => value.elim [] fun e => e.callsOn holes m

def callsOnList (holes : Hole → Value) : List Stmt → Machine → List (Primitive × Machine)
  | [], _ => []
  | s :: ss, m =>
      let x := s.outcome holes m
      s.callsOn holes m ++
        match x.1 with
        | .continued => callsOnList holes ss x.2
        | .returned => []

end

end Stmt

/-- The primitives that a run of a program without holes calls, each with the machine on which it is
called. -/
def Program.callsOn (p : Program) (m : Machine) : List (Primitive × Machine) :=
  Stmt.callsOnList (fun _ => 0) p m

variable {holes : Hole → Value}

namespace Expr

def callees (e : Expr) : List String := e.subexprs.filterMap callee?

def calleesList (es : List Expr) : List String := (subexprsList es).filterMap callee?

section
variable (l r t y n k e : Expr) (es : List Expr)

@[simp] theorem callees_literal (x : Literal) : (literal x).callees = [] := rfl

@[simp] theorem callees_var (name : String) : (var name).callees = [] := rfl

@[simp] theorem callees_register (reg : Register) : (register reg).callees = [] := rfl

@[simp] theorem callees_hole (h : Hole) : (hole h).callees = [] := rfl

@[simp] theorem callees_binary (op : BinaryOp) :
    (binary op l r).callees = l.callees ++ r.callees := by
  rw [callees, subexprs, List.filterMap_cons_none rfl, List.filterMap_append]
  rfl

@[simp] theorem callees_unary (op : UnaryOp) : (unary op e).callees = e.callees := by
  rw [callees, subexprs, List.filterMap_cons_none rfl]
  rfl

@[simp] theorem callees_logical (op : LogicalOp) :
    (logical op l r).callees = l.callees ++ r.callees := by
  rw [callees, subexprs, List.filterMap_cons_none rfl, List.filterMap_append]
  rfl

@[simp] theorem callees_conditional :
    (conditional t y n).callees = t.callees ++ y.callees ++ n.callees := by
  rw [callees, subexprs, List.filterMap_cons_none rfl, List.filterMap_append,
    List.filterMap_append]
  rfl

@[simp] theorem callees_index : (index t k).callees = t.callees ++ k.callees := by
  rw [callees, subexprs, List.filterMap_cons_none rfl, List.filterMap_append]
  rfl

@[simp] theorem callees_call (name : String) :
    (call name es).callees = name :: calleesList es := by
  simp [callees, calleesList, subexprs, callee?]

@[simp] theorem calleesList_nil : calleesList [] = [] := rfl

@[simp] theorem calleesList_cons : calleesList (e :: es) = e.callees ++ calleesList es := by
  simp [callees, calleesList, subexprsList]

-- The same for expressions as effects write them.

@[simp] theorem callees_ofNat (i : Nat) : (no_index (OfNat.ofNat i) : Expr).callees = [] := rfl

@[simp] theorem callees_add : (l + r).callees = l.callees ++ r.callees := callees_binary ..

@[simp] theorem callees_sub : (l - r).callees = l.callees ++ r.callees := callees_binary ..

@[simp] theorem callees_mul : (l * r).callees = l.callees ++ r.callees := callees_binary ..

@[simp] theorem callees_and : (l &&& r).callees = l.callees ++ r.callees := callees_binary ..

@[simp] theorem callees_or : (l ||| r).callees = l.callees ++ r.callees := callees_binary ..

@[simp] theorem callees_xor : (l ^^^ r).callees = l.callees ++ r.callees := callees_binary ..

@[simp] theorem callees_shiftLeft (i : Nat) : (e <<< i).callees = e.callees :=
  (callees_binary ..).trans (List.append_nil _)

@[simp] theorem callees_shiftRight (i : Nat) : (e >>> i).callees = e.callees :=
  (callees_binary ..).trans (List.append_nil _)

@[simp] theorem callees_complement : (~~~ e).callees = e.callees := callees_unary ..

@[simp] theorem callees_equals : (l.equals r).callees = l.callees ++ r.callees :=
  callees_binary ..

@[simp] theorem callees_differs : (l.differs r).callees = l.callees ++ r.callees :=
  callees_binary ..

@[simp] theorem callees_exceeds : (l.exceeds r).callees = l.callees ++ r.callees :=
  callees_binary ..

@[simp] theorem callees_lookup (table : FlagTable) : (lookup table k).callees = k.callees :=
  callees_index ..

@[simp] theorem callees_primitive (f : Primitive) :
    (f.call es).callees = f.name :: calleesList es := callees_call ..

end

mutual

/-- A primitive that is called is named in the expression. -/
theorem mem_callees_of_mem_callsOn (e : Expr) {m : Machine} {c : Primitive × Machine}
    (h : c ∈ e.callsOn holes m) : c.1.name ∈ e.callees := by
  cases e with
  | literal l => cases h
  | var name => cases h
  | register reg => cases h
  | hole a => cases h
  | binary op l r =>
    simp only [callsOn, List.mem_append] at h
    simp only [callees_binary, List.mem_append]
    exact h.imp (mem_callees_of_mem_callsOn l) (mem_callees_of_mem_callsOn r)
  | unary op e =>
    simp only [callsOn] at h
    rw [callees_unary]
    exact mem_callees_of_mem_callsOn e h
  | logical op l r =>
    simp only [callsOn, List.mem_append] at h
    simp only [callees_logical, List.mem_append]
    refine h.imp (mem_callees_of_mem_callsOn l) fun h => ?_
    split at h
    · cases h
    · exact mem_callees_of_mem_callsOn r h
  | conditional t y n =>
    simp only [callsOn, List.mem_append] at h
    simp only [callees_conditional, List.mem_append, or_assoc]
    refine h.imp (mem_callees_of_mem_callsOn t) fun h => ?_
    split at h
    · exact .inl (mem_callees_of_mem_callsOn y h)
    · exact .inr (mem_callees_of_mem_callsOn n h)
  | index t k =>
    simp only [callsOn] at h
    simp only [callees_index, List.mem_append]
    exact .inr (mem_callees_of_mem_callsOn k h)
  | call name args =>
    simp only [callsOn, List.mem_append, List.mem_map, Option.mem_toList] at h
    rw [callees_call, List.mem_cons]
    rcases h with h | ⟨f, hf, rfl⟩
    · exact .inr (mem_calleesList_of_mem_callsOnList args h)
    · exact .inl (Primitive.name_of_ofName? hf)

theorem mem_calleesList_of_mem_callsOnList (es : List Expr) {m : Machine}
    {c : Primitive × Machine} (h : c ∈ callsOnList holes es m) : c.1.name ∈ calleesList es := by
  cases es with
  | nil => cases h
  | cons e es =>
    simp only [callsOnList, List.mem_append] at h
    simp only [calleesList_cons, List.mem_append]
    exact h.imp (mem_callees_of_mem_callsOn e) (mem_calleesList_of_mem_callsOnList es)

end

end Expr

namespace Stmt

def callees (s : Stmt) : List String := s.exprs.filterMap Expr.callee?

def calleesList (p : List Stmt) : List String := (exprsList p).filterMap Expr.callee?

theorem calleesList_eq_calls (p : Program) : calleesList p = p.calls := by
  rw [calleesList, exprsList_eq_flatMap]
  rfl

section
variable (t e : Expr) (s z : Stmt) (p : List Stmt)

@[simp] theorem callees_effect : (effect e).callees = e.callees := by
  simp [callees, exprs, Expr.callees]

@[simp] theorem callees_assign (op : AssignOp) :
    (assign op t e).callees = t.callees ++ e.callees := by
  simp [callees, exprs, Expr.callees]

@[simp] theorem callees_declare (name : String) : (declare name e).callees = e.callees := by
  simp [callees, exprs, Expr.callees]

@[simp] theorem callees_block : (block p).callees = calleesList p := by
  simp [callees, exprs, calleesList]

@[simp] theorem callees_ifThen : (ifThen t s).callees = t.callees ++ s.callees := by
  simp [callees, exprs, Expr.callees]

@[simp] theorem callees_ifElse :
    (ifElse t s z).callees = t.callees ++ s.callees ++ z.callees := by
  simp [callees, exprs, Expr.callees]

@[simp] theorem callees_ret : (ret (some e)).callees = e.callees := by
  simp [callees, exprs, Expr.callees]

@[simp] theorem callees_set : (set t e).callees = t.callees ++ e.callees := callees_assign ..

@[simp] theorem callees_whenever : (whenever t p).callees = t.callees ++ calleesList p := by
  simp [whenever]

@[simp] theorem callees_choose (q : List Stmt) :
    (choose t p q).callees = t.callees ++ calleesList p ++ calleesList q := by
  simp [choose]

@[simp] theorem callees_done : done.callees = [] := rfl

@[simp] theorem calleesList_nil : calleesList [] = [] := rfl

@[simp] theorem calleesList_cons : calleesList (s :: p) = s.callees ++ calleesList p := by
  simp [callees, exprsList, calleesList]

theorem calleesList_append (q : List Stmt) :
    calleesList (p ++ q) = calleesList p ++ calleesList q := by
  simp [calleesList, exprsList_eq_flatMap]

end

mutual

theorem mem_callees_of_mem_callsOn (s : Stmt) {m : Machine} {c : Primitive × Machine}
    (h : c ∈ s.callsOn holes m) : c.1.name ∈ s.callees := by
  cases s with
  | effect e =>
    simp only [callsOn] at h
    rw [callees_effect]
    exact e.mem_callees_of_mem_callsOn h
  | assign op t e =>
    simp only [callsOn] at h
    rw [callees_assign, List.mem_append]
    exact .inr (e.mem_callees_of_mem_callsOn h)
  | declare name e =>
    simp only [callsOn] at h
    rw [callees_declare]
    exact e.mem_callees_of_mem_callsOn h
  | block body =>
    simp only [callsOn] at h
    rw [callees_block]
    exact mem_calleesList_of_mem_callsOnList body h
  | ifThen t s =>
    simp only [callsOn, List.mem_append] at h
    rw [callees_ifThen, List.mem_append]
    refine h.imp t.mem_callees_of_mem_callsOn fun h => ?_
    split at h
    · exact mem_callees_of_mem_callsOn s h
    · cases h
  | ifElse t s z =>
    simp only [callsOn, List.mem_append] at h
    simp only [callees_ifElse, List.mem_append, or_assoc]
    refine h.imp t.mem_callees_of_mem_callsOn fun h => ?_
    split at h
    · exact .inl (mem_callees_of_mem_callsOn s h)
    · exact .inr (mem_callees_of_mem_callsOn z h)
  | ret value =>
    cases value with
    | none => cases h
    | some e =>
      simp only [callsOn, Option.elim_some] at h
      rw [callees_ret]
      exact e.mem_callees_of_mem_callsOn h

theorem mem_calleesList_of_mem_callsOnList (p : List Stmt) {m : Machine}
    {c : Primitive × Machine} (h : c ∈ callsOnList holes p m) : c.1.name ∈ calleesList p := by
  cases p with
  | nil => cases h
  | cons s ss =>
    simp only [callsOnList, List.mem_append] at h
    rw [calleesList_cons, List.mem_append]
    refine h.imp (mem_callees_of_mem_callsOn s) fun h => ?_
    split at h
    · exact mem_calleesList_of_mem_callsOnList ss h
    · cases h

end

end Stmt

namespace Expr

theorem callees_fold (e : Expr) : e.fold.callees = e.callees := by
  unfold fold
  split
  · split <;> rfl
  · rfl

mutual

theorem callees_fill (ops : Operands) (e : Expr) : (e.fill ops).callees = e.callees := by
  cases e with
  | literal l => rfl
  | var name => rfl
  | register reg => rfl
  | hole a => rfl
  | binary op l r =>
    rw [fill, callees_fold, callees_binary, callees_fill ops l, callees_fill ops r,
      callees_binary]
  | unary op e => rw [fill, callees_unary, callees_fill ops e, callees_unary]
  | logical op l r =>
    rw [fill, callees_logical, callees_fill ops l, callees_fill ops r, callees_logical]
  | conditional t y n =>
    rw [fill, callees_conditional, callees_fill ops t, callees_fill ops y, callees_fill ops n,
      callees_conditional]
  | index t k => rw [fill, callees_index, callees_fill ops t, callees_fill ops k, callees_index]
  | call name args => rw [fill, callees_call, calleesList_fillList ops args, callees_call]

theorem calleesList_fillList (ops : Operands) (es : List Expr) :
    calleesList (fillList ops es) = calleesList es := by
  cases es with
  | nil => rfl
  | cons e es =>
    rw [fillList, calleesList_cons, callees_fill ops e, calleesList_fillList ops es,
      calleesList_cons]

end

end Expr

namespace Stmt

mutual

theorem callees_fill (ops : Operands) (s : Stmt) : (s.fill ops).callees = s.callees := by
  cases s with
  | effect e => rw [fill, callees_effect, e.callees_fill ops, callees_effect]
  | assign op t e =>
    rw [fill, callees_assign, t.callees_fill ops, e.callees_fill ops, callees_assign]
  | declare name e => rw [fill, callees_declare, e.callees_fill ops, callees_declare]
  | block body => rw [fill, callees_block, calleesList_fillList ops body, callees_block]
  | ifThen t s =>
    rw [fill, callees_ifThen, t.callees_fill ops, callees_fill ops s, callees_ifThen]
  | ifElse t s z =>
    rw [fill, callees_ifElse, t.callees_fill ops, callees_fill ops s, callees_fill ops z,
      callees_ifElse]
  | ret value =>
    cases value with
    | none => rfl
    | some e => rw [fill, Option.map_some, callees_ret, e.callees_fill ops, callees_ret]

theorem calleesList_fillList (ops : Operands) (p : List Stmt) :
    calleesList (fillList ops p) = calleesList p := by
  cases p with
  | nil => rfl
  | cons s ss =>
    rw [fillList, calleesList_cons, callees_fill ops s, calleesList_fillList ops ss,
      calleesList_cons]

end

end Stmt

namespace Program

variable (p : Program)

theorem calls_fill (ops : Operands) : (p.fill ops).calls = p.calls := by
  rw [← Stmt.calleesList_eq_calls, ← Stmt.calleesList_eq_calls, fill, ← Stmt.fillList_eq_map,
    Stmt.calleesList_fillList]

theorem calls_annotate : p.annotate.calls = p.calls := by
  have callee : Expr.callee? ∘ Expr.mapLiterals Literal.annotate = Expr.callee? :=
    funext (Expr.callee?_mapLiterals _)
  rw [calls, annotate, exprs_mapLiterals, List.filterMap_map, callee, calls]

theorem calls_instantiate (annotate : Bool) (ops : Operands) :
    ((Template.ofProgram annotate p).instantiate ops).calls = p.calls := by
  unfold Template.ofProgram
  split
  · cases annotate with
    | false => rfl
    | true => exact p.calls_annotate
  · cases annotate with
    | false => exact p.calls_fill ops
    | true => exact (p.fill ops).calls_annotate.trans (p.calls_fill ops)

end Program

variable {d : Discipline}

namespace Expr

mutual

/-- On a machine with all variables within their widths, every call is made on such a machine. -/
theorem callsOn_within {Γ : Widths} {m : Machine} (hh : ∀ h, (holes h).Fits (d.holeWidth h))
    (e : Expr) (hm : d.Within Γ m) : ∀ c ∈ e.callsOn holes m, d.Keeps c.2 := by
  cases e with
  | literal l => exact List.forall_mem_nil _
  | var name => exact List.forall_mem_nil _
  | register reg => exact List.forall_mem_nil _
  | hole a => exact List.forall_mem_nil _
  | binary op l r =>
    simp only [callsOn, List.forall_mem_append]
    exact ⟨callsOn_within hh l hm, callsOn_within hh r (l.outcome_within hh hm).2⟩
  | unary op e =>
    simp only [callsOn]
    exact callsOn_within hh e hm
  | logical op l r =>
    simp only [callsOn, List.forall_mem_append]
    refine ⟨callsOn_within hh l hm, ?_⟩
    split
    · exact List.forall_mem_nil _
    · exact callsOn_within hh r (l.outcome_within hh hm).2
  | conditional t y n =>
    have after := (t.outcome_within hh hm).2
    simp only [callsOn, List.forall_mem_append]
    refine ⟨callsOn_within hh t hm, ?_⟩
    split
    · exact callsOn_within hh y after
    · exact callsOn_within hh n after
  | index t k =>
    simp only [callsOn]
    exact callsOn_within hh k hm
  | call name args =>
    simp only [callsOn, List.forall_mem_append]
    refine ⟨callsOnList_within hh args hm, fun c hc => ?_⟩
    obtain ⟨f, -, rfl⟩ := List.mem_map.mp hc
    exact (outcomeList_within hh args hm).2.keeps

theorem callsOnList_within {Γ : Widths} {m : Machine} (hh : ∀ h, (holes h).Fits (d.holeWidth h))
    (es : List Expr) (hm : d.Within Γ m) : ∀ c ∈ callsOnList holes es m, d.Keeps c.2 := by
  cases es with
  | nil => exact List.forall_mem_nil _
  | cons e es =>
    simp only [callsOnList, List.forall_mem_append]
    exact ⟨callsOn_within hh e hm, callsOnList_within hh es (e.outcome_within hh hm).2⟩

end

end Expr

namespace Stmt

mutual

theorem callsOn_within {Γ Γ' : Widths} {m : Machine} (hh : ∀ h, (holes h).Fits (d.holeWidth h))
    (s : Stmt) (hs : s.widths d Γ = some Γ') (hm : d.Within Γ m) :
    ∀ c ∈ s.callsOn holes m, d.Keeps c.2 := by
  cases s with
  | effect e | assign op t e | declare name e =>
    simp only [callsOn]
    exact e.callsOn_within hh hm
  | block body =>
    simp only [widths] at hs
    simp only [callsOn]
    exact callsOnList_within hh body hs hm
  | ifThen t yes =>
    simp only [widths, Option.map_eq_some_iff] at hs
    obtain ⟨Γ₁, hyes, -⟩ := hs
    simp only [callsOn, List.forall_mem_append]
    refine ⟨t.callsOn_within hh hm, ?_⟩
    split
    · exact callsOn_within hh yes hyes (t.outcome_within hh hm).2
    · exact List.forall_mem_nil _
  | ifElse t yes no =>
    have after := (t.outcome_within hh hm).2
    simp only [widths, Option.bind_eq_some_iff, Option.map_eq_some_iff] at hs
    obtain ⟨Γ₁, hyes, Γ₂, hno, -⟩ := hs
    simp only [callsOn, List.forall_mem_append]
    refine ⟨t.callsOn_within hh hm, ?_⟩
    split
    · exact callsOn_within hh yes hyes after
    · exact callsOn_within hh no hno after
  | ret value =>
    cases value with
    | none => exact List.forall_mem_nil _
    | some e =>
      simp only [callsOn, Option.elim_some]
      exact e.callsOn_within hh hm

theorem callsOnList_within {Γ Γ' : Widths} {m : Machine}
    (hh : ∀ h, (holes h).Fits (d.holeWidth h)) (p : List Stmt)
    (hp : widthsList d Γ p = some Γ') (hm : d.Within Γ m) :
    ∀ c ∈ callsOnList holes p m, d.Keeps c.2 := by
  cases p with
  | nil => exact List.forall_mem_nil _
  | cons s ss =>
    simp only [widthsList, Option.bind_eq_some_iff] at hp
    obtain ⟨Γ₁, hs, hss⟩ := hp
    have after := (outcome_within hh s hs hm).2
    simp only [callsOnList, List.forall_mem_append]
    refine ⟨callsOn_within hh s hs hm, ?_⟩
    split
    · next flow => exact callsOnList_within hh ss hss (after flow)
    · exact List.forall_mem_nil _

end

end Stmt

end Z80Effects
