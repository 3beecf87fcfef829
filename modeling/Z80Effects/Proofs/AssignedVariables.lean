import Z80Effects.Proofs.EffectForms
import Z80Effects.Proofs.MachineUpdates

/-!
# The variables that a program assigns

`assigns` lists the variables that an expression or a statement may set: the targets of its
assignments, and what the primitives that it calls set. All other variables are as they were after a
run. Besides registers and temporaries, an instruction assigns only its `controlVariables`.
-/
namespace Z80Effects

open Effect

def RegisterPair.names (p : RegisterPair) : List String := [p.high.name, p.low.name]

theorem Machine.get_setPair_of_not_mem (m : Machine) {p : RegisterPair} {name : String} (v : Value)
    (h : name ∉ p.names) : (m.setPair p v).get name = m.get name := by
  simp only [RegisterPair.names, List.mem_cons, List.not_mem_nil, or_false, not_or] at h
  exact m.get_setPair_of_ne v (Ne.symm h.1) (Ne.symm h.2)

namespace Primitive

def assigns : Primitive → List String
  | setPair p => p.names
  | incHl | decHl => RegisterPair.hl.names
  | incBc | decBc => RegisterPair.bc.names
  | incDe | decDe => RegisterPair.de.names
  | pushWord | pushBytes => [stackPointer]
  | addA | adcA | subA | sbcA | cpA | rlca | rrca | rla | rra | daa | cpl =>
      [Register.a.name, Register.f.name]
  | incMemory | decMemory | addWord | inc | dec | ccf | testBit | shift _ => [Register.f.name]
  | getPair _ | readByte | readWord | writeByte | portIn | portOut | random => []

theorem get_apply_of_not_mem (f : Primitive) {name : String} (h : name ∉ f.assigns) (x y : Value)
    (m : Machine) : (f.apply x y m).2.get name = m.get name := by
  have flags (m : Machine) (hn : name ∉ [Register.f.name]) (r : Flags) :
      (m.setFlags r).get name = m.get name := by
    rw [m.setFlags_eq_set, m.get_set_of_ne _ fun eq => hn (by simp [eq])]
  have accumulator (hn : name ∉ [Register.a.name, Register.f.name]) (r : FlaggedResult 8) :
      (m.setAccumulator r).get name = m.get name := by
    simp only [List.mem_cons, List.not_mem_nil, or_false, not_or] at hn
    rw [m.setAccumulator_eq_set, Machine.get_set_of_ne _ _ (Ne.symm hn.2),
      m.get_set_of_ne _ (Ne.symm hn.1)]
  cases f with
  | getPair p => rfl
  | readByte => exact m.get_read _ _
  | readWord => exact (Machine.get_read _ _ _).trans (m.get_read _ _)
  | writeByte => exact m.get_write _ _ _
  | portIn => rfl
  | portOut => exact m.get_putOut _ _ _
  | random => rfl
  | setPair p => exact m.get_setPair_of_not_mem _ h
  | incHl | decHl | incBc | decBc | incDe | decDe => exact m.get_setPair_of_not_mem _ h
  | pushWord | pushBytes =>
    have apart : ¬ stackPointer = name := fun eq => h (by simp [assigns, eq])
    exact (m.get_push _ _ _).trans (if_neg apart)
  | addA | adcA | subA | sbcA | cpA | rlca | rrca | rla | rra | daa | cpl => exact accumulator h _
  | incMemory | decMemory =>
    exact (Machine.get_write _ _ _ _).trans ((flags _ h _).trans (m.get_read _ _))
  | addWord | inc | dec | ccf | testBit | shift _ => exact flags _ h _

end Primitive

namespace Expr

mutual

/-- The variables that the calls in an expression set. The place of a table is not evaluated. -/
def assigns : Expr → List String
  | literal _ | var _ | register _ | hole _ => []
  | binary _ l r | logical _ l r => l.assigns ++ r.assigns
  | unary _ e => e.assigns
  | conditional t y n => t.assigns ++ y.assigns ++ n.assigns
  | index _ k => k.assigns
  | call name args => assignsList args ++ (Primitive.ofName? name).elim [] Primitive.assigns

def assignsList : List Expr → List String
  | [] => []
  | e :: es => e.assigns ++ assignsList es

end

variable {holes : Hole → Value} {name : String}

mutual

/-- Evaluating an expression leaves the variables alone that it does not assign. -/
theorem get_outcome_of_not_mem (e : Expr) (h : name ∉ e.assigns) (m : Machine) :
    (e.outcome holes m).2.get name = m.get name := by
  cases e with
  | literal l => rfl
  | var x => rfl
  | register reg => rfl
  | hole x => rfl
  | binary op l r =>
    simp only [assigns, List.mem_append, not_or] at h
    simp only [outcome]
    rw [get_outcome_of_not_mem r h.2, get_outcome_of_not_mem l h.1]
  | unary op e =>
    simp only [assigns] at h
    simp only [outcome]
    exact get_outcome_of_not_mem e h m
  | logical op l r =>
    simp only [assigns, List.mem_append, not_or] at h
    simp only [outcome]
    split
    · exact get_outcome_of_not_mem l h.1 m
    · rw [get_outcome_of_not_mem r h.2, get_outcome_of_not_mem l h.1]
  | conditional t y n =>
    simp only [assigns, List.mem_append, not_or] at h
    simp only [outcome]
    split
    · rw [get_outcome_of_not_mem y h.1.2, get_outcome_of_not_mem t h.1.1]
    · rw [get_outcome_of_not_mem n h.2, get_outcome_of_not_mem t h.1.1]
  | index t k =>
    simp only [assigns] at h
    simp only [outcome]
    exact get_outcome_of_not_mem k h m
  | call x args =>
    simp only [assigns, List.mem_append, not_or] at h
    have before := get_outcomeList_of_not_mem args h.1 m
    simp only [outcome]
    cases hf : Primitive.ofName? x with
    | none => exact before
    | some f =>
      rw [hf] at h
      exact (f.get_apply_of_not_mem h.2 _ _ _).trans before

theorem get_outcomeList_of_not_mem (es : List Expr) (h : name ∉ assignsList es) (m : Machine) :
    (outcomeList holes es m).2.get name = m.get name := by
  cases es with
  | nil => rfl
  | cons e es =>
    simp only [assignsList, List.mem_append, not_or] at h
    simp only [outcomeList]
    rw [get_outcomeList_of_not_mem es h.2, get_outcome_of_not_mem e h.1]

end

end Expr

namespace Stmt

mutual

def assigns : Stmt → List String
  | effect e => e.assigns
  | assign _ target value => target.target?.toList ++ value.assigns
  | declare name value => name :: value.assigns
  | block body => assignsList body
  | ifThen test yes => test.assigns ++ yes.assigns
  | ifElse test yes no => test.assigns ++ yes.assigns ++ no.assigns
  | ret value => value.elim [] Expr.assigns

def assignsList : List Stmt → List String
  | [] => []
  | s :: ss => s.assigns ++ assignsList ss

end

variable {holes : Hole → Value} {name : String}

mutual

/-- A statement leaves the variables alone that it does not assign. -/
theorem get_outcome_of_not_mem (s : Stmt) (h : name ∉ s.assigns) (m : Machine) :
    (s.outcome holes m).2.get name = m.get name := by
  cases s with
  | effect e =>
    simp only [assigns] at h
    simp only [outcome]
    exact e.get_outcome_of_not_mem h m
  | assign op target value =>
    simp only [assigns, List.mem_append, not_or] at h
    simp only [outcome]
    cases ht : target.target? with
    | none => exact value.get_outcome_of_not_mem h.2 m
    | some x =>
      simp only [ht, Option.toList_some, List.mem_singleton] at h
      exact (Machine.get_set_of_ne _ _ (Ne.symm h.1)).trans (value.get_outcome_of_not_mem h.2 m)
  | declare x value =>
    simp only [assigns, List.mem_cons, not_or] at h
    simp only [outcome]
    rw [Machine.get_set_of_ne _ _ (Ne.symm h.1), value.get_outcome_of_not_mem h.2]
  | block body =>
    simp only [assigns] at h
    simp only [outcome]
    exact get_outcomeList_of_not_mem body h m
  | ifThen test yes =>
    simp only [assigns, List.mem_append, not_or] at h
    simp only [outcome]
    split
    · rw [get_outcome_of_not_mem yes h.2, test.get_outcome_of_not_mem h.1]
    · exact test.get_outcome_of_not_mem h.1 m
  | ifElse test yes no =>
    simp only [assigns, List.mem_append, not_or] at h
    simp only [outcome]
    split
    · rw [get_outcome_of_not_mem yes h.1.2, test.get_outcome_of_not_mem h.1.1]
    · rw [get_outcome_of_not_mem no h.2, test.get_outcome_of_not_mem h.1.1]
  | ret value =>
    cases value with
    | none => rfl
    | some e =>
      simp only [assigns, Option.elim_some] at h
      simp only [outcome]
      exact e.get_outcome_of_not_mem h m

theorem get_outcomeList_of_not_mem (p : List Stmt) (h : name ∉ assignsList p) (m : Machine) :
    (outcomeList holes p m).2.get name = m.get name := by
  cases p with
  | nil => rfl
  | cons s ss =>
    simp only [assignsList, List.mem_append, not_or] at h
    have first := get_outcome_of_not_mem s h.1 m
    simp only [outcomeList]
    generalize s.outcome holes m = after at first ⊢
    obtain ⟨_ | _, m'⟩ := after
    · exact (get_outcomeList_of_not_mem ss h.2 m').trans first
    · exact first

end

end Stmt

/-- The variables that effects use to hold a value in between. -/
def temporaries : List String := ["temp", "val", "value", "location"]

def workingVariables : List String := Register.all.map Register.name ++ temporaries

/-- The registers that only encodings of their own are meant to set. -/
def Register.isSpecial : Register → Bool
  | i | r => true
  | _ => false

def commonVariables : List String :=
  (Register.all.filter fun reg => !reg.isSpecial).map Register.name ++ temporaries

theorem mem_workingVariables_of_common {name : String} (h : name ∈ commonVariables) :
    name ∈ workingVariables := by
  rcases List.mem_append.mp h with hr | ht
  · obtain ⟨reg, -, rfl⟩ := List.mem_map.mp hr
    exact List.mem_append_left _ (List.mem_map_of_mem reg.mem_all)
  · exact List.mem_append_right _ ht

/-- The register that an instruction sets, where it may be a special one. -/
def Instruction.destination? : Instruction → Option Register
  | loadByte dst (.register .a) | loadIndexed dst _ | input dst _ => some dst
  | bit op _ (.register dst) => if op = .test then none else some dst
  | _ => none

/-- The variables that an instruction assigns besides registers and temporaries. -/
def Instruction.controlVariables : Instruction → List String
  | loadStackPointer _ | incWord .sp | decWord .sp | push _ | pop _ => [stackPointer]
  | jumpRelative _ | djnz => ["tstates", "pc"]
  | jump _ | jumpTo _ => ["pc"]
  | call none | restart _ | ret none => [stackPointer, "pc"]
  | call (some _) | ret (some _) => ["tstates", stackPointer, "pc"]
  | retInterrupt => [stackPointer, "pc", "iff1"]
  | exAf => [Register.a, .f].filterMap Register.shadow?
  | exx => [Register.b, .c, .d, .e, .h, .l].filterMap Register.shadow?
  | otir | ldir | lddr | cpir => ["tstates"]
  | di | ei => ["iff1", "iff2", "EI_inst"]
  | interruptMode _ => ["im"]
  | halt => ["tstates", "halt", "pc"]
  | _ => []

namespace EffectForm

variable {policy : Policy} {i : Instruction} {p : Program}

/-- An instruction assigns common variables, its destination and its control variables. -/
theorem assigns_common (h : EffectForm policy i p) : (Stmt.assignsList p).all
    fun name => commonVariables.contains name || i.destination?.any (·.name == name) ||
      i.controlVariables.contains name := by
  cases h with
  | loadFromR =>
    obtain ⟨_, refresh, _⟩ := policy
    cases refresh <;> rfl
  | halt =>
    obtain ⟨speedup, _, _⟩ := policy
    cases speedup <;> rfl
  | loadImmediate reg hr | loadRegister reg _ hr _ | incRegister reg hr | decRegister reg hr =>
    cases reg <;> first | rfl | cases hr
  | loadIndirect reg q hr _ => cases q <;> cases reg <;> first | rfl | cases hr
  | loadIndexed reg x => cases reg <;> cases x <;> rfl
  | loadPair q _ | loadPairDirect q _ | storeRegister q _ _ _ | loadSpPair q _ | incPair q _
  | decPair q _ | jumpTo q _ | pop q => cases q <;> rfl
  | storeIndexedImmediate x | storeIndexedRegister x _ | incIndexed x | decIndexed x
  | exStackIndex x => cases x <;> rfl
  | addWord q src _ _ =>
    cases src with
    | sp => cases q <;> rfl
    | pair q' => cases q <;> cases q' <;> rfl
  | adcWord src second hs | sbcWord src second hs => cases hs <;> rfl
  | accumulateArithmetic op src operand f hs hf =>
    cases hs with
    | indexed x => cases op <;> cases hf <;> cases x <;> rfl
    | _ => cases op <;> cases hf <;> rfl
  | accumulateLogical op src operand hs hf =>
    cases hs with
    | indexed x => cases op <;> cases hf <;> cases x <;> rfl
    | register reg _ => cases op <;> cases hf <;> cases reg <;> rfl
    | _ => cases op <;> cases hf <;> rfl
  | shiftRegister op reg hr => cases op <;> cases reg <;> first | rfl | cases hr
  | bitRegister op n hn reg => cases op <;> cases reg <;> rfl
  | shiftMemory op | bitMemory op n hn => cases op <;> rfl
  | shiftIndexed op x | bitIndexed op n hn x => cases op <;> cases x <;> rfl
  | shiftIndexedCopy op x reg hr => cases op <;> cases x <;> cases reg <;> first | rfl | cases hr
  | jumpRelativeIf k _ => cases k <;> rfl
  | jump k | call k | ret k =>
    cases k with
    | none => rfl
    | some k => cases k <;> rfl
  | input dst port => cases dst <;> cases port <;> rfl
  | output port src => cases port <;> rfl
  | _ => rfl

/-- An instruction assigns registers, temporaries and its control variables. -/
theorem assigns_allowed (h : EffectForm policy i p) : (Stmt.assignsList p).all
    fun name => workingVariables.contains name || i.controlVariables.contains name := by
  rw [List.all_eq_true]
  intro name hn
  have assigned := List.all_eq_true.mp h.assigns_common name hn
  simp only [Bool.or_eq_true, List.contains_iff_mem, Option.any_eq_true, beq_iff_eq] at assigned ⊢
  rcases assigned with (common | ⟨reg, -, rfl⟩) | control
  · exact .inl (mem_workingVariables_of_common common)
  · exact .inl (List.mem_append_left _ (List.mem_map_of_mem reg.mem_all))
  · exact .inr control

/-- Whatever is neither a register nor a temporary nor a control variable of an instruction is as it
was after a run of it. -/
theorem get_outcome_of_not_mem (h : EffectForm policy i p) {name : String}
    (hw : name ∉ workingVariables) (hc : name ∉ i.controlVariables) (ops : Operands) (m : Machine) :
    (p.outcome ops m).2.get name = m.get name := by
  refine Stmt.get_outcomeList_of_not_mem p (fun hn => ?_) m
  have allowed := List.all_eq_true.mp h.assigns_allowed name hn
  simp only [Bool.or_eq_true, List.contains_iff_mem] at allowed
  exact allowed.elim hw hc

end EffectForm

end Z80Effects
