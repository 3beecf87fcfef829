import Z80Effects.Proofs.AssignedVariables
import Z80Effects.Proofs.InstructionRuns

/-!
# Temporaries that matter

A variable is live before a statement if it may be read before it is set, by the statement or by
what follows. On machines that differ in temporaries only, and in none that are live, a program runs
alike. No temporary is live before an instruction, and none is after it, whether it ends early or
not.
-/
namespace Z80Effects

open Effect

namespace Machine

/-- Two machines show the same, except perhaps for temporaries that are not listed. -/
structure AgreeOn (live : List String) (m m' : Machine) : Prop where
  get : ∀ name, name ∉ temporaries ∨ name ∈ live → m.get name = m'.get name
  memory : m.memory = m'.memory
  log : m.log = m'.log
  ports : m.ports = m'.ports
  outputs : m.outputs = m'.outputs
  randomSource : m.randomSource = m'.randomSource

namespace AgreeOn

variable {live : List String} {m m' : Machine}

theorem refl (live : List String) (m : Machine) : m.AgreeOn live m :=
  ⟨fun _ _ => rfl, rfl, rfl, rfl, rfl, rfl⟩

theorem mono {fewer : List String} (h : m.AgreeOn live m') (hs : fewer ⊆ live) :
    m.AgreeOn fewer m' :=
  { h with get := fun name hn => h.get name (hn.imp_right fun mem => hs mem) }

theorem reg (h : m.AgreeOn live m') (reg : Register) : m.reg reg = m'.reg reg := by
  have permanent : reg.name ∉ temporaries := by
    cases reg <;> decide
  simp only [reg_eq_get, h.get _ (.inl permanent)]

theorem stackPointer (h : m.AgreeOn live m') : m.get stackPointer = m'.get stackPointer :=
  h.get _ (.inl (by decide))

theorem pair (h : m.AgreeOn live m') (p : RegisterPair) : m.pair p = m'.pair p := by
  simp only [Machine.pair, h.reg]

theorem accumulator (h : m.AgreeOn live m') : m.accumulator = m'.accumulator := by
  simp only [Machine.accumulator, h.reg]

theorem flags (h : m.AgreeOn live m') : m.flags = m'.flags := by
  simp only [Machine.flags, h.reg]

/-- Setting a temporary that is not live makes no difference. -/
theorem set_right {name : String} (h : m.AgreeOn live m') (ht : name ∈ temporaries)
    (hl : name ∉ live) (v : Value) : m.AgreeOn live (m'.set name v) :=
  { h with
    get := by
      intro other hn
      have apart : ¬ name = other := by
        rintro rfl
        exact hn.elim (· ht) hl
      rw [get_set_of_ne _ _ apart, h.get other hn] }

/-- A variable need not be live before it is set. -/
theorem set_filter {name : String} (h : m.AgreeOn (live.filter (name ≠ ·)) m') (v : Value) :
    (m.set name v).AgreeOn live (m'.set name v) :=
  { h with
    get := by
      intro other hn
      rw [get_set, get_set]
      split
      · rfl
      · next ne =>
        exact h.get other (hn.imp_right fun mem => List.mem_filter.mpr ⟨mem, by simpa⟩) }

theorem set (h : m.AgreeOn live m') (name : String) (v : Value) :
    (m.set name v).AgreeOn live (m'.set name v) :=
  set_filter (h.mono fun _ mem => (List.mem_filter.mp mem).1) v

theorem setPair (h : m.AgreeOn live m') (p : RegisterPair) (v : Value) :
    (m.setPair p v).AgreeOn live (m'.setPair p v) := by
  simp only [setPair_eq_set]
  exact (h.set _ _).set _ _

theorem setFlags (h : m.AgreeOn live m') (f : Flags) :
    (m.setFlags f).AgreeOn live (m'.setFlags f) := by
  simp only [setFlags_eq_set]
  exact h.set _ _

theorem setFlagsKeepingCarry (h : m.AgreeOn live m') (f : Flags) :
    (m.setFlagsKeepingCarry f).AgreeOn live (m'.setFlagsKeepingCarry f) := by
  simp only [Machine.setFlagsKeepingCarry, h.flags]
  exact h.setFlags _

theorem setAccumulator (h : m.AgreeOn live m') (r : FlaggedResult 8) :
    (m.setAccumulator r).AgreeOn live (m'.setAccumulator r) := by
  simp only [setAccumulator_eq_set]
  exact (h.set _ _).set _ _

theorem read (h : m.AgreeOn live m') (address : Word) : (m.read address).1 = (m'.read address).1 ∧
    (m.read address).2.AgreeOn live (m'.read address).2 :=
  ⟨by simp only [read_value, h.memory],
    { h with log := by simp only [Machine.read, h.log] }⟩

theorem write (h : m.AgreeOn live m') (address : Word) (b : Byte) :
    (m.write address b).AgreeOn live (m'.write address b) :=
  { h with
    memory := by simp only [memory_write, h.memory]
    log := by simp only [Machine.write, h.log] }

theorem push (h : m.AgreeOn live m') (high low : Byte) :
    (m.push high low).AgreeOn live (m'.push high low) := by
  simp only [Machine.push, h.stackPointer]
  exact ((h.write _ _).write _ _).set _ _

theorem putOut (h : m.AgreeOn live m') (port b : Byte) :
    (m.putOut port b).AgreeOn live (m'.putOut port b) :=
  { h with outputs := by simp only [Machine.putOut, h.outputs] }

end AgreeOn

end Machine

/-- Primitives read no temporaries. -/
theorem Primitive.apply_agree (f : Primitive) {live : List String} {m m' : Machine}
    (h : m.AgreeOn live m') (x y : Value) : (f.apply x y m).1 = (f.apply x y m').1 ∧
      (f.apply x y m).2.AgreeOn live (f.apply x y m').2 := by
  have read := h.read x.toWord
  cases f with
  | getPair p => exact ⟨h.pair p, h⟩
  | setPair p => exact ⟨rfl, h.setPair p x⟩
  | readByte => exact ⟨congrArg Value.ofByte read.1, read.2⟩
  | readWord =>
    have next := read.2.read (x + 1).toWord
    exact ⟨by simp only [apply, read.1, next.1], next.2⟩
  | writeByte => exact ⟨rfl, h.write _ _⟩
  | incMemory | decMemory =>
    simp only [apply, read.1]
    exact ⟨trivial, (read.2.setFlagsKeepingCarry _).write _ _⟩
  | incHl | decHl | incBc | decBc | incDe | decDe =>
    simp only [apply, h.pair]
    exact ⟨trivial, h.setPair _ _⟩
  | pushWord | pushBytes => exact ⟨rfl, h.push _ _⟩
  | portIn => exact ⟨by simp only [apply, h.ports], h⟩
  | portOut => exact ⟨rfl, h.putOut _ _⟩
  | addA | adcA | subA | sbcA | cpA | rlca | rrca | rla | rra | daa | cpl =>
    simp only [apply, h.accumulator, h.flags]
    exact ⟨trivial, h.setAccumulator _⟩
  | addWord | ccf | testBit | shift _ =>
    simp only [apply, h.flags, h.accumulator]
    exact ⟨trivial, h.setFlags _⟩
  | inc | dec => exact ⟨rfl, h.setFlagsKeepingCarry _⟩
  | random => exact ⟨by simp only [apply, h.randomSource], h⟩

namespace Expr

mutual

/-- The variables that an expression names. The place of a table is not evaluated. -/
def reads : Expr → List String
  | literal _ | register _ | hole _ => []
  | var name => [name]
  | binary _ l r | logical _ l r => l.reads ++ r.reads
  | unary _ e => e.reads
  | conditional t y n => t.reads ++ (y.reads ++ n.reads)
  | index _ k => k.reads
  | call _ args => readsList args

def readsList : List Expr → List String
  | [] => []
  | e :: es => e.reads ++ readsList es

end

variable (holes : Hole → Value) {live : List String}

mutual

/-- An expression has the same value where machines agree on what it names. -/
theorem outcome_agree (e : Expr) (he : e.reads ⊆ live) {m m' : Machine} (h : m.AgreeOn live m') :
    (e.outcome holes m).1 = (e.outcome holes m').1 ∧
      (e.outcome holes m).2.AgreeOn live (e.outcome holes m').2 := by
  cases e with
  | literal l => exact ⟨rfl, h⟩
  | var name =>
    simp only [outcome]
    exact ⟨h.get name (.inr (he (by simp [reads]))), h⟩
  | register reg =>
    simp only [outcome]
    exact ⟨h.reg reg, h⟩
  | hole x => exact ⟨rfl, h⟩
  | binary op l r =>
    simp only [reads, List.append_subset] at he
    obtain ⟨hl, agreeL⟩ := outcome_agree l he.1 h
    obtain ⟨hr, agreeR⟩ := outcome_agree r he.2 agreeL
    simp only [outcome, hl, hr]
    exact ⟨trivial, agreeR⟩
  | unary op e =>
    simp only [reads] at he
    obtain ⟨hv, agree⟩ := outcome_agree e he h
    simp only [outcome, hv]
    exact ⟨trivial, agree⟩
  | logical op l r =>
    simp only [reads, List.append_subset] at he
    obtain ⟨hl, agree⟩ := outcome_agree l he.1 h
    simp only [outcome, hl]
    split
    · exact ⟨hl, agree⟩
    · exact outcome_agree r he.2 agree
  | conditional t y n =>
    simp only [reads, List.append_subset] at he
    obtain ⟨ht, agree⟩ := outcome_agree t he.1 h
    simp only [outcome, ht]
    split
    · exact outcome_agree y he.2.1 agree
    · exact outcome_agree n he.2.2 agree
  | index t k =>
    simp only [reads] at he
    obtain ⟨hk, agree⟩ := outcome_agree k he h
    simp only [outcome, hk]
    exact ⟨trivial, agree⟩
  | call name args =>
    simp only [reads] at he
    obtain ⟨hvs, agree⟩ := outcomeList_agree args he h
    simp only [outcome, hvs]
    cases Primitive.ofName? name with
    | none => exact ⟨rfl, agree⟩
    | some f => exact f.apply_agree agree _ _

theorem outcomeList_agree (es : List Expr) (he : readsList es ⊆ live) {m m' : Machine}
    (h : m.AgreeOn live m') : (outcomeList holes es m).1 = (outcomeList holes es m').1 ∧
      (outcomeList holes es m).2.AgreeOn live (outcomeList holes es m').2 := by
  cases es with
  | nil => exact ⟨rfl, h⟩
  | cons e es =>
    simp only [readsList, List.append_subset] at he
    obtain ⟨hv, agree⟩ := outcome_agree e he.1 h
    obtain ⟨hvs, agree⟩ := outcomeList_agree es he.2 agree
    simp only [outcomeList, hv, hvs]
    exact ⟨trivial, agree⟩

end

end Expr

/-- What is live after a statement that ends like this. Nothing is after an early end. -/
def Flow.live : Flow → List String → List String
  | continued, after => after
  | returned, _ => []

namespace Stmt

mutual

/-- The variables that are live before a statement, given those that are live after it. -/
def live : Stmt → List String → List String
  | effect e, after => e.reads ++ after
  | assign op target value, after => (if op = .set then [] else target.target?.toList) ++
      (value.reads ++ after.filter (target.target? ≠ some ·))
  | declare name value, after => value.reads ++ after.filter (name ≠ ·)
  | block body, after => liveList body after
  | ifThen test yes, after => test.reads ++ (yes.live after ++ after)
  | ifElse test yes no, after => test.reads ++ (yes.live after ++ no.live after)
  | ret value, _ => value.elim [] Expr.reads

def liveList : List Stmt → List String → List String
  | [], after => after
  | s :: ss, after => s.live (liveList ss after)

end

variable (holes : Hole → Value)

mutual

/-- On machines that agree on what is live before it, a statement ends alike, and leaves machines
that agree on what is live after it. -/
theorem outcome_agree (s : Stmt) (after : List String) {m m' : Machine}
    (h : m.AgreeOn (s.live after) m') : (s.outcome holes m).1 = (s.outcome holes m').1 ∧
      (s.outcome holes m).2.AgreeOn ((s.outcome holes m).1.live after) (s.outcome holes m').2 := by
  cases s with
  | effect e =>
    simp only [live] at h
    obtain ⟨-, agree⟩ := e.outcome_agree holes (List.subset_append_left _ _) h
    exact ⟨rfl, agree.mono (List.subset_append_right _ _)⟩
  | assign op target value =>
    simp only [live] at h
    obtain ⟨hv, agree⟩ := value.outcome_agree holes
      (List.subset_append_of_subset_right _ (List.subset_append_left _ _)) h
    have rest : Machine.AgreeOn (after.filter (target.target? ≠ some ·)) _ _ :=
      agree.mono (List.subset_append_of_subset_right _ (List.subset_append_right _ _))
    simp only [outcome, hv]
    refine ⟨trivial, ?_⟩
    cases ht : target.target? with
    | none => exact rest.mono fun x (mem : x ∈ after) => by simp [ht, mem]
    | some name =>
      have combined : op.apply ((value.outcome holes m).2.get name) (value.outcome holes m').1 =
          op.apply ((value.outcome holes m').2.get name) (value.outcome holes m').1 := by
        by_cases hop : op = .set
        · subst hop
          rfl
        · rw [agree.get name (.inr (by simp [hop, ht]))]
      simp only [ht, ne_eq, Option.some.injEq] at rest
      rw [Option.elim_some, Option.elim_some, combined]
      exact rest.set_filter _
  | declare name value =>
    simp only [live] at h
    obtain ⟨hv, agree⟩ := value.outcome_agree holes (List.subset_append_left _ _) h
    simp only [outcome, hv]
    exact ⟨trivial, (agree.mono (List.subset_append_right _ _)).set_filter _⟩
  | block body =>
    simp only [live] at h
    simp only [outcome]
    exact outcomeList_agree body after h
  | ifThen test yes =>
    simp only [live] at h
    obtain ⟨ht, agree⟩ := test.outcome_agree holes (List.subset_append_left _ _) h
    have rest := agree.mono (List.subset_append_right _ _)
    simp only [outcome, ht]
    split
    · exact outcome_agree yes after (rest.mono (List.subset_append_left _ _))
    · exact ⟨rfl, rest.mono (List.subset_append_right _ _)⟩
  | ifElse test yes no =>
    simp only [live] at h
    obtain ⟨ht, agree⟩ := test.outcome_agree holes (List.subset_append_left _ _) h
    have rest := agree.mono (List.subset_append_right _ _)
    simp only [outcome, ht]
    split
    · exact outcome_agree yes after (rest.mono (List.subset_append_left _ _))
    · exact outcome_agree no after (rest.mono (List.subset_append_right _ _))
  | ret value =>
    cases value with
    | none => exact ⟨rfl, h⟩
    | some e =>
      simp only [live, Option.elim_some] at h
      obtain ⟨-, agree⟩ := e.outcome_agree holes (List.Subset.refl _) h
      exact ⟨rfl, agree.mono (List.nil_subset _)⟩

theorem outcomeList_agree (p : List Stmt) (after : List String) {m m' : Machine}
    (h : m.AgreeOn (liveList p after) m') :
    (outcomeList holes p m).1 = (outcomeList holes p m').1 ∧ (outcomeList holes p m).2.AgreeOn
      ((outcomeList holes p m).1.live after) (outcomeList holes p m').2 := by
  cases p with
  | nil => exact ⟨rfl, h⟩
  | cons s ss =>
    simp only [liveList] at h
    obtain ⟨flow, agree⟩ := outcome_agree s (liveList ss after) h
    simp only [outcomeList]
    generalize s.outcome holes m = first at flow agree ⊢
    generalize s.outcome holes m' = first' at flow agree ⊢
    obtain ⟨f, m₁⟩ := first
    obtain ⟨f', m₁'⟩ := first'
    obtain rfl : f = f' := flow
    cases f with
    | continued => exact outcomeList_agree ss after agree
    | returned => exact ⟨rfl, agree⟩

end

end Stmt

namespace EffectForm

variable {policy : Policy} {i : Instruction} {p : Program}

/-- No temporary is live before an instruction. -/
theorem live_allowed (h : EffectForm policy i p) :
    (Stmt.liveList p []).all fun name => !temporaries.contains name := by
  cases h with
  | loadFromR =>
    obtain ⟨_, refresh, _⟩ := policy
    cases refresh <;> rfl
  | halt =>
    obtain ⟨speedup, _, _⟩ := policy
    cases speedup <;> rfl
  | loadPairDirect q _ | pop q => cases q <;> rfl
  | exStackIndex x => cases x <;> rfl
  | addWord q src _ _ => cases src <;> cases q <;> rfl
  | adcWord src second hs | sbcWord src second hs => cases hs <;> rfl
  | accumulateArithmetic op src operand f hs hf => cases hs <;> cases op <;> cases hf <;> rfl
  | accumulateLogical op src operand hs hf =>
    cases hs with
    | register reg _ => cases op <;> cases hf <;> cases reg <;> rfl
    | _ => cases op <;> cases hf <;> rfl
  | shiftIndexedCopy op x reg _ => cases reg <;> rfl
  | bitRegister op n hn reg => cases op <;> cases reg <;> rfl
  | bitMemory op n hn | bitIndexed op n hn x => cases op <;> rfl
  | jumpRelativeIf k _ => cases k <;> rfl
  | jump k | call k | ret k =>
    cases k with
    | none => rfl
    | some k => cases k <;> rfl
  | input dst port | output port src => cases port <;> rfl
  | _ => rfl

/-- An instruction runs alike on machines that differ in temporaries only. -/
theorem outcome_agree (h : EffectForm policy i p) (ops : Operands) {m m' : Machine}
    (agree : m.AgreeOn [] m') : (p.outcome ops m).1 = (p.outcome ops m').1 ∧
      (p.outcome ops m).2.AgreeOn [] (p.outcome ops m').2 := by
  have start : m.AgreeOn (Stmt.liveList p []) m' :=
    { agree with
      get := fun name hn => agree.get name <| .inl <| hn.elim id fun live => by
        have permanent := List.all_eq_true.mp h.live_allowed name live
        simpa using permanent }
  obtain ⟨flow, after⟩ := Stmt.outcomeList_agree ops.resolve p [] start
  exact ⟨flow, after.mono (List.nil_subset _)⟩

end EffectForm

namespace Step

/-- Temporaries never leak: what a step does does not depend on them. -/
theorem run_agreeOn (s : Step) {m m' : Machine} (h : m.AgreeOn [] m') :
    ∃ flow m₁ m₁', s.program.run m = .ok flow m₁ ∧ s.program.run m' = .ok flow m₁' ∧
      m₁.AgreeOn [] m₁' := by
  obtain ⟨skeleton, form, run⟩ := s.exists_outcome
  obtain ⟨flow, agree⟩ := form.outcome_agree s.operands h
  exact ⟨_, _, _, run m, flow ▸ run m', agree⟩

/-- A step of a repeating search, which keeps flags in `temp`. -/
def searchOnce : Step where
  policy := { annotate := false }
  instruction := .cpir
  operands := {}
  program := cpir
  accepted := by rfl

theorem run_agreeOn_searchOnce :
    Machine.blank.AgreeOn [] ((Machine.blank.set "temp" 0xFF).set "location" 1) ∧
      ∃ flow m₁ m₁', searchOnce.program.run .blank = .ok flow m₁ ∧
        searchOnce.program.run ((Machine.blank.set "temp" 0xFF).set "location" 1) =
          .ok flow m₁' ∧ m₁.AgreeOn [] m₁' := by
  have agree : Machine.blank.AgreeOn [] ((Machine.blank.set "temp" 0xFF).set "location" 1) :=
    ((Machine.AgreeOn.refl [] .blank).set_right (by decide) (by decide) _).set_right (by decide)
      (by decide) _
  exact ⟨agree, searchOnce.run_agreeOn agree⟩

end Step

end Z80Effects
