import Z80Effects.Proofs.ExecutablePrograms
import Z80Effects.Proofs.StackNesting
import Z80Effects.Proofs.Stores

/-!
# Ways to load a register pair

A word gets into a register pair as an immediate operand, from an immediate address, from the top of
the stack, or through the setter of the pair. An immediate is split while it is filled in, a word
from memory during the run by way of a temporary, and the setter splits its argument by itself. All
of them leave the bytes of the word in the halves. Where the word is an immediate nothing remains to
be computed: the halves are set to literals, for operands beyond a word as well.
-/
namespace Z80Effects

open Effect

def Policy.number (policy : Policy) (v : Value) : Expr :=
  .literal ⟨.num v, if policy.annotate then some (Numeral.hex v) else none⟩

namespace Effect

theorem fill_value (ops : Operands) : value.fill ops = .num ops.value := by
  simp [value, Expr.fill, Operands.resolve, Operands.get]

/-- A right shift or a mask of an operand folds to a literal. -/
theorem fill_binary_value (op : BinaryOp) (h : op.folds) (ops : Operands) (v : Value) :
    (Expr.binary op value (.num v)).fill ops = .num (op.apply ops.value v) := by
  have parts : (Expr.binary op value (.num v)).fill ops =
      (Expr.binary op (value.fill ops) (.num v)).fold := rfl
  rw [parts, fill_value, Expr.num, Expr.num, Expr.fold, if_pos h]
  rfl

theorem fill_setPair_value (p : RegisterPair) (ops : Operands) : (setPair p value).fill ops =
    [.set (.register p.high) (.num (ops.value.sshiftRight 8)),
      .set (.register p.low) (.num (ops.value &&& 0xFF))] := by
  have high := fill_binary_value .shr rfl ops 8
  have low := fill_binary_value .and rfl ops 0xFF
  exact congrArg₂ (fun h l => [Stmt.set (.register p.high) h, Stmt.set (.register p.low) l])
    high low

theorem outcome_setPair_value (p : RegisterPair) {ops : Operands} {w : Word}
    (h : ops.value = .ofWord w) (m : Machine) : Program.outcome (setPair p value) ops m =
      (.continued, m.setPair p (.ofWord w)) := by
  have split : setPair p value =
      [.set (.register p.high) (value >>> 8), .set (.register p.low) (value &&& 0xFF)] := rfl
  have whole (m : Machine) : value.outcome ops.resolve m = (.ofWord w, m) := by
    rw [outcome_value, h]
  rw [Program.outcome, split, Stmt.set, Stmt.set, Stmt.outcomeList_cons,
    Stmt.outcome_assign_register, outcome_highByte (whole m), Flow.andThen_continued,
    Stmt.outcomeList_cons, Stmt.outcome_assign_register, outcome_lowByte (whole _),
    Flow.andThen_continued, Stmt.outcomeList_nil, Machine.setPair, Value.toWord_ofWord]
  rfl

end Effect

namespace Machine

/-- One machine is the other after a load of a pair with a word, which uses some variables more. -/
structure LoadsPair (m m' : Machine) (p : RegisterPair) (w : Word) (used : List String) :
    Prop where
  halves : m'.HoldsWord p w
  get : ∀ name, name ≠ p.high.name → name ≠ p.low.name → name ∉ used → m'.get name = m.get name
  memory : m'.memory = m.memory
  ports : m'.ports = m.ports
  outputs : m'.outputs = m.outputs
  randomSource : m'.randomSource = m.randomSource

variable {m m' : Machine} {p : RegisterPair} {w : Word} {used : List String}

theorem loadsPair_setPair (m : Machine) (p : RegisterPair) (w : Word) :
    m.LoadsPair (m.setPair p (.ofWord w)) p w [] := by
  constructor
  case halves =>
    have halves := m.holdsWord_setPair p (.ofWord w)
    rwa [Value.toWord_ofWord] at halves
  case get => exact fun name high low _ => m.get_setPair_of_ne _ high.symm low.symm
  case memory => exact m.memory_setPair p _
  all_goals rfl

namespace LoadsPair

/-- Another variable is set after the load. -/
theorem set (h : m.LoadsPair m' p w used) (name : String)
    (outside : name ∉ Register.all.map Register.name) (v : Value) :
    m.LoadsPair (m'.set name v) p w (name :: used) := by
  constructor
  case halves =>
    exact h.halves.set_of_ne v (Register.ne_name outside _) (Register.ne_name outside _)
  case get =>
    intro other high low unused
    rw [List.mem_cons, not_or] at unused
    rw [get_set_of_ne _ _ (Ne.symm unused.1), h.get other high low unused.2]
  case memory => rw [memory_set, h.memory]
  case ports => rw [ports_set, h.ports]
  case outputs => rw [outputs_set, h.outputs]
  case randomSource => rw [randomSource_set, h.randomSource]

/-- A word is read before the load. -/
theorem fetchWord {address : Word} (h : (m.fetchWord address).LoadsPair m' p w used) :
    m.LoadsPair m' p w used where
  halves := h.halves
  get name high low unused := by rw [h.get name high low unused, get_fetchWord]
  memory := by rw [h.memory, memory_fetchWord]
  ports := h.ports
  outputs := h.outputs
  randomSource := h.randomSource

/-- The temporary that holds a word while it is split keeps the word. -/
theorem split (m : Machine) (p : RegisterPair) (w : Word) :
    m.LoadsPair ((m.set "val" (.ofWord w)).setPair p (.ofWord w)) p w ["val"] := by
  have loads := (m.loadsPair_setPair p w).set "val" (by decide) (.ofWord w)
  rwa [← setPair_set_of_ne _ _ _ (Register.ne_name (by decide) _)
    (Register.ne_name (by decide) _)] at loads

end LoadsPair

/-- The getter of a pair puts the halves together. -/
theorem HoldsWord.eval_getPair (h : m.HoldsWord p w) :
    ((Primitive.getPair p).call []).eval .none m = .ok (.ofWord w) m := by
  have callable : ((Primitive.getPair p).call []).wellFormed fun _ => false := by
    cases p <;> rfl
  have noHoles : ∀ a : Hole, (fun _ => false) a = true → Valuation.none a = some 0 :=
    fun _ known => absurd known Bool.false_ne_true
  have value := Expr.eval_eq_outcome noHoles _ callable m
  rw [← pairValue, outcome_pairValue, h.pair_eq] at value
  exact value

end Machine

/-- A way to load a register pair. -/
inductive PairLoad
  | immediate
  | direct
  | pop
  | setter

namespace PairLoad

def program (p : RegisterPair) (policy : Policy) (ops : Operands) : PairLoad → Attempt Program
  | immediate => (Instruction.loadWord (.pair p) .immediate).program policy ops
  | direct => (Instruction.loadWord (.pair p) .direct).program policy ops
  | pop => (Instruction.pop (.pair p)).program policy ops
  | setter => .ok [perform (.setPair p) [.num ops.value]]

/-- The word is there for a load, as its operand or in memory. -/
def Finds (ops : Operands) (m : Machine) (w : Word) : PairLoad → Prop
  | immediate | setter => ops.value = .ofWord w
  | direct => m.wordAt ops.value.toWord = w
  | pop => m.topWord = w

/-- The variables that a load sets besides the halves of the pair. -/
def used : PairLoad → List String
  | immediate | setter => []
  | direct => ["val"]
  | pop => [stackPointer, "val"]

variable {p : RegisterPair}

theorem run_setter (p : RegisterPair) (v : Value) (m : Machine) :
    Program.run [perform (.setPair p) [.num v]] m = .ok .continued (m.setPair p v) := by
  rw [Program.run_perform _ rfl rfl, Expr.outcome_call]
  rfl

theorem effect_immediate (hp : p ≠ .af) (policy : Policy) :
    (Instruction.loadWord (.pair p) .immediate).effect policy = .ok (setPair p value) := by
  cases p with
  | af => exact absurd rfl hp
  | _ => rfl

/-- A load that finds a word runs and leaves it in the halves. -/
theorem exists_run (hp : p ≠ .af) (l : PairLoad) (policy : Policy) {ops : Operands} {m : Machine}
    {w : Word} (found : l.Finds ops m w) : ∃ program m', l.program p policy ops = .ok program ∧
      program.run m = .ok .continued m' ∧ m.LoadsPair m' p w l.used := by
  cases l with
  | immediate =>
    obtain ⟨program, filled, run⟩ :=
      Instruction.runs_of_outcome (effect_immediate hp policy) (outcome_setPair_value p found m)
    exact ⟨program, _, filled, run, m.loadsPair_setPair p w⟩
  | direct =>
    cases found
    have outside : WordRegister.pair p ≠ .pair .af := fun same => hp (WordRegister.pair.inj same)
    obtain ⟨program, filled, run⟩ := WordRegister.runs_load policy ops outside m
    exact ⟨program, _, filled, run, .fetchWord (.split ..)⟩
  | pop =>
    cases found
    have accepted : (Instruction.pop (.pair p)).effect policy =
        .ok (setPair p (readWord sp) ++ [.assign .add sp 2]) := rfl
    have outcome := @outcome_popPair ops m p
    obtain ⟨program, filled, run⟩ := Instruction.runs_of_outcome accepted outcome
    exact ⟨program, _, filled, run, .set (.fetchWord (.split ..)) _ (by decide) _⟩
  | setter =>
    refine ⟨_, _, rfl, run_setter p ops.value m, ?_⟩
    rw [show ops.value = .ofWord w from found]
    exact m.loadsPair_setPair p w

/-- Filling in an immediate leaves nothing to be computed, whatever the number. -/
theorem program_immediate (hp : p ≠ .af) (policy : Policy) (ops : Operands) :
    immediate.program p policy ops = .ok [
      .set (.register p.high) (policy.number (ops.value.sshiftRight 8)),
      .set (.register p.low) (policy.number (ops.value &&& 0xFF))] := by
  have pending : immediate.program p policy ops =
      .ok ((Template.pending (setPair p value) policy.annotate).instantiate ops) := by
    rw [program, Instruction.program, Instruction.template, effect_immediate hp]
    rfl
  rw [pending, Template.instantiate, fill_setPair_value]
  unfold Policy.number
  cases policy.annotate <;> rfl

/-- All ways of loading a pair with a word end with the same two bytes in its halves, which the
getter reads back as the word, and leave the rest as it is, apart from the stack pointer and a
temporary. An immediate comes down to two assignments of literals. -/
theorem run_loads (hp : p ≠ .af) :
    (∀ (l : PairLoad) (policy : Policy) (ops : Operands) (m : Machine) (w : Word),
      l.Finds ops m w → ∃ program m', l.program p policy ops = .ok program ∧
        program.run m = .ok .continued m' ∧ m.LoadsPair m' p w l.used ∧
        ((Primitive.getPair p).call []).eval .none m' = .ok (.ofWord w) m') ∧
    ∀ (policy : Policy) (ops : Operands), immediate.program p policy ops = .ok [
      .set (.register p.high) (policy.number (ops.value.sshiftRight 8)),
      .set (.register p.low) (policy.number (ops.value &&& 0xFF))] := by
  refine ⟨fun l policy ops m w found => ?_, program_immediate hp⟩
  obtain ⟨program, m', filled, run, loads⟩ := exists_run hp l policy found
  exact ⟨program, m', filled, run, loads, loads.halves.eval_getPair⟩

/-- `IX` is popped from the last cell and the first one, loaded from there, loaded with the same
word as an immediate, and set to it. A negative number is filled into `LD IX,nn`. -/
theorem run_loads_lastAddress :
    let m := (Machine.blank.storeWord 0xFFFF 0x1234).set stackPointer 0xFFFF
    RegisterPair.ix ≠ .af ∧
    (∀ l : PairLoad, ∃ ops program m', l.Finds ops m 0x1234 ∧
      l.program .ix {} ops = .ok program ∧ program.run m = .ok .continued m' ∧
      m'.HoldsWord .ix 0x1234) ∧
    immediate.program .ix { annotate := false } { value := -1 } =
      .ok [.set (.register .ixh) (.num (-1)), .set (.register .ixl) (.num 255)] := by
  intro m
  have pair : RegisterPair.ix ≠ .af := by decide
  have run (l : PairLoad) (ops : Operands) (found : l.Finds ops m 0x1234) :
      ∃ ops program m', l.Finds ops m 0x1234 ∧ l.program .ix {} ops = .ok program ∧
        program.run m = .ok .continued m' ∧ m'.HoldsWord .ix 0x1234 := by
    obtain ⟨program, m', filled, run, loads, -⟩ := (run_loads pair).1 l {} ops m 0x1234 found
    exact ⟨ops, program, m', found, filled, run, loads.halves⟩
  have word : m.wordAt 0xFFFF = 0x1234 := by
    rw [Machine.wordAt, Machine.memory_set]
    exact Machine.blank.wordAt_storeWord 0xFFFF 0x1234
  refine ⟨pair, fun l => ?_, (run_loads pair).2 { annotate := false } { value := -1 }⟩
  cases l with
  | immediate => exact run .immediate { value := 0x1234 } rfl
  | direct => exact run .direct { value := 0xFFFF } word
  | pop =>
    have top : m.stackTop = 0xFFFF := Machine.stackTop_set _ _
    refine run .pop {} ?_
    rw [PairLoad.Finds, Machine.topWord, top]
    exact word
  | setter => exact run .setter { value := 0x1234 } rfl

end PairLoad

end Z80Effects
