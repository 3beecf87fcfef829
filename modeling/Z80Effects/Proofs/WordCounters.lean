import Z80Effects.Proofs.AssignedVariables
import Z80Effects.Proofs.BlockTransfer
import Z80Effects.Proofs.ExecutablePrograms
import Z80Effects.Proofs.Stores

/-!
# Counting registers up and down

The programs that count a pair by one work on its halves. The low half wraps around by itself, and
the high half steps along if it does. The primitives of the block instructions count the joined
word. From bytes both reach the same machine. No flag is set, so that counting up and counting down
undo each other.
-/
namespace Z80Effects

open Effect

namespace Direction

def opposite : Direction → Direction
  | up => down
  | down => up

def increment : Direction → Int
  | up => 1
  | down => -1

def nextByte : Direction → Byte → Byte
  | up, b => b + 1
  | down, b => b - 1

/-- The byte that is reached by wrapping around. -/
def wrapped : Direction → Byte
  | up => 0
  | down => 0xFF

variable (d : Direction)

theorem toNat_move_one (w : Word) :
    ((d.move w 1).toNat : Int) = (w.toNat + d.increment) % 65536 := by
  cases d <;> simp only [move, increment] <;> bv_omega

theorem move_opposite (w : Word) : d.opposite.move (d.move w 1) 1 = w := by
  cases d <;> simp only [move, opposite] <;> bv_omega

/-- The high half steps along if the low half wraps around. -/
theorem move_ofBytes (high low : Byte) : d.move (.ofBytes high low) 1 =
    .ofBytes (if d.nextByte low = d.wrapped then d.nextByte high else high) (d.nextByte low) := by
  have word := Word.toNat_ofBytes high low
  apply BitVec.eq_of_toNat_eq
  rw [Word.toNat_ofBytes]
  by_cases h : d.nextByte low = d.wrapped
  · rw [if_pos h]
    cases d <;> simp only [move, nextByte, wrapped] at h ⊢ <;> bv_omega
  · rw [if_neg h]
    cases d <;> simp only [move, nextByte, wrapped] at h ⊢ <;> bv_omega

end Direction

namespace Machine

variable {m : Machine} {p : RegisterPair} {v w : Value}

/-- Of two settings of a pair the later counts. -/
theorem setPair_setPair : (m.setPair p v).setPair p w = m.setPair p w := by
  rw [setPair_eq_set, setPair_eq_set, setPair_eq_set, set_comm _ p.low_name_ne_high,
    set_set_self, set_set_self]

theorem setWord_setWord (r : WordRegister) : (m.setWord r v).setWord r w = m.setWord r w := by
  cases r with
  | pair p => exact setPair_setPair
  | sp => exact m.set_set_self stackPointer v w

namespace ByteRegisters

theorem setPair_self (h : m.ByteRegisters) (p : RegisterPair) : m.setPair p (m.pair p) = m := by
  rw [Machine.setPair, h.high_pair, h.low_pair, h.setReg_self, h.setReg_self]

theorem setWord_self (h : m.ByteRegisters) (r : WordRegister) : m.setWord r (m.word r) = m := by
  cases r with
  | pair p => exact h.setPair_self p
  | sp => exact m.set_get_self stackPointer

theorem setWord (h : m.ByteRegisters) (r : WordRegister) (v : Value) :
    (m.setWord r v).ByteRegisters := by
  cases r with
  | pair p => exact h.setPair p v
  | sp => exact h.set fun reg same => absurd same reg.name_ne_stackPointer

end ByteRegisters

theorem word_setWord (m : Machine) (r : WordRegister) (w : Word) :
    (m.setWord r (.ofWord w)).word r = .ofWord w := by
  cases r with
  | pair p =>
    rw [setWord, word, pair_setPair_self, Value.toWord_ofWord]
  | sp => exact m.get_set_self _ _

theorem get_setWord_of_not_mem (m : Machine) {r : WordRegister} {name : String} (v : Value)
    (h : name ∉ r.names) : (m.setWord r v).get name = m.get name := by
  cases r with
  | pair p => exact m.get_setPair_of_not_mem v h
  | sp => exact m.get_set_of_ne v (Ne.symm (List.ne_of_not_mem_cons h))

end Machine

namespace Direction

def nextExpr : Direction → Expr → Expr
  | up, e => e + 1
  | down, e => e - 1

def countHalf (d : Direction) (reg : Register) : Stmt :=
  .set (.register reg) (d.nextExpr (.register reg) &&& 0xFF)

def countPair : Direction → RegisterPair → Program
  | up => incPair
  | down => decPair

variable (d : Direction) (holes : Hole → Value) {m : Machine}

theorem countPair_eq (p : RegisterPair) : d.countPair p = [d.countHalf p.low,
    .whenever ((Expr.register p.low).equals (.byte d.wrapped)) [d.countHalf p.high]] := by
  cases d <;> rfl

theorem outcome_nextExpr (e : Expr) (m : Machine) : (d.nextExpr e).outcome holes m =
    (d.next (e.outcome holes m).1, (e.outcome holes m).2) := by
  cases d <;> simp [nextExpr, next]

theorem toByte_next (b : Byte) : (d.next (.ofByte b)).toByte = d.nextByte b := by
  cases d <;> simp only [next, nextByte] <;> bv_omega

theorem outcome_countHalf {reg : Register} {b : Byte} (hb : m.reg reg = .ofByte b) :
    (d.countHalf reg).outcome holes m = (.continued, m.setReg reg (.ofByte (d.nextByte b))) := by
  rw [countHalf, Stmt.set, Stmt.outcome_assign_register, Expr.outcome_and, outcome_nextExpr,
    Expr.outcome_register, Expr.outcome_ofNat, hb]
  simp only [AssignOp.apply, Value.and_byteMask, toByte_next]

/-- Counting the halves counts the word. -/
theorem outcome_countPair {p : RegisterPair} {high low : Byte} (hh : m.reg p.high = .ofByte high)
    (hl : m.reg p.low = .ofByte low) : Stmt.outcomeList holes (d.countPair p) m =
      (.continued, m.setPair p (.ofWord (d.move (.ofBytes high low) 1))) := by
  have high' : (m.setReg p.low (.ofByte (d.nextByte low))).reg p.high = .ofByte high := by
    rw [Machine.setReg_eq_set, m.reg_set_of_ne _ p.low_name_ne_high, hh]
  have test : ((Expr.register p.low).equals (.byte d.wrapped)).outcome holes
      (m.setReg p.low (.ofByte (d.nextByte low))) = (.ofBool (d.nextByte low = d.wrapped),
        m.setReg p.low (.ofByte (d.nextByte low))) := by
    have same : (Value.ofByte (d.nextByte low) == Value.ofByte d.wrapped) =
        decide (d.nextByte low = d.wrapped) := by
      rw [Bool.eq_iff_iff, beq_iff_eq, decide_eq_true_iff]
      bv_omega
    rw [Expr.outcome_equals, Expr.outcome_register, Machine.reg_setReg_self, Expr.byte,
      Expr.outcome_num, same]
  rw [countPair_eq, Stmt.outcomeList_cons, d.outcome_countHalf holes hl, Flow.andThen_continued,
    Stmt.outcomeList_whenever holes test, Stmt.outcomeList_cons, d.outcome_countHalf holes high',
    Flow.andThen_continued, Stmt.outcomeList_nil, d.move_ofBytes, Machine.setPair,
    Value.toWord_ofWord, Word.high_ofBytes, Word.low_ofBytes]
  by_cases h : d.nextByte low = d.wrapped
  · rw [if_pos h, if_pos (decide_eq_true h)]
    exact congrArg _ (m.set_comm p.low_name_ne_high _ _)
  · -- the high half stays, and setting it to its content changes nothing
    have stays : m.setReg p.high (.ofByte high) = m := by
      rw [← hh]
      exact m.set_get_self p.high.name
    rw [if_neg h, if_neg (by simpa using h), stays]

end Direction

namespace Machine

/-- What counting a register by one makes of a machine. -/
structure Counts (d : Direction) (r : WordRegister) (m m' : Machine) : Prop where
  registers : m'.ByteRegisters
  word : ((m'.word r).toNat : Int) = ((m.word r).toNat + d.increment) % 65536
  flags : m'.reg .f = m.reg .f
  get : ∀ name, name ∉ r.names → m'.get name = m.get name
  memory : m'.memory = m.memory
  log : m'.log = m.log
  ports : m'.ports = m.ports
  outputs : m'.outputs = m.outputs
  randomSource : m'.randomSource = m.randomSource

def count (m : Machine) (d : Direction) (r : WordRegister) : Machine :=
  m.setWord r (.ofWord (d.move (m.word r).toWord 1))

variable {m : Machine} {r : WordRegister}

theorem flags_not_mem_names (hr : r ≠ .pair .af) : Register.f.name ∉ r.names := by
  revert hr
  cases r with
  | pair p => cases p <;> decide
  | sp => decide

theorem count_counts (d : Direction) (hr : r ≠ .pair .af) (registers : m.ByteRegisters)
    (pointer : m.StackInRange) : m.Counts d r (m.count d r) := by
  constructor
  case registers => exact registers.setWord r _
  case word =>
    have word := registers.word_eq pointer r
    rw [count, word_setWord, Value.toNat_ofWord, d.toNat_move_one, word, Value.toNat_ofWord,
      Value.toWord_ofWord]
  case flags => exact m.get_setWord_of_not_mem _ (flags_not_mem_names hr)
  case get => exact fun name outside => m.get_setWord_of_not_mem _ outside
  all_goals cases r <;> rfl

/-- A register counted up and down is as it was. -/
theorem count_opposite (d : Direction) (registers : m.ByteRegisters)
    (pointer : m.StackInRange) : (m.count d r).count d.opposite r = m := by
  rw [count, count, word_setWord, Value.toWord_ofWord, d.move_opposite, setWord_setWord,
    ← registers.word_eq pointer r, registers.setWord_self]

end Machine

namespace Direction

def counting : Direction → WordRegister → Instruction
  | up => .incWord
  | down => .decWord

/-- The primitive with which the block instructions count a pair, if there is one. -/
def primitive? (d : Direction) : RegisterPair → Option Primitive
  | .bc => some (match d with | up => .incBc | down => .decBc)
  | .de => some d.stepDe
  | .hl => some d.stepHl
  | .af | .ix | .iy => none

variable (d : Direction) {m : Machine} {r : WordRegister}

theorem outcome_countStackPointer (holes : Hole → Value) (m : Machine) :
    Stmt.outcomeList holes [.set sp (d.nextExpr sp &&& 0xFFFF)] m =
      (.continued, m.count d .sp) := by
  rw [Stmt.outcomeList_cons, Stmt.set, sp, Stmt.outcome_assign_var, Expr.outcome_and,
    outcome_nextExpr, Expr.outcome_var, Expr.outcome_ofNat, Flow.andThen_continued,
    Stmt.outcomeList_nil]
  simp only [AssignOp.apply, Value.and_wordMask, d.toWord_next]
  rfl

theorem runs_count (policy : Policy) (ops : Operands) (hr : r ≠ .pair .af)
    (registers : m.ByteRegisters) : (d.counting r).Runs policy ops m (m.count d r) := by
  cases r with
  | sp =>
    have accepted : (d.counting .sp).effect policy = .ok [.set sp (d.nextExpr sp &&& 0xFFFF)] := by
      cases d <;> rfl
    exact Instruction.runs_of_outcome accepted (d.outcome_countStackPointer _ m)
  | pair p =>
    have accepted : (d.counting (.pair p)).effect policy = .ok (d.countPair p) := by
      cases p with
      | af => exact absurd rfl hr
      | _ => cases d <;> rfl
    have run := d.outcome_countPair ops.resolve (registers.reg_eq p.high) (registers.reg_eq p.low)
    rw [← (registers.holdsWord p).toWord_pair] at run
    exact Instruction.runs_of_outcome accepted run

theorem run_primitive {p : RegisterPair} {f : Primitive} (hf : d.primitive? p = some f)
    (m : Machine) : Program.run [perform f []] m = .ok .continued (m.count d (.pair p)) := by
  have counted : (f.apply 0 0 m).2 = m.setPair p (d.next (m.pair p)) := by
    cases p with
    | af | ix | iy => cases hf
    | _ => cases d <;> cases hf <;> rfl
  have arity : ([] : List Expr).length = f.arity := by
    cases p with
    | af | ix | iy => cases hf
    | _ => cases d <;> cases hf <;> rfl
  -- a pair is set to the low sixteen bits of a number
  have same : m.setPair p (d.next (m.pair p)) = m.count d (.pair p) := by
    rw [Machine.count, Machine.setWord, Machine.word, ← d.toWord_next, Machine.setPair,
      Machine.setPair, Value.toWord_ofWord]
  rw [Program.run_perform f arity rfl, ← same, ← counted, Expr.outcome_call]
  rfl

/-- Counting a register steps its word by one, modulo the size of the address space, and changes
nothing else. Counting the other way undoes it. Where block instructions have a primitive for the
same step, that leaves the same machine. -/
theorem run_counts (d : Direction) (policy : Policy) (ops : Operands) (hr : r ≠ .pair .af)
    (registers : m.ByteRegisters) (pointer : m.StackInRange) :
    ∃ m', (d.counting r).Runs policy ops m m' ∧ m.Counts d r m' ∧
      (d.opposite.counting r).Runs policy ops m' m ∧
      ∀ p f, r = .pair p → d.primitive? p = some f →
        Program.run [perform f []] m = .ok .continued m' := by
  have counts := Machine.count_counts d hr registers pointer
  have back := d.opposite.runs_count policy ops hr counts.registers
  rw [Machine.count_opposite d registers pointer] at back
  refine ⟨m.count d r, d.runs_count policy ops hr registers, counts, back, ?_⟩
  rintro p f rfl hf
  exact d.run_primitive hf m

/-- `HL` is counted down from zero, and both halves wrap around. -/
theorem run_counts_wrapped : WordRegister.pair .hl ≠ .pair .af ∧ Machine.blank.ByteRegisters ∧
    Machine.blank.StackInRange ∧ ∃ m',
      (Instruction.decWord (.pair .hl)).Runs {} {} .blank m' ∧
      ((m'.pair .hl).toNat : Int) = 0xFFFF ∧
      (Instruction.incWord (.pair .hl)).Runs {} {} m' .blank ∧
      Program.run [perform .decHl []] .blank = .ok .continued m' := by
  have accepted : WordRegister.pair .hl ≠ .pair .af := by decide
  have registers := Machine.blank_byteRegisters
  have pointer := Machine.blank_stackInRange
  obtain ⟨m', run, counts, back, primitive⟩ :=
    run_counts down {} {} accepted registers pointer
  have zero : Machine.blank.word (.pair .hl) = 0 := by
    rw [Machine.word, Machine.pair, Machine.reg_blank, Machine.reg_blank]
    rfl
  have word := counts.word
  rw [zero] at word
  exact ⟨accepted, registers, pointer, m', run, word, back, primitive .hl .decHl rfl rfl⟩

end Direction

end Z80Effects
