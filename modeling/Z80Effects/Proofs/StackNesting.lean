import Z80Effects.Proofs.ByteOperands
import Z80Effects.Proofs.InstructionRuns

/-!
# Stack discipline

A nesting is a sequence of stack operations in which every operation that puts a word on the stack
has a later one of its own that takes a word off, and the operations between the two are a nesting
again. Run from any machine with bytes in its registers, each operation that takes a word off gets
the one that its partner has put there, and the stack pointer comes back to where it was, modulo the
size of the address space. Only memory below it, two bytes for each level, has changed.
-/
namespace Z80Effects

open Effect

namespace Word

/-- An address by its distance below another one. -/
theorem eq_sub_ofNat (top address : Word) :
    address = top - BitVec.ofNat 16 ((top - 1 - address).toNat + 1) := by
  rw [BitVec.ofNat_add, BitVec.ofNat_toNat, BitVec.setWidth_eq]
  bv_omega

end Word

namespace Value

/-- An address, reduced to a page. -/
theorem toNat_srem_pageSize {v : Value} (h : v.toNat < 65536) :
    (v.srem (BitVec.ofNat 32 pageSize)).toNat = v.toNat % 0x4000 := by
  have nonnegative : v.msb = false := by
    rw [BitVec.msb_eq_decide]
    simp
    omega
  have positive : (BitVec.ofNat 32 pageSize).msb = false := by decide
  rw [BitVec.srem_eq, nonnegative, positive]
  simp [pageSize]

end Value

namespace Machine

/-- The address of the word on top of the stack. -/
def stackTop (m : Machine) : Word := (m.get stackPointer).toWord

def topWord (m : Machine) : Word :=
  .ofBytes (m.memory.get (m.stackTop + 1)) (m.memory.get m.stackTop)

def readTop (m : Machine) : Machine :=
  ((m.read m.stackTop).2.read (m.stackTop + 1)).2

theorem get_readTop (m : Machine) (name : String) : m.readTop.get name = m.get name := by
  rw [readTop, get_read, get_read]

theorem memory_readTop (m : Machine) : m.readTop.memory = m.memory := by
  rw [readTop, memory_read, memory_read]

/-- The live page, and the registers that words are pushed from. -/
def bankVariables : List String := "page" :: Register.all.map Register.name

/-- The registers hold bytes, and the live page is one of the four. -/
structure Banked (m : Machine) : Prop where
  register : m.ByteRegisters
  page : (m.get "page").toNat ≤ 3

/-- One machine has a word more on the stack than the other, and may be somewhere else. -/
structure Pushes (w : Word) (m m' : Machine) : Prop where
  memory : m'.memory = (m.memory.set (m.stackTop - 1) w.high).set (m.stackTop - 2) w.low
  stackTop : m'.stackTop = m.stackTop - 2
  get : ∀ name, name ≠ stackPointer → name ≠ "pc" → m'.get name = m.get name

/-- One machine has a word less on the stack than the other. -/
structure Pops (m m' : Machine) : Prop where
  memory : m'.memory = m.memory
  stackTop : m'.stackTop = m.stackTop + 2
  banked : m.Banked → m'.Banked

variable (m : Machine)

theorem stackTop_set (v : Value) : (m.set stackPointer v).stackTop = v.toWord := by
  rw [stackTop, get_set_self]

theorem stackTop_set_of_ne {name : String} (v : Value) (h : ¬ name = stackPointer) :
    (m.set name v).stackTop = m.stackTop := by
  rw [stackTop, get_set_of_ne _ _ h, stackTop]

theorem push_pushes (w : Word) : m.Pushes w (m.push w.high w.low) where
  memory := by
    have high : (m.get stackPointer - 1).toWord = m.stackTop - 1 := by
      unfold stackTop
      bv_omega
    have low : (m.get stackPointer - 2).toWord = m.stackTop - 2 := by
      unfold stackTop
      bv_omega
    simp only [push, memory_set, memory_write, high, low]
  stackTop := by
    simp only [push, stackTop_set]
    have masked := Value.and_wordMask (m.get stackPointer - 2)
    unfold stackTop
    bv_omega
  get name hn _ := by rw [get_push, if_neg (Ne.symm hn)]

variable {m}

theorem Pushes.set_pc {m' : Machine} {w : Word} (h : m.Pushes w m') (v : Value) :
    m.Pushes w (m'.set "pc" v) where
  memory := by rw [memory_set, h.memory]
  stackTop := by rw [stackTop_set_of_ne _ _ (by decide), h.stackTop]
  get name hn hpc := by rw [get_set_of_ne _ _ hpc.symm, h.get name hn hpc]

theorem blank_banked : blank.Banked where
  register := blank_byteRegisters
  page := by simp

namespace Banked

theorem of_get {m' : Machine} (h : m.Banked)
    (same : ∀ name ∈ bankVariables, m'.get name = m.get name) : m'.Banked where
  register reg := by
    have mem : reg.name ∈ bankVariables :=
      List.mem_cons_of_mem _ (List.mem_map_of_mem reg.mem_all)
    rw [reg_eq_get, same _ mem]
    exact h.register reg
  page := by
    rw [same _ List.mem_cons_self]
    exact h.page

theorem set (h : m.Banked) {name : String} (hn : name ∉ bankVariables) (v : Value) :
    (m.set name v).Banked :=
  h.of_get fun _ mem => get_set_of_ne _ _ fun same => hn (same ▸ mem)

theorem setByte (h : m.Banked) (reg : Register) (b : Byte) :
    (m.set reg.name (.ofByte b)).Banked where
  register := h.register.set fun _ _ => Value.fits_ofByte b
  page := by
    rw [get_set_of_ne _ _ (Register.name_ne (by decide) reg)]
    exact h.page

theorem setPair (h : m.Banked) (p : RegisterPair) (v : Value) : (m.setPair p v).Banked := by
  rw [setPair_eq_set]
  exact (h.setByte _ _).setByte _ _

theorem readTop (h : m.Banked) : m.readTop.Banked := h.of_get fun name _ => m.get_readTop name

/-- The content of a pair of bytes is the word of these bytes. -/
theorem pair_eq (h : m.Banked) (p : RegisterPair) :
    m.pair p = .ofWord (.ofBytes (m.reg p.high).toByte (m.reg p.low).toByte) :=
  (h.register.holdsWord p).pair_eq

end Banked

theorem Pushes.banked {m' : Machine} {w : Word} (h : m.Pushes w m') (hm : m.Banked) : m'.Banked :=
  hm.of_get fun name mem => h.get name (ne_of_mem_of_not_mem mem (by decide))
    (ne_of_mem_of_not_mem mem (by decide))

end Machine

namespace Step

/-- The step puts a word on the stack, whatever the machine. The address of the following
instruction is one that decoding can give. -/
def Opens (s : Step) : Prop :=
  match s.instruction with
  | .push _ => True
  | .call none | .restart _ => s.operands.nextAddress.toNat < 65536
  | _ => False

/-- The step takes a word off the stack, whatever the machine, and goes on at the word if it is not
for a pair. -/
def Closes (s : Step) : Prop :=
  match s.instruction with
  | .pop _ | .ret none => True
  | _ => False

end Step

structure Opening extends Step where
  opens : toStep.Opens

structure Closing extends Step where
  closes : toStep.Closes

/-- The word that an opening step puts on the stack: the content of its pair, or the address of the
following instruction, moved into the live page. -/
def Opening.pushed (o : Opening) (m : Machine) : Nat :=
  match o.instruction with
  | .push w => (m.word w).toNat
  | _ => (m.get "page").toNat * 0x4000 + o.operands.nextAddress.toNat % 0x4000

/-- What a closing step has put into its pair, or into `pc`. -/
def Closing.delivered (c : Closing) (m : Machine) : Nat :=
  match c.instruction with
  | .pop w => (m.word w).toNat
  | _ => (m.get "pc").toNat

section
variable (ops : Operands) (m : Machine)

theorem outcome_pushPair (p : RegisterPair) :
    Program.outcome [perform .pushBytes [.register p.high, .register p.low]] ops m =
      (.continued, m.push (m.reg p.high).toByte (m.reg p.low).toByte) := by
  simp [Program.outcome, perform, Primitive.apply]

/-- The address of the following instruction in the live page. -/
def returnAddress : Word :=
  Value.toWord ((ops.resolve { slot := .nextAddress, inPage := true }) +
    m.get "page" * BitVec.ofNat 32 pageSize)

theorem outcome_pushReturnAddress : pushReturnAddress.outcome ops.resolve m =
    (.continued, m.push (returnAddress ops m).high (returnAddress ops m).low) := by
  simp only [pushReturnAddress, perform, inLivePage, page, returnAddress, Stmt.outcome_effect,
    Expr.outcome_call, Expr.outcomeList_cons, Expr.outcomeList_nil, Expr.outcome_add,
    Expr.outcome_mul, Expr.outcome_hole, Expr.outcome_var, Expr.outcome_num, Primitive.apply]
  rfl

theorem outcome_call : Program.outcome (call none) ops m = (.returned,
    (m.push (returnAddress ops m).high (returnAddress ops m).low).set "pc"
      (ops.resolve { slot := .target })) := by
  simp [Program.outcome, call, Stmt.set, pc, target, outcome_pushReturnAddress, AssignOp.apply]

theorem outcome_restart (vector : Word) :
    Program.outcome [pushReturnAddress, .set pc (.num (Value.ofWord vector)), .done] ops m =
      (.returned, (m.push (returnAddress ops m).high (returnAddress ops m).low).set "pc"
        (.ofWord vector)) := by
  simp [Program.outcome, Stmt.set, pc, outcome_pushReturnAddress, AssignOp.apply]

variable {ops m}

theorem toNat_returnAddress (hm : m.Banked) (hn : ops.nextAddress.toNat < 65536) :
    (returnAddress ops m).toNat =
      (m.get "page").toNat * 0x4000 + ops.nextAddress.toNat % 0x4000 := by
  have page := hm.page
  have offset := Value.toNat_srem_pageSize hn
  have resolved : ops.resolve { slot := .nextAddress, inPage := true } =
      ops.nextAddress.srem (BitVec.ofNat 32 pageSize) := by
    simp [Operands.resolve, Operands.get]
  rw [returnAddress, resolved]
  simp only [pageSize] at offset ⊢
  generalize BitVec.srem _ _ = r at offset ⊢
  simp
  omega

theorem outcome_readTop :
    (readWord (.var stackPointer)).outcome ops.resolve m = (.ofWord m.topWord, m.readTop) :=
  outcome_readWord (Expr.outcome_var ops.resolve m stackPointer)

theorem outcome_ret : Program.outcome (ret none) ops m = (.returned,
    (m.readTop.set "pc" (.ofWord m.topWord)).set stackPointer (m.get stackPointer + 2)) := by
  have apart : ¬ "pc" = stackPointer := by decide
  simp [Program.outcome, ret, popIntoPc, Stmt.set, pc, outcome_readTop, AssignOp.apply, sp,
    Machine.get_set_of_ne, apart, Machine.get_readTop]

theorem outcome_popPair (p : RegisterPair) :
    Program.outcome (setPair p (readWord sp) ++ [.assign .add sp 2]) ops m = (.continued,
      ((m.readTop.set "val" (.ofWord m.topWord)).setPair p (.ofWord m.topWord)).set stackPointer
        (m.get stackPointer + 2)) := by
  have kept : ((m.readTop.set "val" (.ofWord m.topWord)).setPair p (.ofWord m.topWord)).get
      stackPointer = m.get stackPointer := by
    rw [Machine.get_setPair_of_ne _ _ (Register.name_ne_stackPointer _)
      (Register.name_ne_stackPointer _), Machine.get_set_of_ne _ _ (by decide), Machine.get_readTop]
  rw [Program.outcome, sp, Stmt.outcomeList_append, outcome_setPair p rfl outcome_readTop]
  simp only [Flow.andThen_continued, Stmt.outcomeList_cons, Stmt.outcomeList_nil,
    Stmt.outcome_assign_var, Expr.outcome_ofNat, AssignOp.apply, kept]
  rfl

end

/-- An opening step puts its word on the stack. -/
theorem Opening.exists_pushes (o : Opening) {m : Machine} (hm : m.Banked) :
    ∃ flow m' w, o.program.run m = .ok flow m' ∧ m.Pushes w m' ∧ w.toNat = o.pushed m := by
  obtain ⟨s, opens⟩ := o
  obtain ⟨skeleton, form, run⟩ := s.exists_outcome
  obtain ⟨policy, i, ops, p, accepted⟩ := s
  specialize run m
  cases form with
  | push q =>
    have pushes := m.push_pushes (.ofBytes (m.reg q.high).toByte (m.reg q.low).toByte)
    rw [Word.high_ofBytes, Word.low_ofBytes] at pushes
    rw [outcome_pushPair] at run
    refine ⟨_, _, _, run, pushes, ?_⟩
    simp only [pushed, Machine.word]
    rw [hm.pair_eq q, Value.toNat_ofWord]
  | call k =>
    cases k with
    | none =>
      rw [outcome_call] at run
      exact ⟨_, _, _, run, (m.push_pushes _).set_pc _, toNat_returnAddress hm opens⟩
    | some k => cases opens
  | restart vector _ =>
    rw [outcome_restart] at run
    exact ⟨_, _, _, run, (m.push_pushes _).set_pc _, toNat_returnAddress hm opens⟩
  | _ => cases opens

/-- A closing step delivers the word on top of the stack and takes it off. -/
theorem Closing.exists_pops (c : Closing) (m : Machine) :
    ∃ flow m', c.program.run m = .ok flow m' ∧ m.Pops m' ∧ c.delivered m' = m.topWord.toNat := by
  obtain ⟨s, closes⟩ := c
  obtain ⟨skeleton, form, run⟩ := s.exists_outcome
  obtain ⟨policy, i, ops, p, accepted⟩ := s
  specialize run m
  have dropped : (m.get stackPointer + 2).toWord = m.stackTop + 2 := by
    unfold Machine.stackTop
    bv_omega
  have outside (reg : Register) : ¬ stackPointer = reg.name := Ne.symm reg.name_ne_stackPointer
  cases form with
  | pop q =>
    rw [outcome_popPair] at run
    refine ⟨_, _, run, ⟨?_, ?_, fun banked => ?_⟩, ?_⟩
    · simp only [Machine.memory_set, Machine.memory_setPair, Machine.memory_readTop]
    · rw [Machine.stackTop_set, dropped]
    · exact ((banked.readTop.set (by decide) _).setPair q _).set (by decide) _
    · simp only [delivered, Machine.word]
      rw [Machine.pair_set_of_ne _ _ (outside _) (outside _), Machine.pair_setPair_self,
        Value.toNat_ofWord]
      simp
  | ret k =>
    cases k with
    | none =>
      rw [outcome_ret] at run
      refine ⟨_, _, run, ⟨?_, ?_, fun banked => ?_⟩, ?_⟩
      · simp only [Machine.memory_set, Machine.memory_readTop]
      · rw [Machine.stackTop_set, dropped]
      · exact (banked.readTop.set (by decide) _).set (by decide) _
      · simp only [delivered]
        rw [Machine.get_set_of_ne _ _ (by decide), Machine.get_set_self, Value.toNat_ofWord]
    | some k => cases closes
  | _ => cases closes

namespace Machine

/-- The stack pointer is back where it was, and memory has changed at most where the given number of
words below it are. -/
structure Restored (depth : Nat) (m m' : Machine) : Prop where
  stackTop : m'.stackTop = m.stackTop
  memory : ∀ address, 2 * depth ≤ (m.stackTop - 1 - address).toNat →
    m'.memory.get address = m.memory.get address

namespace Restored

variable {m m₁ m₂ m₃ : Machine} {w : Word} {d d' : Nat}

theorem refl (m : Machine) : m.Restored 0 m := ⟨rfl, fun _ _ => rfl⟩

theorem trans (h : m.Restored d m₁) (h' : m₁.Restored d' m₂) : m.Restored (max d d') m₂ where
  stackTop := h'.stackTop.trans h.stackTop
  memory address far := by
    have next := h'.memory address
    rw [h.stackTop] at next
    exact (next (by omega)).trans (h.memory address (by omega))

/-- The words put on the stack above a word leave it there. -/
theorem topWord_eq (pushes : m.Pushes w m₁) (h : m₁.Restored d m₂) (hd : d < 32768) :
    m₂.topWord = w := by
  have far := h.memory
  rw [pushes.stackTop] at far
  have low : m₂.memory.get (m.stackTop - 2) = w.low := by
    rw [far _ (by bv_omega), pushes.memory, Memory.get_set_self]
  have high : m₂.memory.get (m.stackTop - 2 + 1) = w.high := by
    have next : m.stackTop - 2 + 1 = m.stackTop - 1 := by
      bv_omega
    have apart : m.stackTop - 2 ≠ m.stackTop - 1 := by
      bv_omega
    rw [next, far _ (by bv_omega), pushes.memory, Memory.get_set, if_neg apart,
      Memory.get_set_self]
  rw [topWord, h.stackTop, pushes.stackTop, high, low, Word.ofBytes_high_low]

theorem around (pushes : m.Pushes w m₁) (h : m₁.Restored d m₂) (pops : m₂.Pops m₃) :
    m.Restored (d + 1) m₃ where
  stackTop := by
    rw [pops.stackTop, h.stackTop, pushes.stackTop]
    bv_omega
  memory address far := by
    have within := h.memory address
    rw [pushes.stackTop] at within
    have apart : m.stackTop - 1 ≠ address ∧ m.stackTop - 2 ≠ address := by
      constructor <;> rintro rfl <;> bv_omega
    rw [pops.memory, within (by bv_omega), pushes.memory, Memory.get_set, if_neg apart.2,
      Memory.get_set, if_neg apart.1]

end Restored

end Machine

/-- A well-nested sequence of stack operations. -/
inductive Nesting
  | done
  | around (opening : Opening) (inner : Nesting) (closing : Closing) (rest : Nesting)

namespace Nesting

def steps : Nesting → List Step
  | done => []
  | around opening inner closing rest =>
      opening.toStep :: (inner.steps ++ closing.toStep :: rest.steps)

/-- The greatest number of words that are on the stack at once. -/
def depth : Nesting → Nat
  | done => 0
  | around _ inner _ rest => max (inner.depth + 1) rest.depth

/-- Run one after the other, every closing step delivers what its opening step has pushed. -/
inductive Delivers : Nesting → Machine → Machine → Prop
  | done (m : Machine) : Delivers done m m
  | around {opening : Opening} {inner rest : Nesting} {closing : Closing}
      {m m₁ m₂ m₃ m₄ : Machine} {flow flow' : Flow} (opened : opening.program.run m = .ok flow m₁)
      (within : inner.Delivers m₁ m₂) (closed : closing.program.run m₂ = .ok flow' m₃)
      (word : closing.delivered m₃ = opening.pushed m) (after : rest.Delivers m₃ m₄) :
      Delivers (.around opening inner closing rest) m m₄

/-- A nesting restores the stack, if there is room for its words in the address space. -/
theorem exists_restored (n : Nesting) (hd : n.depth ≤ 32768) {m : Machine} (hm : m.Banked) :
    ∃ ms m', Step.trace n.steps m = .ok ms m' ∧ n.Delivers m m' ∧ m'.Banked ∧
      m.Restored n.depth m' := by
  induction n generalizing m with
  | done => exact ⟨[], m, rfl, .done m, hm, .refl m⟩
  | around opening inner closing rest ihInner ihRest =>
    simp only [depth] at hd
    obtain ⟨flow, m₁, w, opened, pushes, pushed⟩ := opening.exists_pushes hm
    obtain ⟨ms, m₂, inside, within, banked, restored⟩ := ihInner (by omega) (pushes.banked hm)
    obtain ⟨flow', m₃, closed, pops, delivered⟩ := closing.exists_pops m₂
    obtain ⟨ms', m₄, following, after, banked', restored'⟩ := ihRest (by omega) (pops.banked banked)
    have word : closing.delivered m₃ = opening.pushed m := by
      rw [delivered, restored.topWord_eq pushes (by omega), pushed]
    have run := Step.trace_append_of_ok inside (Step.trace_cons closed following)
    exact ⟨_, m₄, Step.trace_cons opened run, .around opened within closed word after, banked',
      (restored.around pushes pops).trans restored'⟩

/-- Stack discipline: in a well-nested sequence of stack operations, each word that is taken off is
the one that was put there for it. At the end the stack pointer is back, and no more memory has
changed than two bytes for each level, just below it. -/
theorem trace_delivers (n : Nesting) (hd : n.depth ≤ 32768) {m : Machine} (hm : m.Banked) :
    ∃ ms m', Step.trace n.steps m = .ok ms m' ∧ n.Delivers m m' ∧
      (m'.get stackPointer).toWord = (m.get stackPointer).toWord ∧
      ∀ address, (∀ i < 2 * n.depth,
        address ≠ (m.get stackPointer).toWord - BitVec.ofNat 16 (i + 1)) →
          m'.memory.get address = m.memory.get address := by
  obtain ⟨ms, m', run, delivers, -, restored⟩ := n.exists_restored hd hm
  refine ⟨ms, m', run, delivers, restored.stackTop, fun address outside => ?_⟩
  refine restored.memory address (Nat.le_of_not_lt fun near => ?_)
  exact outside (m.stackTop - 1 - address).toNat near (Word.eq_sub_ofNat m.stackTop address)

def callBetween : Nesting :=
  .around
    ⟨{ policy := { annotate := false }, instruction := .push (.pair .bc), operands := {},
       program := [perform .pushBytes [.register .b, .register .c]], accepted := by rfl }, trivial⟩
    (.around
      ⟨{ policy := { annotate := false }, instruction := .call none,
         operands := { target := 0x1234, nextAddress := 0x8003 },
         program := Program.fill (call none) { target := 0x1234, nextAddress := 0x8003 },
         accepted := by rfl },
        show (0x8003 : Value).toNat < 65536 by decide⟩
      .done
      ⟨{ policy := { annotate := false }, instruction := .ret none, operands := {},
         program := ret none, accepted := by rfl }, trivial⟩
      .done)
    ⟨{ policy := { annotate := false }, instruction := .pop (.pair .de), operands := {},
       program := setPair .de (readWord sp) ++ [.assign .add sp 2], accepted := by rfl }, trivial⟩
    .done

theorem trace_delivers_callBetween : callBetween.depth ≤ 32768 ∧
    (Machine.blank.set stackPointer 1).Banked ∧
      ∃ ms m', Step.trace callBetween.steps (Machine.blank.set stackPointer 1) = .ok ms m' ∧
        callBetween.Delivers (Machine.blank.set stackPointer 1) m' ∧
        (m'.get stackPointer).toWord =
          ((Machine.blank.set stackPointer 1).get stackPointer).toWord ∧
        ∀ address, (∀ i < 2 * callBetween.depth, address ≠
          ((Machine.blank.set stackPointer 1).get stackPointer).toWord - BitVec.ofNat 16 (i + 1)) →
            m'.memory.get address = (Machine.blank.set stackPointer 1).memory.get address := by
  have shallow : callBetween.depth ≤ 32768 := by decide
  have banked : (Machine.blank.set stackPointer 1).Banked :=
    Machine.blank_banked.set (by decide) _
  exact ⟨shallow, banked, callBetween.trace_delivers shallow banked⟩

end Nesting

end Z80Effects
