import Z80Effects.Proofs.ControlFlow
import Z80Effects.Proofs.StackNesting

/-!
# Addresses in the live page

A relative jump, a call, a restart and `HALT` move an address into the page that is live when they
run: its offset within a page stays and its page is replaced. The offset is a remainder that keeps
the sign of the address. The address that `HALT` moves is one less than that of the following
instruction, so that it is negative if that is zero, and leaves the live page then and only then.
-/
namespace Z80Effects

open Effect

namespace Machine

/-- The first address of the live page. -/
def pageStart (m : Machine) : Int := (m.get "page").toNat * 0x4000

/-- The address in the live page with the same offset. -/
def livePageAddress (m : Machine) (address : Int) : Int := m.pageStart + address % 0x4000

/-- The address belongs to the live page. -/
def InLivePage (m : Machine) (address : Int) : Prop :=
  m.pageStart ≤ address ∧ address ≤ m.pageStart + 0x3FFF

theorem inLivePage_livePageAddress (m : Machine) (address : Int) :
    m.InLivePage (m.livePageAddress address) := by
  unfold InLivePage livePageAddress
  omega

end Machine

namespace Value

theorem toInt_srem_pageSize (v : Value) :
    (v.srem (BitVec.ofNat 32 pageSize)).toInt = v.toInt.tmod 0x4000 := by
  rw [BitVec.toInt_srem]
  rfl

/-- The sum of a page and an offset does not overflow, whatever the sign of the offset. -/
theorem toInt_moved {page : Value} (hp : page.toNat ≤ 3) (v : Value) :
    (v.srem (BitVec.ofNat 32 pageSize) + page * BitVec.ofNat 32 pageSize).toInt =
      page.toNat * 0x4000 + v.toInt.tmod 0x4000 := by
  have offset := v.toInt_srem_pageSize
  have lower : -0x4000 < v.toInt.tmod 0x4000 := Int.lt_tmod_of_pos _ (by decide)
  have upper : v.toInt.tmod 0x4000 < 0x4000 := Int.tmod_lt_of_pos _ (by decide)
  generalize v.srem _ = r at offset ⊢
  rw [← offset] at lower upper ⊢
  have start : (page * BitVec.ofNat 32 pageSize).toNat = page.toNat * 0x4000 := by
    rw [BitVec.toNat_mul]
    simp only [pageSize, BitVec.toNat_ofNat]
    omega
  have start' : (page * BitVec.ofNat 32 pageSize).toInt = page.toNat * 0x4000 := by
    rw [BitVec.toInt_eq_toNat_of_lt, start]
    · rfl
    · rw [start]
      omega
  rw [BitVec.toInt_add, start']
  rw [Int.bmod_eq_of_le] <;> omega

end Value

/-- One machine has a word more on the stack than the other, its high byte written first. -/
structure Machine.PutsWord (w : Word) (m m' : Machine) : Prop where
  memory : m'.memory = (m.memory.set (m.stackTop - 1) w.high).set (m.stackTop - 2) w.low
  log : m'.log =
    (m.log.push (.write (m.stackTop - 1) w.high)).push (.write (m.stackTop - 2) w.low)
  stackTop : m'.stackTop = m.stackTop - 2

namespace Instruction

/-- The address that an instruction moves into the live page. -/
def movedAddress? (ops : Operands) : Instruction → Option Int
  | jumpRelative _ | djnz => some ops.target.toInt
  | call _ | restart _ => some ops.nextAddress.toInt
  | halt => some (ops.nextAddress.toInt - 1)
  | _ => none

/-- An instruction has left the address that it moves on the stack, if it is one to return to, and
in `pc` otherwise. -/
def Leaves (m m' : Machine) (address : Int) : Instruction → Prop
  | call _ | restart _ => ∃ w : Word, m.PutsWord w m' ∧ address = w.toNat
  | _ => address = (m'.get "pc").toInt

end Instruction

section
variable {ops : Operands} {m : Machine}

theorem Machine.putsWord_push (m : Machine) (w : Word) : m.PutsWord w (m.push w.high w.low) where
  memory := (m.push_pushes w).memory
  log := by
    have high : (m.get stackPointer - 1).toWord = m.stackTop - 1 := by
      unfold stackTop
      bv_omega
    have low : (m.get stackPointer - 2).toWord = m.stackTop - 2 := by
      unfold stackTop
      bv_omega
    simp only [push, log_set, write, high, low]
  stackTop := (m.push_pushes w).stackTop

theorem Machine.PutsWord.set {m' : Machine} {w : Word} (h : m.PutsWord w m') {name : String}
    (hn : ¬ name = stackPointer) (v : Value) : m.PutsWord w (m'.set name v) where
  memory := by rw [memory_set, h.memory]
  log := by rw [log_set, h.log]
  stackTop := by rw [stackTop_set_of_ne _ _ hn, h.stackTop]

/-- What becomes of the stack does not depend on the T-states. -/
theorem Machine.PutsWord.of_set {m' : Machine} {w : Word} {name : String} {v : Value}
    (h : (m.set name v).PutsWord w m') (hn : ¬ name = stackPointer) : m.PutsWord w m' where
  memory := by rw [h.memory, memory_set, stackTop_set_of_ne _ _ hn]
  log := by rw [h.log, log_set, stackTop_set_of_ne _ _ hn]
  stackTop := by rw [h.stackTop, stackTop_set_of_ne _ _ hn]

theorem outcome_inLivePage (slot : Slot) (offset : Value) :
    (inLivePage { slot := slot, offset := offset }).outcome ops.resolve m =
      ((ops.get slot + offset).srem (BitVec.ofNat 32 pageSize) +
        m.get "page" * BitVec.ofNat 32 pageSize, m) := by
  simp only [inLivePage, page, Expr.outcome_add, Expr.outcome_mul, Expr.outcome_hole,
    Expr.outcome_var, Expr.outcome_num, Operands.resolve, if_true]

theorem pc_relativeJump : (Stmt.outcomeList ops.resolve relativeJump m).2.get "pc" =
    ops.target.srem (BitVec.ofNat 32 pageSize) + m.get "page" * BitVec.ofNat 32 pageSize := by
  have kept : ¬ "tstates" = "page" := by decide
  simp only [relativeJump, spend, tstates, pc, Stmt.set, Stmt.outcomeList_cons,
    Stmt.outcome_assign_var, Flow.andThen_continued, Stmt.outcome_done, Flow.andThen_returned,
    outcome_inLivePage, AssignOp.apply, Machine.get_set_self, Expr.outcome_ofNat, Operands.get,
    Machine.get_set_of_ne _ _ kept, BitVec.ofNat_eq_ofNat, BitVec.add_zero]

theorem putsWord_callBody : m.PutsWord (returnAddress ops m) (Stmt.outcomeList ops.resolve
    [spend 7, pushReturnAddress, .set pc target, .done] m).2 := by
  have page : ¬ "tstates" = "page" := by decide
  have spent : (spend 7).outcome ops.resolve m =
      (.continued, m.set "tstates" (m.get "tstates" - 7)) := by
    simp [spend, tstates, AssignOp.apply]
  have same : returnAddress ops (m.set "tstates" (m.get "tstates" - 7)) = returnAddress ops m := by
    rw [returnAddress, Machine.get_set_of_ne _ _ page, returnAddress]
  rw [Stmt.outcomeList_cons, spent, Flow.andThen_continued]
  have called := outcome_call ops (m.set "tstates" (m.get "tstates" - 7))
  rw [Program.outcome, Effect.call, same] at called
  rw [called]
  exact ((Machine.putsWord_push _ _).set (by decide) _).of_set (by decide)

theorem pc_halt (speedup : Bool) : (Program.outcome (halt speedup) ops m).2.get "pc" =
    (ops.nextAddress + -1).srem (BitVec.ofNat 32 pageSize) +
      m.get "page" * BitVec.ofNat 32 pageSize := by
  cases speedup <;>
    simp [Program.outcome, halt, pc, tstates, Stmt.set, outcome_inLivePage, AssignOp.apply,
      Operands.get, Machine.get_set]

end

namespace EffectForm

variable {policy : Policy} {i : Instruction} {p : Program} {ops : Operands} {m : Machine}

theorem leaves_returnAddress (hm : m.Banked) (hn : ops.nextAddress.toNat < 65536) :
    ((returnAddress ops m).toNat : Int) = m.pageStart + ops.nextAddress.toInt.tmod 0x4000 := by
  have exact : ops.nextAddress.toInt = ops.nextAddress.toNat :=
    BitVec.toInt_eq_toNat_of_lt (by omega)
  rw [toNat_returnAddress hm hn, exact, Machine.pageStart, Int.tmod_eq_emod_of_nonneg (by omega)]
  rfl

/-- Taken, an instruction leaves the first address of the live page plus the offset of the address
that it moves. -/
theorem exists_leaves (h : EffectForm policy i p) {source : Int}
    (hs : i.movedAddress? ops = some source) (hn : ops.nextAddress.toNat < 65536)
    (hm : m.Banked) (taken : i.Returns m) : ∃ address, i.Leaves m (p.outcome ops m).2 address ∧
      address = m.pageStart + source.tmod 0x4000 := by
  have jumps {m' : Machine} (same : m'.get "page" = m.get "page") :
      ((Stmt.outcomeList ops.resolve relativeJump m').2.get "pc").toInt =
        m.pageStart + ops.target.toInt.tmod 0x4000 := by
    rw [pc_relativeJump, same, Value.toInt_moved hm.page, Machine.pageStart]
  have calls := leaves_returnAddress hm hn
  cases h with
  | jumpRelative =>
    cases hs
    exact ⟨_, rfl, jumps rfl⟩
  | jumpRelativeIf k _ =>
    cases hs
    have holds := (m.meets_iff_holds k).mp taken
    have test := outcome_holdsRelative ops.resolve m k
    rw [Program.outcome, Stmt.outcomeList_whenever _ test, holds, if_pos rfl]
    exact ⟨_, rfl, jumps rfl⟩
  | djnz =>
    cases hs
    have taken : (m.reg .b - 1).toNat % 256 ≠ 0 := taken
    have stays : (m.reg .b - 1).toByte != 0 := by
      rw [bne_iff_ne]
      bv_omega
    have same : (m.setReg .b (.ofByte (m.reg .b - 1).toByte)).get "page" = m.get "page" :=
      m.get_set_of_ne _ (by decide)
    rw [Program.outcome, outcome_decrementAndJump]
    simp only [stays, if_true]
    exact ⟨_, rfl, jumps same⟩
  | call k =>
    cases hs
    cases k with
    | none =>
      rw [outcome_call]
      exact ⟨_, ⟨_, (m.putsWord_push _).set (by decide) _, rfl⟩, calls⟩
    | some k =>
      have holds := (m.meets_iff_holds k).mp taken
      have test := outcome_holds ops.resolve m k
      rw [Effect.call, provided, Program.outcome, Stmt.outcomeList_whenever _ test, holds, if_pos rfl]
      exact ⟨_, ⟨_, putsWord_callBody, rfl⟩, calls⟩
  | restart vector _ =>
    cases hs
    rw [outcome_restart]
    exact ⟨_, ⟨_, (m.putsWord_push _).set (by decide) _, rfl⟩, calls⟩
  | halt =>
    cases hs
    refine ⟨_, rfl, ?_⟩
    have previous : (ops.nextAddress + -1).toInt = ops.nextAddress.toInt - 1 := by
      rw [BitVec.toInt_add, BitVec.toInt_eq_toNat_of_lt (x := ops.nextAddress) (by omega),
        show (-1 : Value).toInt = -1 from rfl, Int.bmod_eq_of_le (by omega) (by omega)]
      rfl
    rw [pc_halt, Value.toInt_moved hm.page, previous, Machine.pageStart]
  | _ => cases hs

end EffectForm

namespace Step

/-- The address that `HALT` moves is the one before the first. -/
def UndercutsPage (s : Step) : Prop := s.instruction = .halt ∧ s.operands.nextAddress = 0

/-- The moved address is negative in that case only. -/
theorem movedAddress_cases (s : Step) {source : Int}
    (hs : s.instruction.movedAddress? s.operands = some source)
    (ht : s.operands.target.toNat < 65536) (hn : s.operands.nextAddress.toNat < 65536) :
    s.UndercutsPage ∧ source = -1 ∨ ¬ s.UndercutsPage ∧ 0 ≤ source := by
  have target : s.operands.target.toInt = s.operands.target.toNat :=
    BitVec.toInt_eq_toNat_of_lt (by omega)
  have next : s.operands.nextAddress.toInt = s.operands.nextAddress.toNat :=
    BitVec.toInt_eq_toNat_of_lt (by omega)
  have first : s.operands.nextAddress = 0 ↔ s.operands.nextAddress.toNat = 0 := by
    bv_omega
  unfold UndercutsPage
  cases hi : s.instruction <;> rw [hi] at hs <;> cases hs
  case halt =>
    simp only [true_and, first]
    omega
  all_goals
    refine .inr ⟨fun under => Instruction.noConfusion under.1, ?_⟩
    omega

/-- A taken step leaves the first address of the live page plus the offset of the moved address. -/
theorem exists_leaves (s : Step) {source : Int}
    (hs : s.instruction.movedAddress? s.operands = some source)
    (hn : s.operands.nextAddress.toNat < 65536) {m : Machine} (hm : m.Banked)
    (taken : s.instruction.Returns m) :
    ∃ m' address, s.program.run m = .ok .returned m' ∧ s.instruction.Leaves m m' address ∧
      address = m.pageStart + source.tmod 0x4000 := by
  obtain ⟨skeleton, form, run⟩ := s.exists_outcome
  obtain ⟨address, leaves, value⟩ := form.exists_leaves hs hn hm taken
  have returned := (form.returned_iff s.operands m).mpr taken
  refine ⟨_, address, ?_, leaves, value⟩
  rw [run m, returned]

/-- A taken jump, call or restart, or a `HALT`, leaves the address with the same offset in the live
page, and so stays in the page, unless it is a `HALT` whose address is the one before the first. -/
theorem run_leavesLivePageAddress_iff (s : Step) {source : Int}
    (hs : s.instruction.movedAddress? s.operands = some source)
    (ht : s.operands.target.toNat < 65536) (hn : s.operands.nextAddress.toNat < 65536)
    {m : Machine} (hm : m.Banked) (taken : s.instruction.Returns m) :
    ∃ m' address, s.program.run m = .ok .returned m' ∧ s.instruction.Leaves m m' address ∧
      (address = m.livePageAddress source ↔ ¬ s.UndercutsPage) ∧
      (m.InLivePage address ↔ ¬ s.UndercutsPage) := by
  obtain ⟨m', address, run, leaves, rfl⟩ := s.exists_leaves hs hn hm taken
  refine ⟨m', _, run, leaves, ?_⟩
  unfold Machine.InLivePage Machine.livePageAddress
  rcases s.movedAddress_cases hs ht hn with ⟨under, rfl⟩ | ⟨stays, nonneg⟩
  · have before : Int.tmod (-1) 0x4000 = -1 := rfl
    have last : (-1 : Int) % 0x4000 = 0x3FFF := rfl
    rw [before, last]
    constructor
    · exact iff_of_false (by omega) (not_not_intro under)
    · exact iff_of_false (by omega) (not_not_intro under)
  · rw [Int.tmod_eq_emod_of_nonneg nonneg]
    constructor
    · exact iff_of_true rfl stays
    · exact iff_of_true (m.inLivePage_livePageAddress source) stays

/-- A `HALT` before the given address. -/
def haltBefore (next : Value) : Step where
  policy := { annotate := false }
  instruction := .halt
  operands := { nextAddress := next }
  program := Program.fill (halt true) { nextAddress := next }
  accepted := by rfl

private theorem banked_page {page : Value} (h : page.toNat ≤ 3) :
    (Machine.blank.set "page" page).Banked where
  register :=
    Machine.blank_byteRegisters.set fun reg same => absurd same (Register.name_ne (by decide) reg)
  page := by rwa [Machine.get_set_self]

/-- At the end of a page, `HALT` stays there. -/
theorem run_leavesLivePageAddress_iff_haltBefore :
    (haltBefore 0x8000).instruction.movedAddress? (haltBefore 0x8000).operands = some 0x7FFF ∧
      (haltBefore 0x8000).operands.target.toNat < 65536 ∧
      (haltBefore 0x8000).operands.nextAddress.toNat < 65536 ∧
      (Machine.blank.set "page" 3).Banked ∧
      (haltBefore 0x8000).instruction.Returns (Machine.blank.set "page" 3) ∧
      ∃ m' address, (haltBefore 0x8000).program.run (Machine.blank.set "page" 3) =
          .ok .returned m' ∧
        (haltBefore 0x8000).instruction.Leaves (Machine.blank.set "page" 3) m' address ∧
        address = 0xFFFF := by
  have moved : (haltBefore 0x8000).instruction.movedAddress? (haltBefore 0x8000).operands =
      some 0x7FFF := rfl
  have target : (haltBefore 0x8000).operands.target.toNat < 65536 := by decide
  have next : (haltBefore 0x8000).operands.nextAddress.toNat < 65536 := by decide
  have banked : (Machine.blank.set "page" 3).Banked := banked_page (by decide)
  have stays : ¬ (haltBefore 0x8000).UndercutsPage := fun under => absurd under.2 (by decide)
  obtain ⟨m', address, run, leaves, same, -⟩ :=
    (haltBefore 0x8000).run_leavesLivePageAddress_iff moved target next banked trivial
  refine ⟨moved, target, next, banked, trivial, m', address, run, leaves, ?_⟩
  rw [same.mpr stays, Machine.livePageAddress, Machine.pageStart, Machine.get_set_self]
  rfl

/-- Not every moved address stays in the live page: `HALT` before address zero goes on at the end of
the page below. -/
theorem not_forall_run_leavesLivePageAddress : ¬ ∀ (s : Step) (source : Int) (m : Machine),
    s.instruction.movedAddress? s.operands = some source →
      s.operands.target.toNat < 65536 → s.operands.nextAddress.toNat < 65536 → m.Banked →
      s.instruction.Returns m → ∃ m' address, s.program.run m = .ok .returned m' ∧
        s.instruction.Leaves m m' address ∧ address = m.livePageAddress source ∧
        m.InLivePage address := by
  intro h
  have banked : (Machine.blank.set "page" 1).Banked := banked_page (by decide)
  have start : (Machine.blank.set "page" 1).pageStart = 0x4000 := by
    rw [Machine.pageStart, Machine.get_set_self]
    rfl
  have moved : (haltBefore 0).instruction.movedAddress? (haltBefore 0).operands = some (-1) := rfl
  obtain ⟨m₁, a, run, leaves, value⟩ :=
    (haltBefore 0).exists_leaves moved (by decide) banked trivial
  obtain ⟨m₂, a', run', leaves', -, inside⟩ :=
    h (haltBefore 0) (-1) _ moved (by decide) (by decide) banked trivial
  have same := run.symm.trans run'
  simp only [EStateM.Result.ok.injEq, true_and] at same
  subst same
  obtain rfl : a = a' := leaves.trans leaves'.symm
  rw [start] at value
  have lower := inside.1
  rw [start, value] at lower
  exact absurd lower (by decide)

end Step

end Z80Effects
