import Mathlib.Data.BitVec
import Mathlib.Data.Nat.Find
import Z80Effects.Proofs.BlockRepetition

/-!
# Searches and outputs of whole blocks

Both read a block byte by byte from the address in `HL` on, and write nothing. What several runs
make of a machine is a power of the step, so that by induction on the number of runs what one step
does tells what they all do.
-/
namespace Z80Effects

/-- The byte of the block that the pointer points to, a number of bytes further on. -/
def Machine.blockByte (m : Machine) (k : Nat) : Byte :=
  m.memory.get ((m.pair .hl).toWord + BitVec.ofNat 16 k)

/-- A step that reads the byte at `(HL)`, goes on to the next address and writes nothing. -/
structure ReadsOn (step : Machine → Machine) : Prop where
  pointer : ∀ m, (step m).HoldsWord .hl ((m.pair .hl).toWord + 1)
  memory : ∀ m, (step m).memory = m.memory
  log : ∀ m, (step m).log = m.log.push (.read (m.pair .hl).toWord)
  tstates : ∀ m, (step m).get "tstates" = m.get "tstates"

theorem examineByte_readsOn : ReadsOn Machine.examineByte where
  pointer := Machine.pointer_examineByte
  memory := Machine.memory_examineByte
  log := Machine.log_examineByte
  tstates := BlockForm.search.tstates_step

theorem outputByte_readsOn : ReadsOn Machine.outputByte where
  pointer := Machine.pointer_outputByte
  memory := Machine.memory_outputByte
  log := Machine.log_outputByte
  tstates := BlockForm.output.tstates_step

/-- What the reading of a block has made of a machine, with one run for each of a number of bytes. -/
structure Machine.BlockRead (n : Nat) (m m' : Machine) : Prop where
  pointer : m'.HoldsWord .hl ((m.pair .hl).toWord + BitVec.ofNat 16 n)
  memory : m'.memory = m.memory
  log : m'.log.toList = m.log.toList ++
    (List.range n).map fun k => .read ((m.pair .hl).toWord + BitVec.ofNat 16 k)
  tstates : m'.get "tstates" = m.get "tstates" - 5 * BitVec.ofNat 32 (n - 1)

/-- What a step leaves as it is, any number of steps leave as it is. -/
theorem iterate_observe {α : Type} {step : Machine → Machine} (observe : Machine → α)
    (h : ∀ m, observe (step m) = observe m) (n : Nat) (m : Machine) :
    observe (step^[n] m) = observe m := by
  induction n with
  | zero => rfl
  | succ n ih => rw [Function.iterate_succ_apply', h, ih]

namespace ReadsOn

variable {step : Machine → Machine} (h : ReadsOn step) (n : Nat) (m : Machine)
include h

theorem memory_iterate : (step^[n] m).memory = m.memory :=
  iterate_observe Machine.memory h.memory n m

theorem address_iterate :
    ((step^[n] m).pair .hl).toWord = (m.pair .hl).toWord + BitVec.ofNat 16 n := by
  induction n with
  | zero => simp
  | succ n ih =>
    rw [Function.iterate_succ_apply', (h.pointer _).toWord_pair, ih, BitVec.add_assoc,
      BitVec.ofNat_add]
    rfl

theorem byteAtHl_iterate : (step^[n] m).memory.get ((step^[n] m).pair .hl).toWord =
    m.blockByte n := by
  rw [h.memory_iterate, h.address_iterate, Machine.blockByte]

theorem log_iterate : (step^[n] m).log.toList = m.log.toList ++
    (List.range n).map fun k => .read ((m.pair .hl).toWord + BitVec.ofNat 16 k) := by
  induction n with
  | zero => simp
  | succ n ih =>
    rw [Function.iterate_succ_apply', h.log, Array.toList_push, ih, h.address_iterate,
      List.range_succ, List.map_append, List.append_assoc]
    rfl

theorem pointer_iterate_succ : (step^[n + 1] m).HoldsWord .hl
    ((m.pair .hl).toWord + BitVec.ofNat 16 (n + 1)) := by
  rw [← h.address_iterate, Function.iterate_succ_apply', (h.pointer _).toWord_pair]
  exact h.pointer _

theorem blockRead_iterate :
    m.BlockRead (n + 1) ((step^[n + 1] m).spend (5 * BitVec.ofNat 32 n)) where
  pointer := (h.pointer_iterate_succ n m).set_of_ne _ (by decide) (by decide)
  memory := h.memory_iterate (n + 1) m
  log := h.log_iterate (n + 1) m
  tstates := by
    rw [Machine.get_spend_self]
    exact congrArg (· - _) (iterate_observe (·.get "tstates") h.tstates (n + 1) m)

end ReadsOn

/-- The number of steps down after which a counter is zero: its content, or a whole turn from zero
on. -/
def countdown {w : Nat} (counter : BitVec w) : Nat :=
  if counter = 0 then 2 ^ w else counter.toNat

section
variable {w n : Nat} (counter : BitVec w)

theorem countdown_pos : 0 < countdown counter := by
  unfold countdown
  split
  · exact Nat.two_pow_pos w
  · next nonzero => exact Nat.pos_of_ne_zero fun eq => nonzero (BitVec.eq_of_toNat_eq eq)

theorem sub_ofNat_succ_eq_zero_iff (hn : n < countdown counter) :
    counter - BitVec.ofNat w (n + 1) = 0 ↔ n + 1 = countdown counter := by
  rw [sub_eq_zero, ← BitVec.toNat_inj, BitVec.toNat_ofNat]
  unfold countdown at hn ⊢
  by_cases wrapped : counter = 0
  · have divides : (n + 1) % 2 ^ w = 0 ↔ n + 1 = 2 ^ w := by
      rw [if_pos wrapped] at hn
      constructor
      · intro h
        exact Nat.le_antisymm hn (Nat.le_of_dvd (Nat.succ_pos n) (Nat.dvd_of_mod_eq_zero h))
      · intro h
        rw [h, Nat.mod_self]
    rw [if_pos wrapped, wrapped, ← divides, eq_comm]
    rfl
  · have bound := counter.isLt
    rw [if_neg wrapped] at hn ⊢
    rw [Nat.mod_eq_of_lt (by omega), eq_comm]

end

namespace Machine

variable (m : Machine) (n : Nat)

theorem counter_iterate_examineByte : ((examineByte^[n] m).pair .bc).toWord =
    (m.pair .bc).toWord - BitVec.ofNat 16 n := by
  induction n with
  | zero => simp
  | succ n ih =>
    rw [Function.iterate_succ_apply', (counter_examineByte _).toWord_pair, ih, BitVec.sub_sub,
      BitVec.ofNat_add]
    rfl

theorem accumulator_iterate_examineByte :
    (examineByte^[n] m).accumulator = m.accumulator := by
  refine iterate_observe accumulator (fun m => ?_) n m
  rw [accumulator, accumulator_examineByte, Value.toByte_ofByte]

theorem carry_iterate_examineByte : (examineByte^[n] m).flags.carry = m.flags.carry := by
  refine iterate_observe (·.flags.carry) (fun m => ?_) n m
  rw [flags_examineByte]
  rfl

private theorem more_iterate_examineByte : (((examineByte^[n] m).pair .bc).toWord != 1) =
    ((m.pair .bc).toWord - BitVec.ofNat 16 (n + 1) != 0) := by
  rw [counter_iterate_examineByte, Bool.eq_iff_iff, bne_iff_ne, bne_iff_ne]
  bv_omega

/-- The flags of a byte searched after others. -/
theorem flagsOfSearch_iterate_examineByte : (examineByte^[n] m).flagsOfSearch =
    m.flags.afterSearch m.accumulator (m.blockByte n)
      ((m.pair .bc).toWord - BitVec.ofNat 16 (n + 1) != 0) := by
  rw [flagsOfSearch, Flags.afterSearch, accumulator_iterate_examineByte,
    examineByte_readsOn.byteAtHl_iterate, more_iterate_examineByte, carry_iterate_examineByte]
  rfl

theorem goesOn_iterate_succ_examineByte : BlockForm.search.goesOn (examineByte^[n + 1] m) =
    ((m.pair .bc).toWord - BitVec.ofNat 16 (n + 1) != 0 && m.accumulator != m.blockByte n) := by
  rw [Function.iterate_succ_apply', BlockForm.goesOn_examineByte, more_iterate_examineByte,
    accumulator_iterate_examineByte, examineByte_readsOn.byteAtHl_iterate]

theorem blockLength_eq : m.blockLength = countdown (m.pair .bc).toWord := rfl

theorem blockLength_pos : 0 < m.blockLength := countdown_pos _

/-- The number of bytes that a search looks at: it ends with the first byte that equals the
accumulator, or else with the block. -/
structure SearchEnds : Prop where
  pos : 0 < n
  le_blockLength : n ≤ m.blockLength
  ne_of_lt : ∀ k, k + 1 < n → m.blockByte k ≠ m.accumulator
  last : m.blockByte (n - 1) = m.accumulator ∨ n = m.blockLength

variable {m n}

theorem SearchEnds.le {k : Nat} (h : m.SearchEnds n) (h' : m.SearchEnds k) : n ≤ k := by
  have pos := h'.pos
  have bound := h.le_blockLength
  rcases h'.last with found | all
  · by_contra longer
    exact h.ne_of_lt (k - 1) (by omega) found
  · omega

theorem SearchEnds.unique {k : Nat} (h : m.SearchEnds n) (h' : m.SearchEnds k) : n = k :=
  Nat.le_antisymm (h.le h') (h'.le h)

variable (m) in
theorem exists_searchEnds : ∃ n, m.SearchEnds n := by
  -- the least number of bytes before one that ends the search, be it found or the last
  have ends : ∃ k, m.blockByte k = m.accumulator ∨ k + 1 = m.blockLength :=
    ⟨m.blockLength - 1, .inr (Nat.sub_add_cancel m.blockLength_pos)⟩
  have bound : Nat.find ends ≤ m.blockLength - 1 :=
    Nat.find_min' ends (.inr (Nat.sub_add_cancel m.blockLength_pos))
  have pos := m.blockLength_pos
  refine ⟨Nat.find ends + 1, Nat.succ_pos _, by omega, fun k hk same => ?_, Nat.find_spec ends⟩
  exact Nat.find_min ends (Nat.lt_of_succ_lt_succ hk) (.inl same)

/-- The search goes on up to the byte that it ends with. -/
theorem SearchEnds.goesOn (h : m.SearchEnds (n + 1)) {i : Nat} (hi : i < n) :
    BlockForm.search.goesOn (examineByte^[i + 1] m) = true := by
  have bound := h.le_blockLength
  have counter : (m.pair .bc).toWord - BitVec.ofNat 16 (i + 1) ≠ 0 := by
    rw [ne_eq, sub_ofNat_succ_eq_zero_iff _ (by rw [← blockLength_eq]; omega), ← blockLength_eq]
    omega
  rw [goesOn_iterate_succ_examineByte, Bool.and_eq_true, bne_iff_ne, bne_iff_ne]
  exact ⟨counter, (h.ne_of_lt i (Nat.succ_lt_succ hi)).symm⟩

theorem SearchEnds.exhausted (h : m.SearchEnds (n + 1)) :
    BlockForm.search.goesOn (examineByte^[n + 1] m) = false := by
  rw [goesOn_iterate_succ_examineByte, Bool.and_eq_false_iff, bne_eq_false_iff_eq,
    bne_eq_false_iff_eq, sub_ofNat_succ_eq_zero_iff _ h.le_blockLength, ← blockLength_eq]
  exact h.last.symm.imp_right Eq.symm

end Machine

/-- What a search that has looked at a number of bytes has made of a machine. -/
structure Machine.Searched (n : Nat) (m m' : Machine) : Prop extends Machine.BlockRead n m m' where
  counter : m'.HoldsWord .bc ((m.pair .bc).toWord - BitVec.ofNat 16 n)
  accumulator : m'.reg .a = m.reg .a
  outputs : m'.outputs = m.outputs
  /-- Parity shows that the counter has not run out, the carry stays, and the last byte compared with
  the accumulator gives all other flags. -/
  flags : m'.reg .f = .ofByte ({
    sign := (m.accumulator - m.blockByte (n - 1)).msb
    zero := m.accumulator == m.blockByte (n - 1)
    bit5 := (m.blockByte (n - 1)).getLsbD 5
    half := m.accumulator.toNat % 16 < (m.blockByte (n - 1)).toNat % 16
    bit3 := (m.blockByte (n - 1)).getLsbD 3
    parity := (m'.pair .bc).toWord != 0
    negative := true
    carry := m.flags.carry } : Flags).toByte
  get_of_not_mem : ∀ name ∉ searchTargets, name ≠ "tstates" → m'.get name = m.get name

theorem Machine.searched_iterate {m : Machine} (hm : m.ByteRegisters) (n : Nat) :
    m.Searched (n + 1) ((examineByte^[n + 1] m).spend (5 * BitVec.ofNat 32 n)) where
  toBlockRead := examineByte_readsOn.blockRead_iterate n m
  counter := by
    rw [← counter_iterate_examineByte, Function.iterate_succ_apply',
      (counter_examineByte _).toWord_pair]
    exact (counter_examineByte _).set_of_ne _ (by decide) (by decide)
  accumulator := by
    rw [reg_spend, Function.iterate_succ_apply', accumulator_examineByte,
      accumulator_iterate_examineByte]
    exact (hm.reg_eq .a).symm
  outputs := iterate_observe Machine.outputs outputs_examineByte (n + 1) m
  flags := by
    rw [pair_spend, counter_iterate_examineByte, reg_spend, Function.iterate_succ_apply',
      reg_f_examineByte, flagsOfSearch_iterate_examineByte, Flags.afterSearch_eq]
    rfl
  get_of_not_mem name h ht := by
    rw [get_spend_of_ne _ _ ht.symm]
    exact iterate_observe (·.get name) (fun m => m.get_examineByte_of_not_mem h) (n + 1) m

namespace Machine

/-- A search, run again and again while it ends early, takes as many runs as it looks at bytes. -/
theorem runRepeatedly_search (policy : Policy) (ops : Operands) :
    ∃ p, Instruction.cpir.program policy ops = .ok p ∧ ∀ m : Machine, m.ByteRegisters →
      ∃ n m', m.SearchEnds n ∧
        (∀ more, n ≤ more + 1 → p.runRepeatedly 0 more m = .ok (.continued, n) m') ∧
        m.Searched n m' := by
  obtain ⟨p, accepted, run⟩ := BlockForm.search.exists_repeating ops policy
  refine ⟨p, accepted, fun m hm => ?_⟩
  obtain ⟨_ | n, ends⟩ := m.exists_searchEnds
  · exact absurd ends.pos (Nat.lt_irrefl 0)
  · refine ⟨n + 1, _, ends, fun more hmore => ?_, m.searched_iterate hm n⟩
    rw [BlockForm.runRepeatedly_repeating run (fun i hi => ends.goesOn hi) ends.exhausted 0 more
      (Nat.le_of_succ_le_succ hmore), Nat.zero_add]
    rfl

/-- A search of all of memory for a byte that is nowhere. -/
theorem runRepeatedly_search_missing :
    (blank.setReg .a 1).ByteRegisters ∧ ∃ p m', Instruction.cpir.program {} {} = .ok p ∧
      p.runRepeatedly 0 65535 (blank.setReg .a 1) = .ok (.continued, 65536) m' ∧
      m'.flags.zero = false := by
  have bytes : (blank.setReg .a 1).ByteRegisters :=
    blank_byteRegisters.set fun _ _ => by decide
  have accumulator : (blank.setReg .a 1).accumulator = 1 := by
    rw [Machine.accumulator, reg_setReg_self]
    rfl
  have memory : (blank.setReg .a 1).memory = .blank := rfl
  have counter : ((blank.setReg .a 1).pair .bc).toWord = 0 := by
    rw [setReg_eq_set, pair_set_of_ne _ _ (by decide) (by decide), pair, reg_blank, reg_blank]
    rfl
  have zero (k : Nat) : (blank.setReg .a 1).blockByte k = 0 := by
    rw [blockByte, memory, Memory.get_blank]
  have length : (blank.setReg .a 1).blockLength = 65536 := by
    rw [blockLength, if_pos counter]
  have ends : (blank.setReg .a 1).SearchEnds 65536 := by
    refine ⟨by decide, Nat.le_of_eq length.symm, fun k _ => ?_, .inr length.symm⟩
    rw [zero, accumulator]
    decide
  obtain ⟨p, accepted, runs⟩ := runRepeatedly_search {} {}
  obtain ⟨n, m', h, run, searched⟩ := runs _ bytes
  obtain rfl := h.unique ends
  refine ⟨bytes, p, m', accepted, run 65535 (le_refl _), ?_⟩
  rw [Machine.flags, searched.flags, Value.toByte_ofByte, Flags.ofByte_toByte, zero, accumulator]
  rfl

end Machine

namespace Machine

variable (m : Machine) (n : Nat)

theorem counter_iterate_outputByte :
    ((outputByte^[n] m).reg .b).toByte = (m.reg .b).toByte - BitVec.ofNat 8 n := by
  induction n with
  | zero => simp
  | succ n ih =>
    rw [Function.iterate_succ_apply', counter_outputByte, Value.toByte_ofByte, ih, BitVec.sub_sub,
      BitVec.ofNat_add]
    rfl

theorem port_iterate_outputByte : (outputByte^[n] m).reg .c = m.reg .c :=
  iterate_observe (·.reg .c) (fun m => m.get_outputByte_of_not_mem (by decide)) n m

theorem outputs_iterate_outputByte : (outputByte^[n] m).outputs.toList = m.outputs.toList ++
    (List.range n).map fun k => ((m.reg .c).toByte, m.blockByte k) := by
  induction n with
  | zero => simp
  | succ n ih =>
    rw [Function.iterate_succ_apply', outputs_outputByte, Array.toList_push, ih,
      port_iterate_outputByte, byteAtHl, outputByte_readsOn.byteAtHl_iterate, List.range_succ,
      List.map_append, List.append_assoc]
    rfl

/-- The number of bytes that an output of a block sends. -/
def outputLength : Nat := countdown (m.reg .b).toByte

theorem outputLength_pos : 0 < m.outputLength := countdown_pos _

theorem goesOn_iterate_succ_outputByte {n : Nat} (h : n < m.outputLength) :
    BlockForm.output.goesOn (outputByte^[n + 1] m) = (n + 1 != m.outputLength) := by
  have counter := counter_iterate_outputByte m (n + 1)
  rw [Function.iterate_succ_apply', counter_outputByte, Value.toByte_ofByte] at counter
  rw [Function.iterate_succ_apply', BlockForm.goesOn_outputByte, counter, Bool.eq_iff_iff,
    bne_iff_ne, bne_iff_ne, ne_eq, sub_ofNat_succ_eq_zero_iff _ h, outputLength]

end Machine

/-- What an output of a whole block, a number of bytes long, has made of a machine. -/
structure Machine.Sent (n : Nat) (m m' : Machine) : Prop extends Machine.BlockRead n m m' where
  outputs : m'.outputs.toList = m.outputs.toList ++
    (List.range n).map fun k => ((m.reg .c).toByte, m.blockByte k)
  counter : m'.reg .b = 0
  port : m'.reg .c = m.reg .c
  /-- Half carry and carry tell whether the last byte and the low half of the pointer exceed a byte
  together. -/
  flags : m'.reg .f = .ofByte ({
    zero := true
    half := 255 < (m'.reg .l).toNat + (m.blockByte (n - 1)).toNat
    negative := (m.blockByte (n - 1)).msb
    carry := 255 < (m'.reg .l).toNat + (m.blockByte (n - 1)).toNat } : Flags).toByte
  get_of_not_mem : ∀ name ∉ outputTargets, name ≠ "tstates" → m'.get name = m.get name

theorem Machine.sent_iterate {m : Machine} {n : Nat} (h : n + 1 = m.outputLength) :
    m.Sent (n + 1) ((outputByte^[n + 1] m).spend (5 * BitVec.ofNat 32 n)) where
  toBlockRead := outputByte_readsOn.blockRead_iterate n m
  outputs := m.outputs_iterate_outputByte (n + 1)
  counter := by
    have last := m.goesOn_iterate_succ_outputByte (n := n) (by omega)
    rw [h, bne_self_eq_false, BlockForm.goesOn, bne_eq_false_iff_eq] at last
    rw [reg_spend, h, last]
  port := by rw [reg_spend, port_iterate_outputByte]
  flags := by
    have last : (m.reg .b).toByte - BitVec.ofNat 8 n = 1 := by
      have exhausted := (sub_ofNat_succ_eq_zero_iff _ (Nat.lt_of_succ_le h.le)).mpr h
      bv_omega
    have low : ((outputByte (outputByte^[n] m)).reg .l).toNat =
        ((outputByte^[n] m).pair .hl + 1).toWord.low.toNat := by
      rw [low_outputByte]
      bv_omega
    rw [reg_spend, reg_spend, Function.iterate_succ_apply', reg_f_outputByte,
      counter_iterate_outputByte, last, byteAtHl, outputByte_readsOn.byteAtHl_iterate,
      Flags.afterOutput_one, low]
    rfl
  get_of_not_mem name hn ht := by
    rw [get_spend_of_ne _ _ ht.symm]
    exact iterate_observe (·.get name) (fun m => m.get_outputByte_of_not_mem hn) (n + 1) m

/-- An output of a block, run again and again while it ends early, takes as many runs as there are
bytes to send. -/
theorem Machine.runRepeatedly_output (policy : Policy) (ops : Operands) :
    ∃ p, Instruction.otir.program policy ops = .ok p ∧ ∀ m : Machine, ∃ m',
      (∀ more, m.outputLength ≤ more + 1 →
        p.runRepeatedly 0 more m = .ok (.continued, m.outputLength) m') ∧
      m.Sent m.outputLength m' := by
  obtain ⟨p, accepted, run⟩ := BlockForm.output.exists_repeating ops policy
  refine ⟨p, accepted, fun m => ?_⟩
  obtain ⟨n, hn⟩ := Nat.exists_eq_add_of_le' m.outputLength_pos
  have on (i : Nat) (hi : i < n) : BlockForm.output.goesOn (outputByte^[i + 1] m) = true := by
    rw [m.goesOn_iterate_succ_outputByte (by omega), bne_iff_ne]
    omega
  have exhausted : BlockForm.output.goesOn (outputByte^[n + 1] m) = false := by
    rw [m.goesOn_iterate_succ_outputByte (by omega), hn, bne_self_eq_false]
  refine ⟨_, fun more hmore => ?_, hn ▸ m.sent_iterate hn.symm⟩
  rw [BlockForm.runRepeatedly_repeating run on exhausted 0 more (by omega), Nat.zero_add, hn]
  rfl

end Z80Effects
