import Z80Effects.Proofs.FlagBits
import Z80Effects.Proofs.InstructionRuns

/-!
# Block transfers

A repeating transfer copies one byte in each run and asks to be run again while the counter is not
exhausted. `transferByte` is the step of a single run. By induction on the counter, the runs together
copy a block byte by byte, with whatever overlap and wrap there is between source and destination.
-/
namespace Z80Effects

open Effect

inductive Direction
  | up | down

namespace Direction

/-- The address a number of bytes further on. -/
def move : Direction → Word → Nat → Word
  | up, address, n => address + BitVec.ofNat 16 n
  | down, address, n => address - BitVec.ofNat 16 n

def instruction : Direction → Instruction
  | up => .ldir
  | down => .lddr

def stepDe : Direction → Primitive
  | up => .incDe
  | down => .decDe

def stepHl : Direction → Primitive
  | up => .incHl
  | down => .decHl

def next : Direction → Value → Value
  | up, v => v + 1
  | down, v => v - 1

theorem move_zero (d : Direction) (address : Word) : d.move address 0 = address := by
  cases d <;> simp [move]

theorem move_move (d : Direction) (address : Word) (n k : Nat) :
    d.move (d.move address n) k = d.move address (n + k) := by
  cases d with
  | up => simp [move, BitVec.ofNat_add, BitVec.add_assoc]
  | down => simp [move, BitVec.ofNat_add, BitVec.sub_sub]

theorem toWord_next (d : Direction) (v : Value) : (d.next v).toWord = d.move v.toWord 1 := by
  cases d with
  | up => simp [next, move, BitVec.setWidth_add]
  | down =>
    simp [next, move, BitVec.sub_eq_add_neg, BitVec.setWidth_add]

end Direction

/-- The memory after a number of bytes have been copied one after the other. -/
def Memory.copy (d : Direction) (src dst : Word) : Nat → Memory → Memory
  | 0, memory => memory
  | n + 1, memory => (memory.set dst (memory.get src)).copy d (d.move src 1) (d.move dst 1) n

namespace Memory

/-- Only the destination is written. -/
theorem get_copy_of_ne (d : Direction) (n : Nat) (src dst address : Word) (memory : Memory)
    (h : ∀ i < n, d.move dst i ≠ address) :
    (memory.copy d src dst n).get address = memory.get address := by
  induction n generalizing src dst memory with
  | zero => rfl
  | succ n ih =>
    have first : dst ≠ address := by simpa [Direction.move_zero] using h 0 (Nat.succ_pos n)
    have rest : ∀ i < n, d.move (d.move dst 1) i ≠ address := by
      intro i hi
      rw [d.move_move, Nat.add_comm]
      exact h (i + 1) (Nat.succ_lt_succ hi)
    rw [copy, ih _ _ _ rest, get_set, if_neg first]

/-- With the destination one byte ahead of the source, the block is filled with the first byte. -/
theorem get_copy_fill (d : Direction) (n : Nat) (hn : n < 65536) (src : Word) (memory : Memory)
    (k : Nat) (hk : k ≤ n) :
    (memory.copy d src (d.move src 1) n).get (d.move src k) = memory.get src := by
  induction n generalizing src memory k with
  | zero =>
    obtain rfl : k = 0 := by omega
    rw [d.move_zero]
    rfl
  | succ n ih =>
    cases k with
    | zero =>
      rw [d.move_zero]
      refine get_copy_of_ne d (n + 1) src (d.move src 1) src memory fun i hi eq => ?_
      rw [d.move_move] at eq
      cases d <;> simp only [Direction.move] at eq <;> bv_omega
    | succ k =>
      -- the rest of the block starts at the byte just written, which equals the first one
      have filled := ih (by omega) (d.move src 1) (memory.set (d.move src 1) (memory.get src)) k
        (by omega)
      rw [copy, Nat.add_comm k 1, ← d.move_move src, filled, get_set_self]

end Memory

/-- The flags after a byte has been transferred: `sum` is that byte plus the accumulator, and `more`
says that the counter has not run out. -/
def Flags.afterTransfer (f : Flags) (sum : Byte) (more : Bool) : Flags :=
  { f with bit5 := sum.getLsbD 1, half := false, bit3 := sum.getLsbD 3, parity := more
           negative := false }

namespace Machine

/-- One byte goes from `(HL)` to `(DE)`, and the counter and the pointers step. -/
def moveByte (d : Direction) (m : Machine) : Machine :=
  let byte := m.memory.get (m.pair .hl).toWord
  (((((m.read (m.pair .hl).toWord).2.set "temp" (.ofByte byte)).write (m.pair .de).toWord
    byte).setPair .bc (m.pair .bc - 1)).setPair .de (d.next (m.pair .de))).setPair .hl
      (d.next (m.pair .hl))

def transferSum (m : Machine) : Byte := m.memory.get (m.pair .hl).toWord + m.accumulator

def transferByte (d : Direction) (m : Machine) : Machine :=
  ((m.moveByte d).set "temp" (.ofByte m.transferSum)).setReg .f
    (.ofByte (m.flags.afterTransfer m.transferSum ((m.pair .bc).toWord != 1)).toByte)

end Machine

private theorem transferFlags_value (v : Value) (sum : Byte) (more : Bool) :
    (v &&& 193#32) ||| (if more = true then Value.ofByte Flag.parity.mask else 0#32) |||
      (Value.ofByte sum &&& .ofByte Flag.bit3.mask) |||
      (if Value.ofByte sum &&& .ofByte Flag.negative.mask ≠ 0 then 32#32 else 0#32) =
    .ofByte ((Flags.ofByte v.toByte).afterTransfer sum more).toByte := by
  simp only [Flag.and_mask_ne_zero_iff]
  simp only [Flag.and_mask, Value.toByte_ofByte]
  rw [show 193#32 = Value.ofByte 0xC1 from rfl, v.and_setWidth, Flags.and_signZeroCarry]
  simp only [Flags.get_ofByte, Flag.position, Flags.afterTransfer]
  generalize Flags.ofByte v.toByte = f
  generalize sum.getLsbD 3 = x
  generalize sum.getLsbD 1 = y
  obtain ⟨s, z, -, -, -, -, -, c⟩ := f
  cases s <;> cases z <;> cases c <;> cases x <;> cases y <;> cases more <;>
    simp only [if_true, if_false, Bool.false_eq_true] <;> rfl

variable (holes : Hole → Value) (m : Machine)

theorem outcome_transferFlags {sum : Byte} (hs : m.get "temp" = .ofByte sum) {counter : Word}
    (hc : m.pair .bc = .ofWord counter) : transferFlags.outcome holes m =
      (.ofByte (m.flags.afterTransfer sum (counter != 0)).toByte, m) := by
  have more : Value.ofWord counter ≠ 0 ↔ (counter != 0) = true := by
    rw [bne_iff_ne]
    bv_omega
  simp only [transferFlags, temp, pairValue, Expr.outcome_or, Expr.outcome_and,
    Expr.outcome_register, Expr.outcome_ofNat, Expr.outcome_conditional, Expr.outcome_call,
    Expr.outcomeList_nil, Expr.outcome_flagMask, Expr.outcome_var, Primitive.apply,
    Expr.ite_outcome, hs, hc, more]
  rw [transferFlags_value, Machine.flags]

private theorem outcome_moveByte (d : Direction) (rest : Program) :
    Stmt.outcomeList holes (.set temp byteAtHl :: writeByte (pairValue .de) temp ::
      perform .decBc [] :: perform d.stepDe [] :: perform d.stepHl [] :: rest) m =
        Stmt.outcomeList holes rest (m.moveByte d) := by
  cases d <;>
    simp [Stmt.set, temp, byteAtHl, readByte, pairValue, writeByte, perform, Primitive.apply,
      AssignOp.apply, Direction.stepDe, Direction.stepHl, Machine.moveByte, Direction.next,
      Machine.pair_set_temp, Machine.pair_setPair_of_ne]

private theorem get_moveByte_of_not_mem (d : Direction) {name : String}
    (h : name ∉ ["b", "c", "d", "e", "h", "l", "temp"]) : (m.moveByte d).get name = m.get name := by
  simp only [List.mem_cons, List.not_mem_nil, or_false, not_or] at h
  obtain ⟨hb, hc, hd, he, hh, hl, ht⟩ := h
  simp [Machine.moveByte, Machine.setPair_eq_set, Machine.get_set, RegisterPair.high,
    RegisterPair.low, Register.name, Ne.symm hb, Ne.symm hc, Ne.symm hd, Ne.symm he, Ne.symm hh,
    Ne.symm hl, Ne.symm ht]

private theorem temp_moveByte (d : Direction) : (m.moveByte d).get "temp" =
    .ofByte (m.memory.get (m.pair .hl).toWord) := by
  simp [Machine.moveByte, Machine.setPair_eq_set, Machine.get_set, RegisterPair.high,
    RegisterPair.low, Register.name]

private theorem Machine.counter_moveByte (d : Direction) :
    (m.moveByte d).HoldsWord .bc ((m.pair .bc).toWord - 1) := by
  have next : (m.pair .bc - 1).toWord = (m.pair .bc).toWord - 1 := Direction.down.toWord_next _
  have moved : (m.moveByte d).HoldsWord .bc (m.pair .bc - 1).toWord :=
    ((Machine.holdsWord_setPair _ .bc _).setPair_of_ne _ (by decide)).setPair_of_ne _ (by decide)
  rwa [next] at moved

private theorem sum_of_byte (b : Byte) (v : Value) :
    (Value.ofByte b + v) &&& 255#32 = .ofByte (b + v.toByte) := by
  rw [Value.and_byteMask, Value.toByte, BitVec.setWidth_add _ _ (by decide),
    BitVec.setWidth_setWidth_of_le _ (by decide), BitVec.setWidth_eq]

theorem outcome_transfer (d : Direction) : Stmt.outcomeList holes (transfer d.stepDe d.stepHl) m =
    (.continued, m.transferByte d) := by
  have flags : ∀ v, ((m.moveByte d).set "temp" v).reg .f = m.reg .f := by
    intro v
    rw [Machine.reg_set_of_ne _ _ (by decide)]
    exact get_moveByte_of_not_mem m d (by decide)
  have accumulator : (m.moveByte d).reg .a = m.reg .a := get_moveByte_of_not_mem m d (by decide)
  have counter : ∀ v, ((m.moveByte d).set "temp" v).pair .bc =
      .ofWord ((m.pair .bc).toWord - 1) := by
    intro v
    rw [Machine.pair_set_temp, (m.counter_moveByte d).pair_eq]
  have more : ((m.pair .bc).toWord - 1 != 0) = ((m.pair .bc).toWord != 1) := by
    rw [Bool.eq_iff_iff, bne_iff_ne, bne_iff_ne]
    bv_omega
  rw [transfer, outcome_moveByte]
  simp only [Stmt.set, temp, Stmt.outcomeList_cons, Stmt.outcomeList_nil, Stmt.outcome_assign_var,
    Stmt.outcome_assign_register, Flow.andThen_continued, Expr.outcome_and, Expr.outcome_add,
    Expr.outcome_var, Expr.outcome_register, Expr.outcome_ofNat, AssignOp.apply, temp_moveByte,
    sum_of_byte, accumulator]
  rw [outcome_transferFlags holes _ (Machine.get_set_self _ _ _) (counter _), more]
  simp only [Machine.transferByte, Machine.transferSum, Machine.accumulator, Machine.flags, flags]

namespace Machine

variable (d : Direction)

def transferTargets : List String := ["b", "c", "d", "e", "h", "l", "f", "temp"]

theorem memory_transferByte : (m.transferByte d).memory =
    m.memory.set (m.pair .de).toWord (m.memory.get (m.pair .hl).toWord) := by
  simp [transferByte, moveByte, setReg_eq_set]

theorem outputs_transferByte : (m.transferByte d).outputs = m.outputs := by
  simp [transferByte, moveByte, setReg_eq_set]

private theorem holdsWord_transferByte {p : RegisterPair} {w : Word} (hp : ¬ p = .af)
    (h : (m.moveByte d).HoldsWord p w) : (m.transferByte d).HoldsWord p w := by
  rw [transferByte, setReg_eq_set]
  refine (h.set_of_ne _ ?_ ?_).set_of_ne _ ?_ ?_ <;> revert hp <;> cases p <;> decide

theorem counter_transferByte : (m.transferByte d).HoldsWord .bc ((m.pair .bc).toWord - 1) :=
  m.holdsWord_transferByte d (by decide) (m.counter_moveByte d)

theorem destination_transferByte :
    (m.transferByte d).HoldsWord .de (d.move (m.pair .de).toWord 1) := by
  have moved : (m.moveByte d).HoldsWord .de (d.next (m.pair .de)).toWord :=
    (holdsWord_setPair _ .de _).setPair_of_ne _ (by decide)
  rw [d.toWord_next] at moved
  exact m.holdsWord_transferByte d (by decide) moved

theorem source_transferByte :
    (m.transferByte d).HoldsWord .hl (d.move (m.pair .hl).toWord 1) := by
  have moved : (m.moveByte d).HoldsWord .hl (d.next (m.pair .hl)).toWord :=
    holdsWord_setPair _ .hl _
  rw [d.toWord_next] at moved
  exact m.holdsWord_transferByte d (by decide) moved

theorem flags_transferByte : (m.transferByte d).reg .f =
    .ofByte (m.flags.afterTransfer m.transferSum ((m.pair .bc).toWord != 1)).toByte := by
  rw [transferByte, reg_setReg_self]

theorem get_transferByte_of_not_mem {name : String}
    (h : name ∉ transferTargets) : (m.transferByte d).get name = m.get name := by
  simp only [transferTargets, List.mem_cons, List.not_mem_nil, or_false, not_or] at h
  obtain ⟨hb, hc, hd, he, hh, hl, hf, ht⟩ := h
  have flags : ¬ Register.f.name = name := Ne.symm hf
  rw [transferByte, setReg_eq_set, get_set_of_ne _ _ flags, get_set_of_ne _ _ (Ne.symm ht)]
  exact get_moveByte_of_not_mem m d (by simp [hb, hc, hd, he, hh, hl, ht])

end Machine

namespace Direction

def program : Direction → Program
  | up => ldir
  | down => lddr

theorem program_eq (d : Direction) : d.program =
    transfer d.stepDe d.stepHl ++ [repeatWhile ((pairValue .bc).differs 0)] := by
  cases d <;> rfl

/-- The instruction is accepted with any operands and choices. -/
theorem exists_program (d : Direction) (policy : Policy) (ops : Operands) :
    ∃ p, d.instruction.program policy ops = .ok p ∧
      ∀ m, p.run m = .ok (d.program.outcome ops m).1 (d.program.outcome ops m).2 := by
  have effect : d.instruction.effect policy = .ok d.program := by
    cases d <;> rfl
  exact Instruction.exists_program_of_effect effect ops

variable (d : Direction) (ops : Operands)

theorem outcome_program : d.program.outcome ops m =
    if (m.pair .bc).toWord = 1 then (.continued, m.transferByte d)
    else (.returned, (m.transferByte d).set "tstates" (m.get "tstates" - 5)) := by
  have exhausted : (m.transferByte d).pair .bc = 0#32 ↔ (m.pair .bc).toWord = 1 := by
    rw [(m.counter_transferByte d).pair_eq]
    bv_omega
  have budget : (m.transferByte d).get "tstates" = m.get "tstates" :=
    m.get_transferByte_of_not_mem d (by decide)
  rw [program_eq, Program.outcome, Stmt.outcomeList_append, outcome_transfer]
  simp only [repeatWhile, pairValue, spend, tstates, Flow.andThen_continued,
    Stmt.outcomeList_cons, Stmt.outcomeList_nil, Stmt.outcome_whenever, Expr.outcome_differs,
    Expr.outcome_call, Expr.outcomeList_nil, Expr.outcome_ofNat, Primitive.apply,
    Stmt.outcome_assign_var, Stmt.outcome_done, AssignOp.apply, budget, ne_eq,
    Value.ofBool_eq_zero_iff, bne_eq_false_iff_eq, exhausted, ite_not]
  by_cases last : (m.pair .bc).toWord = 1
  · rw [if_pos last, if_pos last, Flow.andThen_continued]
  · rw [if_neg last, if_neg last, Flow.andThen_returned, Flow.andThen_returned]
    rfl

end Direction

namespace Machine

/-- What a transfer of a whole block, a number of bytes long, has made of a machine. -/
structure Transferred (d : Direction) (n : Nat) (m m' : Machine) : Prop where
  memory : m'.memory = m.memory.copy d (m.pair .hl).toWord (m.pair .de).toWord n
  counter : m'.HoldsWord .bc 0
  destination : m'.HoldsWord .de (d.move (m.pair .de).toWord n)
  source : m'.HoldsWord .hl (d.move (m.pair .hl).toWord n)
  /-- The undocumented flags come from the byte moved last and the accumulator. -/
  flags : m'.reg .f = .ofByte (m.flags.afterTransfer
    (m'.memory.get (d.move (m.pair .de).toWord (n - 1)) + m.accumulator) false).toByte
  tstates : m'.get "tstates" = m.get "tstates" - 5 * BitVec.ofNat 32 (n - 1)
  get_of_not_mem : ∀ name ∉ transferTargets, name ≠ "tstates" → m'.get name = m.get name
  outputs : m'.outputs = m.outputs

variable {d : Direction} {m m' : Machine} {n : Nat}

/-- The last byte. -/
theorem Transferred.one (h : (m.pair .bc).toWord = 1) : m.Transferred d 1 (m.transferByte d) where
  memory := m.memory_transferByte d
  counter := by
    have counter := m.counter_transferByte d
    rwa [h] at counter
  destination := m.destination_transferByte d
  source := m.source_transferByte d
  flags := by
    rw [m.flags_transferByte d, m.memory_transferByte d, d.move_zero, Memory.get_set_self, h]
    rfl
  tstates := by
    rw [m.get_transferByte_of_not_mem d (by decide)]
    simp
  get_of_not_mem name hn _ := m.get_transferByte_of_not_mem d hn
  outputs := m.outputs_transferByte d

/-- A byte that is not the last, and then the rest of the block. -/
theorem Transferred.cons (h : ((m.transferByte d).set "tstates" (m.get "tstates" - 5)).Transferred
    d (n + 1) m') : m.Transferred d (n + 2) m' := by
  have source : (((m.transferByte d).set "tstates" (m.get "tstates" - 5)).pair .hl).toWord =
      d.move (m.pair .hl).toWord 1 :=
    ((m.source_transferByte d).set_of_ne _ (by decide) (by decide)).toWord_pair
  have destination : (((m.transferByte d).set "tstates" (m.get "tstates" - 5)).pair .de).toWord =
      d.move (m.pair .de).toWord 1 :=
    ((m.destination_transferByte d).set_of_ne _ (by decide) (by decide)).toWord_pair
  have accumulator : ((m.transferByte d).set "tstates" (m.get "tstates" - 5)).accumulator =
      m.accumulator := by
    rw [accumulator, reg_set_of_ne _ _ (by decide), reg_eq_get,
      m.get_transferByte_of_not_mem d (by decide), ← reg_eq_get, accumulator]
  have flags : ((m.transferByte d).set "tstates" (m.get "tstates" - 5)).flags =
      m.flags.afterTransfer m.transferSum ((m.pair .bc).toWord != 1) := by
    rw [Machine.flags, reg_set_of_ne _ _ (by decide), m.flags_transferByte d,
      Value.toByte_ofByte, Flags.ofByte_toByte]
  obtain ⟨hmemory, hcounter, hdestination, hsource, hflags, htstates, hget, houtputs⟩ := h
  rw [destination, d.move_move, Nat.add_comm 1] at hdestination
  rw [source, d.move_move, Nat.add_comm 1] at hsource
  rw [memory_set, memory_transferByte, source, destination] at hmemory
  rw [outputs_set, outputs_transferByte] at houtputs
  rw [get_set_self, Nat.add_sub_cancel] at htstates
  rw [flags, destination, accumulator, d.move_move, Nat.add_sub_cancel, Nat.add_comm 1] at hflags
  refine ⟨hmemory, hcounter, hdestination, hsource, hflags, ?_, ?_, houtputs⟩
  · rw [htstates, show n + 2 - 1 = 1 + n by omega, BitVec.ofNat_add, BitVec.mul_add,
      ← BitVec.sub_sub]
    rfl
  · intro name hn ht
    rw [hget name hn ht, get_set_of_ne _ _ ht.symm, m.get_transferByte_of_not_mem d hn]

end Machine

/-- The program moves a block by as many runs as there are bytes, each but the last one ending
early. The counter is one at the start of the last run. -/
private theorem exists_transferred {d : Direction} {ops : Operands} {p : Program}
    (hp : ∀ m, p.run m = .ok (d.program.outcome ops m).1 (d.program.outcome ops m).2) (n : Nat)
    (hn : n < 65536) (hm : (m.pair .bc).toWord = BitVec.ofNat 16 (n + 1)) (count : Nat) :
    ∃ m', (∀ more, n ≤ more → p.runRepeatedly count more m = .ok (.continued, count + (n + 1)) m') ∧
      m.Transferred d (n + 1) m' := by
  induction n generalizing m count with
  | zero =>
    have run := hp m
    have last : (m.pair .bc).toWord = 1 := hm
    rw [d.outcome_program m ops, if_pos last] at run
    exact ⟨_, fun more _ => Program.runRepeatedly_of_continued run count more, .one last⟩
  | succ n ih =>
    have run := hp m
    have more : (m.pair .bc).toWord ≠ 1 := by
      rw [hm]
      bv_omega
    rw [d.outcome_program m ops, if_neg more] at run
    have counter : (((m.transferByte d).set "tstates" (m.get "tstates" - 5)).pair .bc).toWord =
        BitVec.ofNat 16 (n + 1) := by
      rw [((m.counter_transferByte d).set_of_ne _ (by decide) (by decide)).toWord_pair, hm]
      bv_omega
    obtain ⟨m', rest, moved⟩ := ih _ (by omega) counter (count + 1)
    refine ⟨m', fun more hmore => ?_, moved.cons⟩
    obtain ⟨more, rfl⟩ := Nat.exists_eq_add_of_le' hmore
    rw [← Nat.add_assoc, Program.runRepeatedly_of_returned run, rest _ (by omega),
      show count + 1 + (n + 1) = count + (n + 1 + 1) by omega]

/-- The number of bytes in the block that a machine is set up to transfer. -/
def Machine.blockLength (m : Machine) : Nat :=
  if (m.pair .bc).toWord = 0 then 65536 else (m.pair .bc).toWord.toNat

/-- A repeating transfer, run again and again while it ends early, moves the whole block in as many
runs as it has bytes, whatever its place. With the destination one byte ahead of the source, a block
shorter than memory is filled with its first byte. -/
theorem Direction.runRepeatedly_transfer (d : Direction) (policy : Policy) (ops : Operands) :
    ∃ p, d.instruction.program policy ops = .ok p ∧ ∀ m : Machine, ∃ m',
      (∀ more, m.blockLength ≤ more + 1 →
        p.runRepeatedly 0 more m = .ok (.continued, m.blockLength) m') ∧
      m.Transferred d m.blockLength m' ∧
      ((m.pair .de).toWord = d.move (m.pair .hl).toWord 1 → m.blockLength < 65536 →
        ∀ k ≤ m.blockLength, m'.memory.get (d.move (m.pair .hl).toWord k) =
          m.memory.get (m.pair .hl).toWord) := by
  obtain ⟨p, accepted, run⟩ := d.exists_program policy ops
  refine ⟨p, accepted, fun m => ?_⟩
  have length : ∃ n < 65536, m.blockLength = n + 1 ∧
      (m.pair .bc).toWord = BitVec.ofNat 16 (n + 1) := by
    unfold Machine.blockLength
    split
    · exact ⟨65535, by decide, rfl, by assumption⟩
    · exact ⟨(m.pair .bc).toWord.toNat - 1, by omega, by bv_omega, by bv_omega⟩
  obtain ⟨n, hn, hlength, counter⟩ := length
  obtain ⟨m', runs, moved⟩ := exists_transferred m run n hn counter 0
  rw [hlength]
  refine ⟨m', fun more hmore => ?_, moved, fun ahead short k hk => ?_⟩
  · rw [runs more (by omega), Nat.zero_add]
  · rw [moved.memory, ahead]
    exact Memory.get_copy_fill d (n + 1) short _ _ k hk

end Z80Effects
