import Z80Effects.Proofs.ByteOperands
import Z80Effects.Proofs.InstructionRuns

/-!
# Stores and the loads that answer them

A pair has two instructions that store it at an immediate address, and the stack pointer has one of
a shape of its own. All of them write the low byte at the address and then the high byte after it,
and a load from the address puts the word together again, in whatever register. The end of the
address space is no exception: a word stored at the last address has its high byte at the first.

At a displacement from an index register, loads of a register and stores of one get the displacement
as a signed number. A store of an immediate byte gets both bytes packed into one word and takes the
displacement out of it without its sign. Hence it goes to the same address as the others if the
displacement is not negative, and 256 bytes above that address otherwise.
-/
namespace Z80Effects

open Effect

namespace WordRegister

/-- The instructions that store a word register at an immediate address. -/
def stores : WordRegister → List Instruction
  | .pair p => [.store .direct (.word (.pair p)), .storeWord (.pair p)]
  | .sp => [.storeWord .sp]

/-- The instruction that loads a word register from an immediate address. -/
def load : WordRegister → Instruction
  | .pair p => .loadWord (.pair p) .direct
  | .sp => .loadStackPointer .direct

def names : WordRegister → List String
  | .pair p => [p.high.name, p.low.name]
  | .sp => [stackPointer]

end WordRegister

namespace Machine

/-- One machine is the other after a load of a word register, which may use a temporary. -/
structure Loads (m m' : Machine) (w : WordRegister) (v : Value) : Prop where
  word : m'.word w = v
  get : ∀ name, name ∉ w.names → name ≠ "val" → m'.get name = m.get name
  memory : m'.memory = m.memory
  ports : m'.ports = m.ports
  outputs : m'.outputs = m.outputs
  randomSource : m'.randomSource = m.randomSource

def loadWord (m : Machine) (address : Word) : WordRegister → Machine
  | .pair p => ((m.fetchWord address).set "val" (.ofWord (m.wordAt address))).setPair p
      (.ofWord (m.wordAt address))
  | .sp => (m.fetchWord address).set stackPointer (.ofWord (m.wordAt address))

theorem loads_loadWord (m : Machine) (address : Word) (w : WordRegister) :
    m.Loads (m.loadWord address w) w (.ofWord (m.wordAt address)) := by
  cases w with
  | pair p =>
    refine ⟨?_, fun name outside temporary => ?_, ?_, rfl, rfl, rfl⟩
    · simp [loadWord, word]
    · simp only [WordRegister.names, List.mem_cons, List.not_mem_nil, or_false, not_or]
        at outside
      rw [loadWord, get_setPair_of_ne _ _ (Ne.symm outside.1) (Ne.symm outside.2),
        get_set_of_ne _ _ (Ne.symm temporary), get_fetchWord]
    · rw [loadWord, memory_setPair, memory_set, memory_fetchWord]
  | sp =>
    refine ⟨m.get_set_self _ _, fun name outside _ => ?_, ?_, rfl, rfl, rfl⟩
    · have apart := List.ne_of_not_mem_cons outside
      rw [loadWord, get_set_of_ne _ _ (Ne.symm apart), get_fetchWord]
    · rw [loadWord, memory_set, memory_fetchWord]

end Machine

namespace Effect

variable {ops : Operands} {m : Machine}

theorem outcome_storePair (hm : m.ByteRegisters) (p : RegisterPair) :
    (storePair p).outcome ops m =
      (.continued, m.storeWord ops.value.toWord (m.pair p).toWord) := by
  have half (reg : Register) (b : Byte) (hb : m.reg reg = .ofByte b) (m' : Machine)
      (same : m'.get reg.name = m.get reg.name) :
      (Expr.register reg).outcome ops.resolve m' = (.ofByte b, m') := by
    rw [Expr.outcome_register, m'.reg_eq_get, same, ← m.reg_eq_get, hb]
  have bytes := hm.holdsWord p
  rw [← bytes.toWord_pair] at bytes
  exact outcome_storeBytes (outcome_value ops m) (half _ _ bytes.low m rfl)
    (fun _ => outcome_valueNext ops _) fun _ => half _ _ bytes.high _ (m.get_write ..)

theorem outcome_storeStackPointer (hm : m.StackInRange) :
    Program.outcome [writeByte value (sp &&& 0xFF), writeByte valueNext (sp >>> 8)] ops m =
      (.continued, m.storeWord ops.value.toWord (m.get stackPointer).toWord) := by
  have word (m' : Machine) (same : m'.get stackPointer = m.get stackPointer) :
      sp.outcome ops.resolve m' = (.ofWord (m.get stackPointer).toWord, m') := by
    rw [sp, Expr.outcome_var, same]
    exact congrArg (·, m') hm.eq
  exact outcome_storeBytes (outcome_value ops m) (outcome_lowByte (word m rfl))
    (fun _ => outcome_valueNext ops _) fun _ => outcome_highByte (word _ (m.get_write ..))

end Effect

namespace WordRegister

variable {w : WordRegister} {m : Machine}

theorem runs_store (policy : Policy) (ops : Operands) (hw : w ≠ .pair .af)
    (registers : m.ByteRegisters) (pointer : m.StackInRange) :
    ∀ i ∈ w.stores, i.Runs policy ops m (m.storeWord ops.value.toWord (m.word w).toWord) := by
  intro i hi
  cases w with
  | sp =>
    obtain rfl := List.mem_singleton.mp hi
    exact Instruction.runs_of_outcome rfl (outcome_storeStackPointer pointer)
  | pair p =>
    simp only [stores, List.mem_cons, List.not_mem_nil, or_false] at hi
    have accepted : i.effect policy = .ok (storePair p) := by
      cases p with
      | af => exact absurd rfl hw
      | _ => obtain rfl | rfl := hi <;> rfl
    exact Instruction.runs_of_outcome accepted (outcome_storePair registers p)

theorem runs_load (policy : Policy) (ops : Operands) (hw : w ≠ .pair .af) (m : Machine) :
    w.load.Runs policy ops m (m.loadWord ops.value.toWord w) := by
  have read := outcome_readWord (outcome_value ops m)
  cases w with
  | sp =>
    have accepted : (load .sp).effect policy = .ok [.set Effect.sp (readWord value)] := rfl
    refine Instruction.runs_of_outcome accepted ?_
    rw [Program.outcome, Stmt.outcomeList_cons, Stmt.set, Effect.sp, Stmt.outcome_assign_var, read]
    rfl
  | pair p =>
    have accepted : (load (.pair p)).effect policy = .ok (setPair p (readWord value)) := by
      cases p with
      | af => exact absurd rfl hw
      | _ => rfl
    exact Instruction.runs_of_outcome accepted (outcome_setPair p rfl read)

/-- All stores of a register at an address end in the same machine, which has the low byte written
at the address and then the high byte after it. As long as these bytes stay, whatever else changes,
a load of any register from the address gives it the stored word. -/
theorem load_store (policy : Policy) (ops : Operands) (address : Word) (m : Machine)
    (registers : m.ByteRegisters) (pointer : m.StackInRange) (w : WordRegister)
    (hw : w ≠ .pair .af) :
    ∃ stored,
      (∀ i ∈ w.stores, i.Runs policy { ops with value := .ofWord address } m stored) ∧
      stored =
        (m.write address (m.word w).toWord.low).write (address + 1) (m.word w).toWord.high ∧
      ∀ (between : Machine), between.wordAt address = stored.wordAt address →
        ∀ (w' : WordRegister), w' ≠ .pair .af → ∃ loaded,
          w'.load.Runs policy { ops with value := .ofWord address } between loaded ∧
            between.Loads loaded w' (m.word w) := by
  have place : (Value.ofWord address).toWord = address := by
    simp
  refine ⟨m.storeWord address (m.word w).toWord, ?_, rfl, fun between same w' hw' => ?_⟩
  · have stores := runs_store policy { ops with value := .ofWord address } hw registers pointer
    rwa [place] at stores
  · have load := runs_load policy { ops with value := .ofWord address } hw' between
    have loads := between.loads_loadWord address w'
    rw [same, Machine.wordAt_storeWord, ← registers.word_eq pointer] at loads
    rw [place] at load
    exact ⟨_, load, loads⟩

/-- `HL` goes to the last cell and to the first one, and comes back in `IX`. -/
theorem load_store_lastAddress :
    let m := (Machine.blank.setPair .hl 0x1234).set stackPointer 0xFFFE
    m.ByteRegisters ∧ m.StackInRange ∧ ∃ stored loaded,
      (Instruction.storeWord (.pair .hl)).Runs {} { value := 0xFFFF } m stored ∧
      stored.memory.get 0xFFFF = 0x34 ∧ stored.memory.get 0 = 0x12 ∧
      (Instruction.loadWord (.pair .ix) .direct).Runs {} { value := 0xFFFF } stored loaded ∧
      loaded.pair .ix = 0x1234 := by
  intro m
  have registers : m.ByteRegisters :=
    (Machine.blank_byteRegisters.setPair .hl 0x1234).set_stackPointer 0xFFFE
  have pointer : m.StackInRange := Machine.stackInRange_set _ (by decide)
  have content : m.pair .hl = 0x1234 := by
    rw [Machine.pair_set_of_ne _ _ (by decide) (by decide), Machine.pair_setPair_self]
    rfl
  obtain ⟨stored, stores, written, loads⟩ :=
    load_store {} {} 0xFFFF m registers pointer (.pair .hl) (by decide)
  obtain ⟨loaded, load, result⟩ := loads stored rfl (.pair .ix) (by decide)
  have bytes : (m.word (.pair .hl)).toWord = .ofBytes 0x12 0x34 := by
    rw [Machine.word, content]
    rfl
  refine ⟨registers, pointer, stored, loaded, stores _ (by simp [WordRegister.stores]), ?_, ?_,
    load, result.word.trans content⟩
  · rw [written, bytes, Machine.memory_write, Memory.get_set, if_neg (by decide),
      Machine.memory_write, Memory.get_set_self, Word.low_ofBytes]
  · rw [written, bytes, Word.high_ofBytes, Machine.memory_write]
    exact Memory.get_set_self _ 0 _

end WordRegister

/-- The signed number that a displacement byte stands for. -/
def Byte.displacement (d : Byte) : Value := d.signExtend 32

/-- The operand of a store of an immediate byte, with the displacement in its low byte. -/
def packedOperand (d n : Byte) : Value := BitVec.ofNat 32 (256 * n.toNat + d.toNat)

theorem Byte.toInt_displacement (d : Byte) : d.displacement.toInt = d.toInt :=
  BitVec.toInt_signExtend_of_le (by decide)

/-- Without its sign, a negative displacement leads to an address 256 bytes too high. -/
theorem Machine.displacedAddress_ofByte (m : Machine) (x : IndexRegister) (d : Byte) :
    m.displacedAddress x (.ofByte d) =
      m.displacedAddress x d.displacement + if d.toInt < 0 then 256 else 0 := by
  have signed := d.toInt_eq_toNat_cond
  have small := d.isLt
  have nat : (Value.ofByte d).toNat = d.toNat := BitVec.toNat_setWidth_of_le (by decide)
  have unsigned : (Value.ofByte d).toInt = d.toNat := by
    rw [BitVec.toInt_eq_toNat_of_lt (by omega), nat]
  apply BitVec.eq_of_toNat_eq
  rw [displacedAddress, displacedAddress, d.toInt_displacement, unsigned, BitVec.toNat_add,
    BitVec.toNat_ofInt, BitVec.toNat_ofInt]
  split at signed <;> split <;> simp <;> omega

section
variable (d n : Byte)

theorem packedOperand_eq_ofWord : packedOperand d n = .ofWord (.ofBytes n d) := by
  rw [packedOperand, ← Word.toNat_ofBytes, BitVec.ofNat_toNat]

theorem low_packedOperand : packedOperand d n &&& 0xFF#32 = .ofByte d := by
  rw [packedOperand_eq_ofWord, Value.and_ofWord, Word.low_ofBytes]

theorem high_packedOperand : (packedOperand d n).sshiftRight 8 = Value.ofByte n := by
  rw [packedOperand_eq_ofWord, Value.sshiftRight_ofWord, Word.high_ofBytes]

end

namespace Instruction

variable (policy : Policy) (x : IndexRegister) (ops : Operands) (m : Machine)

theorem run_storeIndexed_register (src : Register) :
    ∃ p, (storeIndexed x (some src)).program policy ops = .ok p ∧
      p.run m = .ok .continued (m.write (m.displacedAddress x ops.value) (m.reg src).toByte) := by
  obtain ⟨p, hp, run⟩ := exists_program_of_effect
    (show (storeIndexed x (some src)).effect policy =
      .ok (Effect.storeIndexed x (some src)) from rfl) ops
  refine ⟨p, hp, ?_⟩
  have written := outcome_writeByte (outcome_displaced ops m x)
    (Expr.outcome_register ops.resolve m src)
  rw [run, Program.outcome, Effect.storeIndexed, Stmt.outcomeList_cons, written, m.toWord_displaced]
  rfl

theorem run_loadIndexed (dst : Register) :
    ∃ p, (loadIndexed dst x).program policy ops = .ok p ∧
      p.run m = .ok .continued ((m.read (m.displacedAddress x ops.value)).2.setReg dst
        (.ofByte (m.memory.get (m.displacedAddress x ops.value)))) := by
  obtain ⟨p, hp, run⟩ := exists_program_of_effect
    (show (loadIndexed dst x).effect policy = .ok (Effect.loadIndexed dst x) from rfl) ops
  refine ⟨p, hp, ?_⟩
  have read := outcome_readByte (outcome_displaced ops m x)
  rw [run, Program.outcome, Effect.loadIndexed, Stmt.outcomeList_cons, Stmt.set,
    Stmt.outcome_assign_register, read, m.toWord_displaced]
  rfl

/-- A store of an immediate byte adds the displacement without its sign. -/
theorem run_storeIndexed_immediate (d n : Byte) :
    ∃ p, (storeIndexed x none).program policy { ops with value := packedOperand d n } = .ok p ∧
      p.run m = .ok .continued (m.write (m.displacedAddress x (.ofByte d)) n) := by
  obtain ⟨p, hp, run⟩ := exists_program_of_effect
    (show (storeIndexed x none).effect policy = .ok (Effect.storeIndexed x none) from rfl)
    { ops with value := packedOperand d n }
  refine ⟨p, hp, ?_⟩
  have place : (pairValue x.pair + (value &&& 0xFF)).outcome
      { ops with value := packedOperand d n }.resolve m = (m.pair x.pair + .ofByte d, m) := by
    simp [low_packedOperand]
  have byte : (value >>> 8).outcome { ops with value := packedOperand d n }.resolve m =
      (.ofByte n, m) := by
    simp [shiftCount, high_packedOperand]
  rw [run, Program.outcome, Effect.storeIndexed, Stmt.outcomeList_cons,
    outcome_writeByte place byte, m.toWord_displaced, Value.toByte_ofByte]
  rfl

/-- A store of an immediate byte writes that byte and nothing else. It goes to the address that
loads and stores of registers use exactly if the displacement is not negative, and 256 bytes above
it otherwise. -/
theorem run_storeIndexed_packed (policy : Policy) (x : IndexRegister) (ops : Operands) (m : Machine)
    (d n : Byte) :
    ∃ address, (∃ p,
        (storeIndexed x none).program policy { ops with value := packedOperand d n } = .ok p ∧
        p.run m = .ok .continued (m.write address n)) ∧
      address = m.displacedAddress x d.displacement + (if d.toInt < 0 then 256 else 0) ∧
      (address = m.displacedAddress x d.displacement ↔ 0 ≤ d.toInt) ∧
      (∀ src, ∃ p, (storeIndexed x (some src)).program policy
          { ops with value := d.displacement } = .ok p ∧
        p.run m = .ok .continued
          (m.write (m.displacedAddress x d.displacement) (m.reg src).toByte)) ∧
      ∀ dst, ∃ p, (loadIndexed dst x).program policy { ops with value := d.displacement } = .ok p ∧
        p.run m = .ok .continued ((m.read (m.displacedAddress x d.displacement)).2.setReg dst
          (.ofByte (m.memory.get (m.displacedAddress x d.displacement)))) := by
  refine ⟨_, run_storeIndexed_immediate policy x ops m d n, m.displacedAddress_ofByte x d, ?_,
    run_storeIndexed_register policy x _ m, run_loadIndexed policy x _ m⟩
  rw [m.displacedAddress_ofByte]
  split
  · next negative => exact iff_of_false (by bv_omega) (by omega)
  · next nonnegative => exact iff_of_true (BitVec.add_zero _) (by omega)

/-- A store of an immediate byte does not always go to the address that a negative displacement
stands for: one below address zero, it goes to `0x00FF`. -/
theorem not_forall_run_storeIndexed_packed : ¬ ∀ (x : IndexRegister) (m : Machine) (d n : Byte),
    m.ByteRegisters → ∃ p,
      (storeIndexed x none).program {} { value := packedOperand d n } = .ok p ∧
      p.run m = .ok .continued (m.write (m.displacedAddress x d.displacement) n) := by
  intro h
  obtain ⟨p, hp, run⟩ := h .ix Machine.blank 0xFF 0xAA Machine.blank_byteRegisters
  obtain ⟨p', hp', run'⟩ := run_storeIndexed_immediate {} .ix {} Machine.blank 0xFF 0xAA
  obtain rfl : p = p' := Except.ok.inj (hp.symm.trans hp')
  have same := run.symm.trans run'
  simp only [EStateM.Result.ok.injEq, true_and] at same
  have base : Machine.blank.pair IndexRegister.ix.pair = 0 := by
    simp [Machine.pair, Machine.reg_blank]
  have wanted : Machine.blank.displacedAddress .ix (Byte.displacement 0xFF) = 0xFFFF := by
    rw [Machine.displacedAddress, base]
    rfl
  have actual : Machine.blank.displacedAddress .ix (Value.ofByte 0xFF) = 0x00FF := by
    rw [Machine.displacedAddress, base]
    rfl
  rw [wanted, actual] at same
  have content := congrArg (fun after : Machine => after.memory.get 0xFFFF) same
  simp [Memory.get_set, Machine.blank] at content

end Instruction

end Z80Effects
