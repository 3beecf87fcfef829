import Z80Effects.Machine.Run

/-!
# What reads of a machine see after an update

All updates of variables come down to `Machine.set`. The lemmas of the first section rewrite them
to it, and those after it carry a read past each update.
-/
namespace Z80Effects

namespace Register

/-- A register has no name but those of registers. -/
theorem name_ne {name : String} (h : name ∉ all.map Register.name) (reg : Register) :
    ¬ reg.name = name :=
  fun same => h (List.mem_map.mpr ⟨reg, reg.mem_all, same⟩)

theorem ne_name {name : String} (h : name ∉ all.map Register.name) (reg : Register) :
    ¬ name = reg.name := Ne.symm (name_ne h reg)

theorem name_ne_stackPointer (reg : Register) : ¬ reg.name = stackPointer := name_ne (by decide) reg

end Register

/-- The halves of a pair are different variables. -/
theorem RegisterPair.low_name_ne_high (p : RegisterPair) : ¬ p.low.name = p.high.name :=
  fun same => p.high_ne_low (Register.name_injective same).symm

/-- A word is put together again from its bytes. -/
theorem Word.join_high_low (w : Word) :
    Value.ofByte w.high <<< 8 ||| Value.ofByte w.low = Value.ofWord w := by
  apply BitVec.eq_of_getLsbD_eq
  intro i hi
  simp only [Word.high, Word.low, BitVec.getLsbD_or, BitVec.getLsbD_shiftLeft,
    BitVec.getLsbD_setWidth, BitVec.getLsbD_extractLsb']
  by_cases h8 : i < 8
  · simp [hi, h8]
  · by_cases h16 : i < 16
    · have hi8 : i - 8 < 8 := by omega
      have hi32 : i - 8 < 32 := by omega
      simp [hi, h8, hi8, hi32, show 8 + (i - 8) = i by omega]
    · have hi8 : ¬ i - 8 < 8 := by omega
      simp [h8, hi8, BitVec.getLsbD_of_ge w i (by omega)]

namespace Value

theorem toNat_ofWord (w : Word) : (ofWord w).toNat = w.toNat :=
  BitVec.toNat_setWidth_of_le (by decide)

/-- The low byte masked out. -/
theorem and_ofWord (w : Word) : ofWord w &&& 0xFF#32 = ofByte w.low := by
  apply BitVec.eq_of_toNat_eq
  rw [BitVec.toNat_and, toNat_ofWord, BitVec.toNat_setWidth_of_le (by decide)]
  exact (Nat.and_two_pow_sub_one_eq_mod w.toNat 8).trans (by simp [Word.low])

theorem sshiftRight_ofWord (w : Word) : BitVec.sshiftRight (ofWord w) 8 = ofByte w.high := by
  have nonnegative : (ofWord w).msb = false := by
    have bound := w.isLt
    rw [BitVec.msb_eq_decide, BitVec.toNat_setWidth]
    simp
    omega
  rw [BitVec.sshiftRight_eq_of_msb_false nonnegative]
  apply BitVec.eq_of_toNat_eq
  simp [Word.high, Nat.shiftRight_eq_div_pow]
  omega

end Value

namespace Machine

variable (m : Machine)

theorem reg_eq_get (reg : Register) : m.reg reg = m.get reg.name := by simp only [Machine.reg]

theorem setReg_eq_set (reg : Register) (v : Value) : m.setReg reg v = m.set reg.name v := by
  simp only [setReg]

theorem setPair_eq_set (p : RegisterPair) (v : Value) : m.setPair p v =
    (m.set p.high.name (.ofByte v.toWord.high)).set p.low.name (.ofByte v.toWord.low) := by
  simp only [setPair, setReg]

theorem setFlags_eq_set (f : Flags) :
    m.setFlags f = m.set Register.f.name (.ofByte f.toByte) := by
  simp only [setFlags, setReg]

theorem setAccumulator_eq_set (r : FlaggedResult 8) : m.setAccumulator r =
    (m.set Register.a.name (.ofByte r.value)).set Register.f.name (.ofByte r.flags.toByte) := by
  simp only [setAccumulator, setFlags, setReg]

@[simp] theorem get_set_self (name : String) (v : Value) : (m.set name v).get name = v := by
  simp only [get_set, if_true]

theorem get_set_of_ne {name other : String} (v : Value) (h : ¬ name = other) :
    (m.set name v).get other = m.get other := by
  simp only [get_set, if_neg h]

/-- Of two settings of one variable the later counts. -/
theorem set_set_self (name : String) (v w : Value) : (m.set name v).set name w = m.set name w := by
  have vars : (m.vars.set name v).set name w = m.vars.set name w := by
    ext1 other
    simp only [Variables.get_set]
    split <;> rfl
  simp only [Machine.set, vars]

theorem set_get_self (name : String) : m.set name (m.get name) = m := by
  have vars : m.vars.set name (m.vars.get name) = m.vars := by
    apply Variables.ext
    intro other
    rw [Variables.get_set]
    split
    · next eq => rw [eq]
    · rfl
  rw [set, get, vars]

theorem set_comm {name other : String} (h : ¬ name = other) (v w : Value) :
    (m.set name v).set other w = (m.set other w).set name v := by
  have vars : (m.vars.set name v).set other w = (m.vars.set other w).set name v := by
    ext1 x
    simp only [Variables.get_set]
    split
    · next eq =>
      subst eq
      rw [if_neg h]
    · rfl
  simp only [Machine.set, vars]

theorem reg_set_of_ne {name : String} {reg : Register} (v : Value) (h : ¬ name = reg.name) :
    (m.set name v).reg reg = m.reg reg := by
  rw [reg_eq_get, get_set_of_ne _ _ h, reg_eq_get]

@[simp] theorem memory_set (name : String) (v : Value) : (m.set name v).memory = m.memory := by
  simp only [Machine.set]

@[simp] theorem log_set (name : String) (v : Value) : (m.set name v).log = m.log := by
  simp only [Machine.set]

@[simp] theorem ports_set (name : String) (v : Value) : (m.set name v).ports = m.ports := by
  simp only [Machine.set]

@[simp] theorem outputs_set (name : String) (v : Value) : (m.set name v).outputs = m.outputs := by
  simp only [Machine.set]

@[simp] theorem randomSource_set (name : String) (v : Value) :
    (m.set name v).randomSource = m.randomSource := by
  simp only [Machine.set]

@[simp] theorem read_value (address : Word) : (m.read address).1 = m.memory.get address := by
  simp only [read]

@[simp] theorem get_read (address : Word) (name : String) :
    (m.read address).2.get name = m.get name := by
  simp only [read, get]

@[simp] theorem memory_read (address : Word) : (m.read address).2.memory = m.memory := by
  simp only [read]

@[simp] theorem outputs_read (address : Word) : (m.read address).2.outputs = m.outputs := by
  simp only [read]

@[simp] theorem ports_read (address : Word) : (m.read address).2.ports = m.ports := by
  simp only [read]

@[simp] theorem randomSource_read (address : Word) :
    (m.read address).2.randomSource = m.randomSource := by
  simp only [read]

@[simp] theorem log_read (address : Word) :
    (m.read address).2.log = m.log.push (.read address) := by
  simp only [read]

@[simp] theorem get_write (address : Word) (b : Byte) (name : String) :
    (m.write address b).get name = m.get name := by
  simp only [write, get]

@[simp] theorem memory_write (address : Word) (b : Byte) :
    (m.write address b).memory = m.memory.set address b := by
  simp only [write]

@[simp] theorem outputs_write (address : Word) (b : Byte) :
    (m.write address b).outputs = m.outputs := by
  simp only [write]

@[simp] theorem ports_write (address : Word) (b : Byte) : (m.write address b).ports = m.ports := by
  simp only [write]

@[simp] theorem randomSource_write (address : Word) (b : Byte) :
    (m.write address b).randomSource = m.randomSource := by
  simp only [write]

@[simp] theorem get_putOut (port b : Byte) (name : String) :
    (m.putOut port b).get name = m.get name := by
  simp only [putOut, get]

@[simp] theorem memory_putOut (port b : Byte) : (m.putOut port b).memory = m.memory := by
  simp only [putOut]

@[simp] theorem log_putOut (port b : Byte) : (m.putOut port b).log = m.log := by
  simp only [putOut]

@[simp] theorem outputs_putOut (port b : Byte) :
    (m.putOut port b).outputs = m.outputs.push (port, b) := by
  simp only [putOut]

theorem read_set (name : String) (v : Value) (address : Word) :
    ((m.set name v).read address).2 = (m.read address).2.set name v := by
  simp only [read, set]

theorem write_set (name : String) (v : Value) (address : Word) (b : Byte) :
    (m.set name v).write address b = (m.write address b).set name v := by
  simp only [write, set]

theorem putOut_set (name : String) (v : Value) (port b : Byte) :
    (m.set name v).putOut port b = (m.putOut port b).set name v := by
  simp only [putOut, set]

/-- A push sets the stack pointer and no other variable. -/
theorem get_push (high low : Byte) (name : String) : (m.push high low).get name =
    if stackPointer = name then (m.get stackPointer - 2) &&& 0xFFFF else m.get name := by
  simp only [push, get_set, get_write]

/-- The word whose bytes are at an address and after it, low byte first. -/
def wordAt (address : Word) : Word :=
  .ofBytes (m.memory.get (address + 1)) (m.memory.get address)

def fetchWord (address : Word) : Machine := ((m.read address).2.read (address + 1)).2

def storeWord (address w : Word) : Machine :=
  (m.write address w.low).write (address + 1) w.high

@[simp] theorem get_fetchWord (address : Word) (name : String) :
    (m.fetchWord address).get name = m.get name := by
  rw [fetchWord, get_read, get_read]

@[simp] theorem memory_fetchWord (address : Word) : (m.fetchWord address).memory = m.memory := by
  rw [fetchWord, memory_read, memory_read]

/-- A word that is stored is found again, even around the end of the address space. -/
@[simp] theorem wordAt_storeWord (address w : Word) :
    (m.storeWord address w).wordAt address = w := by
  have apart : address + 1 ≠ address := by
    bv_omega
  rw [wordAt, storeWord, memory_write, memory_write, Memory.get_set_self, Memory.get_set,
    if_neg apart, Memory.get_set_self, Word.ofBytes_high_low]

theorem pair_eq_get (p : RegisterPair) :
    m.pair p = m.get p.high.name <<< 8 ||| m.get p.low.name := by
  simp only [pair, Machine.reg]

theorem get_setPair_of_ne {p : RegisterPair} {name : String} (v : Value)
    (h : ¬ p.high.name = name) (h' : ¬ p.low.name = name) :
    (m.setPair p v).get name = m.get name := by
  rw [setPair_eq_set, get_set_of_ne _ _ h', get_set_of_ne _ _ h]

@[simp] theorem pair_setPair_self (p : RegisterPair) (v : Value) :
    (m.setPair p v).pair p = .ofWord v.toWord := by
  rw [pair_eq_get, setPair_eq_set, get_set_of_ne _ _ p.low_name_ne_high, get_set_self, get_set_self,
    Word.join_high_low]

theorem pair_set_of_ne {p : RegisterPair} {name : String} (v : Value)
    (h : ¬ name = p.high.name) (h' : ¬ name = p.low.name) : (m.set name v).pair p = m.pair p := by
  rw [pair_eq_get, get_set_of_ne _ _ h, get_set_of_ne _ _ h', pair_eq_get]

theorem pair_set_temp (p : RegisterPair) (v : Value) : (m.set "temp" v).pair p = m.pair p :=
  m.pair_set_of_ne v (Register.ne_name (by decide) _) (Register.ne_name (by decide) _)

theorem setPair_set_of_ne {p : RegisterPair} {name : String} (v w : Value)
    (h : ¬ name = p.high.name) (h' : ¬ name = p.low.name) :
    (m.set name v).setPair p w = (m.setPair p w).set name v := by
  rw [setPair_eq_set, setPair_eq_set, set_comm _ h, set_comm _ h']

theorem pair_setPair_of_ne {p q : RegisterPair} (v : Value) (h : ¬ p = q) :
    (m.setPair p v).pair q = m.pair q := by
  rw [setPair_eq_set]
  rw [pair_set_of_ne, pair_set_of_ne] <;> revert h <;> cases p <;> cases q <;> decide

@[simp] theorem memory_setPair (p : RegisterPair) (v : Value) :
    (m.setPair p v).memory = m.memory := by
  rw [setPair_eq_set, memory_set, memory_set]

@[simp] theorem outputs_setPair (p : RegisterPair) (v : Value) :
    (m.setPair p v).outputs = m.outputs := by
  rw [setPair_eq_set, outputs_set, outputs_set]

@[simp] theorem pair_read (address : Word) (p : RegisterPair) :
    (m.read address).2.pair p = m.pair p := by
  simp only [pair_eq_get, get_read]

@[simp] theorem pair_write (address : Word) (b : Byte) (p : RegisterPair) :
    (m.write address b).pair p = m.pair p := by
  simp only [pair_eq_get, get_write]

/-- The halves of a pair hold the bytes of a word. -/
structure HoldsWord (m : Machine) (p : RegisterPair) (w : Word) : Prop where
  high : m.reg p.high = .ofByte w.high
  low : m.reg p.low = .ofByte w.low

variable {m}

theorem HoldsWord.pair_eq {p : RegisterPair} {w : Word} (h : m.HoldsWord p w) :
    m.pair p = .ofWord w := by
  rw [pair, h.high, h.low, Word.join_high_low]

theorem HoldsWord.toWord_pair {p : RegisterPair} {w : Word} (h : m.HoldsWord p w) :
    (m.pair p).toWord = w := by
  rw [h.pair_eq, Value.toWord, BitVec.setWidth_setWidth_of_le _ (by decide), BitVec.setWidth_eq]

theorem HoldsWord.set_of_ne {p : RegisterPair} {w : Word} (h : m.HoldsWord p w) {name : String}
    (v : Value) (hh : ¬ name = p.high.name) (hl : ¬ name = p.low.name) :
    (m.set name v).HoldsWord p w where
  high := by rw [reg_set_of_ne _ _ hh, h.high]
  low := by rw [reg_set_of_ne _ _ hl, h.low]

theorem holdsWord_setPair (m : Machine) (p : RegisterPair) (v : Value) :
    (m.setPair p v).HoldsWord p v.toWord where
  high := by rw [setPair_eq_set, reg_eq_get, get_set_of_ne _ _ p.low_name_ne_high, get_set_self]
  low := by rw [setPair_eq_set, reg_eq_get, get_set_self]

theorem HoldsWord.setPair_of_ne {p q : RegisterPair} {w : Word} (h : m.HoldsWord q w) (v : Value)
    (ne : ¬ p = q) : (m.setPair p v).HoldsWord q w := by
  rw [setPair_eq_set]
  refine (h.set_of_ne _ ?_ ?_).set_of_ne _ ?_ ?_ <;> revert ne <;> cases p <;> cases q <;> decide

end Machine

end Z80Effects
