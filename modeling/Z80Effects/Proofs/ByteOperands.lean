import Z80Effects.Proofs.FlagBits
import Z80Effects.Proofs.VariableWidths

/-!
# Operands of one byte

Operands are bytes in registers, or in memory at an address in a register pair or at a displacement
from it. `Machine.ByteRegisters` says that the registers hold bytes, and `Machine.StackInRange` that
the stack pointer holds an address. No other variable is asked to keep to a limit, those of the
shadow set neither.
-/
namespace Z80Effects

theorem Register.name_ne_flags {reg : Register} (h : reg.isGeneral) : ¬ reg.name = f.name := by
  intro same
  rw [name_injective same] at h
  cases h

namespace Machine

/-- The registers hold bytes. -/
def ByteRegisters (m : Machine) : Prop := ∀ reg, (m.reg reg).toNat < 256

/-- The stack pointer holds an address. -/
def StackInRange (m : Machine) : Prop := (m.get stackPointer).toNat < 65536

theorem reg_blank (reg : Register) : blank.reg reg = 0 := get_blank reg.name

theorem blank_byteRegisters : blank.ByteRegisters := by
  intro reg
  rw [reg_blank]
  decide

theorem blank_stackInRange : blank.StackInRange := by
  rw [StackInRange, get_blank]
  decide

theorem StackInRange.eq {m : Machine} (h : m.StackInRange) :
    m.get stackPointer = .ofWord (m.get stackPointer).toWord := by
  rw [StackInRange] at h
  bv_omega

theorem stackInRange_set (m : Machine) {v : Value} (hv : v.toNat < 65536) :
    (m.set stackPointer v).StackInRange := by
  rwa [StackInRange, get_set_self]

namespace ByteRegisters

variable {m : Machine}

theorem reg_eq (h : m.ByteRegisters) (reg : Register) :
    m.reg reg = .ofByte (m.reg reg).toByte := by
  have bound := h reg
  bv_omega

theorem pair_fits (h : m.ByteRegisters) (p : RegisterPair) : (m.pair p).Fits 16 := by
  have high : (m.reg p.high).Fits 8 := h p.high
  have low : (m.reg p.low).Fits 8 := h p.low
  exact Value.fits_or (Value.fits_shiftLeft high 8) low

theorem holdsWord (h : m.ByteRegisters) (p : RegisterPair) :
    m.HoldsWord p (.ofBytes (m.reg p.high).toByte (m.reg p.low).toByte) where
  high := by rw [Word.high_ofBytes, ← h.reg_eq]
  low := by rw [Word.low_ofBytes, ← h.reg_eq]

theorem high_pair (h : m.ByteRegisters) (p : RegisterPair) :
    (m.pair p).toWord.high = (m.reg p.high).toByte := by
  rw [(h.holdsWord p).toWord_pair, Word.high_ofBytes]

theorem low_pair (h : m.ByteRegisters) (p : RegisterPair) :
    (m.pair p).toWord.low = (m.reg p.low).toByte := by
  rw [(h.holdsWord p).toWord_pair, Word.low_ofBytes]

theorem pair_eq (h : m.ByteRegisters) (p : RegisterPair) :
    m.pair p = .ofWord (m.pair p).toWord := by
  have bound : (m.pair p).toNat < 65536 := h.pair_fits p
  bv_omega

theorem word_eq (h : m.ByteRegisters) (pointer : m.StackInRange) (w : WordRegister) :
    m.word w = .ofWord (m.word w).toWord := by
  cases w with
  | pair p => exact h.pair_eq p
  | sp => exact pointer.eq

theorem set (h : m.ByteRegisters) {name : String} {v : Value}
    (hv : ∀ reg : Register, reg.name = name → v.toNat < 256) : (m.set name v).ByteRegisters := by
  intro reg
  rw [reg_eq_get, get_set]
  split
  · next eq => exact hv reg eq.symm
  · exact h reg

theorem set_stackPointer (h : m.ByteRegisters) (v : Value) :
    (m.set stackPointer v).ByteRegisters :=
  h.set fun reg same => absurd same reg.name_ne_stackPointer

theorem setPair (h : m.ByteRegisters) (p : RegisterPair) (v : Value) :
    (m.setPair p v).ByteRegisters := by
  rw [setPair_eq_set]
  exact (h.set fun _ _ => Value.fits_ofByte _).set fun _ _ => Value.fits_ofByte _

theorem setReg_self (h : m.ByteRegisters) (reg : Register) :
    m.setReg reg (.ofByte (m.reg reg).toByte) = m := by
  rw [← h.reg_eq reg]
  exact m.set_get_self reg.name

theorem setFlags_self (h : m.ByteRegisters) : m.setFlags m.flags = m := by
  rw [Machine.setFlags, flags, Flags.toByte_ofByte, h.setReg_self .f]

end ByteRegisters

end Machine

/-- Bytes in the registers, and no limit for any other variable. -/
def byteRegisters : Discipline where
  limit name := if name ∈ Register.all.map Register.name then some 8 else
    if name = stackPointer then some 32 else none
  immediate := 32
  limit_register reg := by cases reg <;> rfl
  limit_stackPointer := ⟨32, rfl, by decide⟩

theorem keeps_byteRegisters_iff {m : Machine} : byteRegisters.Keeps m ↔ m.ByteRegisters := by
  constructor
  · intro h reg
    exact h reg.name 8 (byteRegisters.limit_register reg)
  · intro h name w hw
    simp only [byteRegisters] at hw
    split at hw
    · next register =>
      obtain ⟨reg, -, rfl⟩ := List.mem_map.mp register
      cases hw
      exact h reg
    · simp only [Option.ite_none_right_eq_some, Option.some.injEq] at hw
      obtain ⟨-, rfl⟩ := hw
      exact Value.fits_thirtyTwo _

/-- The address at a displacement from an index register, around the end of the address space. -/
def Machine.displacedAddress (m : Machine) (x : IndexRegister) (displacement : Value) : Word :=
  BitVec.ofInt 16 ((m.pair x.pair).toNat + displacement.toInt)

theorem Machine.toWord_displaced (m : Machine) (x : IndexRegister) (displacement : Value) :
    (m.pair x.pair + displacement).toWord = m.displacedAddress x displacement := by
  apply BitVec.eq_of_toNat_eq
  have signed := displacement.toInt_eq_toNat_cond
  rw [Machine.displacedAddress, BitVec.toNat_ofInt, BitVec.toNat_setWidth, BitVec.toNat_add]
  split at signed <;> omega

namespace Effect

variable (ops : Operands) (m : Machine)

@[simp] theorem outcome_value : value.outcome ops.resolve m = (ops.value, m) := by
  simp [value, Operands.resolve, Operands.get]

@[simp] theorem outcome_valueNext : valueNext.outcome ops.resolve m = (ops.value + 1, m) := by
  simp [valueNext, Operands.resolve, Operands.get]

@[simp] theorem outcome_pairValue (holes : Hole → Value) (p : RegisterPair) :
    (pairValue p).outcome holes m = (m.pair p, m) := by
  simp [pairValue, Primitive.apply]

@[simp] theorem outcome_displaced (x : IndexRegister) :
    (displaced x).outcome ops.resolve m = (m.pair x.pair + ops.value, m) := by
  simp [displaced]

variable {holes : Hole → Value} {m m' : Machine} {address e : Expr} {v b : Value} {w : Word}

theorem outcome_readByte (ha : address.outcome holes m = (v, m)) :
    (readByte address).outcome holes m =
      (.ofByte (m.memory.get v.toWord), (m.read v.toWord).2) := by
  rw [readByte, Expr.outcome_call, Expr.outcomeList_cons, ha, Expr.outcomeList_nil]
  rfl

theorem outcome_readWord (ha : address.outcome holes m = (v, m)) :
    (readWord address).outcome holes m = (.ofWord (m.wordAt v.toWord), m.fetchWord v.toWord) := by
  have next : (v + 1).toWord = v.toWord + 1 := by
    bv_omega
  rw [readWord, Expr.outcome_call, Expr.outcomeList_cons, ha, Expr.outcomeList_nil]
  simp only [Primitive.apply, List.getD_cons_zero, next, Machine.read_value, Machine.memory_read]
  rfl

theorem outcome_writeByte (ha : address.outcome holes m = (v, m))
    (he : e.outcome holes m = (b, m')) :
    (writeByte address e).outcome holes m = (.continued, m'.write v.toWord b.toByte) := by
  rw [writeByte, Stmt.outcome_effect, Expr.outcome_call, Expr.outcomeList_cons, ha,
    Expr.outcomeList_cons, he, Expr.outcomeList_nil]
  rfl

theorem outcome_lowByte (he : e.outcome holes m = (.ofWord w, m')) :
    (e &&& 0xFF).outcome holes m = (.ofByte w.low, m') := by
  rw [Expr.outcome_and, he, Expr.outcome_ofNat]
  exact congrArg (·, m') (Value.and_ofWord w)

theorem outcome_highByte (he : e.outcome holes m = (.ofWord w, m')) :
    (e >>> 8).outcome holes m = (.ofByte w.high, m') := by
  rw [Expr.outcome_shiftRight, he]
  exact congrArg (·, m') (Value.sshiftRight_ofWord w)

/-- A word is stored low byte first. The second byte and its address are computed after the first
byte is written. -/
theorem outcome_storeBytes {next low high : Expr} (ha : address.outcome holes m = (v, m))
    (hl : low.outcome holes m = (.ofByte w.low, m))
    (hn : ∀ b, next.outcome holes (m.write v.toWord b) = (v + 1, m.write v.toWord b))
    (hh : ∀ b, high.outcome holes (m.write v.toWord b) = (.ofByte w.high, m.write v.toWord b)) :
    Stmt.outcomeList holes [writeByte address low, writeByte next high] m =
      (.continued, m.storeWord v.toWord w) := by
  have following : (v + 1).toWord = v.toWord + 1 := by
    bv_omega
  rw [Stmt.outcomeList_cons, outcome_writeByte ha hl, Flow.andThen_continued, Value.toByte_ofByte,
    Stmt.outcomeList_cons, outcome_writeByte (hn _) (hh _), following, Value.toByte_ofByte]
  rfl

/-- A word that is not known before the run goes into a pair by way of a temporary. -/
theorem outcome_setPair (p : RegisterPair) (he : e.isConstant = false)
    (h : e.outcome holes m = (.ofWord w, m')) : Stmt.outcomeList holes (setPair p e) m =
      (.continued, (m'.set "val" (.ofWord w)).setPair p (.ofWord w)) := by
  have kept : ¬ p.high.name = "val" := Register.name_ne (by decide) _
  have word : (Value.ofWord w).toWord = w := by
    simp
  have whole (m : Machine) (hv : m.get "val" = .ofWord w) :
      val.outcome holes m = (.ofWord w, m) := by
    rw [val, Expr.outcome_var, hv]
  have high := outcome_highByte (whole (m'.set "val" (.ofWord w)) (m'.get_set_self ..))
  have low := outcome_lowByte (whole ((m'.set "val" (.ofWord w)).setReg p.high (.ofByte w.high)) (by
    rw [Machine.setReg_eq_set, Machine.get_set_of_ne _ _ kept, Machine.get_set_self]))
  simp only [setPair, he, Bool.false_eq_true, if_false, Stmt.set, Stmt.outcomeList_cons,
    Stmt.outcomeList_nil, Stmt.outcome_declare, Stmt.outcome_assign_register, h, high, low,
    AssignOp.apply, Flow.andThen_continued, Machine.setPair, word]

end Effect

end Z80Effects
