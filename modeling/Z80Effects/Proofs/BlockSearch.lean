import Z80Effects.Proofs.BlockTransfer
import Z80Effects.Proofs.ByteOperands

/-!
# Block searches

`searchByte` is the step of a block search up to the flags: one byte is compared with the
accumulator, the counter and the pointer step, and `temp` collects the flags that the comparison
does not decide. The search goes on while the counter has not run out and the byte differs from the
accumulator. `examineByte` is the whole step, with the flags of the comparison and those of `temp`
joined.
-/
namespace Z80Effects

open Effect

namespace Machine

variable (m : Machine)

/-- The flags that a comparison in a search does not decide: the carry stays, and the comparison is
a subtraction. -/
def searchFlags : Value := m.reg .f &&& .ofByte Flag.carry.mask ||| .ofByte Flag.negative.mask

/-- The byte at `(HL)` compared with the accumulator, and the steps of counter and pointer. -/
def compareByte : Machine :=
  let byte := m.memory.get (m.pair .hl).toWord
  ((((m.set "temp" m.searchFlags).read (m.pair .hl).toWord).2.setAccumulator
    (Byte.compare m.accumulator byte)).setPair .bc (m.pair .bc - 1)).setPair .hl (m.pair .hl + 1)

/-- One byte searched: `temp` has the parity flag as well unless the counter has run out. -/
def searchByte : Machine :=
  m.compareByte.set "temp"
    (m.searchFlags ||| if (m.pair .bc).toWord = 1 then 0 else .ofByte Flag.parity.mask)

theorem pair_setAccumulator {p : RegisterPair} (hp : ¬ p = .af) (r : FlaggedResult 8) :
    (m.setAccumulator r).pair p = m.pair p := by
  rw [setAccumulator_eq_set, pair_set_of_ne, pair_set_of_ne] <;> revert hp <;> cases p <;> decide

theorem accumulator_set {name : String} (v : Value) (h : ¬ name = "a") :
    (m.set name v).accumulator = m.accumulator := by
  rw [accumulator, reg_set_of_ne _ _ h, accumulator]

theorem accumulator_read (address : Word) : (m.read address).2.accumulator = m.accumulator := by
  simp only [accumulator, reg_eq_get, get_read]

theorem temp_compareByte : m.compareByte.get "temp" = m.searchFlags := by
  simp [compareByte, setPair_eq_set, setAccumulator_eq_set, get_set, RegisterPair.high,
    RegisterPair.low, Register.name]

theorem counter_compareByte : m.compareByte.HoldsWord .bc ((m.pair .bc).toWord - 1) := by
  have next : (m.pair .bc - 1).toWord = (m.pair .bc).toWord - 1 := Direction.down.toWord_next _
  rw [← next]
  exact (holdsWord_setPair _ .bc _).setPair_of_ne _ (by decide)

theorem flags_compareByte : m.compareByte.reg .f =
    .ofByte (Byte.compare m.accumulator (m.memory.get (m.pair .hl).toWord)).flags.toByte := by
  simp [compareByte, setPair_eq_set, setAccumulator_eq_set, reg_eq_get, get_set, RegisterPair.high,
    RegisterPair.low, Register.name]

end Machine

variable (holes : Hole → Value) (m : Machine)

private theorem outcome_compareByte (rest : Program) :
    Stmt.outcomeList holes (.set temp (flagBit .carry ||| .flagMask .negative) ::
      perform .cpA [byteAtHl] :: perform .decBc [] :: perform .incHl [] :: rest) m =
        Stmt.outcomeList holes rest m.compareByte := by
  simp [Stmt.set, temp, byteAtHl, readByte, pairValue, perform, Primitive.apply, AssignOp.apply,
    outcome_flagBit, Machine.compareByte, Machine.searchFlags, Machine.pair_set_temp,
    Machine.accumulator_read, Machine.accumulator_set, Machine.pair_setAccumulator,
    Machine.pair_setPair_of_ne]

theorem outcome_searchStep :
    Stmt.outcomeList holes searchStep m = (.continued, m.searchByte) := by
  have last : m.compareByte.pair .bc = 0#32 ↔ (m.pair .bc).toWord = 1 := by
    rw [m.counter_compareByte.pair_eq]
    bv_omega
  rw [searchStep, outcome_compareByte]
  simp only [temp, pairValue, Stmt.outcomeList_cons, Stmt.outcomeList_nil, Stmt.outcome_assign_var,
    Flow.andThen_continued, Expr.outcome_conditional, Expr.outcome_equals, Expr.outcome_call,
    Expr.outcomeList_nil, Expr.outcome_ofNat, Expr.outcome_flagMask, Primitive.apply,
    AssignOp.apply, Expr.ite_outcome, Value.ofBool_eq_zero_iff, ne_eq, beq_eq_false_iff_ne,
    Decidable.not_not, last, m.temp_compareByte, Machine.searchByte]
  rfl

/-- A comparison sets the zero flag if the bytes are equal. -/
theorem Byte.zero_compare (x y : Byte) : (Byte.compare x y).flags.zero = (x == y) := by
  have equal : x - y - carryIn 8 false = 0 ↔ x = y := by
    simp only [carryIn, Bool.toNat_false]
    bv_omega
  rw [Bool.eq_iff_iff, beq_iff_eq, ← equal]
  simp [Byte.compare, Byte.sub, Flags.signZero, Flags.copyBits]

namespace Machine

theorem flags_searchByte : m.searchByte.reg .f =
    .ofByte (Byte.compare m.accumulator (m.memory.get (m.pair .hl).toWord)).flags.toByte := by
  rw [searchByte, reg_set_of_ne _ _ (by decide), m.flags_compareByte]

theorem temp_searchByte : m.searchByte.get "temp" =
    .ofByte ((if m.flags.carry then Flag.carry.mask else 0) ||| Flag.negative.mask |||
      if (m.pair .bc).toWord != 1 then Flag.parity.mask else 0) := by
  have carry : m.reg .f &&& Value.ofByte Flag.carry.mask =
      .ofByte (if m.flags.carry then Flag.carry.mask else 0) := by
    rw [Flag.and_mask, apply_ite Value.ofByte]
    rfl
  have parity : (if (m.pair .bc).toWord = 1 then 0 else Value.ofByte Flag.parity.mask) =
      .ofByte (if (m.pair .bc).toWord != 1 then Flag.parity.mask else 0) := by
    by_cases last : (m.pair .bc).toWord = 1
    · rw [if_pos last, last]
      rfl
    · rw [if_neg last, if_pos (bne_iff_ne.mpr last)]
  rw [searchByte, get_set_self, searchFlags, carry, parity, Value.ofByte, Value.ofByte,
    Value.ofByte, ← BitVec.setWidth_or, ← BitVec.setWidth_or]

end Machine

/-- The search goes on if the counter has not run out and the byte differs from the accumulator. -/
theorem outcome_searchGoesOn : searchGoesOn.outcome holes m.searchByte =
    (.ofBool ((m.pair .bc).toWord != 1 && m.accumulator != m.memory.get (m.pair .hl).toWord),
      m.searchByte) := by
  have zero : (m.searchByte.reg .f &&& Value.ofByte Flag.zero.mask == 0#32) =
      (m.accumulator != m.memory.get (m.pair .hl).toWord) := by
    rw [Flag.and_mask_beq_zero, m.flags_searchByte, Value.toByte_ofByte, Flags.ofByte_toByte]
    exact congrArg (!·) (Byte.zero_compare _ _)
  have more : (m.searchByte.get "temp" &&& Value.ofByte Flag.parity.mask != 0#32) =
      ((m.pair .bc).toWord != 1) := by
    rw [Flag.and_mask_bne_zero, m.temp_searchByte, Value.toByte_ofByte]
    cases m.flags.carry <;> cases (m.pair .bc).toWord != 1 <;> rfl
  simp only [searchGoesOn, temp, Expr.outcome_logical, Expr.outcome_differs, Expr.outcome_equals,
    Expr.outcome_and, Expr.outcome_var, Expr.outcome_flagMask, Expr.outcome_ofNat,
    outcome_flagBit, more, zero]
  cases (m.pair .bc).toWord != 1 <;> rfl

namespace Flags

/-- The flags after the byte `y` has been compared with the accumulator `x` in a search: those of
the comparison, except that the carry stays, and parity shows that the counter has not run out. -/
def afterSearch (f : Flags) (x y : Byte) (more : Bool) : Flags :=
  { (Byte.compare x y).flags with parity := more, carry := f.carry }

theorem afterSearch_eq (f : Flags) (x y : Byte) (more : Bool) : f.afterSearch x y more =
    { sign := (x - y).msb, zero := x == y, bit5 := y.getLsbD 5
      half := x.toNat % 16 < y.toNat % 16, bit3 := y.getLsbD 3, parity := more
      negative := true, carry := f.carry } := by
  rw [← Byte.zero_compare]
  simp [afterSearch, Byte.compare, Byte.sub, signZero, copyBits, carryIn]

/-- Flags with the three that are kept aside joined to the five highest. -/
theorem toByte_merge (f : Flags) (parity carry : Bool) :
    f.toByte &&& 0xF8 ||| ((if carry then Flag.carry.mask else 0) ||| Flag.negative.mask |||
      if parity then Flag.parity.mask else 0) =
        { f with parity := parity, negative := true, carry := carry : Flags }.toByte := by
  apply ofByte_injective
  have same : f = ofByte f.toByte := (ofByte_toByte f).symm
  rw [ofByte_toByte]
  generalize f.toByte = b at same
  subst same
  cases carry <;> cases parity <;> simp [ofByte, Flag.mask]

end Flags

namespace Machine

def flagsOfSearch : Flags :=
  m.flags.afterSearch m.accumulator (m.memory.get (m.pair .hl).toWord)
    ((m.pair .bc).toWord != 1)

def examineByte : Machine := m.searchByte.setFlags m.flagsOfSearch

end Machine

/-- The flags are joined on every machine that agrees on the variables joined. A search that goes on
has spent T-states by then. -/
theorem outcome_mergeSearchFlags {m' : Machine} (flags : m'.reg .f = m.searchByte.reg .f)
    (temp : m'.get "temp" = m.searchByte.get "temp") :
    mergeSearchFlags.outcome holes m' = (.continued, m'.setFlags m.flagsOfSearch) := by
  have merged : m'.reg .f &&& 248#32 ||| m'.get "temp" = .ofByte m.flagsOfSearch.toByte := by
    rw [flags, temp, m.flags_searchByte, m.temp_searchByte,
      show 248#32 = Value.ofByte 0xF8 from rfl, Value.ofByte, Value.ofByte, Value.ofByte,
      ← BitVec.setWidth_and, ← BitVec.setWidth_or, Flags.toByte_merge]
    rfl
  simp only [mergeSearchFlags, Stmt.set, Effect.temp, Stmt.outcome_assign_register,
    Expr.outcome_or, Expr.outcome_and, Expr.outcome_register, Expr.outcome_ofNat, Expr.outcome_var,
    AssignOp.apply, merged]
  rfl

theorem outcome_cpi : Stmt.outcomeList holes cpi m = (.continued, m.examineByte) := by
  rw [cpi, Stmt.outcomeList_append, outcome_searchStep, Flow.andThen_continued,
    Stmt.outcomeList_cons, outcome_mergeSearchFlags holes m rfl rfl, Flow.andThen_continued,
    Stmt.outcomeList_nil, Machine.examineByte]

namespace Machine

def searchTargets : List String := ["a", "b", "c", "h", "l", "f", "temp"]

private theorem holdsWord_examineByte {p : RegisterPair} {w : Word} (hp : ¬ p = .af)
    (h : m.compareByte.HoldsWord p w) : m.examineByte.HoldsWord p w := by
  rw [examineByte, searchByte, setFlags_eq_set]
  refine (h.set_of_ne _ ?_ ?_).set_of_ne _ ?_ ?_ <;> revert hp <;> cases p <;> decide

theorem counter_examineByte : m.examineByte.HoldsWord .bc ((m.pair .bc).toWord - 1) :=
  m.holdsWord_examineByte (by decide) m.counter_compareByte

theorem pointer_examineByte : m.examineByte.HoldsWord .hl ((m.pair .hl).toWord + 1) := by
  have next : (m.pair .hl + 1).toWord = (m.pair .hl).toWord + 1 := Direction.up.toWord_next _
  rw [← next]
  exact m.holdsWord_examineByte (by decide) (holdsWord_setPair _ .hl _)

/-- The accumulator is cut to a byte, if it is none. -/
theorem accumulator_examineByte : m.examineByte.reg .a = .ofByte m.accumulator := by
  simp [examineByte, searchByte, compareByte, setFlags_eq_set, setPair_eq_set,
    setAccumulator_eq_set, reg_eq_get, get_set, RegisterPair.high, RegisterPair.low, Register.name,
    Byte.compare]

theorem reg_f_examineByte : m.examineByte.reg .f = .ofByte m.flagsOfSearch.toByte :=
  m.searchByte.reg_setFlags_self _

theorem flags_examineByte : m.examineByte.flags = m.flagsOfSearch :=
  m.searchByte.flags_setFlags _

theorem get_examineByte_of_not_mem {name : String} (h : name ∉ searchTargets) :
    m.examineByte.get name = m.get name := by
  simp only [searchTargets, List.mem_cons, List.not_mem_nil, or_false, not_or] at h
  obtain ⟨ha, hb, hc, hh, hl, hf, ht⟩ := h
  simp [examineByte, searchByte, compareByte, setFlags_eq_set, setPair_eq_set,
    setAccumulator_eq_set, get_set, RegisterPair.high, RegisterPair.low, Register.name, Ne.symm ha,
    Ne.symm hb, Ne.symm hc, Ne.symm hh, Ne.symm hl, Ne.symm hf, Ne.symm ht]

theorem memory_examineByte : m.examineByte.memory = m.memory := by
  simp [examineByte, searchByte, compareByte, setFlags_eq_set, setAccumulator_eq_set]

theorem log_examineByte : m.examineByte.log = m.log.push (.read (m.pair .hl).toWord) := by
  simp [examineByte, searchByte, compareByte, setFlags_eq_set, setPair_eq_set,
    setAccumulator_eq_set]

theorem outputs_examineByte : m.examineByte.outputs = m.outputs := by
  simp [examineByte, searchByte, compareByte, setFlags_eq_set, setAccumulator_eq_set]

end Machine

end Z80Effects
