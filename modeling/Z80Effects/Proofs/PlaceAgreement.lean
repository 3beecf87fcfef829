import Z80Effects.Proofs.ByteOperations
import Z80Effects.Proofs.EffectForms

/-!
# Agreement of the places of an operand

An operation on a byte has one program for registers, others for `(HL)` and for indexed operands:
primitives on a byte or on an address, an assignment to a register, or a write of what was read at
an address that is kept in `location`. All of them give the result and the flags of
`ByteOperation.apply`.
-/
namespace Z80Effects

open Effect

private theorem name_ne_location (reg : Register) : ¬ reg.name = "location" :=
  Register.name_ne (by decide) reg

namespace ByteOperation

variable {op : ByteOperation} {ops : Operands} {m : Machine}

/-- A primitive gives the result of an operation on its argument, and sets the flags. -/
def Computes (op : ByteOperation) (f : Primitive) : Prop :=
  ∀ x y m, f.apply (.ofByte x) y m =
    (.ofByte (op.apply x m.flags).value, m.setFlags (op.apply x m.flags).flags)

theorem computes_shift (op : ShiftOp) : (shift op).Computes (.shift op) := by
  intro x y m
  simp only [Primitive.apply, Value.toByte_ofByte]
  rfl

theorem computes_inc : inc.Computes .inc := by
  intro x y m
  simp only [Primitive.apply, Value.toByte_ofByte]
  rfl

theorem computes_dec : dec.Computes .dec := by
  intro x y m
  simp only [Primitive.apply, Value.toByte_ofByte]
  rfl

/-- A primitive performs an operation on the byte at its argument. -/
def ComputesAt (op : ByteOperation) (f : Primitive) : Prop :=
  ∀ v y m, f.apply v y m = (0, op.performAt v.toWord none m)

theorem computesAt_incMemory : inc.ComputesAt .incMemory := fun _ _ _ => rfl

theorem computesAt_decMemory : dec.ComputesAt .decMemory := fun _ _ _ => rfl

section
variable {holes : Hole → Value} {address : Expr} {v : Value}

/-- A call of a primitive on the byte at an address. -/
theorem outcome_callAt {f : Primitive} (hf : op.Computes f)
    (ha : address.outcome holes m = (v, m)) :
    (f.call [readByte address]).outcome holes m =
      (.ofByte (op.apply (m.memory.get v.toWord) m.flags).value,
        (m.read v.toWord).2.setFlags (op.apply (m.memory.get v.toWord) m.flags).flags) := by
  rw [Expr.outcome_call, Expr.outcomeList_cons, outcome_readByte ha, Expr.outcomeList_nil,
    List.getD_cons_zero, hf]
  rfl

theorem outcome_shiftInPlace (op : ShiftOp) (ha : address.outcome holes m = (v, m)) :
    (writeByte address ((Primitive.shift op).call [readByte address])).outcome holes m =
      (.continued, (shift op).performAt v.toWord none m) := by
  rw [outcome_writeByte ha (outcome_callAt (computes_shift op) ha), Value.toByte_ofByte]
  rfl

theorem outcome_performAt {f : Primitive} (hf : op.ComputesAt f)
    (ha : address.outcome holes m = (v, m)) :
    (perform f [address]).outcome holes m = (.continued, op.performAt v.toWord none m) := by
  rw [perform, Stmt.outcome_effect, Expr.outcome_call, Expr.outcomeList_cons, ha,
    Expr.outcomeList_nil, hf]
  rfl

theorem outcome_bitOfMemory (op : BitOp) (n : Fin 8) (hm : m.ByteRegisters)
    (ha : address.outcome holes m = (v, m)) :
    (bitOfMemory op address (.singleBit n)).outcome holes m =
      (.continued, (bit op n).performAt v.toWord none m) := by
  have kept : (m.read v.toWord).2.setFlags m.flags = (m.read v.toWord).2 :=
    (show (m.read v.toWord).2.ByteRegisters from hm).setFlags_self
  cases op with
  | test =>
    rw [bitOfMemory, perform, Stmt.outcome_effect, Expr.outcome_call, Expr.outcomeList_cons,
      Expr.outcome_and, outcome_readByte ha, Expr.outcome_singleBit, Expr.outcomeList_nil,
      List.getD_cons_zero, ← BitVec.setWidth_and]
    simp only [Primitive.apply, Value.toByte_ofByte]
    rfl
  | reset =>
    have masked : (readByte address &&& ~~~Expr.singleBit n).outcome holes m =
        (.ofByte (m.memory.get v.toWord &&& ~~~Byte.singleBit n), (m.read v.toWord).2) := by
      rw [Expr.outcome_and, outcome_readByte ha, Expr.outcome_complement, Expr.outcome_singleBit,
        Value.ofByte_and_complement]
    rw [bitOfMemory, outcome_writeByte ha masked, Value.toByte_ofByte]
    simp only [performAt, apply, kept]
    rfl
  | set =>
    have joined : (readByte address ||| Expr.singleBit n).outcome holes m =
        (.ofByte (m.memory.get v.toWord ||| Byte.singleBit n), (m.read v.toWord).2) := by
      rw [Expr.outcome_or, outcome_readByte ha, Expr.outcome_singleBit, ← BitVec.setWidth_or]
    rw [bitOfMemory, outcome_writeByte ha joined, Value.toByte_ofByte]
    simp only [performAt, apply, kept]
    rfl

theorem outcome_bitOfRegister (op : BitOp) (n : Fin 8) (hm : m.ByteRegisters) {reg : Register}
    (hr : reg.isGeneral) (ops : Operands) :
    (bitOfRegister op reg (.singleBit n)).outcome holes m =
      (.continued, (bit op n).performed (.register reg) ops m) := by
  have kept := hm.setFlags_self
  have content := hm.reg_eq reg
  cases op with
  | test =>
    have apart : ¬ Register.f.name = reg.name := Ne.symm (Register.name_ne_flags hr)
    -- the register gets the byte that it holds already
    have same (f : Flags) : (m.setFlags f).setReg reg (.ofByte (m.reg reg).toByte) =
        m.setFlags f := by
      rw [← content, ← Machine.reg_set_of_ne m (.ofByte f.toByte) apart, ← Machine.setFlags_eq_set]
      exact Machine.set_get_self _ reg.name
    rw [bitOfRegister, perform, Stmt.outcome_effect, Expr.outcome_call, Expr.outcomeList_cons,
      Expr.outcome_and, Expr.outcome_register, Expr.outcome_singleBit, Expr.outcomeList_nil,
      List.getD_cons_zero, content, ← BitVec.setWidth_and]
    simp only [Primitive.apply, Value.toByte_ofByte, performed, apply, same]
  | reset =>
    rw [bitOfRegister, Stmt.outcome_assign_register, Expr.outcome_complement,
      Expr.outcome_singleBit]
    simp only [AssignOp.apply, performed, apply, kept]
    rw [content, Value.ofByte_and_complement, Value.toByte_ofByte]
  | set =>
    rw [bitOfRegister, Stmt.outcome_assign_register, Expr.outcome_singleBit]
    simp only [AssignOp.apply, performed, apply, kept]
    rw [content, ← BitVec.setWidth_or, Value.toByte_ofByte]

end

/-- A call of a primitive on a register. -/
theorem outcome_setToCall {f : Primitive} (hf : op.Computes f) (hm : m.ByteRegisters)
    (reg : Register) :
    (Stmt.set (.register reg) (f.call [.register reg])).outcome ops.resolve m =
      (.continued, op.performed (.register reg) ops m) := by
  have call : (f.call [.register reg]).outcome ops.resolve m =
      (.ofByte (op.apply (m.reg reg).toByte m.flags).value,
        m.setFlags (op.apply (m.reg reg).toByte m.flags).flags) := by
    rw [Expr.outcome_call, Expr.outcomeList_cons, Expr.outcome_register, Expr.outcomeList_nil,
      List.getD_cons_zero, hm.reg_eq reg, hf, Value.toByte_ofByte]
  rw [Stmt.set, Stmt.outcome_assign_register, call]
  rfl

/-- The address of an indexed byte is kept in a variable. -/
theorem outcome_locate (x : IndexRegister) (m : Machine) : (locate x).outcome ops.resolve m =
    (.continued, m.set "location" (.ofWord (m.displacedAddress x ops.value))) := by
  have address : (displaced x &&& 0xFFFF).outcome ops.resolve m =
      (.ofWord (m.displacedAddress x ops.value), m) := by
    rw [Expr.outcome_and, outcome_displaced, Expr.outcome_ofNat, Value.and_wordMask,
      m.toWord_displaced]
  rw [locate, Stmt.set, location, Stmt.outcome_assign_var, address]
  rfl

section
variable {holes : Hole → Value} {a : Word}

theorem outcome_location (h : m.get "location" = .ofWord a) :
    location.outcome holes m = (.ofWord a, m) := by
  rw [location, Expr.outcome_var, h]

/-- A shift whose result goes to a register on its way to memory. -/
theorem outcome_shiftWithCopy (sh : ShiftOp) (reg : Register)
    (h : m.get "location" = .ofWord a) :
    Stmt.outcomeList holes [.set (.register reg) ((Primitive.shift sh).call [readByte location]),
      writeByte location (.register reg)] m =
        (.continued, (shift sh).performAt a (some reg) m) := by
  have address : location.outcome holes m = (.ofWord a, m) := outcome_location h
  have copied := outcome_callAt (computes_shift sh) address
  rw [Value.toWord_ofWord] at copied
  generalize hr : (shift sh).apply (m.memory.get a) m.flags = r at copied
  -- the copy may go to a half of the index register, but the address is not computed again
  have kept : (((m.read a).2.setFlags r.flags).setReg reg (.ofByte r.value)).get "location" =
      .ofWord a := by
    rw [Machine.setReg_eq_set, Machine.get_set_of_ne _ _ (name_ne_location reg),
      Machine.setFlags_eq_set, Machine.get_set_of_ne _ _ (name_ne_location .f), Machine.get_read, h]
  have result : (Expr.register reg).outcome holes
      (((m.read a).2.setFlags r.flags).setReg reg (.ofByte r.value)) =
        (.ofByte r.value, ((m.read a).2.setFlags r.flags).setReg reg (.ofByte r.value)) := by
    rw [Expr.outcome_register, Machine.reg_setReg_self]
  rw [Stmt.outcomeList_cons, Stmt.set, Stmt.outcome_assign_register, copied,
    Flow.andThen_continued, Stmt.outcomeList_cons]
  simp only [AssignOp.apply]
  rw [outcome_writeByte (outcome_location kept) result, Flow.andThen_continued,
    Stmt.outcomeList_nil, Value.toWord_ofWord, Value.toByte_ofByte]
  simp only [performAt, hr]
  rfl

end

private theorem outcomeList_one {holes : Hole → Value} {s : Stmt} {m' : Machine}
    (h : s.outcome holes m = (.continued, m')) :
    Stmt.outcomeList holes [s] m = (.continued, m') := by
  rw [Stmt.outcomeList_cons, h, Flow.andThen_continued, Stmt.outcomeList_nil]

/-- The program of an operation on an indexed byte that keeps the address. -/
theorem outcome_locate_cons {x : IndexRegister} {copy : Option Register} (hl : op.locates)
    {rest : Program}
    (hr : ∀ a, Stmt.outcomeList ops.resolve rest (m.set "location" (.ofWord a)) =
      (.continued, op.performAt a copy (m.set "location" (.ofWord a)))) :
    Stmt.outcomeList ops.resolve (locate x :: rest) m =
      (.continued, op.performed (.indexed x copy) ops m) := by
  rw [Stmt.outcomeList_cons, outcome_locate, Flow.andThen_continued, hr]
  simp only [performed, hl, if_true]

private theorem byteRegisters_set_location (hm : m.ByteRegisters) (v : Value) :
    (m.set "location" v).ByteRegisters :=
  hm.set fun reg same => absurd same (name_ne_location reg)

/-- The program of each form, at each place, does the same operation. -/
theorem outcome_of_form {policy : Policy} {place : Place} {p : Program}
    (h : EffectForm policy (op.instruction place) p) (hp : op.accepts place)
    (hm : m.ByteRegisters) : p.outcome ops m = (.continued, op.performed place ops m) := by
  have kept (a : Word) : (m.set "location" (.ofWord a)).get "location" = .ofWord a :=
    m.get_set_self ..
  cases op with
  | shift op =>
    cases place with
    | register reg =>
      cases h with
      | shiftRegister _ _ hr => exact outcomeList_one (outcome_setToCall (computes_shift op) hm reg)
    | memory =>
      cases h with
      | shiftMemory => exact outcomeList_one (outcome_shiftInPlace op (outcome_pairValue m _ .hl))
    | indexed x copy =>
      cases h with
      | shiftIndexed =>
        refine outcome_locate_cons rfl fun a => outcomeList_one ?_
        rw [outcome_shiftInPlace op (outcome_location (kept a)), Value.toWord_ofWord]
      | shiftIndexedCopy _ _ reg hr =>
        exact outcome_locate_cons rfl fun a => outcome_shiftWithCopy op reg (kept a)
  | inc =>
    cases place with
    | register reg =>
      cases h with
      | incRegister _ hr => exact outcomeList_one (outcome_setToCall computes_inc hm reg)
    | memory =>
      cases h with
      | incMemory =>
        exact outcomeList_one (outcome_performAt computesAt_incMemory (outcome_pairValue m _ .hl))
    | indexed x copy =>
      cases copy with
      | some reg => cases hp
      | none =>
        cases h with
        | incIndexed =>
          rw [performed, ← m.toWord_displaced]
          exact outcomeList_one (outcome_performAt computesAt_incMemory (outcome_displaced ops m x))
  | dec =>
    cases place with
    | register reg =>
      cases h with
      | decRegister _ hr => exact outcomeList_one (outcome_setToCall computes_dec hm reg)
    | memory =>
      cases h with
      | decMemory =>
        exact outcomeList_one (outcome_performAt computesAt_decMemory (outcome_pairValue m _ .hl))
    | indexed x copy =>
      cases copy with
      | some reg => cases hp
      | none =>
        cases h with
        | decIndexed =>
          rw [performed, ← m.toWord_displaced]
          exact outcomeList_one (outcome_performAt computesAt_decMemory (outcome_displaced ops m x))
  | bit op n =>
    have number (hn : (BitVec.ofNat 8 n.val).toNat < 8) :
        (⟨(BitVec.ofNat 8 n.val).toNat, hn⟩ : Fin 8) = n := by
      apply Fin.ext
      simp only [BitVec.toNat_ofNat]
      omega
    cases place with
    | register reg =>
      cases h with
      | bitRegister _ _ hn _ =>
        rw [number hn]
        exact outcomeList_one (outcome_bitOfRegister op n hm hp ops)
    | memory =>
      cases h with
      | bitMemory _ _ hn =>
        rw [number hn]
        exact outcomeList_one (outcome_bitOfMemory op n hm (outcome_pairValue m _ .hl))
    | indexed x copy =>
      cases copy with
      | some reg => cases hp
      | none =>
        cases h with
        | bitIndexed _ _ hn _ =>
          rw [number hn]
          refine outcome_locate_cons rfl fun a => outcomeList_one ?_
          rw [outcome_bitOfMemory op n (byteRegisters_set_location hm _)
            (outcome_location (kept a)), Value.toWord_ofWord]

theorem general_of_isGeneral {reg : Register} (h : reg.isGeneral) :
    general reg = .ok (.register reg) := if_pos h

theorem exists_effect {place : Place} (hp : op.accepts place) (policy : Policy) :
    ∃ p, (op.instruction place).effect policy = .ok p := by
  cases op with
  | shift op =>
    cases place with
    | register reg =>
      simp only [instruction, Instruction.effect, Effect.shift, general_of_isGeneral hp]
      exact ⟨_, rfl⟩
    | memory => exact ⟨_, rfl⟩
    | indexed x copy =>
      cases copy with
      | none => exact ⟨_, rfl⟩
      | some reg =>
        simp only [instruction, Instruction.effect, Effect.shiftIndexed, general_of_isGeneral hp]
        exact ⟨_, rfl⟩
  | inc | dec =>
    cases place with
    | register reg =>
      simp only [instruction, Instruction.effect, incByte, decByte, countByte,
        general_of_isGeneral hp]
      exact ⟨_, rfl⟩
    | memory => exact ⟨_, rfl⟩
    | indexed x copy => exact ⟨_, rfl⟩
  | bit op n =>
    have number : (BitVec.ofNat 8 n.val).toNat < 8 := by
      simp only [BitVec.toNat_ofNat]
      omega
    cases place with
    | register reg => exact ⟨_, dif_pos number⟩
    | memory => exact ⟨_, dif_pos number⟩
    | indexed x copy => exact ⟨_, dif_pos number⟩

theorem exists_program {place : Place} (hp : op.accepts place) (policy : Policy)
    (ops : Operands) : ∃ p, (op.instruction place).program policy ops = .ok p := by
  obtain ⟨skeleton, effect⟩ := exists_effect hp policy
  obtain ⟨p, accepted, -⟩ := Instruction.exists_program_of_effect effect ops
  exact ⟨p, accepted⟩

/-- One run: the result and the flags are those of `apply`. -/
theorem run_performs (op : ByteOperation) {place : Place} (hp : op.accepts place)
    (policy : Policy) (ops : Operands) {m : Machine} (hm : m.ByteRegisters) :
    ∃ p m', (op.instruction place).program policy ops = .ok p ∧ p.run m = .ok .continued m' ∧
      op.Performs place ops (op.apply (place.operand ops m) m.flags) m m' := by
  obtain ⟨p, accepted⟩ := exists_program hp policy ops
  obtain ⟨skeleton, form, run⟩ := Instruction.exists_form_of_program accepted
  have run := run m
  rw [outcome_of_form form hp hm] at run
  exact ⟨p, _, accepted, run, performed_performs hp⟩

/-- All places of an operation agree: from one byte and the same flags, two of them give one result
and the same flags, each in its own place. -/
theorem run_performs_same (op : ByteOperation) {place place' : Place} (hp : op.accepts place)
    (hp' : op.accepts place') (policy policy' : Policy) (ops ops' : Operands) {m m' : Machine}
    (hm : m.ByteRegisters) (hm' : m'.ByteRegisters)
    (hx : place.operand ops m = place'.operand ops' m') (hf : m.reg .f = m'.reg .f) :
    ∃ r : FlaggedResult 8,
      (∃ p n, (op.instruction place).program policy ops = .ok p ∧ p.run m = .ok .continued n ∧
        op.Performs place ops r m n) ∧
      (∃ p n, (op.instruction place').program policy' ops' = .ok p ∧
        p.run m' = .ok .continued n ∧ op.Performs place' ops' r m' n) ∧
      ∀ bop k, op = .bit bop k → MeetsBit bop k (place.operand ops m) m.flags r := by
  have flags : m.flags = m'.flags := by
    rw [Machine.flags, hf, Machine.flags]
  refine ⟨op.apply (place.operand ops m) m.flags, op.run_performs hp policy ops hm, ?_, ?_⟩
  · rw [hx, flags]
    exact op.run_performs hp' policy' ops' hm'
  · rintro bop k rfl
    exact apply_meetsBit bop k _ _

/-- A rotation of a register and of the last byte of memory, with a copy to a half of the index
register. -/
theorem run_performs_same_rotateLeft :
    (shift .rl).accepts (.register .b) ∧ (shift .rl).accepts (.indexed .iy (some .iyh)) ∧
      Machine.blank.ByteRegisters ∧
      Place.operand {} .blank (.register .b) =
        Place.operand { value := -1 } .blank (.indexed .iy (some .iyh)) ∧
      ∃ r : FlaggedResult 8,
        (∃ p n, Instruction.program {} (.shift .rl (.register .b)) {} = .ok p ∧
          p.run .blank = .ok .continued n ∧
          (shift .rl).Performs (.register .b) {} r .blank n) ∧
        ∃ p n, Instruction.program {} (.shiftIndexed .rl .iy (some .iyh)) { value := -1 } = .ok p ∧
          p.run .blank = .ok .continued n ∧
          (shift .rl).Performs (.indexed .iy (some .iyh)) { value := -1 } r .blank n := by
  have same : Place.operand {} .blank (.register .b) =
      Place.operand { value := -1 } .blank (.indexed .iy (some .iyh)) := by
    rw [Place.operand, Place.operand, Machine.reg_blank]
    exact (Memory.get_blank _).symm
  have accepts : (shift .rl).accepts (.register .b) := rfl
  have accepts' : (shift .rl).accepts (.indexed .iy (some .iyh)) := rfl
  obtain ⟨r, first, second, -⟩ := run_performs_same (shift .rl) accepts accepts' {} {} {}
    { value := -1 } Machine.blank_byteRegisters Machine.blank_byteRegisters same rfl
  exact ⟨accepts, accepts', Machine.blank_byteRegisters, same, r, first, second⟩

end ByteOperation

end Z80Effects
