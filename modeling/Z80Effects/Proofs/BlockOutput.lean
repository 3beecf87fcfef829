import Z80Effects.Proofs.ByteOperands

/-!
# Block output

`outputByte` is the step of a block output: the byte at `(HL)` goes to the port that `C` names, the
counter `B` and the pointer step, and the flags are put together from the new counter, the low half
of the new pointer and the byte. Programs may test bit 7 of the byte in any way.
-/
namespace Z80Effects

open Effect

/-- The flags after a byte has been sent: those of the counter stepping down from `counter`, except
that half carry and carry tell whether the byte and the low half of the pointer, `low`, exceed a
byte together, and the negative flag is bit 7 of the byte. -/
def Flags.afterOutput (counter low byte : Byte) : Flags :=
  { (Byte.dec counter).flags with
    half := 255 < low.toNat + byte.toNat
    negative := byte.msb
    carry := 255 < low.toNat + byte.toNat }

/-- The last step of the counter leaves no other flag set than those that the byte decides. -/
theorem Flags.afterOutput_one (low byte : Byte) : Flags.afterOutput 1 low byte =
    { zero := true, half := 255 < low.toNat + byte.toNat, negative := byte.msb
      carry := 255 < low.toNat + byte.toNat } := rfl

namespace Machine

variable (m : Machine)

def byteAtHl : Byte := m.memory.get (m.pair .hl).toWord

def sendByte : Machine :=
  ((m.read (m.pair .hl).toWord).2.set "temp" (.ofByte m.byteAtHl)).putOut (m.reg .c).toByte
    m.byteAtHl

/-- After a byte has been sent, the counter and the pointer step. -/
def stepOutput : Machine :=
  (m.sendByte.setReg .b (.ofByte ((m.reg .b).toByte - 1))).setPair .hl (m.pair .hl + 1)

def outputByte : Machine :=
  m.stepOutput.setFlags
    (Flags.afterOutput (m.reg .b).toByte (m.pair .hl + 1).toWord.low m.byteAtHl)

theorem get_sendByte_of_ne {name : String} (h : ¬ "temp" = name) :
    m.sendByte.get name = m.get name := by
  rw [sendByte, get_putOut, get_set_of_ne _ _ h, get_read]

theorem reg_sendByte (reg : Register) : m.sendByte.reg reg = m.reg reg :=
  m.get_sendByte_of_ne (Register.ne_name (by decide) reg)

theorem pair_sendByte (p : RegisterPair) : m.sendByte.pair p = m.pair p := by
  simp only [pair, reg_sendByte]

theorem flags_sendByte : m.sendByte.flags = m.flags := by
  simp only [flags, reg_sendByte]

theorem temp_stepOutput : m.stepOutput.get "temp" = .ofByte m.byteAtHl := by
  simp [stepOutput, sendByte, setPair_eq_set, setReg_eq_set, get_set, RegisterPair.high,
    RegisterPair.low, Register.name]

theorem low_stepOutput : m.stepOutput.reg .l = .ofByte (m.pair .hl + 1).toWord.low :=
  (holdsWord_setPair _ .hl _).low

end Machine

variable (holes : Hole → Value) (m : Machine)

theorem outcome_decB : decB.outcome holes m =
    (.continued, (m.setReg .b (.ofByte ((m.reg .b).toByte - 1))).setFlags
      { (Byte.dec (m.reg .b).toByte).flags with carry := m.flags.carry }) := by
  have apart : ¬ Register.f.name = Register.b.name := by decide
  rw [decB, Stmt.set, Stmt.outcome_assign_register, Expr.outcome_call, Expr.outcomeList_cons,
    Expr.outcome_register, Expr.outcomeList_nil]
  simp only [Primitive.apply, AssignOp.apply, Machine.setFlagsKeepingCarry, Machine.setReg]
  rw [Machine.set_setFlags _ _ _ apart]
  rfl

theorem outcome_incHl_setFlags (f : Flags) : (perform .incHl []).outcome holes (m.setFlags f) =
    (.continued, (m.setPair .hl (m.pair .hl + 1)).setFlags f) := by
  rw [perform, Stmt.outcome_effect, Expr.outcome_call, Expr.outcomeList_nil]
  simp only [Primitive.apply]
  rw [m.pair_setFlags (by decide), m.setPair_setFlags (by decide)]

theorem outcome_sendByte (rest : Program) :
    Stmt.outcomeList holes (.set temp byteAtHl :: perform .portOut [.register .c, temp] :: rest) m =
      Stmt.outcomeList holes rest m.sendByte := by
  have fetch : (Stmt.set temp byteAtHl).outcome holes m =
      (.continued, (m.read (m.pair .hl).toWord).2.set "temp" (.ofByte m.byteAtHl)) := by
    rw [Stmt.set, temp, Stmt.outcome_assign_var, byteAtHl,
      outcome_readByte (outcome_pairValue m holes .hl)]
    rfl
  have send (m : Machine) : (perform .portOut [.register .c, temp]).outcome holes m =
      (.continued, m.putOut (m.reg .c).toByte (m.get "temp").toByte) := by
    simp [perform, temp, Primitive.apply]
  have port : ((m.read (m.pair .hl).toWord).2.set "temp" (.ofByte m.byteAtHl)).reg .c =
      m.reg .c := by
    rw [Machine.reg_set_of_ne _ _ (by decide), Machine.reg_eq_get, Machine.get_read,
      Machine.reg_eq_get]
  rw [Stmt.outcomeList_cons, fetch, Flow.andThen_continued, Stmt.outcomeList_cons, send,
    Flow.andThen_continued, port, Machine.get_set_self, Value.toByte_ofByte, Machine.sendByte]

private theorem outcome_stepOutput (rest : Program) :
    Stmt.outcomeList holes (decB :: perform .incHl [] :: rest) m.sendByte =
      Stmt.outcomeList holes rest (m.stepOutput.setFlags
        { (Byte.dec (m.reg .b).toByte).flags with carry := m.flags.carry }) := by
  have pointer (v : Value) : (m.sendByte.setReg .b v).pair .hl = m.pair .hl := by
    rw [Machine.setReg, Machine.pair_set_of_ne _ _ (by decide) (by decide), m.pair_sendByte]
  rw [Stmt.outcomeList_cons, outcome_decB, Flow.andThen_continued, Stmt.outcomeList_cons,
    outcome_incHl_setFlags, Flow.andThen_continued, pointer, m.reg_sendByte, m.flags_sendByte,
    Machine.stepOutput]

/-- The sum of two bytes is compared with a byte without wrapping. -/
theorem slt_ofByte_add (x y : Byte) :
    (255#32).slt (Value.ofByte x + Value.ofByte y) = decide (255 < x.toNat + y.toNat) := by
  have sum : (Value.ofByte x + Value.ofByte y).toNat = x.toNat + y.toNat := by
    bv_omega
  have signed : (Value.ofByte x + Value.ofByte y).toInt = x.toNat + y.toNat := by
    rw [BitVec.toInt_eq_toNat_of_lt (by omega), sum, Int.natCast_add]
  have bound : (255#32).toInt = 255 := rfl
  rw [BitVec.slt, signed, bound, decide_eq_decide]
  omega

/-- Whether the byte and the low half of the pointer exceed a byte together. -/
private theorem outcome_exceeds (f : Flags) :
    ((Expr.register .l + temp).exceeds 255).outcome holes (m.stepOutput.setFlags f) =
      (.ofBool (255 < (m.pair .hl + 1).toWord.low.toNat + m.byteAtHl.toNat),
        m.stepOutput.setFlags f) := by
  simp only [temp, Expr.outcome_exceeds, Expr.outcome_add, Expr.outcome_register, Expr.outcome_var,
    Expr.outcome_ofNat, Machine.reg_eq_get, Register.name]
  rw [Machine.get_setFlags_of_ne _ _ (by decide), Machine.get_setFlags_of_ne _ _ (by decide),
    m.temp_stepOutput, ← slt_ofByte_add, ← m.low_stepOutput]
  rfl

/-- A choice between setting some flags and clearing them. -/
private theorem outcome_choose_flags {test : Expr} {f : Flags} {b : Bool}
    (h : test.outcome holes (m.setFlags f) = (.ofBool b, m.setFlags f)) (flags : List Flag) :
    (Stmt.choose test (flags.map setFlag) (flags.map clearFlag)).outcome holes (m.setFlags f) =
      (.continued, m.setFlags (flags.foldl (·.put b) f)) := by
  have each (flags : List Flag) (f : Flags) :
      Stmt.outcomeList holes (flags.map (if b then setFlag else clearFlag)) (m.setFlags f) =
        (.continued, m.setFlags (flags.foldl (·.put b) f)) := by
    induction flags generalizing f with
    | nil => rfl
    | cons flag flags ih =>
      have first : ((if b then setFlag else clearFlag) flag).outcome holes (m.setFlags f) =
          (.continued, m.setFlags (f.put b flag)) := by
        cases b with
        | true => exact outcome_setFlag holes m f flag
        | false => exact outcome_clearFlag holes m f flag
      rw [List.map_cons, Stmt.outcomeList_cons, first, Flow.andThen_continued, ih, List.foldl_cons]
  rw [Stmt.outcome_choose, h, ← each]
  cases b <;> rfl

/-- A program that tests bit 7 of the byte in some way sends one byte. -/
theorem outcome_outputByte {test : Expr}
    (ht : ∀ m byte, m.get "temp" = .ofByte byte → test.outcome holes m = (.ofBool byte.msb, m)) :
    Stmt.outcomeList holes (outStep .incHl ++ [negativeFrom test]) m =
      (.continued, m.outputByte) := by
  have form : outStep .incHl ++ [negativeFrom test] =
      .set temp byteAtHl :: perform .portOut [.register .c, temp] :: decB :: perform .incHl [] ::
        [.choose ((.register .l + temp).exceeds 255) ([.carry, .half].map setFlag)
          ([.carry, .half].map clearFlag),
          .choose test ([.negative].map setFlag) ([.negative].map clearFlag)] := rfl
  have topBit (f : Flags) : test.outcome holes (m.stepOutput.setFlags f) =
      (.ofBool m.byteAtHl.msb, m.stepOutput.setFlags f) := by
    refine ht _ _ ?_
    rw [Machine.get_setFlags_of_ne _ _ (by decide), m.temp_stepOutput]
  rw [form, outcome_sendByte, outcome_stepOutput, Stmt.outcomeList_cons,
    outcome_choose_flags holes _ (outcome_exceeds holes m _), Flow.andThen_continued,
    Stmt.outcomeList_cons, outcome_choose_flags holes _ (topBit _), Flow.andThen_continued,
    Stmt.outcomeList_nil]
  rfl

theorem outcome_topBit {m : Machine} {byte : Byte} (h : m.get "temp" = .ofByte byte) :
    topBit.outcome holes m = (if byte.msb then 0x80 else 0, m) := by
  have sign : (Flags.ofByte (Value.ofByte byte).toByte).get .sign = byte.msb := by
    rw [Value.toByte_ofByte, Flags.get_ofByte, BitVec.msb_eq_getLsbD_last]
    rfl
  have bit := Flag.and_mask .sign (Value.ofByte byte)
  rw [sign] at bit
  simp only [topBit, temp, Expr.outcome_and, Expr.outcome_var, Expr.outcome_ofNat, h]
  exact congrArg (·, m) bit

theorem outcome_outi : Stmt.outcomeList holes outi m = (.continued, m.outputByte) := by
  refine outcome_outputByte holes m fun m byte h => ?_
  rw [Expr.outcome_equals, outcome_topBit holes h]
  cases byte.msb <;> rfl

/-- The repeating output tests bit 7 in another way. -/
theorem outcome_otirStep : Stmt.outcomeList holes
    (outStep .incHl ++ [negativeFrom (topBit.differs 0)]) m = (.continued, m.outputByte) := by
  refine outcome_outputByte holes m fun m byte h => ?_
  rw [Expr.outcome_differs, outcome_topBit holes h]
  cases byte.msb <;> rfl

namespace Machine

def outputTargets : List String := ["b", "h", "l", "f", "temp"]

theorem counter_outputByte : m.outputByte.reg .b = .ofByte ((m.reg .b).toByte - 1) := by
  simp [outputByte, stepOutput, setFlags_eq_set, setPair_eq_set, setReg_eq_set, reg_eq_get, get_set,
    RegisterPair.high, RegisterPair.low, Register.name]

theorem pointer_outputByte : m.outputByte.HoldsWord .hl ((m.pair .hl).toWord + 1) := by
  have next : (m.pair .hl + 1).toWord = (m.pair .hl).toWord + 1 := by
    bv_omega
  rw [outputByte, stepOutput, setFlags_eq_set, ← next]
  exact (holdsWord_setPair _ .hl _).set_of_ne _ (by decide) (by decide)

theorem reg_f_outputByte : m.outputByte.reg .f = .ofByte
    (Flags.afterOutput (m.reg .b).toByte (m.pair .hl + 1).toWord.low m.byteAtHl).toByte :=
  m.stepOutput.reg_setFlags_self _

theorem low_outputByte : m.outputByte.reg .l = .ofByte (m.pair .hl + 1).toWord.low := by
  rw [outputByte, setFlags_eq_set, reg_set_of_ne _ _ (by decide), low_stepOutput]

theorem get_outputByte_of_not_mem {name : String} (h : name ∉ outputTargets) :
    m.outputByte.get name = m.get name := by
  simp only [outputTargets, List.mem_cons, List.not_mem_nil, or_false, not_or] at h
  obtain ⟨hb, hh, hl, hf, ht⟩ := h
  simp [outputByte, stepOutput, sendByte, setFlags_eq_set, setPair_eq_set, setReg_eq_set, get_set,
    RegisterPair.high, RegisterPair.low, Register.name, Ne.symm hb, Ne.symm hh, Ne.symm hl,
    Ne.symm hf, Ne.symm ht]

theorem memory_outputByte : m.outputByte.memory = m.memory := by
  simp [outputByte, stepOutput, sendByte, setFlags_eq_set, setReg_eq_set]

theorem log_outputByte : m.outputByte.log = m.log.push (.read (m.pair .hl).toWord) := by
  simp [outputByte, stepOutput, sendByte, setFlags_eq_set, setPair_eq_set, setReg_eq_set]

theorem outputs_outputByte :
    m.outputByte.outputs = m.outputs.push ((m.reg .c).toByte, m.byteAtHl) := by
  simp [outputByte, stepOutput, sendByte, setFlags_eq_set, setReg_eq_set]

end Machine

end Z80Effects
