import Z80Effects.Proofs.AccumulatorOperations
import Z80Effects.Proofs.AssignedVariables
import Z80Effects.Proofs.InstructionRuns

/-!
# The registers `I`, `R` and `F` as destinations

These registers have encodings of their own, and the register field of an opcode does not name them.
Loads, counts and shifts refuse them as destinations. Indexed loads, inputs, and bit operations on
registers take any register and so overwrite `I` and `R` as well. Apart from the two loads from the
accumulator, no other instruction does.

An input through a register puts the byte of the port into its destination. The flags are set
afterwards, from the destination and, for the carry, from the flag register. That keeps the carry of
before as long as the destination is another register. With the flag register as the destination,
the carry is the lowest bit of the byte that was read.
-/
namespace Z80Effects

open Effect

/-- The registers `I` and `R` are as they were. -/
def Machine.SameSpecial (m m' : Machine) : Prop := m'.reg .i = m.reg .i ∧ m'.reg .r = m.reg .r

theorem Machine.not_sameSpecial {m m' : Machine} {reg : Register} (hr : reg.isSpecial)
    (changed : m'.reg reg ≠ m.reg reg) : ¬ m.SameSpecial m' := by
  intro same
  cases reg with
  | i => exact changed same.1
  | r => exact changed same.2
  | _ => cases hr

namespace Instruction

/-- The loads of `I` and `R` from the accumulator. -/
def loadsSpecial : Instruction → Bool
  | loadByte dst (.register .a) => dst.isSpecial
  | _ => false

/-- The destination is `I` or `R` and is not refused. -/
def overwritesSpecial : Instruction → Bool
  | loadIndexed dst _ | input dst _ => dst.isSpecial
  | bit op n (.register dst) => op != .test && decide (n.toNat < 8) && dst.isSpecial
  | _ => false

theorem special_not_mem_controlVariables (i : Instruction) {reg : Register} (hr : reg.isSpecial) :
    reg.name ∉ i.controlVariables := by
  have apart : i.controlVariables.all fun name =>
      name != Register.i.name && name != Register.r.name := by
    cases i with
    | incWord w | decWord w => cases w <;> rfl
    | call k | ret k => cases k <;> rfl
    | _ => rfl
  intro hn
  have other := List.all_eq_true.mp apart reg.name hn
  cases reg with
  | i | r => exact absurd other (by decide)
  | _ => cases hr

end Instruction

namespace EffectForm

variable {policy : Policy} {i : Instruction} {p : Program}

theorem not_isSpecial_of_destination (h : EffectForm policy i p) (hl : i.loadsSpecial = false)
    (ho : i.overwritesSpecial = false) {dst : Register} (hd : i.destination? = some dst) :
    dst.isSpecial = false := by
  cases h with
  | loadToI | loadToR => cases hl
  | loadRegister reg src =>
    cases src with
    | a => cases hd; exact hl
    | _ => cases hd
  | loadIndexed | input => cases hd; exact ho
  | bitRegister op n hn reg =>
    cases op with
    | test => cases hd
    | reset | set =>
      cases hd
      simpa [Instruction.overwritesSpecial, hn] using ho
  | _ => cases hd

/-- An instruction that does not overwrite the special registers does not assign them. -/
theorem special_not_mem_assigns (h : EffectForm policy i p) (hl : i.loadsSpecial = false)
    (ho : i.overwritesSpecial = false) {reg : Register} (hr : reg.isSpecial) :
    reg.name ∉ Stmt.assignsList p := by
  intro hn
  have assigned := List.all_eq_true.mp h.assigns_common reg.name hn
  simp only [Bool.or_eq_true, List.contains_iff_mem, Option.any_eq_true, beq_iff_eq] at assigned
  rcases assigned with (common | ⟨dst, hd, same⟩) | control
  · cases reg with
    | i | r => exact absurd common (by decide)
    | _ => cases hr
  · obtain rfl := Register.name_injective same
    rw [h.not_isSpecial_of_destination hl ho hd] at hr
    cases hr
  · exact i.special_not_mem_controlVariables hr control

theorem sameSpecial_outcome (h : EffectForm policy i p) (hl : i.loadsSpecial = false)
    (ho : i.overwritesSpecial = false) (ops : Operands) (m : Machine) :
    m.SameSpecial (p.outcome ops m).2 := by
  have same {reg : Register} (hr : reg.isSpecial) : (p.outcome ops m).2.reg reg = m.reg reg := by
    rw [Machine.reg_eq_get, Machine.reg_eq_get]
    exact Stmt.get_outcomeList_of_not_mem p (h.special_not_mem_assigns hl ho hr) m
  exact ⟨same rfl, same rfl⟩

end EffectForm

section
variable {dst : Register} (m : Machine)

theorem reg_loadIndexed (x : IndexRegister) (ops : Operands) :
    ((loadIndexed dst x).outcome ops m).2.reg dst =
      .ofByte (m.memory.get (m.pair x.pair + ops.value).toWord) := by
  have read := outcome_readByte (outcome_displaced ops m x)
  simp [Program.outcome, loadIndexed, Stmt.set, AssignOp.apply, read]

theorem reg_input (hd : dst.isSpecial) (port : PortSource) (ops : Operands) :
    ∃ n, ((input dst port).outcome ops m).2.reg dst = .ofByte (m.ports n) := by
  have apart : Register.f ≠ dst := by
    rintro rfl
    cases hd
  cases port with
  | immediate =>
    refine ⟨ops.value.toByte, ?_⟩
    simp [Program.outcome, input, Stmt.set, AssignOp.apply, Primitive.apply]
  | register reg =>
    refine ⟨(m.reg reg).toByte, ?_⟩
    simp [Program.outcome, input, Stmt.set, AssignOp.apply, Primitive.apply, outcome_flagBit,
      outcome_signZeroParity, Machine.reg_setReg_of_ne _ _ apart]

theorem reg_bitOfRegister_reset (n : Fin 8) (ops : Operands) :
    (Program.outcome [bitOfRegister .reset dst (.singleBit n)] ops m).2.reg dst =
      m.reg dst &&& ~~~ Value.ofByte (Byte.singleBit n) := by
  simp [Program.outcome, bitOfRegister, AssignOp.apply]

theorem reg_bitOfRegister_set (n : Fin 8) (ops : Operands) :
    (Program.outcome [bitOfRegister .set dst (.singleBit n)] ops m).2.reg dst =
      m.reg dst ||| Value.ofByte (Byte.singleBit n) := by
  simp [Program.outcome, bitOfRegister, AssignOp.apply]

end

namespace Instruction

variable {policy : Policy} {i : Instruction}

private theorem exists_run_changing {skeleton : Program} {dst : Register} {m : Machine}
    (he : i.effect policy = .ok skeleton) (hd : dst.isSpecial)
    (changed : (skeleton.outcome {} m).2.reg dst ≠ m.reg dst) :
    ∃ p flow m', i.program policy {} = .ok p ∧ p.run m = .ok flow m' ∧ ¬ m.SameSpecial m' := by
  obtain ⟨p, hp, run⟩ := exists_program_of_effect he {}
  exact ⟨p, _, _, hp, run m, Machine.not_sameSpecial hd changed⟩

/-- Each instruction that overwrites a special register changes it on some machine. -/
theorem exists_run_of_overwritesSpecial (policy : Policy) (ho : i.overwritesSpecial) :
    ∃ m p flow m', i.program policy {} = .ok p ∧ p.run m = .ok flow m' ∧ ¬ m.SameSpecial m' := by
  cases i with
  | loadIndexed dst x =>
    refine ⟨Machine.blank.set dst.name 1, exists_run_changing rfl ho ?_⟩
    rw [reg_loadIndexed, Machine.memory_set, Machine.reg_eq_get, Machine.get_set_self]
    simp [Machine.blank]
  | input dst port =>
    refine ⟨Machine.blank, exists_run_changing rfl ho ?_⟩
    obtain ⟨n, read⟩ := reg_input Machine.blank ho port {}
    rw [read, Machine.reg_blank]
    simp [Machine.blank]
  | bit op n cell =>
    cases cell with
    | memory | indexed => cases ho
    | register dst =>
      simp only [overwritesSpecial, Bool.and_eq_true, bne_iff_ne, decide_eq_true_eq] at ho
      obtain ⟨⟨changes, hn⟩, hd⟩ := ho
      have accepted : (Instruction.bit op n (.register dst)).effect policy =
          .ok [bitOfRegister op dst (.singleBit ⟨n.toNat, hn⟩)] := by
        simp only [effect, Effect.bit, dif_pos hn]
      have nonzero : ∀ k : Fin 8, Value.ofByte (Byte.singleBit k) ≠ 0 := by decide
      cases op with
      | test => cases changes rfl
      | reset =>
        refine ⟨Machine.blank.set dst.name (.ofByte (Byte.singleBit ⟨n.toNat, hn⟩)),
          exists_run_changing accepted hd ?_⟩
        rw [reg_bitOfRegister_reset, Machine.reg_eq_get, Machine.get_set_self,
          BitVec.and_not_self]
        exact (nonzero _).symm
      | set =>
        refine ⟨Machine.blank, exists_run_changing accepted hd ?_⟩
        rw [reg_bitOfRegister_set, Machine.reg_blank]
        exact fun same => nonzero _ (BitVec.zero_or.symm.trans same)
  | _ => cases ho

private theorem sameSpecial_of_run {p : Program} {flow : Flow} {m m' : Machine}
    (run : p.run m = .ok flow m') (h : ∃ flow m', p.run m = .ok flow m' ∧ m.SameSpecial m') :
    m.SameSpecial m' := by
  obtain ⟨flow', m'', run', kept⟩ := h
  have same := run.symm.trans run'
  simp only [EStateM.Result.ok.injEq] at same
  rw [same.2]
  exact kept

/-- Apart from the two loads from the accumulator, an instruction leaves `I` and `R` alone on every
machine and with all operands exactly if its destination is another register or is refused. -/
theorem run_sameSpecial_iff (policy : Policy) (i : Instruction) (hl : i.loadsSpecial = false) :
    (∀ ops p, i.program policy ops = .ok p →
      ∀ m, ∃ flow m', p.run m = .ok flow m' ∧ m.SameSpecial m') ↔
      i.overwritesSpecial = false := by
  constructor
  · intro same
    rw [← Bool.not_eq_true]
    intro ho
    obtain ⟨m, p, flow, m', hp, run, changed⟩ := exists_run_of_overwritesSpecial policy ho
    exact changed (sameSpecial_of_run run (same {} p hp m))
  · intro ho ops p hp m
    obtain ⟨skeleton, form, run⟩ := exists_form_of_program hp
    exact ⟨_, _, run m, form.sameSpecial_outcome hl ho ops m⟩

theorem run_sameSpecial_iff_loadFromI :
    (Instruction.loadByte .a (.register .i)).loadsSpecial = false ∧
      ∀ ops p, (Instruction.loadByte .a (.register .i)).program {} ops = .ok p →
        ∀ m, ∃ flow m', p.run m = .ok flow m' ∧ m.SameSpecial m' :=
  ⟨rfl, (run_sameSpecial_iff {} (.loadByte .a (.register .i)) rfl).mpr rfl⟩

/-- Not every instruction apart from these loads leaves `I` and `R` alone: setting a bit takes `I`
for its register. -/
theorem not_forall_run_sameSpecial : ¬ ∀ (policy : Policy) (i : Instruction),
    i.loadsSpecial = false → ∀ ops p, i.program policy ops = .ok p →
      ∀ m, ∃ flow m', p.run m = .ok flow m' ∧ m.SameSpecial m' := by
  intro h
  have accepted : (Instruction.bit .set 0 (.register .i)).effect {} =
      .ok [bitOfRegister .set .i (.singleBit 0)] := rfl
  have changed :
      (Program.outcome [bitOfRegister .set .i (.singleBit 0)] {} Machine.blank).2.reg .i ≠
        Machine.blank.reg .i := by
    rw [reg_bitOfRegister_set, Machine.reg_blank]
    decide
  obtain ⟨p, flow, m', hp, run, changed⟩ := exists_run_changing accepted rfl changed
  exact changed (sameSpecial_of_run run (h {} _ rfl {} p hp Machine.blank))

end Instruction

def Flags.afterInput (b : Byte) (carry : Bool) : Flags :=
  { FlagTable.signZeroParity.entry b with half := false, negative := false, carry := carry }

/-- The carry, masked out of the flag register, joined with an entry of the table of flags. -/
theorem Flag.and_carry_or_entry (v : Value) (b : Byte) :
    v &&& .ofByte carry.mask ||| .ofByte (FlagTable.signZeroParity.entry b).toByte =
      Value.ofByte (Flags.afterInput b (Flags.ofByte v.toByte).carry).toByte := by
  rw [carry.and_mask, Flags.get]
  cases (Flags.ofByte v.toByte).carry with
  | true =>
    rw [if_pos rfl, BitVec.or_comm, Value.ofByte, Value.ofByte, ← BitVec.setWidth_or,
      Flags.toByte_or_mask]
    rfl
  | false => exact BitVec.zero_or

namespace Machine

def portByte (m : Machine) (port : Register) : Byte := m.ports (m.reg port).toByte

/-- One machine is the other after a byte has come into a register, with some carry. -/
structure Inputs (m m' : Machine) (dst : Register) (b : Byte) (carry : Bool) : Prop where
  destination : dst ≠ .f → m'.reg dst = .ofByte b
  flags : m'.reg .f = .ofByte (Flags.afterInput b carry).toByte
  get : ∀ name, name ≠ dst.name → name ≠ Register.f.name → m'.get name = m.get name
  memory : m'.memory = m.memory
  log : m'.log = m.log
  ports : m'.ports = m.ports
  outputs : m'.outputs = m.outputs
  randomSource : m'.randomSource = m.randomSource

/-- The machine after a byte has come into a register. The carry is that of the flag register as it
is then. -/
def input (m : Machine) (dst : Register) (b : Byte) : Machine :=
  (m.setReg dst (.ofByte b)).setFlags
    (.afterInput b (m.setReg dst (.ofByte b)).flags.carry)

variable {m m' : Machine} {dst : Register} {b : Byte} {carry : Bool}

theorem Inputs.carry_eq (h : m.Inputs m' dst b carry) : m'.flags.carry = carry := by
  rw [Machine.flags, h.flags, Value.toByte_ofByte, Flags.ofByte_toByte]
  rfl

theorem carry_setReg (m : Machine) (dst : Register) (b : Byte) :
    (m.setReg dst (.ofByte b)).flags.carry =
      if dst = .f then b.getLsbD 0 else m.flags.carry := by
  by_cases h : dst = .f
  · rw [if_pos h, h, Machine.flags, reg_setReg_self, Value.toByte_ofByte]
    rfl
  · rw [if_neg h, Machine.flags, reg_setReg_of_ne _ _ h]
    rfl

theorem inputs_input (m : Machine) (dst : Register) (b : Byte) :
    m.Inputs (m.input dst b) dst b (if dst = .f then b.getLsbD 0 else m.flags.carry) := by
  constructor
  case destination =>
    intro h
    rw [input, Machine.setFlags, reg_setReg_of_ne _ _ h.symm, reg_setReg_self]
  case flags => rw [input, reg_setFlags_self, carry_setReg]
  case get =>
    intro name other unflagged
    rw [input, get_setFlags_of_ne _ _ unflagged.symm, setReg_eq_set, get_set_of_ne _ _ other.symm]
  all_goals rfl

end Machine

namespace Instruction

/-- Every input through a register is accepted, whatever its destination. -/
theorem runs_input (policy : Policy) (dst port : Register) (ops : Operands) (m : Machine) :
    (input dst (.register port)).Runs policy ops m (m.input dst (m.portByte port)) := by
  have accepted : (input dst (.register port)).effect policy =
      .ok (Effect.input dst (.register port)) := rfl
  have read : (Primitive.portIn.call [.register port]).outcome ops.resolve m =
      (.ofByte (m.portByte port), m) := by
    rw [Expr.outcome_call, Expr.outcomeList_cons, Expr.outcome_register, Expr.outcomeList_nil]
    rfl
  refine runs_of_outcome accepted ?_
  rw [Program.outcome, Effect.input, Stmt.set, Stmt.set, Stmt.outcomeList_cons,
    Stmt.outcome_assign_register, read, Flow.andThen_continued, Stmt.outcomeList_cons,
    Stmt.outcome_assign_register, Expr.outcome_or, outcome_flagBit, outcome_signZeroParity,
    Flow.andThen_continued, Stmt.outcomeList_nil]
  simp only [AssignOp.apply, Machine.reg_setReg_self, Value.toByte_ofByte]
  exact congrArg (fun f => (Flow.continued, (m.setReg dst _).setReg .f f))
    (Flag.and_carry_or_entry _ _)

/-- An input through a register gives its destination the byte of the port, sets the flags by it,
and changes nothing else. The carry is as before unless the destination is the flag register itself
and the lowest bit of the byte is another one. -/
theorem run_input (policy : Policy) (dst port : Register) (ops : Operands) (m : Machine) :
    ∃ m', (input dst (.register port)).Runs policy ops m m' ∧
    m.Inputs m' dst (m.portByte port)
      (if dst = .f then (m.portByte port).getLsbD 0 else m.flags.carry) ∧
    (m'.flags.carry = m.flags.carry ↔
      (dst = .f → (m.portByte port).getLsbD 0 = m.flags.carry)) := by
  have inputs := m.inputs_input dst (m.portByte port)
  refine ⟨_, runs_input policy dst port ops m, inputs, ?_⟩
  rw [inputs.carry_eq]
  by_cases h : dst = .f
  · rw [if_pos h]
    exact ⟨fun same _ => same, fun same => same h⟩
  · rw [if_neg h]
    exact iff_of_true rfl fun same => absurd same h

/-- An input does not always keep the carry: with nothing attached to the port, the flag register
as the destination gets it from a byte of ones. -/
theorem not_forall_run_input : ¬ ∀ (policy : Policy) (dst port : Register) (ops : Operands)
    (p : Program), (input dst (.register port)).program policy ops = .ok p →
      ∀ m : Machine, m.ByteRegisters → ∃ flow m', p.run m = .ok flow m' ∧
        m.Inputs m' dst (m.portByte port) m.flags.carry := by
  intro h
  obtain ⟨p, accepted, run⟩ := runs_input {} .f .c {} Machine.blank
  obtain ⟨flow, m', run', inputs⟩ :=
    h {} .f .c {} p accepted Machine.blank Machine.blank_byteRegisters
  have same := run.symm.trans run'
  simp only [EStateM.Result.ok.injEq] at same
  obtain ⟨-, rfl⟩ := same
  have kept := inputs.carry_eq
  rw [(Machine.blank.inputs_input .f (Machine.blank.portByte .c)).carry_eq, if_pos rfl,
    Machine.flags, Machine.reg_blank] at kept
  exact absurd kept (by decide)

end Instruction

end Z80Effects
