import Z80Effects.Proofs.ByteOperands

/-!
# Operations on one byte

Rotations and shifts, increments and decrements, and the operations on single bits take a byte from
a register, from `(HL)` or from a displacement from an index register, and leave the result there.
`ByteOperation.apply` gives the result and the flags for all places, and `ByteOperation.Performs`
says what an operation on a place makes of a machine.
-/
namespace Z80Effects

inductive ByteOperation
  | shift (op : ShiftOp)
  | inc
  | dec
  | bit (op : BitOp) (n : Fin 8)
  deriving DecidableEq

/-- Where the byte is. The result of an operation on an indexed byte may also go to a register. -/
inductive Place
  | register (reg : Register)
  | memory
  | indexed (x : IndexRegister) (copy : Option Register)
  deriving DecidableEq

namespace Place

def address? (ops : Operands) (m : Machine) : Place → Option Word
  | register _ => none
  | memory => some (m.pair .hl).toWord
  | indexed x _ => some (m.displacedAddress x ops.value)

def operand (ops : Operands) (m : Machine) : Place → Byte
  | register reg => (m.reg reg).toByte
  | memory => m.memory.get (m.pair .hl).toWord
  | indexed x _ => m.memory.get (m.displacedAddress x ops.value)

def registers : Place → List Register
  | register reg | indexed _ (some reg) => [reg]
  | memory | indexed _ none => []

/-- The variables that an operation may change. -/
def targets (place : Place) : List String :=
  Register.f.name :: "location" :: place.registers.map Register.name

end Place

namespace ByteOperation

/-- The result and the new flags, from the byte and the present flags. -/
def apply : ByteOperation → Byte → Flags → FlaggedResult 8
  | shift op, x, f => op.apply x f.carry
  | inc, x, f => ⟨(Byte.inc x).value, { (Byte.inc x).flags with carry := f.carry }⟩
  | dec, x, f => ⟨(Byte.dec x).value, { (Byte.dec x).flags with carry := f.carry }⟩
  | bit .test n, x, f => ⟨x, f.ofBitTest (x &&& Byte.singleBit n)⟩
  | bit .reset n, x, f => ⟨x &&& ~~~Byte.singleBit n, f⟩
  | bit .set n, x, f => ⟨x ||| Byte.singleBit n, f⟩

/-- Every operation writes its result, except the test of a bit. -/
def writes : ByteOperation → Bool
  | bit .test _ => false
  | _ => true

/-- The operation has an encoding for the place. Only shifts copy their result. -/
def accepts : ByteOperation → Place → Bool
  | _, .register reg | shift _, .indexed _ (some reg) => reg.isGeneral
  | _, .memory | _, .indexed _ none => true
  | _, .indexed _ (some _) => false

def instruction : ByteOperation → Place → Instruction
  | shift op, .register reg => .shift op (.register reg)
  | shift op, .memory => .shift op .memory
  | shift op, .indexed x copy => .shiftIndexed op x copy
  | inc, .register reg => .inc (.register reg)
  | inc, .memory => .inc .memory
  | inc, .indexed x _ => .incIndexed x
  | dec, .register reg => .dec (.register reg)
  | dec, .memory => .dec .memory
  | dec, .indexed x _ => .decIndexed x
  | bit op n, .register reg => .bit op (BitVec.ofNat 8 n) (.register reg)
  | bit op n, .memory => .bit op (BitVec.ofNat 8 n) .memory
  | bit op n, .indexed x _ => .bit op (BitVec.ofNat 8 n) (.indexed x)

/-- What an operation on a place makes of a machine, for a result and flags. -/
structure Performs (op : ByteOperation) (place : Place) (ops : Operands) (r : FlaggedResult 8)
    (m m' : Machine) : Prop where
  flags : m'.reg .f = .ofByte r.flags.toByte
  register : ∀ reg ∈ place.registers, m'.reg reg = .ofByte r.value
  memory : m'.memory = match place.address? ops m with
    | some a => if op.writes then m.memory.set a r.value else m.memory
    | none => m.memory
  log : m'.log = match place.address? ops m with
    | some a => if op.writes then (m.log.push (.read a)).push (.write a r.value)
        else m.log.push (.read a)
    | none => m.log
  get_of_not_mem : ∀ name ∉ place.targets, m'.get name = m.get name
  ports : m'.ports = m.ports
  outputs : m'.outputs = m.outputs
  randomSource : m'.randomSource = m.randomSource

/-- The result of an operation on one bit, bit by bit. -/
def MeetsBit (op : BitOp) (n : Fin 8) (x : Byte) (f : Flags) (r : FlaggedResult 8) : Prop :=
  match op with
  | .test => r.value = x ∧ (r.flags.zero ↔ x.getLsbD n = false)
  | .reset => r.flags = f ∧ ∀ i < 8, r.value.getLsbD i = if i = n then false else x.getLsbD i
  | .set => r.flags = f ∧ ∀ i < 8, r.value.getLsbD i = if i = n then true else x.getLsbD i

theorem getLsbD_singleBit (n : Fin 8) (i : Nat) :
    (Byte.singleBit n).getLsbD i = decide (i = n) := by
  rw [show Byte.singleBit n = BitVec.twoPow 8 n from rfl, BitVec.getLsbD_twoPow,
    decide_eq_true n.isLt, Bool.true_and]
  exact decide_eq_decide.mpr eq_comm

theorem and_singleBit_eq_zero_iff (x : Byte) (n : Fin 8) :
    x &&& Byte.singleBit n = 0 ↔ x.getLsbD n = false := by
  rw [show Byte.singleBit n = BitVec.twoPow 8 n from rfl, BitVec.and_twoPow]
  cases x.getLsbD n with
  | false => simp
  | true => revert n; decide

theorem apply_meetsBit (op : BitOp) (n : Fin 8) (x : Byte) (f : Flags) :
    MeetsBit op n x f ((bit op n).apply x f) := by
  cases op with
  | test =>
    refine ⟨rfl, ?_⟩
    simp only [apply, Flags.ofBitTest, beq_iff_eq]
    exact and_singleBit_eq_zero_iff x n
  | reset =>
    refine ⟨rfl, fun i hi => ?_⟩
    simp only [apply, BitVec.getLsbD_and, BitVec.getLsbD_not, getLsbD_singleBit]
    by_cases h : i = n <;> simp [h, hi]
  | set =>
    refine ⟨rfl, fun i hi => ?_⟩
    simp only [apply, BitVec.getLsbD_or, getLsbD_singleBit]
    by_cases h : i = n <;> simp [h]

/-- The machine once the byte at an address has been operated on. A copy goes to a register before
the result is written. -/
def performAt (op : ByteOperation) (a : Word) (copy : Option Register) (m : Machine) : Machine :=
  let r := op.apply (m.memory.get a) m.flags
  let flagged := (m.read a).2.setFlags r.flags
  let copied := copy.elim flagged fun reg => flagged.setReg reg (.ofByte r.value)
  if op.writes then copied.write a r.value else copied

def locates : ByteOperation → Bool
  | shift _ | bit .. => true
  | inc | dec => false

def performed (op : ByteOperation) (place : Place) (ops : Operands) (m : Machine) : Machine :=
  match place with
  | .register reg =>
      let r := op.apply (m.reg reg).toByte m.flags
      (m.setFlags r.flags).setReg reg (.ofByte r.value)
  | .memory => op.performAt (m.pair .hl).toWord none m
  | .indexed x copy =>
      let a := m.displacedAddress x ops.value
      op.performAt a copy (if op.locates then m.set "location" (.ofWord a) else m)

section performAt
variable (op : ByteOperation) (a : Word) (copy : Option Register) (m : Machine)

theorem get_performAt (name : String) : (op.performAt a copy m).get name =
    if copy.map Register.name = some name then .ofByte (op.apply (m.memory.get a) m.flags).value
    else if Register.f.name = name then .ofByte (op.apply (m.memory.get a) m.flags).flags.toByte
    else m.get name := by
  have copied : (op.performAt a copy m).get name =
      (copy.elim ((m.read a).2.setFlags (op.apply (m.memory.get a) m.flags).flags)
        fun reg => ((m.read a).2.setFlags (op.apply (m.memory.get a) m.flags).flags).setReg reg
          (.ofByte (op.apply (m.memory.get a) m.flags).value)).get name := by
    unfold performAt
    split
    · exact Machine.get_write ..
    · rfl
  rw [copied]
  cases copy with
  | none => simp [Machine.setFlags_eq_set, Machine.get_set]
  | some reg => simp [Machine.setFlags_eq_set, Machine.setReg_eq_set, Machine.get_set]

theorem memory_performAt : (op.performAt a copy m).memory =
    if op.writes then m.memory.set a (op.apply (m.memory.get a) m.flags).value else m.memory := by
  unfold performAt
  cases copy <;> split <;> simp [Machine.setFlags_eq_set, Machine.setReg_eq_set]

theorem log_performAt : (op.performAt a copy m).log =
    if op.writes then (m.log.push (.read a)).push
      (.write a (op.apply (m.memory.get a) m.flags).value) else m.log.push (.read a) := by
  unfold performAt
  cases copy <;> split <;>
    simp [Machine.setFlags_eq_set, Machine.setReg_eq_set, Machine.read, Machine.write]

theorem environment_performAt : (op.performAt a copy m).ports = m.ports ∧
    (op.performAt a copy m).outputs = m.outputs ∧
    (op.performAt a copy m).randomSource = m.randomSource := by
  unfold performAt
  cases copy <;> split <;> simp [Machine.setFlags_eq_set, Machine.setReg_eq_set]

end performAt

variable {op : ByteOperation} {ops : Operands} {m : Machine}

theorem isGeneral_of_mem_registers {place : Place} (hp : op.accepts place) {reg : Register}
    (hr : reg ∈ place.registers) : reg.isGeneral := by
  cases place with
  | memory => cases hr
  | register other =>
    obtain rfl := List.mem_singleton.mp hr
    cases op <;> exact hp
  | indexed x copy =>
    cases copy with
    | none => cases hr
    | some other =>
      obtain rfl := List.mem_singleton.mp hr
      cases op with
      | shift op => exact hp
      | _ => cases hp

/-- An operation on a byte in memory, on a machine with another `location` perhaps. -/
theorem performAt_performs {place : Place} (hp : op.accepts place) {a : Word}
    {copy : Option Register} (ha : place.address? ops m = some a)
    (hc : place.registers = copy.toList) {vars : Variables}
    (hv : ∀ name, name ≠ "location" → vars.get name = m.vars.get name) :
    op.Performs place ops (op.apply (m.memory.get a) m.flags) m
      (op.performAt a copy { m with vars := vars }) := by
  have flags : { m with vars := vars }.flags = m.flags :=
    congrArg (fun v : Value => Flags.ofByte v.toByte) (hv "f" (by decide))
  have get := op.get_performAt a copy { m with vars := vars }
  obtain ⟨ports, outputs, randomSource⟩ := op.environment_performAt a copy { m with vars := vars }
  rw [flags] at get
  constructor
  case flags =>
    have apart : ¬ copy.map Register.name = some Register.f.name := by
      rintro eq
      obtain ⟨reg, rfl, same⟩ := Option.map_eq_some_iff.mp eq
      have mem : reg ∈ place.registers := by simp [hc]
      exact Register.name_ne_flags (isGeneral_of_mem_registers hp mem) same
    rw [Machine.reg_eq_get, get, if_neg apart, if_pos rfl]
  case register =>
    intro reg hr
    obtain rfl : copy = some reg := Option.mem_toList.mp (hc ▸ hr)
    exact (get reg.name).trans (if_pos rfl)
  case memory => rw [ha, memory_performAt, flags]
  case log => rw [ha, log_performAt, flags]
  case get_of_not_mem =>
    intro name hn
    simp only [Place.targets, hc, List.mem_cons, List.mem_map, Option.mem_toList, not_or,
      not_exists, not_and] at hn
    obtain ⟨notFlags, notLocation, notCopy⟩ := hn
    have apart : ¬ copy.map Register.name = some name := by
      rintro eq
      obtain ⟨reg, rfl, same⟩ := Option.map_eq_some_iff.mp eq
      exact notCopy reg rfl same
    rw [get, if_neg apart, if_neg (Ne.symm notFlags)]
    exact hv name notLocation
  case ports => exact ports
  case outputs => exact outputs
  case randomSource => exact randomSource

theorem performed_performs {place : Place} (hp : op.accepts place) :
    op.Performs place ops (op.apply (place.operand ops m) m.flags) m
      (op.performed place ops m) := by
  cases place with
  | register reg =>
    have apart : ¬ reg.name = Register.f.name :=
      Register.name_ne_flags (isGeneral_of_mem_registers hp (List.mem_singleton_self reg))
    simp only [performed, Place.operand]
    generalize op.apply (m.reg reg).toByte m.flags = r
    constructor
    case flags =>
      rw [Machine.setReg_eq_set, Machine.reg_set_of_ne _ _ apart, Machine.setFlags,
        Machine.reg_setReg_self]
    case register =>
      intro other ho
      obtain rfl := List.mem_singleton.mp ho
      exact Machine.reg_setReg_self ..
    case get_of_not_mem =>
      intro name hn
      simp only [Place.targets, Place.registers, List.map_cons, List.map_nil, List.mem_cons,
        List.not_mem_nil, or_false, not_or] at hn
      rw [Machine.setReg_eq_set, Machine.get_set_of_ne _ _ (Ne.symm hn.2.2),
        Machine.setFlags_eq_set, Machine.get_set_of_ne _ _ (Ne.symm hn.1)]
    all_goals simp [Machine.setFlags_eq_set, Machine.setReg_eq_set, Place.address?]
  | memory => exact performAt_performs hp rfl rfl fun _ _ => rfl
  | indexed x copy =>
    have registers : (Place.indexed x copy).registers = copy.toList := by
      cases copy <;> rfl
    simp only [performed]
    split
    · refine performAt_performs hp rfl registers fun name hn => ?_
      exact Variables.get_set_of_ne _ _ (Ne.symm hn)
    · exact performAt_performs hp rfl registers fun _ _ => rfl

end ByteOperation

end Z80Effects
