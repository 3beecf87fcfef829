import Std.Data.ExtHashMap
import Z80Effects.Arithmetic.Adjustment
import Z80Effects.Instruction

/-!
# The machine

A machine is the state on which a program runs: named variables, which hold the registers too,
memory, ports, and a record of all accesses to memory and of all output. Registers are not cut to
eight bits when they are set, so that a program that forgets to do so is seen to. Variables and
memory are determined by what reads of them show: two of them with equal contents are equal.
-/
namespace Z80Effects

/-- Names of variables are compared letter by letter. -/
instance nameEquivBEq : EquivBEq String := instEquivBEqOfLawfulBEq

/-- Values of named variables. A variable without an entry is zero, and no entry is zero. -/
structure Variables where
  entries : Std.ExtHashMap String Value
  nonzero : ∀ name : String, entries[name]? ≠ some 0

namespace Variables

def blank : Variables := ⟨∅, by simp⟩

def get (vars : Variables) (name : String) : Value := vars.entries.getD name 0

def set (vars : Variables) (name : String) (v : Value) : Variables :=
  if h : v = 0 then
    ⟨vars.entries.erase name, fun n => by
      rw [Std.ExtHashMap.getElem?_erase]
      split
      · simp
      · exact vars.nonzero n⟩
  else
    ⟨vars.entries.insert name v, fun n => by
      rw [Std.ExtHashMap.getElem?_insert]
      split
      · simpa using h
      · exact vars.nonzero n⟩

@[simp] theorem get_blank (name : String) : blank.get name = 0 := by
  simp [blank, get]

theorem get_set (vars : Variables) (name other : String) (v : Value) :
    (vars.set name v).get other = if name = other then v else vars.get other := by
  unfold set get
  split
  · next h => simp [Std.ExtHashMap.getD_erase, h]
  · simp [Std.ExtHashMap.getD_insert]

@[simp] theorem get_set_self (vars : Variables) (name : String) (v : Value) :
    (vars.set name v).get name = v := by simp [get_set]

theorem get_set_of_ne (vars : Variables) {name other : String} (v : Value) (h : name ≠ other) :
    (vars.set name v).get other = vars.get other := by simp [get_set, h]

/-- Equal contents make equal variables. -/
@[ext] theorem ext {vars vars' : Variables} (h : ∀ name, vars.get name = vars'.get name) :
    vars = vars' := by
  obtain ⟨e, he⟩ := vars
  obtain ⟨e', he'⟩ := vars'
  congr 1
  apply Std.ExtHashMap.ext_getElem?
  intro name
  have hn := h name
  have h1 := he name
  have h2 := he' name
  simp only [get, Std.ExtHashMap.getD_eq_getD_getElem?] at hn
  cases h3 : e[name]? <;> cases h4 : e'[name]? <;> simp_all

end Variables

structure Memory where
  cells : Vector Byte 65536

namespace Memory

def blank : Memory := ⟨Vector.replicate _ 0⟩

def get (memory : Memory) (address : Word) : Byte := memory.cells[address.toFin]

def set (memory : Memory) (address : Word) (b : Byte) : Memory :=
  ⟨memory.cells.set address.toNat b address.isLt⟩

@[simp] theorem get_blank (address : Word) : blank.get address = 0 := by
  simp [blank, get]

theorem get_set (memory : Memory) (address other : Word) (b : Byte) :
    (memory.set address b).get other = if address = other then b else memory.get other := by
  simp only [get, set, Fin.getElem_fin, BitVec.val_toFin, Vector.getElem_set, BitVec.toNat_inj]

@[simp] theorem get_set_self (memory : Memory) (address : Word) (b : Byte) :
    (memory.set address b).get address = b := by simp [get_set]

/-- Equal contents make equal memories. -/
@[ext] theorem ext {memory memory' : Memory}
    (h : ∀ address, memory.get address = memory'.get address) : memory = memory' := by
  obtain ⟨cells⟩ := memory
  obtain ⟨cells'⟩ := memory'
  congr 1
  apply Vector.ext
  intro i hi
  have := h (BitVec.ofFin ⟨i, hi⟩)
  simpa [get] using this

end Memory

inductive Access
  | read (address : Word)
  | write (address : Word) (byte : Byte)
  deriving DecidableEq

namespace Access

def isRead : Access → Bool
  | read _ => true
  | write .. => false

def isWrite : Access → Bool
  | read _ => false
  | write .. => true

end Access

@[ext] structure Machine where
  vars : Variables
  memory : Memory
  /-- Accesses to memory, oldest first. -/
  log : Array Access
  /-- What an input from each port gives. -/
  ports : Byte → Byte
  /-- Port and byte of each output, oldest first. -/
  outputs : Array (Byte × Byte)
  /-- What a random number is taken from. -/
  randomSource : Value

namespace Machine

/-- A machine with everything zero and nothing attached to its ports. -/
def blank : Machine where
  vars := .blank
  memory := .blank
  log := #[]
  ports := fun _ => 0xFF
  outputs := #[]
  randomSource := 0

def get (m : Machine) (name : String) : Value := m.vars.get name

def set (m : Machine) (name : String) (v : Value) : Machine :=
  { m with vars := m.vars.set name v }

def reg (m : Machine) (reg : Register) : Value := m.get reg.name

def setReg (m : Machine) (reg : Register) (v : Value) : Machine := m.set reg.name v

/-- The content of a pair: the high half shifted over the low one. -/
def pair (m : Machine) (p : RegisterPair) : Value := m.reg p.high <<< 8 ||| m.reg p.low

/-- Splits the low sixteen bits of a number over a pair. -/
def setPair (m : Machine) (p : RegisterPair) (v : Value) : Machine :=
  (m.setReg p.high (.ofByte v.toWord.high)).setReg p.low (.ofByte v.toWord.low)

def word (m : Machine) : WordRegister → Value
  | .pair p => m.pair p
  | .sp => m.get stackPointer

def setWord (m : Machine) (w : WordRegister) (v : Value) : Machine :=
  match w with
  | .pair p => m.setPair p v
  | .sp => m.set stackPointer v

def accumulator (m : Machine) : Byte := (m.reg .a).toByte

def flags (m : Machine) : Flags := .ofByte (m.reg .f).toByte

def setFlags (m : Machine) (f : Flags) : Machine := m.setReg .f (.ofByte f.toByte)

def setFlagsKeepingCarry (m : Machine) (f : Flags) : Machine :=
  m.setFlags { f with carry := m.flags.carry }

def setAccumulator (m : Machine) (r : FlaggedResult 8) : Machine :=
  (m.setReg .a (.ofByte r.value)).setFlags r.flags

@[simp] theorem get_blank (name : String) : blank.get name = 0 := Variables.get_blank name

theorem get_set (m : Machine) (name other : String) (v : Value) :
    (m.set name v).get other = if name = other then v else m.get other :=
  Variables.get_set ..

@[simp] theorem reg_setReg_self (m : Machine) (reg : Register) (v : Value) :
    (m.setReg reg v).reg reg = v := Variables.get_set_self ..

theorem reg_setReg_of_ne (m : Machine) {reg other : Register} (v : Value) (h : reg ≠ other) :
    (m.setReg reg v).reg other = m.reg other :=
  Variables.get_set_of_ne _ _ fun eq => h (Register.name_injective eq)

/-- Copies bytes into memory from an address on, around the end of the address space, without a
record. -/
def load (m : Machine) (address : Word) : List Byte → Machine
  | [] => m
  | b :: bs => { m with memory := m.memory.set address b }.load (address + 1) bs

/-- The bytes from an address on, around the end of the address space, without a record. -/
def peek (m : Machine) (address : Word) (count : Nat) : List Byte :=
  (List.range count).map fun i => m.memory.get (address + BitVec.ofNat 16 i)

def read (m : Machine) (address : Word) : Byte × Machine :=
  (m.memory.get address, { m with log := m.log.push (.read address) })

def write (m : Machine) (address : Word) (b : Byte) : Machine :=
  { m with memory := m.memory.set address b, log := m.log.push (.write address b) }

/-- Pushes a word on the stack, high byte first, and keeps the stack pointer within the address
space. -/
def push (m : Machine) (high low : Byte) : Machine :=
  let sp := m.get stackPointer
  ((m.write (sp - 1).toWord high).write (sp - 2).toWord low).set stackPointer
    ((sp - 2) &&& 0xFFFF)

def reads (m : Machine) : Nat := m.log.countP Access.isRead

def writes (m : Machine) : Nat := m.log.countP Access.isWrite

def clearLog (m : Machine) : Machine := { m with log := #[] }

def setPort (m : Machine) (port byte : Byte) : Machine :=
  { m with ports := fun p => if p = port then byte else m.ports p }

def putOut (m : Machine) (port byte : Byte) : Machine :=
  { m with outputs := m.outputs.push (port, byte) }

end Machine

end Z80Effects
