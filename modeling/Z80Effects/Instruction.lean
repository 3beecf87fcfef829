import Z80Effects.Word

/-!
# Instructions

An instruction names a mnemonic and the operand forms that an opcode fixes: a register, a way to
address memory, a condition, or that an immediate follows. Immediate bytes and words, displacements
and branch targets are no part of it: they are known only once the opcode has been decoded at an
address. The designations are those of diagnostics.
-/
namespace Z80Effects

/-- The eight-bit registers, index halves included. -/
inductive Register
  | a | f | b | c | d | e | h | l | i | r | ixh | ixl | iyh | iyl
  deriving DecidableEq

namespace Register

def all : List Register := [a, f, b, c, d, e, h, l, i, r, ixh, ixl, iyh, iyl]

/-- Name of the variable that holds the register. -/
def name : Register → String
  | a => "a" | f => "f" | b => "b" | c => "c" | d => "d" | e => "e" | h => "h" | l => "l"
  | i => "i" | r => "r" | ixh => "ixH" | ixl => "ixL" | iyh => "iyH" | iyl => "iyL"

def designation : Register → String
  | a => "A" | f => "F" | b => "B" | c => "C" | d => "D" | e => "E" | h => "H" | l => "L"
  | i => "I" | r => "R" | ixh => "IxH" | ixl => "IxL" | iyh => "IyH" | iyl => "IyL"

/-- Name of the variable that holds the counterpart in the shadow set, where there is one. -/
def shadow? : Register → Option String
  | a => some "a2" | f => some "f2" | b => some "b2" | c => some "c2"
  | d => some "d2" | e => some "e2" | h => some "h2" | l => some "l2"
  | i | r | ixh | ixl | iyh | iyl => none

/-- The registers that the register field of an opcode can name. The others occur only in
encodings of their own. -/
def isGeneral : Register → Bool
  | i | r | f => false
  | _ => true

theorem mem_all (reg : Register) : reg ∈ all := by cases reg <;> decide

theorem name_injective {reg other : Register} (eq : reg.name = other.name) : reg = other := by
  revert eq; cases reg <;> cases other <;> decide

end Register

inductive RegisterPair
  | af | bc | de | hl | ix | iy
  deriving DecidableEq

namespace RegisterPair

def all : List RegisterPair := [af, bc, de, hl, ix, iy]

def high : RegisterPair → Register
  | af => .a | bc => .b | de => .d | hl => .h | ix => .ixh | iy => .iyh

def low : RegisterPair → Register
  | af => .f | bc => .c | de => .e | hl => .l | ix => .ixl | iy => .iyl

/-- Primitive that reads the pair as one number. -/
def getter : RegisterPair → String
  | af => "getAF" | bc => "getBC" | de => "getDE" | hl => "getHL"
  | ix => "getIXHIXL" | iy => "getIYHIYL"

/-- Primitive that splits a number over the pair. -/
def setter : RegisterPair → String
  | af => "setAF" | bc => "setBC" | de => "setDE" | hl => "setHL"
  | ix => "setIXHIXL" | iy => "setIYHIYL"

def designation : RegisterPair → String
  | af => "AF" | bc => "BC" | de => "DE" | hl => "HL" | ix => "IX" | iy => "IY"

theorem mem_all (p : RegisterPair) : p ∈ all := by cases p <;> decide

theorem high_ne_low (p : RegisterPair) : p.high ≠ p.low := by cases p <;> decide

end RegisterPair

/-- The sixteen-bit registers: the pairs, and the stack pointer, which has no halves. -/
inductive WordRegister
  | pair (p : RegisterPair)
  | sp
  deriving DecidableEq

namespace WordRegister

def all : List WordRegister := RegisterPair.all.map pair ++ [sp]

def pair? : WordRegister → Option RegisterPair
  | pair p => some p
  | sp => none

def designation : WordRegister → String
  | pair p => p.designation
  | sp => "SP"

theorem mem_all (w : WordRegister) : w ∈ all := by
  cases w with
  | pair p => cases p <;> decide
  | sp => decide

end WordRegister

inductive IndexRegister
  | ix | iy
  deriving DecidableEq

namespace IndexRegister

def pair : IndexRegister → RegisterPair
  | ix => .ix
  | iy => .iy

def designation : IndexRegister → String
  | ix => "IX"
  | iy => "IY"

end IndexRegister

def stackPointer : String := "sp"

def formOf (form parameter : String) : String := form ++ "(" ++ parameter ++ ")"

inductive ByteSource
  | immediate
  | register (reg : Register)
  /-- A byte at an immediate address. -/
  | direct
  /-- A byte at the address in a register. -/
  | indirect (w : WordRegister)
  deriving DecidableEq

def ByteSource.designation : ByteSource → String
  | immediate => "Imm"
  | register reg => formOf "Reg" reg.designation
  | direct => "Direct"
  | indirect w => formOf "Indirect" w.designation

inductive WordSource
  | immediate
  /-- A word at an immediate address. -/
  | direct
  | register (w : WordRegister)
  /-- A word at the address in a register. -/
  | indirect (w : WordRegister)
  deriving DecidableEq

def WordSource.designation : WordSource → String
  | immediate => "Imm"
  | direct => "Direct"
  | register w => formOf "Pair" w.designation
  | indirect w => formOf "Indirect" w.designation

inductive StoreAddress
  | direct
  | indirect (w : WordRegister)
  deriving DecidableEq

def StoreAddress.designation : StoreAddress → String
  | direct => "Direct"
  | indirect w => formOf "Indirect" w.designation

inductive StoreSource
  | immediate
  | byte (reg : Register)
  | word (w : WordRegister)
  deriving DecidableEq

def StoreSource.designation : StoreSource → String
  | immediate => "Imm"
  | byte reg => formOf "Reg" reg.designation
  | word w => formOf "Pair" w.designation

inductive StackPointerSource
  | immediate
  | direct
  | register (w : WordRegister)
  deriving DecidableEq

def StackPointerSource.designation : StackPointerSource → String
  | immediate => "Imm"
  | direct => "Direct"
  | register w => formOf "Pair" w.designation

/-- A byte operand that is read and written back. -/
inductive ByteCell
  | register (reg : Register)
  /-- The byte at `(HL)`. -/
  | memory
  deriving DecidableEq

/-- Second operand of an accumulator operation. -/
inductive AccumulatorSource
  | immediate
  | register (reg : Register)
  | indirect (w : WordRegister)
  /-- A byte at a displacement from an index register. -/
  | indexed (x : IndexRegister)
  deriving DecidableEq

def AccumulatorSource.designation : AccumulatorSource → String
  | immediate => "Imm"
  | register reg => formOf "Reg" reg.designation
  | indirect w => formOf "Indirect" w.designation
  | indexed x => formOf "Indexed" x.designation

inductive BitCell
  | register (reg : Register)
  /-- The byte at `(HL)`. -/
  | memory
  | indexed (x : IndexRegister)
  deriving DecidableEq

inductive PortSource
  | immediate
  | register (reg : Register)
  deriving DecidableEq

/-- Branch conditions: one flag, wanted set or clear. -/
inductive Condition
  | nz | z | nc | c | po | pe | p | m
  deriving DecidableEq

namespace Condition

def all : List Condition := [nz, z, nc, c, po, pe, p, m]

def flag : Condition → Flag
  | nz | z => .zero
  | nc | c => .carry
  | po | pe => .parity
  | p | m => .sign

/-- Whether the branch is taken on the flag set. -/
def whenSet : Condition → Bool
  | z | c | pe | m => true
  | nz | nc | po | p => false

def isRelative : Condition → Bool
  | nz | z | nc | c => true
  | po | pe | p | m => false

def designation : Condition → String
  | nz => "NZ" | z => "Z" | nc => "NC" | c => "C" | po => "PO" | pe => "PE" | p => "P" | m => "M"

def holds (k : Condition) (f : Flags) : Bool := f.get k.flag == k.whenSet

theorem mem_all (k : Condition) : k ∈ all := by cases k <;> decide

end Condition

inductive AccumulatorOp
  | add | adc | sub | sbc | and | xor | or | cp
  deriving DecidableEq

namespace AccumulatorOp

def all : List AccumulatorOp := [add, adc, sub, sbc, and, xor, or, cp]

def mnemonic : AccumulatorOp → String
  | add => "ADD" | adc => "ADC" | sub => "SUB" | sbc => "SBC"
  | and => "AND" | xor => "XOR" | or => "OR" | cp => "CP"

theorem mem_all (op : AccumulatorOp) : op ∈ all := by cases op <;> decide

end AccumulatorOp

inductive ShiftOp
  | rlc | rrc | rl | rr | sla | sra | sll | srl
  deriving DecidableEq

namespace ShiftOp

def all : List ShiftOp := [rlc, rrc, rl, rr, sla, sra, sll, srl]

def mnemonic : ShiftOp → String
  | rlc => "RLC" | rrc => "RRC" | rl => "RL" | rr => "RR"
  | sla => "SLA" | sra => "SRA" | sll => "SLL" | srl => "SRL"

theorem mem_all (op : ShiftOp) : op ∈ all := by cases op <;> decide

end ShiftOp

inductive BitOp
  | test | reset | set
  deriving DecidableEq

def BitOp.mnemonic : BitOp → String
  | test => "BIT" | reset => "RES" | set => "SET"

inductive Instruction
  | nop
  | loadByte (dst : Register) (src : ByteSource)
  /-- Load from a displacement from an index register. -/
  | loadIndexed (dst : Register) (base : IndexRegister)
  | loadWord (dst : WordRegister) (src : WordSource)
  | store (dst : StoreAddress) (src : StoreSource)
  /-- Store at a displacement from an index register, of an immediate byte if no register is
  named. -/
  | storeIndexed (base : IndexRegister) (src : Option Register)
  | loadStackPointer (src : StackPointerSource)
  /-- The extended encodings of a word store at an immediate address. -/
  | storeWord (src : WordRegister)
  | inc (cell : ByteCell)
  | dec (cell : ByteCell)
  | incWord (w : WordRegister)
  | decWord (w : WordRegister)
  | incIndexed (base : IndexRegister)
  | decIndexed (base : IndexRegister)
  | addWord (dst src : WordRegister)
  | adcWord (src : WordRegister)
  | sbcWord (src : WordRegister)
  | accumulate (op : AccumulatorOp) (src : AccumulatorSource)
  | rlca | rrca | rla | rra | daa | cpl | scf | ccf | neg
  | shift (op : ShiftOp) (cell : ByteCell)
  /-- Shift at a displacement from an index register; the result may also go to a register. -/
  | shiftIndexed (op : ShiftOp) (base : IndexRegister) (copy : Option Register)
  | bit (op : BitOp) (n : Byte) (cell : BitCell)
  | jumpRelative (k : Option Condition)
  | djnz
  | jump (k : Option Condition)
  /-- Jump to the address in a register. -/
  | jumpTo (w : WordRegister)
  | call (k : Option Condition)
  | restart (vector : Word)
  | ret (k : Option Condition)
  /-- Return from an interrupt, maskable or not. -/
  | retInterrupt
  | push (w : WordRegister)
  | pop (w : WordRegister)
  | exAf | exx | exDeHl
  /-- Exchange with the word on top of the stack. -/
  | exStack (w : WordRegister)
  | input (dst : Register) (port : PortSource)
  | output (port : PortSource) (src : Register)
  | ini | outi | outd | otir | ldi | ldd | ldir | lddr | cpi | cpir
  | di | ei
  | interruptMode (mode : Byte)
  | halt
  deriving DecidableEq

namespace Instruction

/-- Name of the group of opcodes that share the operand forms of an instruction. -/
def family : Instruction → String
  | nop => "NOOP"
  | loadByte .. => "LD8"
  | loadIndexed .. => "LD8_D"
  | loadWord .. => "LD16"
  | store .. => "LD_WRITE_MEM"
  | storeIndexed .. => "LD_X"
  | loadStackPointer _ => "LD_SP"
  | storeWord _ => "LD_NN"
  | inc _ => "INC8"
  | dec _ => "DEC8"
  | incWord _ => "INC16"
  | decWord _ => "DEC16"
  | incIndexed _ => "INC_X"
  | decIndexed _ => "DEC_X"
  | addWord .. => "ADD16"
  | adcWord _ => "ADC16"
  | sbcWord _ => "SBC16"
  | accumulate op (.indexed _) => op.mnemonic ++ "_X"
  | accumulate op _ => op.mnemonic
  | rlca => "RLCA" | rrca => "RRCA" | rla => "RLA" | rra => "RRA"
  | daa => "DAA" | cpl => "CPL" | scf => "SCF" | ccf => "CCF" | neg => "NEG"
  | shift op _ => op.mnemonic
  | shiftIndexed op _ _ => "LD_" ++ op.mnemonic
  | bit op _ _ => op.mnemonic
  | jumpRelative none => "JR"
  | jumpRelative (some k) => if k.isRelative then "JR" ++ k.designation else "JR"
  | djnz => "DJNZ"
  | jump _ => "JP"
  | jumpTo _ => "JP_X"
  | call _ => "CALL"
  | restart _ => "RST"
  | ret _ => "RET"
  | retInterrupt => "RETN_RETI"
  | push _ => "PUSH"
  | pop _ => "POP"
  | exAf => "EX_AF" | exx => "EXX" | exDeHl => "EX_DE_HL"
  | exStack (.pair .hl) => "EX_SP_HL"
  | exStack _ => "EX_SP_X"
  | input .. => "IN"
  | output .. => "OUT"
  | ini => "INI" | outi => "OUTI" | outd => "OUTD" | otir => "OTIR"
  | ldi => "LDI" | ldd => "LDD" | ldir => "LDIR" | lddr => "LDDR"
  | cpi => "CPI" | cpir => "CPIR"
  | di => "DI" | ei => "EI"
  | interruptMode _ => "IM"
  | halt => "HALT"

end Instruction

end Z80Effects
