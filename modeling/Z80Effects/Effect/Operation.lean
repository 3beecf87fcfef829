import Z80Effects.Effect.Phrase

/-!
# Loads, stores and arithmetic

The programs of the instructions that move words and bytes and compute with them, and end after
their last statement. The plain sum of pairs goes through a primitive. The sums and differences with
carry are computed in place: the flags are read off the 17-bit result in `temp` and the two operands
in `val` and `value`. An operand in memory is read once and written back once; the address of an
indexed operand that is written back goes through `location`.
-/
namespace Z80Effects

namespace Effect

/-- The address in a pair. `(HL)` goes with any register, `(BC)` and `(DE)` with the accumulator
only. -/
def addressIn (w : WordRegister) (reg : Register) : Attempt Expr :=
  match w, reg with
  | .pair .hl, _ => .ok (pairValue .hl)
  | .pair .bc, .a => .ok (pairValue .bc)
  | .pair .de, .a => .ok (pairValue .de)
  | _, _ => .error (.operands (.word w) (.register reg))

/-- Flags after a load of the accumulator from `I` or `R`: parity shows whether interrupts were
enabled. -/
def specialLoadFlags : Stmt :=
  .set (.register .f) (flagBit .carry ||| .lookup .signZero (.register .a) |||
    .conditional (.var "iff2") (.flagMask .parity) 0)

/-- Loads a byte register. `refresh` is what a load from `R` reads. -/
def loadByte (refresh : Expr) (dst : Register) (src : ByteSource) : Attempt Program :=
  let refused : Refusal := .operands (.register dst) (.byteSource src)
  match dst, src with
  | .a, .register .i => .ok [.set (.register .a) (.register .i), specialLoadFlags]
  | .a, .register .r => .ok [.set (.register .a) refresh, specialLoadFlags]
  | .i, .register .a => .ok [.set (.register .i) (.register .a)]
  | .r, .register .a => .ok [.set (.register .r) (.register .a)]
  | dst, .immediate =>
      if dst.isGeneral then .ok [.set (.register dst) value] else .error refused
  | dst, .register reg =>
      if dst.isGeneral && reg.isGeneral then .ok [.set (.register dst) (.register reg)]
      else .error refused
  | .a, .direct => .ok [.set (.register .a) (readByte value)]
  | _, .direct => .error refused
  | dst, .indirect w =>
      if dst.isGeneral then do
        let address ← addressIn w dst
        return [.set (.register dst) (readByte address)]
      else .error refused

def loadIndexed (dst : Register) (x : IndexRegister) : Program :=
  [.set (.register dst) (readByte (displaced x))]

def loadWord (dst : WordRegister) (src : WordSource) : Attempt Program :=
  let refused : Refusal := .operands (.word dst) (.wordSource src)
  match dst, src with
  | .pair .af, _ => .error refused
  | .sp, _ => .error (.operand (.word .sp))
  | .pair p, .immediate => .ok (setPair p value)
  | .pair p, .direct => .ok (setPair p (readWord value))
  | .pair _, .register _ | .pair _, .indirect _ => .error refused

def storePair (p : RegisterPair) : Program :=
  [writeByte value (.register p.low), writeByte valueNext (.register p.high)]

def store (dst : StoreAddress) (src : StoreSource) : Attempt Program :=
  let refused : Refusal := .operands (.storeAddress dst) (.storeSource src)
  match dst, src with
  | .indirect (.pair .hl), .immediate => .ok [writeByte (pairValue .hl) value]
  | .indirect w, .byte reg => do
      let byte ← general reg
      let address ← addressIn w reg
      return [writeByte address byte]
  | .direct, .byte .a => .ok [writeByte value (.register .a)]
  | .direct, .word (.pair .af) => .error refused
  | .direct, .word (.pair p) => .ok (storePair p)
  | .direct, .word .sp => .error (.operand (.word .sp))
  | _, _ => .error refused

/-- Stores at a displacement from an index register. With an immediate byte, the operand has the
displacement in its low byte and the immediate in its high byte. -/
def storeIndexed (x : IndexRegister) : Option Register → Program
  | none => [writeByte (pairValue x.pair + (value &&& 0xFF)) (value >>> 8)]
  | some reg => [writeByte (displaced x) (.register reg)]

def loadStackPointer (src : StackPointerSource) : Attempt Program :=
  match src with
  | .immediate => .ok [.set sp value]
  | .direct => .ok [.set sp (readWord value)]
  | .register (.pair .hl) => .ok [.set sp (pairValue .hl)]
  | .register (.pair .ix) => .ok [.set sp (pairValue .ix)]
  | .register (.pair .iy) => .ok [.set sp (pairValue .iy)]
  | .register _ => .error (.operand (.stackPointerSource src))

def storeWord (src : WordRegister) : Attempt Program :=
  match src with
  | .pair .af => .error (.operand (.word src))
  | .pair p => .ok (storePair p)
  | .sp => .ok [writeByte value (sp &&& 0xFF), writeByte valueNext (sp >>> 8)]

def push : WordRegister → Attempt Program
  | .pair p => .ok [perform .pushBytes [.register p.high, .register p.low]]
  | .sp => .error (.operand (.word .sp))

def pop : WordRegister → Attempt Program
  | .pair p => .ok (setPair p (readWord sp) ++ [.assign .add sp 2])
  | .sp => .error (.operand (.word .sp))

def swap (x y : Expr) : Program := [.set temp x, .set x y, .set y temp]

def swapShadow (reg : Register) : Program :=
  match reg.shadow? with
  | some shadow => swap (.register reg) (.var shadow)
  | none => []

def exAf : Program := [Register.a, .f].flatMap swapShadow

def exx : Program := [Register.b, .c, .d, .e, .h, .l].flatMap swapShadow

def exDeHl : Program :=
  swap (.register .d) (.register .h) ++ swap (.register .e) (.register .l)

/-- Exchanges an index pair with the word on top of the stack: the word is read first, then the
old content is written, low byte first. -/
def exStackIndex (p : RegisterPair) : Program :=
  .set temp (pairValue p) :: setPair p (readWord sp) ++
    [writeByte sp (temp &&& 0xFF), writeByte (sp + 1) (temp >>> 8)]

/-- Exchanges with the word on top of the stack. `HL` is exchanged byte by byte, high byte first. -/
def exStack : WordRegister → Attempt Program
  | .pair .hl => .ok
      [.set temp (.register .h), .set (.register .h) (readByte (sp + 1)), writeByte (sp + 1) temp,
        .set temp (.register .l), .set (.register .l) (readByte sp), writeByte sp temp]
  | .pair .ix => .ok (exStackIndex .ix)
  | .pair .iy => .ok (exStackIndex .iy)
  | w => .error (.operand (.word w))

def countByte (onRegister onMemory : Primitive) : ByteCell → Attempt Program
  | .register reg => do
      let r ← general reg
      return [.set r (onRegister.call [r])]
  | .memory => .ok [perform onMemory [pairValue .hl]]

def incByte : ByteCell → Attempt Program := countByte .inc .incMemory
def decByte : ByteCell → Attempt Program := countByte .dec .decMemory

def incIndexed (x : IndexRegister) : Program := [perform .incMemory [displaced x]]
def decIndexed (x : IndexRegister) : Program := [perform .decMemory [displaced x]]

/-- The low half wraps by itself and carries into the high half when it becomes zero. -/
def incPair (p : RegisterPair) : Program :=
  [.set (.register p.low) ((.register p.low + 1) &&& 0xFF),
    .whenever ((Expr.register p.low).equals 0)
      [.set (.register p.high) ((.register p.high + 1) &&& 0xFF)]]

/-- The low half wraps by itself and borrows from the high half when it becomes 255. -/
def decPair (p : RegisterPair) : Program :=
  [.set (.register p.low) ((.register p.low - 1) &&& 0xFF),
    .whenever ((Expr.register p.low).equals 255)
      [.set (.register p.high) ((.register p.high - 1) &&& 0xFF)]]

def incWord : WordRegister → Attempt Program
  | .sp => .ok [.set sp ((sp + 1) &&& 0xFFFF)]
  | .pair .af => .error (.operand (.word (.pair .af)))
  | .pair p => .ok (incPair p)

def decWord : WordRegister → Attempt Program
  | .sp => .ok [.set sp ((sp - 1) &&& 0xFFFF)]
  | .pair .af => .error (.operand (.word (.pair .af)))
  | .pair p => .ok (decPair p)

def isWordAccumulator : RegisterPair → Bool
  | .hl | .ix | .iy => true
  | .af | .bc | .de => false

def isAddend (dst : RegisterPair) : WordRegister → Bool
  | .pair .bc | .pair .de | .sp => true
  | .pair p => p == dst

def addWord (dst src : WordRegister) : Attempt Program :=
  let refused : Refusal := .operands (.word dst) (.word src)
  match dst with
  | .sp => .error refused
  | .pair p =>
      if isWordAccumulator p && isAddend p src then
        .ok (setPair p (Primitive.addWord.call [pairValue p, wordValue src]))
      else .error refused

def carryAddend : WordRegister → Attempt Expr
  | .sp => .ok sp
  | .pair .bc => .ok (joinedHalves .bc)
  | .pair .de => .ok (joinedHalves .de)
  | .pair .hl => .ok (joinedHalves .hl)
  | w => .error (.operand (.word w))

def addend : Expr := .var "value"

/-- The half carry: bit 12 of the result differs from what the operands alone would give. -/
def wordHalfCarry : Expr := ((val ^^^ temp) ^^^ addend) >>> 8 &&& 0x10

/-- The carry: bit 16 of the result. -/
def wordCarry : Expr := (temp >>> 16) &&& 1

def wordSign : Expr := (temp >>> 8) &&& 0x80

def wordZero : Expr := .conditional ((temp &&& 0xFFFF).differs 0) 0 0x40

def wordSumOverflow : Expr :=
  (((addend ^^^ val) ^^^ 0x8000) &&& (addend ^^^ temp) &&& 0x8000) >>> 13

/-- Operands of two signs gave a result that lost the sign of the first. -/
def wordDifferenceOverflow : Expr := ((addend ^^^ val) &&& (val ^^^ temp) &&& 0x8000) >>> 13

def carryArithmetic (second result flags : Expr) : Program :=
  [.declare "value" second, .declare "val" (joinedHalves .hl),
    .set temp result, .set (.register .f) flags,
    .set (.register .h) ((temp >>> 8) &&& 0xFF), .set (.register .l) (temp &&& 0xFF)]

def carrySum (second : Expr) : Program :=
  carryArithmetic second ((val + addend) + flagBit .carry)
    (wordHalfCarry ||| wordCarry ||| wordSign ||| wordZero ||| wordSumOverflow)

def carryDifference (second : Expr) : Program :=
  carryArithmetic second ((val - addend) - flagBit .carry)
    (wordHalfCarry ||| .flagMask .negative ||| wordCarry ||| wordSign ||| wordZero |||
      wordDifferenceOverflow)

def adcWord (src : WordRegister) : Attempt Program := (carryAddend src).map carrySum

def sbcWord (src : WordRegister) : Attempt Program := (carryAddend src).map carryDifference

def accumulatorOperand : AccumulatorSource → Attempt Expr
  | .immediate => .ok value
  | .register reg => general reg
  | .indirect (.pair .hl) => .ok (readByte (pairValue .hl))
  | .indirect w => .error (.operand (.accumulatorSource (.indirect w)))
  | .indexed x => .ok (readByte (displaced x))

/-- Flags of a logical operation, from its result in the accumulator. A conjunction sets the half
carry. -/
def logicalFlags (op : AccumulatorOp) : Stmt :=
  .set (.register .f)
    (if op = .and then signZeroParity .a ||| .flagMask .half else signZeroParity .a)

def logicalAssignment : AccumulatorOp → AssignOp
  | .and => .and
  | .xor => .xor
  | _ => .or

/-- A logical operation. With the accumulator as second operand the result is known: it stays as
it is, or is zero after an exclusive disjunction. -/
def logical (op : AccumulatorOp) (src : AccumulatorSource) (operand : Expr) : Program :=
  match op, src with
  | .xor, .register .a => [.set (.register .a) 0, .set (.register .f) (.lookup .signZeroParity 0)]
  | .and, .register .a | .or, .register .a => [logicalFlags op]
  | _, _ => [.assign (logicalAssignment op) (.register .a) operand, logicalFlags op]

def accumulate (op : AccumulatorOp) (src : AccumulatorSource) : Attempt Program := do
  let operand ← accumulatorOperand src
  match op.primitive? with
  | some p => return [perform p [operand]]
  | none => return logical op src operand

def negate : Program :=
  [.set temp (.register .a), .set (.register .a) 0, perform .subA [temp]]

def setCarry : Program := [setFlag .carry, clearFlag .negative, clearFlag .half]

def shift (op : ShiftOp) : ByteCell → Attempt Program
  | .register reg => do
      let r ← general reg
      return [.set r ((Primitive.shift op).call [r])]
  | .memory =>
      .ok [writeByte (pairValue .hl) ((Primitive.shift op).call [readByte (pairValue .hl)])]

/-- Shifts an indexed operand. With a register named, the result is left there as well. -/
def shiftIndexed (op : ShiftOp) (x : IndexRegister) (copy : Option Register) :
    Attempt Program :=
  let result := (Primitive.shift op).call [readByte location]
  match copy with
  | none => .ok [locate x, writeByte location result]
  | some reg => do
      let r ← general reg
      return [locate x, .set r result, writeByte location r]

def bitOfRegister (op : BitOp) (reg : Register) (mask : Expr) : Stmt :=
  match op with
  | .test => perform .testBit [.register reg &&& mask]
  | .reset => .assign .and (.register reg) (~~~ mask)
  | .set => .assign .or (.register reg) mask

def bitOfMemory (op : BitOp) (address mask : Expr) : Stmt :=
  match op with
  | .test => perform .testBit [readByte address &&& mask]
  | .reset => writeByte address (readByte address &&& ~~~ mask)
  | .set => writeByte address (readByte address ||| mask)

def bit (op : BitOp) (n : Byte) (cell : BitCell) : Attempt Program :=
  if h : n.toNat < 8 then
    let mask := Expr.singleBit ⟨n.toNat, h⟩
    match cell with
    | .register reg => .ok [bitOfRegister op reg mask]
    | .memory => .ok [bitOfMemory op (pairValue .hl) mask]
    | .indexed x => .ok [locate x, bitOfMemory op location mask]
  else .error (.bitNumber n)

end Effect

end Z80Effects
