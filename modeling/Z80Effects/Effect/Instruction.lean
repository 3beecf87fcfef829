import Z80Effects.Effect.Operation

/-!
# Branches, blocks and the effects of all instructions

A branch that is taken sets `pc` and ends the program early. One that is not taken does nothing.
Relative targets and return addresses keep to the page that is live when the program runs. A block
instruction does one step. The repeating ones end early, at a cost of five T-states, while the block
is not exhausted, so that running the program again does the next step.

`Instruction.effect` gives the program of an instruction or refuses it; `Instruction.template` wraps
the program for filling.
-/
namespace Z80Effects

namespace Effect

def provided (k : Option Condition) (body : Program) : Program :=
  match k with
  | none => body
  | some k => [.whenever (holds k) body]

def relativeJump : Program :=
  [spend 5, .set pc (inLivePage { slot := .target }), .done]

/-- The condition of a relative jump, which negates the test for a flag that should be clear. -/
def holdsRelative (k : Condition) : Expr :=
  let isSet := (flagBit k.flag).differs 0
  if k.whenSet then isSet else .unary .not isSet

def jumpRelative : Option Condition → Attempt Program
  | none => .ok relativeJump
  | some k =>
      if k.isRelative then .ok [.whenever (holdsRelative k) relativeJump]
      else .error (.operand (.condition k))

def decrementAndJump : Program :=
  [.set (.register .b) ((.register .b - 1) &&& 0xFF),
    .whenever ((Expr.register .b).differs 0) relativeJump]

def jump (k : Option Condition) : Program := provided k [.set pc target, .done]

def jumpTo : WordRegister → Attempt Program
  | .pair .hl => .ok [.set pc (pairValue .hl), .done]
  | .pair .ix => .ok [.set pc (pairValue .ix), .done]
  | .pair .iy => .ok [.set pc (pairValue .iy), .done]
  | w => .error (.operand (.word w))

def pushReturnAddress : Stmt := perform .pushWord [inLivePage { slot := .nextAddress }]

/-- A call takes longer if it has a condition that holds. -/
def call : Option Condition → Program
  | none => [pushReturnAddress, .set pc target, .done]
  | some k => provided (some k) [spend 7, pushReturnAddress, .set pc target, .done]

def restart (vector : Word) : Attempt Program :=
  if vector &&& ~~~ 0x38 = 0 then
    .ok [pushReturnAddress, .set pc (.num (Value.ofWord vector)), .done]
  else .error (.operand (.number vector.toNat))

def popIntoPc : Program := [.set pc (readWord sp), .assign .add sp 2]

/-- A return takes longer if it has a condition that holds. -/
def ret : Option Condition → Program
  | none => popIntoPc ++ [.done]
  | some k => provided (some k) (spend 6 :: popIntoPc ++ [.done])

/-- Restores the interrupt enable and leaves it to the caller to go on at the new `pc`. -/
def retInterrupt : Program := popIntoPc ++ [.set (.var "iff1") (.var "iff2")]

/-- Input through a register also sets the flags, except the carry. -/
def input (dst : Register) : PortSource → Program
  | .immediate => [.set (.register dst) (Primitive.portIn.call [value])]
  | .register reg =>
      [.set (.register dst) (Primitive.portIn.call [.register reg]),
        .set (.register .f) (flagBit .carry ||| signZeroParity dst)]

def portNumber : PortSource → Expr
  | .immediate => value
  | .register reg => .register reg

def output (port : PortSource) (src : Register) : Program :=
  [perform .portOut [portNumber port, .register src]]

def byteAtHl : Expr := readByte (pairValue .hl)

/-- Ends the program early, to be run again. -/
def repeatWhile (test : Expr) : Stmt := .whenever test [spend 5, .done]

def decB : Stmt := .set (.register .b) (Primitive.dec.call [.register .b])

def negativeFrom (test : Expr) : Stmt :=
  .choose test [setFlag .negative] [clearFlag .negative]

def topBit : Expr := temp &&& 0x80

def ini : Program :=
  [.set temp (Primitive.portIn.call [.register .c]), writeByte (pairValue .hl) temp, decB,
    perform .incHl [], negativeFrom (topBit.equals 0x80)]

/-- One output of a block, without the negative flag. -/
def outStep (step : Primitive) : Program :=
  [.set temp byteAtHl, perform .portOut [.register .c, temp], decB, perform step [],
    .choose ((.register .l + temp).exceeds 255) [setFlag .carry, setFlag .half]
      [clearFlag .carry, clearFlag .half]]

def outi : Program := outStep .incHl ++ [negativeFrom (topBit.equals 0x80)]

def outd : Program := outStep .decHl ++ [negativeFrom (topBit.equals 0x80)]

def otir : Program :=
  outStep .incHl ++ [negativeFrom (topBit.differs 0), repeatWhile ((Expr.register .b).differs 0)]

/-- Flags after a transfer: parity shows that the counter has not run out, and the undocumented
flags come from the sum of the byte and the accumulator. -/
def transferFlags : Expr :=
  .register .f &&& 0xC1 ||| .conditional (pairValue .bc) (.flagMask .parity) 0 |||
    temp &&& .flagMask .bit3 ||| .conditional (temp &&& .flagMask .negative) 0x20 0

def transfer (stepDe stepHl : Primitive) : Program :=
  [.set temp byteAtHl, writeByte (pairValue .de) temp, perform .decBc [], perform stepDe [],
    perform stepHl [], .set temp ((temp + .register .a) &&& 0xFF),
    .set (.register .f) transferFlags]

def ldi : Program := transfer .incDe .incHl
def ldd : Program := transfer .decDe .decHl

def ldir : Program := ldi ++ [repeatWhile ((pairValue .bc).differs 0)]
def lddr : Program := ldd ++ [repeatWhile ((pairValue .bc).differs 0)]

def mergeSearchFlags : Stmt := .set (.register .f) ((.register .f &&& 0xF8) ||| temp)

/-- One comparison. `temp` keeps the old carry, and collects the negative flag, and parity to show
that the counter has not run out. -/
def searchStep : Program :=
  [.set temp (flagBit .carry ||| .flagMask .negative), perform .cpA [byteAtHl],
    perform .decBc [], perform .incHl [],
    .assign .or temp (.conditional ((pairValue .bc).equals 0) 0 (.flagMask .parity))]

def cpi : Program := searchStep ++ [mergeSearchFlags]

def searchGoesOn : Expr :=
  .logical .and ((temp &&& .flagMask .parity).differs 0) ((flagBit .zero).equals 0)

def cpir : Program :=
  searchStep ++ [.whenever searchGoesOn [spend 5, mergeSearchFlags, .done], mergeSearchFlags]

/-- Both ways of setting the interrupt enables mark the instruction, so that the check for an
interrupt skips one step. -/
def setInterrupts (enabled : Bool) : Program :=
  [.set (.var "iff1") (.bool enabled), .set (.var "iff2") (.bool enabled),
    .set (.var "EI_inst") (.bool true)]

def interruptMode (mode : Byte) : Attempt Program :=
  if mode.toNat ≤ 2 then .ok [.set (.var "im") (.byte mode)]
  else .error (.operand (.number mode.toNat))

/-- Leaves `pc` on the instruction itself, so that it runs again until an interrupt comes. On
request the rest of the frame is dropped. -/
def halt (speedup : Bool) : Program :=
  (if speedup then [.set tstates 0] else []) ++
    [.set (.var "halt") (.bool true),
      .set pc (inLivePage { slot := .nextAddress, offset := -1 }), .done]

end Effect

structure Policy where
  /-- `HALT` drops the rest of the frame. -/
  haltSpeedup : Bool := true
  /-- Loads from `R` read the register, not a random number. -/
  refreshEmulation : Bool := true
  /-- Numbers are annotated with their hexadecimal form. -/
  annotate : Bool := true
  deriving DecidableEq

def Policy.refresh (policy : Policy) : Expr :=
  if policy.refreshEmulation then .register .r else Primitive.random.call [255]

namespace Instruction

def effect (policy : Policy) : Instruction → Attempt Program
  | nop => .ok []
  | loadByte dst src => Effect.loadByte policy.refresh dst src
  | loadIndexed dst x => .ok (Effect.loadIndexed dst x)
  | loadWord dst src => Effect.loadWord dst src
  | store dst src => Effect.store dst src
  | storeIndexed x src => .ok (Effect.storeIndexed x src)
  | loadStackPointer src => Effect.loadStackPointer src
  | storeWord src => Effect.storeWord src
  | inc cell => Effect.incByte cell
  | dec cell => Effect.decByte cell
  | incWord w => Effect.incWord w
  | decWord w => Effect.decWord w
  | incIndexed x => .ok (Effect.incIndexed x)
  | decIndexed x => .ok (Effect.decIndexed x)
  | addWord dst src => Effect.addWord dst src
  | adcWord src => Effect.adcWord src
  | sbcWord src => Effect.sbcWord src
  | accumulate op src => Effect.accumulate op src
  | rlca => .ok [Effect.perform .rlca []]
  | rrca => .ok [Effect.perform .rrca []]
  | rla => .ok [Effect.perform .rla []]
  | rra => .ok [Effect.perform .rra []]
  | daa => .ok [Effect.perform .daa []]
  | cpl => .ok [Effect.perform .cpl []]
  | ccf => .ok [Effect.perform .ccf []]
  | scf => .ok Effect.setCarry
  | neg => .ok Effect.negate
  | shift op cell => Effect.shift op cell
  | shiftIndexed op x copy => Effect.shiftIndexed op x copy
  | bit op n cell => Effect.bit op n cell
  | jumpRelative k => Effect.jumpRelative k
  | djnz => .ok Effect.decrementAndJump
  | jump k => .ok (Effect.jump k)
  | jumpTo w => Effect.jumpTo w
  | call k => .ok (Effect.call k)
  | restart vector => Effect.restart vector
  | ret k => .ok (Effect.ret k)
  | retInterrupt => .ok Effect.retInterrupt
  | push w => Effect.push w
  | pop w => Effect.pop w
  | exAf => .ok Effect.exAf
  | exx => .ok Effect.exx
  | exDeHl => .ok Effect.exDeHl
  | exStack w => Effect.exStack w
  | input dst port => .ok (Effect.input dst port)
  | output port src => .ok (Effect.output port src)
  | ini => .ok Effect.ini
  | outi => .ok Effect.outi
  | outd => .ok Effect.outd
  | otir => .ok Effect.otir
  | ldi => .ok Effect.ldi
  | ldd => .ok Effect.ldd
  | ldir => .ok Effect.ldir
  | lddr => .ok Effect.lddr
  | cpi => .ok Effect.cpi
  | cpir => .ok Effect.cpir
  | di => .ok (Effect.setInterrupts false)
  | ei => .ok (Effect.setInterrupts true)
  | interruptMode mode => Effect.interruptMode mode
  | halt => .ok (Effect.halt policy.haltSpeedup)

def template (policy : Policy) (i : Instruction) : Attempt Template :=
  (i.effect policy).map (Template.ofProgram policy.annotate)

def program (policy : Policy) (i : Instruction) (ops : Operands) : Attempt Program :=
  (i.template policy).map (·.instantiate ops)

end Instruction

end Z80Effects
