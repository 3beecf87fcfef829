import Z80Effects.Proofs.Outcome
import Z80Effects.Proofs.RunAgreement

/-!
# The accepted operand forms

`EffectForm` lists the programs of all instructions, with one case for each form of the operands
that is accepted. What holds of every program of an instruction is shown case by case from here,
without looking at the functions that build programs and refuse operands.
-/
namespace Z80Effects

open Effect

/-- Pairs through which a register is loaded and stored. -/
def RegisterPair.Addresses (p : RegisterPair) (reg : Register) : Prop :=
  p = .hl ∨ reg = .a ∧ (p = .bc ∨ p = .de)

inductive CarryAddend : WordRegister → Expr → Prop
  | pair (p : RegisterPair) (hp : p = .bc ∨ p = .de ∨ p = .hl) :
      CarryAddend (.pair p) (joinedHalves p)
  | sp : CarryAddend .sp sp

inductive AccumulatorOperand : AccumulatorSource → Expr → Prop
  | immediate : AccumulatorOperand .immediate value
  | register (reg : Register) (hr : reg.isGeneral) :
      AccumulatorOperand (.register reg) (.register reg)
  | indirect : AccumulatorOperand (.indirect (.pair .hl)) (readByte (pairValue .hl))
  | indexed (x : IndexRegister) : AccumulatorOperand (.indexed x) (readByte (displaced x))

/-- The program of an instruction with an accepted form of operands. -/
inductive EffectForm (policy : Policy) : Instruction → Program → Prop
  | nop : EffectForm policy .nop []
  | loadFromI : EffectForm policy (.loadByte .a (.register .i))
      [.set (.register .a) (.register .i), specialLoadFlags]
  | loadFromR : EffectForm policy (.loadByte .a (.register .r))
      [.set (.register .a) policy.refresh, specialLoadFlags]
  | loadToI : EffectForm policy (.loadByte .i (.register .a)) [.set (.register .i) (.register .a)]
  | loadToR : EffectForm policy (.loadByte .r (.register .a)) [.set (.register .r) (.register .a)]
  | loadImmediate (dst : Register) (hd : dst.isGeneral) :
      EffectForm policy (.loadByte dst .immediate) [.set (.register dst) value]
  | loadRegister (dst src : Register) (hd : dst.isGeneral) (hs : src.isGeneral) :
      EffectForm policy (.loadByte dst (.register src)) [.set (.register dst) (.register src)]
  | loadDirect : EffectForm policy (.loadByte .a .direct) [.set (.register .a) (readByte value)]
  | loadIndirect (dst : Register) (p : RegisterPair) (hd : dst.isGeneral) (hp : p.Addresses dst) :
      EffectForm policy (.loadByte dst (.indirect (.pair p)))
        [.set (.register dst) (readByte (pairValue p))]
  | loadIndexed (dst : Register) (x : IndexRegister) :
      EffectForm policy (.loadIndexed dst x) (loadIndexed dst x)
  | loadPair (p : RegisterPair) (hp : p ≠ .af) :
      EffectForm policy (.loadWord (.pair p) .immediate) (setPair p value)
  | loadPairDirect (p : RegisterPair) (hp : p ≠ .af) :
      EffectForm policy (.loadWord (.pair p) .direct) (setPair p (readWord value))
  | storeImmediate : EffectForm policy (.store (.indirect (.pair .hl)) .immediate)
      [writeByte (pairValue .hl) value]
  | storeRegister (p : RegisterPair) (src : Register) (hs : src.isGeneral) (hp : p.Addresses src) :
      EffectForm policy (.store (.indirect (.pair p)) (.byte src))
        [writeByte (pairValue p) (.register src)]
  | storeDirect : EffectForm policy (.store .direct (.byte .a)) [writeByte value (.register .a)]
  | storePairDirect (p : RegisterPair) (hp : p ≠ .af) :
      EffectForm policy (.store .direct (.word (.pair p))) (storePair p)
  | storeIndexedImmediate (x : IndexRegister) : EffectForm policy (.storeIndexed x none)
      [writeByte (pairValue x.pair + (value &&& 0xFF)) (value >>> 8)]
  | storeIndexedRegister (x : IndexRegister) (src : Register) :
      EffectForm policy (.storeIndexed x (some src)) [writeByte (displaced x) (.register src)]
  | loadSpImmediate : EffectForm policy (.loadStackPointer .immediate) [.set sp value]
  | loadSpDirect : EffectForm policy (.loadStackPointer .direct) [.set sp (readWord value)]
  | loadSpPair (p : RegisterPair) (hp : p = .hl ∨ p = .ix ∨ p = .iy) :
      EffectForm policy (.loadStackPointer (.register (.pair p))) [.set sp (pairValue p)]
  | storeWordPair (p : RegisterPair) (hp : p ≠ .af) :
      EffectForm policy (.storeWord (.pair p)) (storePair p)
  | storeWordSp : EffectForm policy (.storeWord .sp)
      [writeByte value (sp &&& 0xFF), writeByte valueNext (sp >>> 8)]
  | incRegister (reg : Register) (hr : reg.isGeneral) : EffectForm policy (.inc (.register reg))
      [.set (.register reg) (Primitive.inc.call [.register reg])]
  | incMemory : EffectForm policy (.inc .memory) [perform .incMemory [pairValue .hl]]
  | decRegister (reg : Register) (hr : reg.isGeneral) : EffectForm policy (.dec (.register reg))
      [.set (.register reg) (Primitive.dec.call [.register reg])]
  | decMemory : EffectForm policy (.dec .memory) [perform .decMemory [pairValue .hl]]
  | incPair (p : RegisterPair) (hp : p ≠ .af) :
      EffectForm policy (.incWord (.pair p)) (incPair p)
  | incSp : EffectForm policy (.incWord .sp) [.set sp ((sp + 1) &&& 0xFFFF)]
  | decPair (p : RegisterPair) (hp : p ≠ .af) :
      EffectForm policy (.decWord (.pair p)) (decPair p)
  | decSp : EffectForm policy (.decWord .sp) [.set sp ((sp - 1) &&& 0xFFFF)]
  | incIndexed (x : IndexRegister) :
      EffectForm policy (.incIndexed x) [perform .incMemory [displaced x]]
  | decIndexed (x : IndexRegister) :
      EffectForm policy (.decIndexed x) [perform .decMemory [displaced x]]
  | addWord (p : RegisterPair) (src : WordRegister) (hp : isWordAccumulator p)
      (hs : isAddend p src) : EffectForm policy (.addWord (.pair p) src)
        (setPair p (Primitive.addWord.call [pairValue p, wordValue src]))
  | adcWord (src : WordRegister) (second : Expr) (hs : CarryAddend src second) :
      EffectForm policy (.adcWord src) (carrySum second)
  | sbcWord (src : WordRegister) (second : Expr) (hs : CarryAddend src second) :
      EffectForm policy (.sbcWord src) (carryDifference second)
  | accumulateArithmetic (op : AccumulatorOp) (src : AccumulatorSource) (operand : Expr)
      (f : Primitive) (hs : AccumulatorOperand src operand) (hf : op.primitive? = some f) :
      EffectForm policy (.accumulate op src) [perform f [operand]]
  | accumulateLogical (op : AccumulatorOp) (src : AccumulatorSource) (operand : Expr)
      (hs : AccumulatorOperand src operand) (hf : op.primitive? = none) :
      EffectForm policy (.accumulate op src) (logical op src operand)
  | rlca : EffectForm policy .rlca [perform .rlca []]
  | rrca : EffectForm policy .rrca [perform .rrca []]
  | rla : EffectForm policy .rla [perform .rla []]
  | rra : EffectForm policy .rra [perform .rra []]
  | daa : EffectForm policy .daa [perform .daa []]
  | cpl : EffectForm policy .cpl [perform .cpl []]
  | ccf : EffectForm policy .ccf [perform .ccf []]
  | scf : EffectForm policy .scf setCarry
  | neg : EffectForm policy .neg negate
  | shiftRegister (op : ShiftOp) (reg : Register) (hr : reg.isGeneral) :
      EffectForm policy (.shift op (.register reg))
        [.set (.register reg) ((Primitive.shift op).call [.register reg])]
  | shiftMemory (op : ShiftOp) : EffectForm policy (.shift op .memory)
      [writeByte (pairValue .hl) ((Primitive.shift op).call [readByte (pairValue .hl)])]
  | shiftIndexed (op : ShiftOp) (x : IndexRegister) :
      EffectForm policy (.shiftIndexed op x none)
        [locate x, writeByte location ((Primitive.shift op).call [readByte location])]
  | shiftIndexedCopy (op : ShiftOp) (x : IndexRegister) (reg : Register) (hr : reg.isGeneral) :
      EffectForm policy (.shiftIndexed op x (some reg))
        [locate x, .set (.register reg) ((Primitive.shift op).call [readByte location]),
          writeByte location (.register reg)]
  | bitRegister (op : BitOp) (n : Byte) (hn : n.toNat < 8) (reg : Register) :
      EffectForm policy (.bit op n (.register reg))
        [bitOfRegister op reg (.singleBit ⟨n.toNat, hn⟩)]
  | bitMemory (op : BitOp) (n : Byte) (hn : n.toNat < 8) :
      EffectForm policy (.bit op n .memory)
        [bitOfMemory op (pairValue .hl) (.singleBit ⟨n.toNat, hn⟩)]
  | bitIndexed (op : BitOp) (n : Byte) (hn : n.toNat < 8) (x : IndexRegister) :
      EffectForm policy (.bit op n (.indexed x))
        [locate x, bitOfMemory op location (.singleBit ⟨n.toNat, hn⟩)]
  | jumpRelative : EffectForm policy (.jumpRelative none) relativeJump
  | jumpRelativeIf (k : Condition) (hk : k.isRelative) :
      EffectForm policy (.jumpRelative (some k)) [.whenever (holdsRelative k) relativeJump]
  | djnz : EffectForm policy .djnz decrementAndJump
  | jump (k : Option Condition) : EffectForm policy (.jump k) (jump k)
  | jumpTo (p : RegisterPair) (hp : p = .hl ∨ p = .ix ∨ p = .iy) :
      EffectForm policy (.jumpTo (.pair p)) [.set pc (pairValue p), .done]
  | call (k : Option Condition) : EffectForm policy (.call k) (call k)
  | restart (vector : Word) (hv : vector &&& ~~~ 0x38 = 0) : EffectForm policy (.restart vector)
      [pushReturnAddress, .set pc (.num (Value.ofWord vector)), .done]
  | ret (k : Option Condition) : EffectForm policy (.ret k) (ret k)
  | retInterrupt : EffectForm policy .retInterrupt retInterrupt
  | push (p : RegisterPair) : EffectForm policy (.push (.pair p))
      [perform .pushBytes [.register p.high, .register p.low]]
  | pop (p : RegisterPair) : EffectForm policy (.pop (.pair p))
      (setPair p (readWord sp) ++ [.assign .add sp 2])
  | exAf : EffectForm policy .exAf exAf
  | exx : EffectForm policy .exx exx
  | exDeHl : EffectForm policy .exDeHl exDeHl
  | exStackHl : EffectForm policy (.exStack (.pair .hl))
      [.set temp (.register .h), .set (.register .h) (readByte (sp + 1)), writeByte (sp + 1) temp,
        .set temp (.register .l), .set (.register .l) (readByte sp), writeByte sp temp]
  | exStackIndex (x : IndexRegister) :
      EffectForm policy (.exStack (.pair x.pair)) (exStackIndex x.pair)
  | input (dst : Register) (port : PortSource) :
      EffectForm policy (.input dst port) (input dst port)
  | output (port : PortSource) (src : Register) :
      EffectForm policy (.output port src) (output port src)
  | ini : EffectForm policy .ini ini
  | outi : EffectForm policy .outi outi
  | outd : EffectForm policy .outd outd
  | otir : EffectForm policy .otir otir
  | ldi : EffectForm policy .ldi ldi
  | ldd : EffectForm policy .ldd ldd
  | ldir : EffectForm policy .ldir ldir
  | lddr : EffectForm policy .lddr lddr
  | cpi : EffectForm policy .cpi cpi
  | cpir : EffectForm policy .cpir cpir
  | di : EffectForm policy .di (setInterrupts false)
  | ei : EffectForm policy .ei (setInterrupts true)
  | interruptMode (mode : Byte) (hm : mode.toNat ≤ 2) :
      EffectForm policy (.interruptMode mode) [.set (.var "im") (.byte mode)]
  | halt : EffectForm policy .halt (halt policy.haltSpeedup)

namespace EffectForm

variable {policy : Policy}

private theorem of_general {reg : Register} {e : Expr} (h : general reg = .ok e) :
    reg.isGeneral ∧ e = .register reg := by
  unfold general at h
  split at h
  · next hr => cases h; exact ⟨hr, rfl⟩
  · cases h

private theorem of_addressIn {w : WordRegister} {reg : Register} {e : Expr}
    (h : addressIn w reg = .ok e) : ∃ p : RegisterPair, w = .pair p ∧ p.Addresses reg ∧
      e = pairValue p := by
  unfold addressIn at h
  split at h
  · cases h; exact ⟨.hl, rfl, .inl rfl, rfl⟩
  · cases h; exact ⟨.bc, rfl, .inr ⟨rfl, .inl rfl⟩, rfl⟩
  · cases h; exact ⟨.de, rfl, .inr ⟨rfl, .inr rfl⟩, rfl⟩
  · cases h

private theorem of_carryAddend {w : WordRegister} {e : Expr} (h : carryAddend w = .ok e) :
    CarryAddend w e := by
  unfold carryAddend at h
  split at h
  · cases h; exact .sp
  · cases h; exact .pair .bc (.inl rfl)
  · cases h; exact .pair .de (.inr (.inl rfl))
  · cases h; exact .pair .hl (.inr (.inr rfl))
  · cases h

private theorem of_accumulatorOperand {s : AccumulatorSource} {e : Expr}
    (h : accumulatorOperand s = .ok e) : AccumulatorOperand s e := by
  unfold accumulatorOperand at h
  split at h
  · cases h; exact .immediate
  · obtain ⟨hr, rfl⟩ := of_general h; exact .register _ hr
  · cases h; exact .indirect
  · cases h
  · cases h; exact .indexed _

private theorem of_loadByte {dst : Register} {src : ByteSource} {p : Program}
    (h : Effect.loadByte policy.refresh dst src = .ok p) : EffectForm policy (.loadByte dst src) p := by
  unfold Effect.loadByte at h
  split at h
  · cases h; exact .loadFromI
  · cases h; exact .loadFromR
  · cases h; exact .loadToI
  · cases h; exact .loadToR
  · split at h
    · next hd => cases h; exact .loadImmediate _ hd
    · cases h
  · split at h
    · next hd =>
      rw [Bool.and_eq_true] at hd
      cases h; exact .loadRegister _ _ hd.1 hd.2
    · cases h
  · cases h; exact .loadDirect
  · cases h
  · split at h
    · next hd =>
      cases ha : addressIn _ dst with
      | error e => rw [ha] at h; cases h
      | ok address =>
        obtain ⟨q, rfl, hq, rfl⟩ := of_addressIn ha
        rw [ha] at h
        cases h; exact .loadIndirect _ _ hd hq
    · cases h

private theorem of_loadWord {dst : WordRegister} {src : WordSource} {p : Program}
    (h : Effect.loadWord dst src = .ok p) : EffectForm policy (.loadWord dst src) p := by
  unfold Effect.loadWord at h
  split at h
  · cases h
  · cases h
  · next hp => cases h; exact .loadPair _ hp
  · next hp => cases h; exact .loadPairDirect _ hp
  · cases h
  · cases h

private theorem of_store {dst : StoreAddress} {src : StoreSource} {p : Program}
    (h : Effect.store dst src = .ok p) : EffectForm policy (.store dst src) p := by
  unfold Effect.store at h
  split at h
  · cases h; exact .storeImmediate
  · next w reg =>
    cases hb : general reg with
    | error e => rw [hb] at h; cases h
    | ok byte =>
      obtain ⟨hr, rfl⟩ := of_general hb
      cases ha : addressIn w reg with
      | error e => rw [hb, ha] at h; cases h
      | ok address =>
        obtain ⟨q, rfl, hq, rfl⟩ := of_addressIn ha
        rw [hb, ha] at h
        cases h; exact .storeRegister _ _ hr hq
  · cases h; exact .storeDirect
  · cases h
  · next hp => cases h; exact .storePairDirect _ hp
  · cases h
  · cases h

private theorem of_loadStackPointer {src : StackPointerSource} {p : Program}
    (h : Effect.loadStackPointer src = .ok p) : EffectForm policy (.loadStackPointer src) p := by
  unfold Effect.loadStackPointer at h
  split at h
  · cases h; exact .loadSpImmediate
  · cases h; exact .loadSpDirect
  · cases h; exact .loadSpPair _ (.inl rfl)
  · cases h; exact .loadSpPair _ (.inr (.inl rfl))
  · cases h; exact .loadSpPair _ (.inr (.inr rfl))
  · cases h

private theorem of_storeWord {src : WordRegister} {p : Program} (h : Effect.storeWord src = .ok p) :
    EffectForm policy (.storeWord src) p := by
  unfold Effect.storeWord at h
  split at h
  · cases h
  · next hp => cases h; exact .storeWordPair _ hp
  · cases h; exact .storeWordSp

private theorem of_inc {cell : ByteCell} {p : Program} (h : incByte cell = .ok p) :
    EffectForm policy (.inc cell) p := by
  unfold incByte countByte at h
  split at h
  · next reg =>
    cases hr : general reg with
    | error e => rw [hr] at h; cases h
    | ok e =>
      obtain ⟨hr', rfl⟩ := of_general hr
      rw [hr] at h
      cases h; exact .incRegister _ hr'
  · cases h; exact .incMemory

private theorem of_dec {cell : ByteCell} {p : Program} (h : decByte cell = .ok p) :
    EffectForm policy (.dec cell) p := by
  unfold decByte countByte at h
  split at h
  · next reg =>
    cases hr : general reg with
    | error e => rw [hr] at h; cases h
    | ok e =>
      obtain ⟨hr', rfl⟩ := of_general hr
      rw [hr] at h
      cases h; exact .decRegister _ hr'
  · cases h; exact .decMemory

private theorem of_incWord {w : WordRegister} {p : Program} (h : Effect.incWord w = .ok p) :
    EffectForm policy (.incWord w) p := by
  unfold Effect.incWord at h
  split at h
  · cases h; exact .incSp
  · cases h
  · next hp => cases h; exact .incPair _ hp

private theorem of_decWord {w : WordRegister} {p : Program} (h : Effect.decWord w = .ok p) :
    EffectForm policy (.decWord w) p := by
  unfold Effect.decWord at h
  split at h
  · cases h; exact .decSp
  · cases h
  · next hp => cases h; exact .decPair _ hp

private theorem of_addWord {dst src : WordRegister} {p : Program}
    (h : Effect.addWord dst src = .ok p) : EffectForm policy (.addWord dst src) p := by
  unfold Effect.addWord at h
  split at h
  · cases h
  · split at h
    · next hp =>
      rw [Bool.and_eq_true] at hp
      cases h; exact .addWord _ _ hp.1 hp.2
    · cases h

private theorem of_accumulate {op : AccumulatorOp} {src : AccumulatorSource} {p : Program}
    (h : Effect.accumulate op src = .ok p) : EffectForm policy (.accumulate op src) p := by
  unfold Effect.accumulate at h
  cases ho : accumulatorOperand src with
  | error e => rw [ho] at h; cases h
  | ok operand =>
    rw [ho] at h
    cases hf : op.primitive? with
    | none =>
      simp only [hf] at h
      cases h; exact .accumulateLogical _ _ _ (of_accumulatorOperand ho) hf
    | some f =>
      simp only [hf] at h
      cases h; exact .accumulateArithmetic _ _ _ _ (of_accumulatorOperand ho) hf

private theorem of_shift {op : ShiftOp} {cell : ByteCell} {p : Program}
    (h : Effect.shift op cell = .ok p) : EffectForm policy (.shift op cell) p := by
  unfold Effect.shift at h
  split at h
  · next reg =>
    cases hr : general reg with
    | error e => rw [hr] at h; cases h
    | ok e =>
      obtain ⟨hr', rfl⟩ := of_general hr
      rw [hr] at h
      cases h; exact .shiftRegister _ _ hr'
  · cases h; exact .shiftMemory _

private theorem of_shiftIndexed {op : ShiftOp} {x : IndexRegister} {copy : Option Register}
    {p : Program} (h : Effect.shiftIndexed op x copy = .ok p) :
    EffectForm policy (.shiftIndexed op x copy) p := by
  unfold Effect.shiftIndexed at h
  split at h
  · cases h; exact .shiftIndexed _ _
  · next reg =>
    cases hr : general reg with
    | error e => rw [hr] at h; cases h
    | ok e =>
      obtain ⟨hr', rfl⟩ := of_general hr
      rw [hr] at h
      cases h; exact .shiftIndexedCopy _ _ _ hr'

private theorem of_bit {op : BitOp} {n : Byte} {cell : BitCell} {p : Program}
    (h : Effect.bit op n cell = .ok p) : EffectForm policy (.bit op n cell) p := by
  unfold Effect.bit at h
  split at h
  · next hn =>
    cases cell with
    | register reg => cases h; exact .bitRegister _ _ hn _
    | memory => cases h; exact .bitMemory _ _ hn
    | indexed x => cases h; exact .bitIndexed _ _ hn _
  · cases h

private theorem of_jumpRelative {k : Option Condition} {p : Program}
    (h : Effect.jumpRelative k = .ok p) : EffectForm policy (.jumpRelative k) p := by
  unfold Effect.jumpRelative at h
  split at h
  · cases h; exact .jumpRelative
  · split at h
    · next hk => cases h; exact .jumpRelativeIf _ hk
    · cases h

private theorem of_jumpTo {w : WordRegister} {p : Program} (h : Effect.jumpTo w = .ok p) :
    EffectForm policy (.jumpTo w) p := by
  unfold Effect.jumpTo at h
  split at h
  · cases h; exact .jumpTo _ (.inl rfl)
  · cases h; exact .jumpTo _ (.inr (.inl rfl))
  · cases h; exact .jumpTo _ (.inr (.inr rfl))
  · cases h

private theorem of_exStack {w : WordRegister} {p : Program} (h : Effect.exStack w = .ok p) :
    EffectForm policy (.exStack w) p := by
  unfold Effect.exStack at h
  split at h
  · cases h; exact .exStackHl
  · cases h; exact .exStackIndex .ix
  · cases h; exact .exStackIndex .iy
  · cases h

/-- The program of an accepted instruction has one of the forms. -/
theorem of_effect {i : Instruction} {p : Program} (h : i.effect policy = .ok p) :
    EffectForm policy i p := by
  cases i with
  | loadByte dst src => exact of_loadByte h
  | loadWord dst src => exact of_loadWord h
  | store dst src => exact of_store h
  | loadStackPointer src => exact of_loadStackPointer h
  | storeWord src => exact of_storeWord h
  | inc cell => exact of_inc h
  | dec cell => exact of_dec h
  | incWord w => exact of_incWord h
  | decWord w => exact of_decWord h
  | addWord dst src => exact of_addWord h
  | accumulate op src => exact of_accumulate h
  | shift op cell => exact of_shift h
  | shiftIndexed op x copy => exact of_shiftIndexed h
  | bit op n cell => exact of_bit h
  | jumpRelative k => exact of_jumpRelative h
  | jumpTo w => exact of_jumpTo h
  | exStack w => exact of_exStack h
  | storeIndexed x src =>
    cases src with
    | none => cases h; exact .storeIndexedImmediate x
    | some reg => cases h; exact .storeIndexedRegister x reg
  | adcWord src =>
    cases hs : carryAddend src with
    | error e => simp only [Instruction.effect, Effect.adcWord, hs] at h; cases h
    | ok second =>
      simp only [Instruction.effect, Effect.adcWord, hs] at h
      cases h; exact .adcWord src second (of_carryAddend hs)
  | sbcWord src =>
    cases hs : carryAddend src with
    | error e => simp only [Instruction.effect, Effect.sbcWord, hs] at h; cases h
    | ok second =>
      simp only [Instruction.effect, Effect.sbcWord, hs] at h
      cases h; exact .sbcWord src second (of_carryAddend hs)
  | restart vector =>
    simp only [Instruction.effect, Effect.restart] at h
    split at h
    · next hv => cases h; exact .restart vector hv
    · cases h
  | interruptMode mode =>
    simp only [Instruction.effect, Effect.interruptMode] at h
    split at h
    · next hm => cases h; exact .interruptMode mode hm
    · cases h
  | push w =>
    cases w with
    | pair q => cases h; exact .push q
    | sp => cases h
  | pop w =>
    cases w with
    | pair q => cases h; exact .pop q
    | sp => cases h
  | _ => cases h; constructor

/-- The program of an accepted instruction cannot fault. -/
theorem wellFormed {i : Instruction} {p : Program} (h : EffectForm policy i p) : p.wellFormed := by
  cases h with
  | loadFromR =>
    obtain ⟨_, refresh, _⟩ := policy
    cases refresh <;> rfl
  | halt =>
    obtain ⟨speedup, _, _⟩ := policy
    cases speedup <;> rfl
  | loadIndirect dst q _ _ | loadSpPair q _ | storeRegister q src _ _ | jumpTo q _ =>
    cases q <;> rfl
  | loadIndexed dst x | storeIndexedImmediate x | storeIndexedRegister x src | incIndexed x
  | decIndexed x | exStackIndex x => cases x <;> rfl
  | addWord q src _ hs =>
    cases src with
    | sp => cases q <;> rfl
    | pair q' => cases q <;> cases q' <;> rfl
  | adcWord src second hs | sbcWord src second hs => cases hs <;> rfl
  | accumulateArithmetic op src operand f hs hf =>
    cases hs with
    | indexed x => cases op <;> cases hf <;> cases x <;> rfl
    | _ => cases op <;> cases hf <;> rfl
  | accumulateLogical op src operand hs hf =>
    cases hs with
    | indexed x => cases op <;> cases hf <;> cases x <;> rfl
    | register reg hr => cases op <;> cases hf <;> cases reg <;> rfl
    | _ => cases op <;> cases hf <;> rfl
  | shiftRegister op reg hr | shiftMemory op | bitRegister op n hn reg | bitMemory op n hn =>
    cases op <;> rfl
  | shiftIndexed op x | shiftIndexedCopy op x reg hr | bitIndexed op n hn x =>
    cases op <;> cases x <;> rfl
  | jumpRelativeIf k _ => cases k <;> rfl
  | jump k | call k | ret k =>
    cases k with
    | none => rfl
    | some k => cases k <;> rfl
  | input dst port => cases port <;> rfl
  | output port src => cases port <;> rfl
  | _ => rfl

end EffectForm

namespace Instruction

variable {policy : Policy} {i : Instruction} {ops : Operands} {p : Program}

/-- With operands filled in, the program of an accepted instruction runs to the outcome of the
skeleton from every machine. -/
theorem exists_program_of_effect {skeleton : Program} (h : i.effect policy = .ok skeleton)
    (ops : Operands) : ∃ p, i.program policy ops = .ok p ∧
      ∀ m, p.run m = .ok (skeleton.outcome ops m).1 (skeleton.outcome ops m).2 := by
  rw [program, template, h]
  refine ⟨_, rfl, fun m => ?_⟩
  rw [← Run.byKind_eq_ok_iff, Template.run_instantiate_byKind, Run.byKind_eq_ok_iff]
  exact Program.runWith_eq_outcome (EffectForm.of_effect h).wellFormed ops m

/-- The program of an accepted instruction with some operands has one of the forms before they are
filled in. It runs to the outcome of that form from every machine. -/
theorem exists_form_of_program (h : i.program policy ops = .ok p) :
    ∃ skeleton, EffectForm policy i skeleton ∧
      ∀ m, p.run m = .ok (skeleton.outcome ops m).1 (skeleton.outcome ops m).2 := by
  cases he : i.effect policy with
  | error refusal =>
    rw [program, template, he] at h
    cases h
  | ok skeleton =>
    obtain ⟨p', hp, run⟩ := exists_program_of_effect he ops
    rw [h] at hp
    cases hp
    exact ⟨skeleton, EffectForm.of_effect he, run⟩

end Instruction

end Z80Effects
