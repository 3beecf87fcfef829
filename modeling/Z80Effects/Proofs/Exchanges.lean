import Z80Effects.Proofs.RegisterLimits
import Z80Effects.Proofs.StackNesting

/-!
# Exchanges

An exchange swaps the contents of pairs of locations, which are variables or cells of memory, and
changes no other location but two temporaries. Variables are swapped pair by pair, always through
the same temporary. The word on top of the stack is exchanged with `HL` byte by byte, and with an
index pair as a word; either way the high half goes with the cell after the one that the stack
pointer gives, around the end of the address space. Exchanging twice therefore restores everything.
-/
namespace Z80Effects

open Effect

inductive Location
  | var (name : String)
  | cell (address : Word)
  deriving DecidableEq

namespace Location

def register (reg : Register) : Location := .var reg.name

/-- What exchanges use for a value under way. -/
def scratch : List Location := [.var "temp", .var "val"]

def ofPairs (pairs : List (Location × Location)) : List Location :=
  pairs.flatMap fun x => [x.1, x.2]

/-- The locations of the pairs are all different, and no temporary is among them. -/
def Separate (pairs : List (Location × Location)) : Prop := (scratch ++ ofPairs pairs).Nodup

instance (pairs : List (Location × Location)) : Decidable (Separate pairs) :=
  inferInstanceAs (Decidable (List.Nodup _))

variable {ps qs : List (Location × Location)} {x : Location × Location} {l : Location}

@[simp] theorem ofPairs_cons : ofPairs (x :: ps) = x.1 :: x.2 :: ofPairs ps := rfl

@[simp] theorem ofPairs_append : ofPairs (ps ++ qs) = ofPairs ps ++ ofPairs qs :=
  List.flatMap_append

theorem fst_mem_ofPairs (h : x ∈ ps) : x.1 ∈ ofPairs ps :=
  List.mem_flatMap_of_mem h List.mem_cons_self

theorem snd_mem_ofPairs (h : x ∈ ps) : x.2 ∈ ofPairs ps :=
  List.mem_flatMap_of_mem h (List.mem_cons_of_mem _ List.mem_cons_self)

namespace Separate

theorem not_mem_scratch (h : Separate ps) (hl : l ∈ ofPairs ps) : l ∉ scratch :=
  fun mem => (List.nodup_append.mp h).2.2 l mem l hl rfl

theorem not_mem_right (h : Separate (ps ++ qs)) (hl : l ∈ ofPairs ps) : l ∉ ofPairs qs := by
  have nodup := (List.nodup_append.mp h).2.1
  rw [ofPairs_append] at nodup
  exact fun mem => (List.nodup_append.mp nodup).2.2 l hl l mem rfl

theorem not_mem_left (h : Separate (ps ++ qs)) (hl : l ∈ ofPairs qs) : l ∉ ofPairs ps :=
  fun mem => h.not_mem_right mem hl

theorem left (h : Separate (ps ++ qs)) : Separate ps := by
  rw [Separate, ofPairs_append] at h
  exact h.sublist ((List.sublist_append_left _ _).append_left _)

theorem right (h : Separate (ps ++ qs)) : Separate qs := by
  rw [Separate, ofPairs_append] at h
  exact h.sublist ((List.sublist_append_right _ _).append_left _)

theorem of_mem (h : Separate ps) (hx : x ∈ ps) : Separate [x] := by
  obtain ⟨before, after, rfl⟩ := List.append_of_mem hx
  have rest : Separate ([x] ++ after) := h.right
  exact rest.left

theorem ne {y : Location} (h : Separate [(l, y)]) : l ≠ y := by
  have nodup := (List.nodup_append.mp h).2.1
  simpa [ofPairs] using nodup

end Separate

end Location

namespace Machine

open Location

def content (m : Machine) : Location → Value
  | .var name => m.get name
  | .cell address => .ofByte (m.memory.get address)

/-- One machine is the other after pairs of locations are exchanged. Nothing else has changed, but
for the temporaries and the record of accesses. -/
structure Swaps (pairs : List (Location × Location)) (m m' : Machine) : Prop where
  forth : ∀ x ∈ pairs, m'.content x.1 = m.content x.2
  back : ∀ x ∈ pairs, m'.content x.2 = m.content x.1
  others : ∀ l, l ∉ ofPairs pairs → l ∉ scratch → m'.content l = m.content l
  ports : m'.ports = m.ports
  outputs : m'.outputs = m.outputs
  randomSource : m'.randomSource = m.randomSource

/-- Two machines differ at most in the temporaries and in the record of accesses. -/
structure SameBesideTemporaries (m m' : Machine) : Prop where
  get : ∀ name, name ≠ "temp" → name ≠ "val" → m'.get name = m.get name
  memory : m'.memory = m.memory
  ports : m'.ports = m.ports
  outputs : m'.outputs = m.outputs
  randomSource : m'.randomSource = m.randomSource

section
variable (m : Machine)

theorem content_set (name : String) (v : Value) (l : Location) :
    (m.set name v).content l = if .var name = l then v else m.content l := by
  cases l with
  | var other => simp only [content, get_set, Location.var.injEq]
  | cell address => simp [content]

theorem content_setReg (reg : Register) (v : Value) (l : Location) :
    (m.setReg reg v).content l = if .register reg = l then v else m.content l := by
  rw [setReg_eq_set, content_set, register]

@[simp] theorem content_read (address : Word) (l : Location) :
    (m.read address).2.content l = m.content l := by
  cases l <;> simp [content]

theorem content_write (address : Word) (b : Byte) (l : Location) :
    (m.write address b).content l = if .cell address = l then .ofByte b else m.content l := by
  cases l with
  | var name => simp [content]
  | cell other =>
    simp only [content, memory_write, Memory.get_set, Location.cell.injEq]
    split <;> rfl

theorem content_readTop (l : Location) : m.readTop.content l = m.content l := by
  rw [readTop, content_read, content_read]

theorem content_setPair (p : RegisterPair) (w : Word) (l : Location) :
    (m.setPair p (.ofWord w)).content l = if .register p.low = l then .ofByte w.low
      else if .register p.high = l then .ofByte w.high else m.content l := by
  have word : (Value.ofWord w).toWord = w := by
    simp
  rw [setPair, content_setReg, content_setReg, word]

theorem content_storeWord (address w : Word) (l : Location) :
    (m.storeWord address w).content l = if .cell (address + 1) = l then .ofByte w.high
      else if .cell address = l then .ofByte w.low else m.content l := by
  rw [storeWord, content_write, content_write]

end

/-- The machine after a register is set from a cell, its content saved. -/
def fromCell (m : Machine) (reg : Register) (address : Word) : Machine :=
  ((m.set "temp" (m.reg reg)).read address).2.setReg reg (.ofByte (m.memory.get address))

theorem content_fromCell (m : Machine) (reg : Register) (address : Word) (l : Location) :
    (m.fromCell reg address).content l = if .register reg = l then .ofByte (m.memory.get address)
      else if .var "temp" = l then m.reg reg else m.content l := by
  rw [fromCell, content_setReg, content_read, content_set]

variable {m m₁ m₂ : Machine} {ps qs : List (Location × Location)}

namespace Swaps

theorem nil (m : Machine) : m.Swaps [] m := ⟨by simp, by simp, fun _ _ _ => rfl, rfl, rfl, rfl⟩

/-- One pair, by way of a temporary, its second location changed last. -/
theorem single {x y : Location} (apart : x ≠ y)
    (content : ∀ l, m₁.content l = if y = l then m.content x else if x = l then m.content y
      else if .var "temp" = l then m.content x else m.content l)
    (ports : m₁.ports = m.ports) (outputs : m₁.outputs = m.outputs)
    (randomSource : m₁.randomSource = m.randomSource) : m.Swaps [(x, y)] m₁ where
  forth z hz := by
    obtain rfl := List.mem_singleton.mp hz
    rw [content, if_neg apart.symm, if_pos rfl]
  back z hz := by
    obtain rfl := List.mem_singleton.mp hz
    rw [content, if_pos rfl]
  others l hl temporary := by
    simp only [ofPairs_cons, List.mem_cons, not_or] at hl
    simp only [scratch, List.mem_cons, not_or] at temporary
    rw [content, if_neg (Ne.symm hl.2.1), if_neg (Ne.symm hl.1), if_neg (Ne.symm temporary.1)]
  ports := ports
  outputs := outputs
  randomSource := randomSource

/-- Two variables, one after the other set to what the other one has held. -/
theorem set (m : Machine) {a b : String} (separate : Separate [(.var a, .var b)]) :
    m.Swaps [(.var a, .var b)] (((m.set "temp" (m.get a)).set a (m.get b)).set b (m.get a)) := by
  refine single separate.ne (fun l => ?_) rfl rfl rfl
  rw [content_set, content_set, content_set]
  rfl

/-- The content of a register written to the cell that the register has been set from. -/
theorem write_fromCell (m : Machine) {reg : Register} (byte : (m.reg reg).toNat < 256)
    (address : Word) : m.Swaps [(.register reg, .cell address)]
      ((m.fromCell reg address).write address (m.reg reg).toByte) := by
  have whole : Value.ofByte (m.reg reg).toByte = m.reg reg := by
    bv_omega
  refine single (by simp [register]) (fun l => ?_) rfl rfl rfl
  rw [content_write, content_fromCell, whole]
  rfl

/-- Swaps of separate locations, one after the other. -/
theorem append (h : m.Swaps ps m₁) (h' : m₁.Swaps qs m₂) (separate : Separate (ps ++ qs)) :
    m.Swaps (ps ++ qs) m₂ where
  forth x hx := by
    obtain hx | hx := List.mem_append.mp hx
    · have hl := fst_mem_ofPairs hx
      rw [h'.others _ (separate.not_mem_right hl) (separate.left.not_mem_scratch hl),
        h.forth x hx]
    · have hl := snd_mem_ofPairs hx
      rw [h'.forth x hx,
        h.others _ (separate.not_mem_left hl) (separate.right.not_mem_scratch hl)]
  back x hx := by
    obtain hx | hx := List.mem_append.mp hx
    · have hl := snd_mem_ofPairs hx
      rw [h'.others _ (separate.not_mem_right hl) (separate.left.not_mem_scratch hl),
        h.back x hx]
    · have hl := fst_mem_ofPairs hx
      rw [h'.back x hx,
        h.others _ (separate.not_mem_left hl) (separate.right.not_mem_scratch hl)]
  others l hl temporary := by
    rw [ofPairs_append, List.mem_append, not_or] at hl
    rw [h'.others l hl.2 temporary, h.others l hl.1 temporary]
  ports := h'.ports.trans h.ports
  outputs := h'.outputs.trans h.outputs
  randomSource := h'.randomSource.trans h.randomSource

/-- Two equal swaps restore every location. -/
theorem twice (h : m.Swaps ps m₁) (h' : m₁.Swaps ps m₂) (l : Location) (hl : l ∉ scratch) :
    m₂.content l = m.content l := by
  by_cases among : l ∈ ofPairs ps
  · obtain ⟨x, hx, hl⟩ := List.mem_flatMap.mp among
    simp only [List.mem_cons, List.not_mem_nil, or_false] at hl
    obtain rfl | rfl := hl
    · rw [h'.forth x hx, h.back x hx]
    · rw [h'.back x hx, h.forth x hx]
  · rw [h'.others l among hl, h.others l among hl]

theorem restores (h : m.Swaps ps m₁) (h' : m₁.Swaps ps m₂) : m.SameBesideTemporaries m₂ where
  get name ht hv := by
    have apart : Location.var name ∉ scratch := by
      simp [scratch, ht, hv]
    exact h.twice h' (.var name) apart
  memory := by
    ext1 address
    have apart : Location.cell address ∉ scratch := by
      simp [scratch]
    have same := congrArg Value.toByte (h.twice h' (.cell address) apart)
    rwa [content, content, Value.toByte_ofByte, Value.toByte_ofByte] at same
  ports := h'.ports.trans h.ports
  outputs := h'.outputs.trans h.outputs
  randomSource := h'.randomSource.trans h.randomSource

end Swaps

end Machine

/-- The program exchanges the pairs of locations, whatever the machine. -/
def Program.Exchanges (holes : Hole → Value) (p : Program) (pairs : List (Location × Location)) :
    Prop :=
  ∀ m, ∃ m', Stmt.outcomeList holes p m = (.continued, m') ∧ m.Swaps pairs m'

namespace Effect

open Location

variable {holes : Hole → Value}

/-- What can be set reads the variable that is set. -/
theorem outcome_of_target? {e : Expr} {name : String} (h : e.target? = some name) (m : Machine) :
    e.outcome holes m = (m.get name, m) := by
  cases e with
  | var other =>
    cases h
    exact Expr.outcome_var ..
  | register reg =>
    cases h
    rw [Expr.outcome_register, m.reg_eq_get]
  | _ => cases h

theorem outcome_set_of_target? {e value : Expr} {name : String} (h : e.target? = some name)
    {m m' : Machine} {v : Value} (hv : value.outcome holes m = (v, m')) :
    (Stmt.set e value).outcome holes m = (.continued, m'.set name v) := by
  simp only [Stmt.set, Stmt.outcome, hv, h, Option.elim, AssignOp.apply]

theorem exchanges_swap {x y : Expr} {a b : String} (hx : x.target? = some a)
    (hy : y.target? = some b) (separate : Separate [(.var a, .var b)]) :
    Program.Exchanges holes (swap x y) [(.var a, .var b)] := by
  intro m
  have a_apart := separate.not_mem_scratch (fst_mem_ofPairs List.mem_cons_self)
  have b_apart := separate.not_mem_scratch (snd_mem_ofPairs List.mem_cons_self)
  simp only [scratch, List.mem_cons, Location.var.injEq, not_or] at a_apart b_apart
  have temp : temp.target? = some "temp" := rfl
  refine ⟨_, ?_, .set m separate⟩
  rw [swap, Stmt.outcomeList_cons, outcome_set_of_target? temp (outcome_of_target? hx m),
    Flow.andThen_continued, Stmt.outcomeList_cons,
    outcome_set_of_target? hx (outcome_of_target? hy _), Flow.andThen_continued,
    Stmt.outcomeList_cons, outcome_set_of_target? hy (outcome_of_target? temp _),
    Flow.andThen_continued, Stmt.outcomeList_nil, Machine.get_set_of_ne _ _ (Ne.symm b_apart.1),
    Machine.get_set_of_ne _ _ a_apart.1, Machine.get_set_self]

/-- Exchanges of separate locations, one after the other. -/
theorem exchanges_flatMap {α : Type} (f : α → Program) (pair : α → Location × Location)
    (xs : List α) (each : ∀ x ∈ xs, Program.Exchanges holes (f x) [pair x])
    (separate : Separate (xs.map pair)) :
    Program.Exchanges holes (xs.flatMap f) (xs.map pair) := by
  induction xs with
  | nil => exact fun m => ⟨m, rfl, .nil m⟩
  | cons x xs ih =>
    intro m
    have separate : Separate ([pair x] ++ xs.map pair) := separate
    obtain ⟨m₁, first, swaps⟩ := each x List.mem_cons_self m
    obtain ⟨m₂, rest, swaps'⟩ :=
      ih (fun y hy => each y (List.mem_cons_of_mem x hy)) separate.right m₁
    refine ⟨m₂, ?_, swaps.append swaps' separate⟩
    rw [List.flatMap_cons, Stmt.outcomeList_append, first, Flow.andThen_continued, rest]

def shadowPair (reg : Register) : Location × Location := (.register reg, .var (reg.shadow?.getD ""))

theorem exchanges_shadows (regs : List Register) (h : ∀ reg ∈ regs, reg.shadow?.isSome)
    (separate : Separate (regs.map shadowPair)) :
    Program.Exchanges holes (regs.flatMap swapShadow) (regs.map shadowPair) := by
  refine exchanges_flatMap swapShadow shadowPair regs (fun reg mem => ?_) separate
  obtain ⟨shadow, hs⟩ := Option.isSome_iff_exists.mp (h reg mem)
  have alone := separate.of_mem (List.mem_map_of_mem mem)
  simp only [swapShadow, shadowPair, hs, Option.getD_some] at alone ⊢
  exact exchanges_swap rfl rfl alone

/-- The locations that an exchange with the word on top of the stack swaps. -/
def topPairs (p : RegisterPair) (top : Word) : List (Location × Location) :=
  [(.register p.high, .cell (top + 1)), (.register p.low, .cell top)]

theorem separate_topPairs (p : RegisterPair) (top : Word) : Separate (topPairs p top) := by
  cases p <;> simp [Separate, topPairs, scratch, ofPairs, register] <;> decide

def swapCell (reg : Register) (address : Expr) : Program :=
  [.set temp (.register reg), .set (.register reg) (readByte address), writeByte address temp]

variable {m : Machine}

theorem outcome_swapCell {reg : Register} {address : Expr} {v : Value}
    (ha : ∀ m', m'.get stackPointer = m.get stackPointer → address.outcome holes m' = (v, m')) :
    Stmt.outcomeList holes (swapCell reg address) m =
      (.continued, (m.fromCell reg v.toWord).write v.toWord (m.reg reg).toByte) := by
  have apart : ¬ reg.name = "temp" := Register.name_ne (by decide) reg
  have save : temp.target? = some "temp" := rfl
  have atTemp := m.get_set_of_ne (m.reg reg) (show ¬ "temp" = stackPointer by decide)
  have read := outcome_readByte (ha _ atTemp)
  have atReg : (m.fromCell reg v.toWord).get stackPointer = m.get stackPointer := by
    rw [Machine.fromCell, Machine.setReg_eq_set, Machine.get_set_of_ne _ _ reg.name_ne_stackPointer,
      Machine.get_read, atTemp]
  have saved : (m.fromCell reg v.toWord).get "temp" = m.reg reg := by
    rw [Machine.fromCell, Machine.setReg_eq_set, Machine.get_set_of_ne _ _ apart, Machine.get_read,
      Machine.get_set_self]
  have write := outcome_writeByte (ha _ atReg) (outcome_of_target? save (m.fromCell reg v.toWord))
  rw [saved] at write
  rw [swapCell, Stmt.outcomeList_cons, outcome_set_of_target? save (Expr.outcome_register ..),
    Flow.andThen_continued, Stmt.outcomeList_cons, outcome_set_of_target? rfl read,
    Flow.andThen_continued, Machine.memory_set, ← Machine.setReg_eq_set]
  rw [Stmt.outcomeList_cons]
  exact congrArg (Flow.andThen · _) write

/-- A pair is exchanged byte by byte. -/
theorem exists_swapCells (hm : m.ByteRegisters) (p : RegisterPair) :
    ∃ m', Stmt.outcomeList holes (swapCell p.high (sp + 1) ++ swapCell p.low sp) m =
      (.continued, m') ∧ m.Swaps (topPairs p m.stackTop) m' := by
  have next : (m.get stackPointer + 1).toWord = m.stackTop + 1 := by
    unfold Machine.stackTop
    bv_omega
  have upper (m' : Machine) (same : m'.get stackPointer = m.get stackPointer) :
      (sp + 1).outcome holes m' = (m.get stackPointer + 1, m') := by
    rw [← same]
    simp [sp]
  have separate : Separate
      ([(.register p.high, .cell (m.stackTop + 1))] ++ [(.register p.low, .cell m.stackTop)]) :=
    separate_topPairs p m.stackTop
  have first : Stmt.outcomeList holes (swapCell p.high (sp + 1)) m = _ := outcome_swapCell upper
  have swaps := Machine.Swaps.write_fromCell m (hm p.high) (m.stackTop + 1)
  rw [next] at first
  generalize (m.fromCell p.high (m.stackTop + 1)).write (m.stackTop + 1) _ = m₁ at first swaps
  -- The second exchange finds the stack pointer and the low half as they were.
  have pointer : m₁.get stackPointer = m.get stackPointer :=
    swaps.others (.var stackPointer)
      (by simpa [ofPairs, register] using Ne.symm p.high.name_ne_stackPointer) (by decide)
  have low : m₁.reg p.low = m.reg p.low :=
    swaps.others (.register p.low) (separate.not_mem_left List.mem_cons_self)
      (separate.right.not_mem_scratch List.mem_cons_self)
  have second : Stmt.outcomeList holes (swapCell p.low sp) m₁ = _ :=
    outcome_swapCell fun m' same => by rw [sp, Expr.outcome_var, same]
  have swaps' := Machine.Swaps.write_fromCell m₁ (low ▸ hm p.low) m.stackTop
  have top : (m₁.get stackPointer).toWord = m.stackTop := by
    rw [pointer, Machine.stackTop]
  rw [top] at second
  refine ⟨_, ?_, swaps.append swaps' separate⟩
  rw [Stmt.outcomeList_append, first, Flow.andThen_continued, second]

/-- The machine after a pair is loaded with the word on top of the stack, its content saved. -/
def loadTop (m : Machine) (p : RegisterPair) : Machine :=
  ((m.set "temp" (m.pair p)).readTop.set "val" (.ofWord m.topWord)).setPair p (.ofWord m.topWord)

/-- The machine after a pair is exchanged as a word. -/
def exchangeWord (m : Machine) (p : RegisterPair) : Machine :=
  (loadTop m p).storeWord m.stackTop (m.pair p).toWord

theorem get_loadTop {p : RegisterPair} {name : String} (hh : ¬ p.high.name = name)
    (hl : ¬ p.low.name = name) (hv : ¬ "val" = name) :
    (loadTop m p).get name = (m.set "temp" (m.pair p)).get name := by
  rw [loadTop, Machine.get_setPair_of_ne _ _ hh hl, Machine.get_set_of_ne _ _ hv,
    Machine.get_readTop]

theorem stackTop_loadTop (p : RegisterPair) : (loadTop m p).stackTop = m.stackTop := by
  rw [Machine.stackTop, get_loadTop p.high.name_ne_stackPointer p.low.name_ne_stackPointer
    (by decide), Machine.get_set_of_ne _ _ (by decide), Machine.stackTop]

theorem temp_loadTop (p : RegisterPair) : (loadTop m p).get "temp" = m.pair p := by
  rw [get_loadTop (Register.name_ne (by decide) _) (Register.name_ne (by decide) _) (by decide),
    Machine.get_set_self]

theorem outcome_loadTop {ops : Operands} (p : RegisterPair) :
    Stmt.outcomeList ops.resolve (.set temp (pairValue p) :: setPair p (readWord sp)) m =
      (.continued, loadTop m p) := by
  have save : temp.target? = some "temp" := rfl
  have top : (m.set "temp" (m.pair p)).topWord = m.topWord := by
    rw [Machine.topWord, Machine.stackTop_set_of_ne _ _ (by decide), Machine.memory_set,
      Machine.topWord]
  have read : (readWord sp).outcome ops.resolve (m.set "temp" (m.pair p)) =
      (.ofWord m.topWord, (m.set "temp" (m.pair p)).readTop) := by
    rw [← top]
    exact outcome_readTop
  rw [Stmt.outcomeList_cons, outcome_set_of_target? save (outcome_pairValue m _ p),
    Flow.andThen_continued, outcome_setPair p rfl read, loadTop]

theorem outcome_storeTop {w : Word} (hw : m.get "temp" = .ofWord w) :
    Stmt.outcomeList holes [writeByte sp (temp &&& 0xFF), writeByte (sp + 1) (temp >>> 8)] m =
      (.continued, m.storeWord m.stackTop w) := by
  have word (m' : Machine) (same : m'.get "temp" = m.get "temp") :
      temp.outcome holes m' = (.ofWord w, m') := by
    rw [temp, Expr.outcome_var, same, hw]
  have next (m' : Machine) (same : m'.get stackPointer = m.get stackPointer) :
      (sp + 1).outcome holes m' = (m.get stackPointer + 1, m') := by
    rw [Expr.outcome_add, sp, Expr.outcome_var, same]
    rfl
  exact outcome_storeBytes (Expr.outcome_var ..) (outcome_lowByte (word m rfl))
    (fun _ => next _ (m.get_write ..)) fun _ => outcome_highByte (word _ (m.get_write ..))

theorem outcome_exStackIndex {ops : Operands} (hm : m.ByteRegisters) (p : RegisterPair) :
    (exStackIndex p).outcome ops m = (.continued, exchangeWord m p) := by
  have store : Stmt.outcomeList ops.resolve _ (loadTop m p) = _ :=
    outcome_storeTop ((temp_loadTop p).trans (hm.pair_eq p))
  rw [stackTop_loadTop] at store
  rw [Program.outcome, exStackIndex, Stmt.outcomeList_append, outcome_loadTop,
    Flow.andThen_continued, store, exchangeWord]

theorem swaps_exchangeWord (hm : m.ByteRegisters) (p : RegisterPair) :
    m.Swaps (topPairs p m.stackTop) (exchangeWord m p) := by
  have content (l : Location) : (exchangeWord m p).content l =
      if .cell (m.stackTop + 1) = l then m.reg p.high
      else if .cell m.stackTop = l then m.reg p.low
      else if .register p.low = l then .ofByte (m.memory.get m.stackTop)
      else if .register p.high = l then .ofByte (m.memory.get (m.stackTop + 1))
      else if .var "val" = l then .ofWord m.topWord
      else if .var "temp" = l then m.pair p else m.content l := by
    rw [exchangeWord, loadTop, Machine.content_storeWord, Machine.content_setPair, Machine.content_set,
      Machine.content_readTop, Machine.content_set, hm.high_pair, hm.low_pair, ← hm.reg_eq,
      ← hm.reg_eq, Machine.topWord, Word.high_ofBytes, Word.low_ofBytes]
  have halves : ¬ register p.low = register p.high := fun same =>
    p.high_ne_low (Register.name_injective (Location.var.inj same)).symm
  have cells : ¬ cell (m.stackTop + 1) = cell m.stackTop := by
    simp
  have kinds (address : Word) (reg : Register) : ¬ cell address = register reg :=
    Location.noConfusion
  refine ⟨?_, ?_, fun l hl temporary => ?_, rfl, rfl, rfl⟩
  · refine List.forall_mem_cons.mpr ⟨?_, List.forall_mem_singleton.mpr ?_⟩
    · rw [content, if_neg (kinds _ _), if_neg (kinds _ _), if_neg halves, if_pos rfl]
      rfl
    · rw [content, if_neg (kinds _ _), if_neg (kinds _ _), if_pos rfl]
      rfl
  · refine List.forall_mem_cons.mpr ⟨?_, List.forall_mem_singleton.mpr ?_⟩
    · rw [content, if_pos rfl]
      rfl
    · rw [content, if_neg cells, if_pos rfl]
      rfl
  · simp only [topPairs, ofPairs_cons, List.mem_cons, not_or] at hl
    simp only [scratch, List.mem_cons, not_or] at temporary
    obtain ⟨high, upper, low, lower, -⟩ := hl
    rw [content, if_neg (Ne.symm upper), if_neg (Ne.symm lower), if_neg (Ne.symm low),
      if_neg (Ne.symm high), if_neg (Ne.symm temporary.2.1), if_neg (Ne.symm temporary.1)]

end Effect

/-- The exchange instructions: with the shadow set, between pairs, and with the word on top of the
stack. -/
inductive Exchange
  | shadowAf | shadowPairs | deHl | stackHl
  | stackIndex (x : IndexRegister)
  deriving DecidableEq

namespace Exchange

open Location

def instruction : Exchange → Instruction
  | shadowAf => .exAf
  | shadowPairs => .exx
  | deHl => .exDeHl
  | stackHl => .exStack (.pair .hl)
  | stackIndex x => .exStack (.pair x.pair)

/-- The locations that an exchange swaps, given the address of the word on top of the stack. -/
def pairs (top : Word) : Exchange → List (Location × Location)
  | shadowAf => [(.register .a, .var "a2"), (.register .f, .var "f2")]
  | shadowPairs => [(.register .b, .var "b2"), (.register .c, .var "c2"),
      (.register .d, .var "d2"), (.register .e, .var "e2"), (.register .h, .var "h2"),
      (.register .l, .var "l2")]
  | deHl => [(.register .d, .register .h), (.register .e, .register .l)]
  | stackHl => topPairs .hl top
  | stackIndex x => topPairs x.pair top

variable {m : Machine}

theorem exists_swaps (e : Exchange) (policy : Policy) (ops : Operands) (hm : m.ByteRegisters) :
    ∃ m', e.instruction.Runs policy ops m m' ∧ m.Swaps (e.pairs m.stackTop) m' := by
  cases e with
  | shadowAf =>
    obtain ⟨m', run, swaps⟩ := exchanges_shadows [.a, .f] (by decide) (by decide) m
    exact ⟨m', Instruction.runs_of_outcome rfl run, swaps⟩
  | shadowPairs =>
    obtain ⟨m', run, swaps⟩ := exchanges_shadows [.b, .c, .d, .e, .h, .l] (by decide) (by decide) m
    exact ⟨m', Instruction.runs_of_outcome rfl run, swaps⟩
  | deHl =>
    obtain ⟨m', run, swaps⟩ := exchanges_flatMap
      (fun x : Register × Register => swap (.register x.1) (.register x.2))
      (fun x => (.register x.1, .register x.2)) [(.d, .h), (.e, .l)]
      (fun x mem => exchanges_swap rfl rfl (by revert x; decide)) (by decide) m
    exact ⟨m', Instruction.runs_of_outcome rfl run, swaps⟩
  | stackHl =>
    obtain ⟨m', run, swaps⟩ := exists_swapCells hm .hl
    exact ⟨m', Instruction.runs_of_outcome rfl run, swaps⟩
  | stackIndex x =>
    have accepted : (Instruction.exStack (.pair x.pair)).effect policy =
        .ok (exStackIndex x.pair) := by
      cases x <;> rfl
    exact ⟨_, Instruction.runs_of_outcome accepted (outcome_exStackIndex hm x.pair),
      swaps_exchangeWord hm x.pair⟩

/-- The stack pointer stays. -/
theorem stackTop_of_swaps (e : Exchange) {top : Word} {m' : Machine}
    (swaps : m.Swaps (e.pairs top) m') : m'.stackTop = m.stackTop := by
  have apart (reg : Register) : ¬ .var stackPointer = register reg := fun same =>
    reg.name_ne_stackPointer (Location.var.inj same).symm
  have outside : .var stackPointer ∉ ofPairs (e.pairs top) := by
    cases e <;> simp [pairs, topPairs, ofPairs, apart] <;> decide
  exact congrArg Value.toWord (swaps.others (.var stackPointer) outside (by decide))

/-- Bytes in the registers stay bytes. -/
theorem holdsBytes_of_runs (e : Exchange) {policy : Policy} {ops : Operands} {m' : Machine}
    (hm : m.HoldsBytes) (run : e.instruction.Runs policy ops m m') : m'.HoldsBytes := by
  obtain ⟨p, accepted, run⟩ := run
  let step : Step :=
    { policy, instruction := e.instruction, operands := ops, program := p, accepted }
  have immediate : step.ImmediateInRange := by
    cases e <;> trivial
  obtain ⟨flow, m₁, run', bytes⟩ := step.run_holdsBytes immediate hm
  cases run.symm.trans run'
  exact bytes

/-- An exchange swaps its pairs of locations and leaves all others alone. Run twice, it restores all
registers and all memory. -/
theorem run_swaps (e : Exchange) (policy : Policy) (ops : Operands) (m : Machine)
    (hm : m.HoldsBytes) :
    ∃ m', e.instruction.Runs policy ops m m' ∧ m.Swaps (e.pairs m.stackTop) m' ∧
      ∃ m'', e.instruction.Runs policy ops m' m'' ∧ m.SameBesideTemporaries m'' := by
  obtain ⟨m', run, swaps⟩ := e.exists_swaps policy ops hm.register
  obtain ⟨m'', again, back⟩ := e.exists_swaps policy ops (e.holdsBytes_of_runs hm run).register
  rw [e.stackTop_of_swaps swaps] at back
  exact ⟨m', run, swaps, m'', again, swaps.restores back⟩

/-- A word at the last address and the first one goes to `IY` and comes back. -/
theorem run_swaps_lastAddress :
    let m := (Machine.blank.storeWord 0xFFFF 0x5678).set stackPointer 0xFFFF
    m.HoldsBytes ∧ ∃ m', (Instruction.exStack (.pair .iy)).Runs {} {} m m' ∧
      m'.reg .iyh = 0x56 ∧ m'.reg .iyl = 0x78 ∧ m'.memory.get 0xFFFF = 0 ∧ m'.memory.get 0 = 0 ∧
      ∃ m'', (Instruction.exStack (.pair .iy)).Runs {} {} m' m'' ∧ m''.memory = m.memory := by
  intro m
  have stored : (Machine.blank.storeWord 0xFFFF 0x5678).HoldsBytes :=
    ⟨Machine.blank_holdsBytes.register, Machine.blank_holdsBytes.shadow⟩
  have bytes : m.HoldsBytes := stored.set_stackPointer 0xFFFF
  have top : m.stackTop = 0xFFFF := by
    rw [Machine.stackTop_set]
    rfl
  obtain ⟨m', run, swaps, m'', again, restored⟩ := run_swaps (.stackIndex .iy) {} {} m bytes
  rw [top] at swaps
  have first : m.memory.get 0 = 0x56 := Memory.get_set_self _ 0 0x56
  have last : m.memory.get 0xFFFF = 0x78 := by
    have apart : ¬ (0 : Word) = 0xFFFF := by decide
    exact (Memory.get_set _ 0 0xFFFF 0x56).trans ((if_neg apart).trans (Memory.get_set_self ..))
  have empty (reg : Register) : m.reg reg = 0 := by
    rw [Machine.reg_set_of_ne _ _ (Ne.symm reg.name_ne_stackPointer)]
    exact Machine.reg_blank reg
  have high := swaps.forth (.register .iyh, .cell 0) (by decide)
  have low := swaps.forth (.register .iyl, .cell 0xFFFF) (by decide)
  have upper := swaps.back (.register .iyh, .cell 0) (by decide)
  have lower := swaps.back (.register .iyl, .cell 0xFFFF) (by decide)
  simp only [Machine.content, register, ← Machine.reg_eq_get, first, last, empty]
    at high low upper lower
  exact ⟨bytes, m', run, high, low, by bv_omega, by bv_omega, m'', again, restored.memory⟩

end Exchange

end Z80Effects
