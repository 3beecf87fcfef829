import Z80Effects.Proofs.PrimitiveCalls

/-!
# The record of accesses

A run touches memory and the outside only through primitives, and these record what they do. So
after a run of any program, well-formed or not and ended by a fault or not, memory is what the
accesses recorded during the run make of the old memory. How many of them are writes, and how much
is output, is bounded by the primitives that the program names.
-/
namespace Z80Effects

def Memory.after (memory : Memory) : Access → Memory
  | .read _ => memory
  | .write address b => memory.set address b

def Memory.replay (memory : Memory) (accesses : Array Access) : Memory :=
  accesses.foldl after memory

def Access.written? : Access → Option Word
  | .read _ => none
  | .write address _ => some address

theorem Memory.get_replay_of_not_written (memory : Memory) {accesses : Array Access}
    {address : Word} (h : address ∉ accesses.toList.filterMap Access.written?) :
    (memory.replay accesses).get address = memory.get address := by
  obtain ⟨accesses⟩ := accesses
  simp only [replay, List.foldl_toArray] at h ⊢
  induction accesses generalizing memory with
  | nil => rfl
  | cons a rest ih =>
    cases a with
    | read _ => exact ih memory h
    | write other b =>
      simp only [List.filterMap_cons, Access.written?, List.mem_cons, not_or] at h
      exact (ih (memory.set other b) h.2).trans
        ((memory.get_set other address b).trans (if_neg (Ne.symm h.1)))

namespace Machine

/-- The accesses and outputs recorded between two machines, with memory changed by the accesses and
by nothing else. Variables may differ in any way. -/
structure Records (m m' : Machine) (accesses : Array Access) (sent : Array (Byte × Byte)) :
    Prop where
  log : m'.log = m.log ++ accesses
  memory : m'.memory = m.memory.replay accesses
  outputs : m'.outputs = m.outputs ++ sent
  ports : m'.ports = m.ports
  randomSource : m'.randomSource = m.randomSource

variable {m m' m'' : Machine} {accesses accesses' : Array Access}
  {sent sent' : Array (Byte × Byte)}

namespace Records

theorem refl (m : Machine) : m.Records m #[] #[] where
  log := by simp
  memory := rfl
  outputs := by simp
  ports := rfl
  randomSource := rfl

theorem trans (h : m.Records m' accesses sent) (h' : m'.Records m'' accesses' sent') :
    m.Records m'' (accesses ++ accesses') (sent ++ sent') where
  log := by rw [h'.log, h.log, Array.append_assoc]
  memory := by rw [h'.memory, h.memory, Memory.replay, Memory.replay, Memory.replay,
    Array.foldl_append]
  outputs := by rw [h'.outputs, h.outputs, Array.append_assoc]
  ports := h'.ports.trans h.ports
  randomSource := h'.randomSource.trans h.randomSource

theorem set (h : m.Records m' accesses sent) (name : String) (v : Value) :
    m.Records (m'.set name v) accesses sent :=
  ⟨h.log, h.memory, h.outputs, h.ports, h.randomSource⟩

theorem setPair (h : m.Records m' accesses sent) (p : RegisterPair) (v : Value) :
    m.Records (m'.setPair p v) accesses sent := (h.set _ _).set _ _

theorem read (m : Machine) (address : Word) :
    m.Records (m.read address).2 #[.read address] #[] where
  log := Array.push_eq_append
  memory := rfl
  outputs := by simp
  ports := rfl
  randomSource := rfl

theorem write (m : Machine) (address : Word) (b : Byte) :
    m.Records (m.write address b) #[.write address b] #[] where
  log := Array.push_eq_append
  memory := rfl
  outputs := by simp
  ports := rfl
  randomSource := rfl

theorem putOut (m : Machine) (port b : Byte) : m.Records (m.putOut port b) #[] #[(port, b)] where
  log := by simp
  memory := rfl
  outputs := Array.push_eq_append
  ports := rfl
  randomSource := rfl

end Records

/-- Every access is a read or a write. -/
theorem reads_add_writes (m : Machine) : m.reads + m.writes = m.log.size := by
  have other : Access.isWrite = fun a => decide ¬ a.isRead = true := by
    funext a
    cases a <;> rfl
  rw [reads, writes, other, ← Array.size_eq_countP_add_countP]

end Machine

namespace Primitive

def writes : Primitive → Nat
  | pushWord | pushBytes => 2
  | writeByte | incMemory | decMemory => 1
  | _ => 0

def sends : Primitive → Nat
  | portOut => 1
  | _ => 0

theorem exists_records (f : Primitive) (x y : Value) (m : Machine) :
    ∃ accesses sent, m.Records (f.apply x y m).2 accesses sent ∧
      accesses.countP Access.isWrite = f.writes ∧ sent.size = f.sends := by
  have unrecorded {m' : Machine} (h : m.Records m' #[] #[]) :
      ∃ accesses sent, m.Records m' accesses sent ∧
        accesses.countP Access.isWrite = 0 ∧ sent.size = 0 := ⟨_, _, h, rfl, rfl⟩
  have self := Machine.Records.refl m
  cases f with
  | readByte => exact ⟨_, _, .read m _, rfl, rfl⟩
  | readWord => exact ⟨_, _, (Machine.Records.read m _).trans (.read _ _), rfl, rfl⟩
  | writeByte => exact ⟨_, _, .write m _ _, rfl, rfl⟩
  | incMemory | decMemory =>
    exact ⟨_, _, ((Machine.Records.read m _).set _ _).trans (.write _ _ _), rfl, rfl⟩
  | pushWord | pushBytes =>
    exact ⟨_, _, ((Machine.Records.write m _ _).trans (.write _ _ _)).set _ _, rfl, rfl⟩
  | portOut => exact ⟨_, _, .putOut m _ _, rfl, rfl⟩
  | setPair p => exact unrecorded (self.setPair _ _)
  | incHl | decHl | incBc | decBc | incDe | decDe => exact unrecorded (self.setPair _ _)
  | addA | adcA | subA | sbcA | cpA | rlca | rrca | rla | rra | daa | cpl =>
    exact unrecorded ((self.set _ _).set _ _)
  | addWord | inc | dec | ccf | testBit | shift _ => exact unrecorded (self.set _ _)
  | getPair _ | portIn | random => exact unrecorded self

/-- A number given to primitives, summed over names of primitives. Other names count for nothing. -/
def total (weight : Primitive → Nat) : List String → Nat
  | [] => 0
  | name :: names => (ofName? name).elim 0 weight + total weight names

variable (weight : Primitive → Nat)

@[simp] theorem total_nil : total weight [] = 0 := rfl

@[simp] theorem total_cons (name : String) (names : List String) :
    total weight (name :: names) = (ofName? name).elim 0 weight + total weight names := rfl

@[simp] theorem total_append (names names' : List String) :
    total weight (names ++ names') = total weight names + total weight names' := by
  induction names with
  | nil => simp
  | cons name names ih => simp [ih, Nat.add_assoc]

end Primitive

namespace Machine

/-- One machine has become another with no more written and sent than by one call of each of the
primitives named. -/
def Grows (names : List String) (m m' : Machine) : Prop :=
  ∃ accesses sent, m.Records m' accesses sent ∧
    accesses.countP Access.isWrite ≤ Primitive.total Primitive.writes names ∧
    sent.size ≤ Primitive.total Primitive.sends names

variable {names names' : List String} {m m' m'' : Machine}

namespace Grows

theorem refl (names : List String) (m : Machine) : Grows names m m :=
  ⟨#[], #[], .refl m, Nat.zero_le _, Nat.zero_le _⟩

theorem trans (h : Grows names m m') (h' : Grows names' m' m'') :
    Grows (names ++ names') m m'' := by
  obtain ⟨accesses, sent, records, writes, sends⟩ := h
  obtain ⟨accesses', sent', records', writes', sends'⟩ := h'
  refine ⟨_, _, records.trans records', ?_, ?_⟩
  · rw [Array.countP_append, Primitive.total_append]
    exact Nat.add_le_add writes writes'
  · rw [Array.size_append, Primitive.total_append]
    exact Nat.add_le_add sends sends'

theorem mono (h : Grows names m m')
    (le : ∀ weight, Primitive.total weight names ≤ Primitive.total weight names') :
    Grows names' m m' := by
  obtain ⟨accesses, sent, records, writes, sends⟩ := h
  exact ⟨accesses, sent, records, Nat.le_trans writes (le _), Nat.le_trans sends (le _)⟩

theorem set (h : Grows names m m') (name : String) (v : Value) : Grows names m (m'.set name v) := by
  obtain ⟨accesses, sent, records, bounds⟩ := h
  exact ⟨accesses, sent, records.set name v, bounds⟩

/-- Memory is as before at all but some addresses, of which there are no more than writes. -/
theorem exists_written (h : Grows names m m') :
    ∃ addresses : List Word, addresses.length ≤ Primitive.total Primitive.writes names ∧
      ∀ address ∉ addresses, m'.memory.get address = m.memory.get address := by
  obtain ⟨accesses, sent, records, writes, -⟩ := h
  have isWrite : Access.isWrite = fun a => (Access.written? a).isSome := by
    funext a
    cases a <;> rfl
  refine ⟨accesses.toList.filterMap Access.written?, ?_, fun address unwritten => ?_⟩
  · rwa [List.length_filterMap_eq_countP, ← isWrite, Array.countP_toList]
  · rw [records.memory, m.memory.get_replay_of_not_written unwritten]

theorem outputs_eq (h : Grows names m m') (silent : Primitive.total Primitive.sends names = 0) :
    m'.outputs = m.outputs := by
  obtain ⟨accesses, sent, records, -, sends⟩ := h
  have none : sent = #[] := Array.eq_empty_of_size_eq_zero (by omega)
  rw [records.outputs, none, Array.append_empty]

theorem apply {name : String} {f : Primitive} (h : Primitive.ofName? name = some f) (x y : Value)
    (m : Machine) : Grows [name] m (f.apply x y m).2 := by
  obtain ⟨accesses, sent, records, writes, sends⟩ := f.exists_records x y m
  have one (weight : Primitive → Nat) : weight f = Primitive.total weight [name] := by
    simp [h]
  exact ⟨accesses, sent, records, Nat.le_of_eq (writes.trans (one _)),
    Nat.le_of_eq (sends.trans (one _))⟩

end Grows

end Machine

namespace Run

variable {α β : Type} {names names' : List String} {x : Run α}

/-- The machine that a computation leaves behind, however it ends. -/
def after (x : Run α) (m : Machine) : Machine :=
  match x m with
  | .ok _ m' => m'
  | .error _ m' => m'

/-- The computation records no more than one call of each of the primitives named, from any
machine. -/
def Within (names : List String) (x : Run α) : Prop := ∀ m, Machine.Grows names m (x.after m)

theorem after_of_ok {a : α} {m m' : Machine} (h : x m = .ok a m') : x.after m = m' := by
  rw [after, h]

theorem after_of_error {fault : Fault} {m m' : Machine} (h : x m = .error fault m') :
    x.after m = m' := by
  rw [after, h]

namespace Within

theorem pure (names : List String) (a : α) : Within names (Pure.pure a : Run α) :=
  fun m => .refl names m

theorem throw (names : List String) (fault : Fault) :
    Within names (MonadExcept.throw fault : Run α) := fun m => .refl names m

/-- A fault in the first of two computations leaves the second out. -/
theorem bind {f : α → Run β} (hx : Within names x) (hf : ∀ a, Within names' (f a)) :
    Within (names ++ names') (x >>= f) := by
  intro m
  cases h : x m with
  | ok a m₁ =>
    have first := hx m
    have whole : (x >>= f).after m = (f a).after m₁ := by
      simp only [after, Bind.bind, EStateM.bind, h]
    rw [after_of_ok h] at first
    rw [whole]
    exact first.trans (hf a m₁)
  | error fault m₁ =>
    have first := hx m
    have whole : (x >>= f) m = .error fault m₁ := by
      simp only [Bind.bind, EStateM.bind, h]
    rw [after_of_error h] at first
    rw [after_of_error whole]
    exact first.mono fun weight => by simp

theorem map {b : α → β} (hx : Within names x) : Within names (do return b (← x)) := by
  have h := hx.bind fun a => pure [] (b a)
  rwa [List.append_nil] at h

/-- Setting a variable to what has been computed records nothing. -/
theorem setting (hx : Within names x) (name : String) (new : α → Machine → Value)
    (b : β) : Within names (do
      let a ← x
      modify fun m => m.set name (new a m)
      return b) := by
  have set (a : α) : Within [] (do modify fun m => m.set name (new a m); return b : Run β) :=
    fun m => (Machine.Grows.refl [] m).set name (new a m)
  have h := hx.bind set
  rwa [List.append_nil] at h

theorem mono (hx : Within names x)
    (le : ∀ weight, Primitive.total weight names ≤ Primitive.total weight names') :
    Within names' x := fun m => (hx m).mono le

end Within

end Run

open Run

namespace Expr

variable {v : Valuation}

mutual

/-- Evaluating an expression records no more than its calls do. -/
theorem eval_within (e : Expr) : Within e.callees (e.eval v) := by
  cases e with
  | literal l => exact .pure _ _
  | var name => exact fun m => .refl _ m
  | register reg => exact fun m => .refl _ m
  | hole h =>
    simp only [eval]
    cases v h with
    | some x => exact .pure _ _
    | none => exact .throw _ _
  | binary op l r =>
    simp only [eval, callees_binary]
    exact (eval_within l).bind fun x => (eval_within r).map
  | unary op e =>
    simp only [eval, callees_unary]
    exact (eval_within e).map
  | logical op l r =>
    simp only [eval, callees_logical]
    refine (eval_within l).bind fun x => ?_
    split
    · exact .pure _ _
    · exact eval_within r
  | conditional t y n =>
    simp only [eval, callees_conditional, List.append_assoc]
    refine (eval_within t).bind fun x => ?_
    split
    · exact (eval_within y).mono fun weight => by simp
    · exact (eval_within n).mono fun weight => by simp
  | index t k =>
    have entry (key : Value) : Within [] (match t.table? with
        | some table => pure (.ofByte (table.entry key.toByte).toByte)
        | none => throw (.unknownTable t) : Run Value) := by
      cases t.table? with
      | some table => exact .pure _ _
      | none => exact .throw _ _
    simp only [eval, callees_index]
    exact ((eval_within k).bind entry).mono fun weight => by simp
  | call name args =>
    simp only [eval, callees_call]
    cases hf : Primitive.ofName? name with
    | none => exact .throw _ _
    | some f =>
      dsimp only
      split
      · have call (vs : List Value) : Within [name]
            (modifyGet fun m => f.apply (vs.getD 0 0) (vs.getD 1 0) m : Run Value) :=
          fun m => Machine.Grows.apply hf _ _ m
        exact ((evalList_within args).bind call).mono fun weight => by simp [Nat.add_comm]
      · exact .throw _ _

theorem evalList_within (es : List Expr) : Within (calleesList es) (evalList v es) := by
  cases es with
  | nil => exact .pure _ _
  | cons e es =>
    simp only [evalList, calleesList_cons]
    exact (eval_within e).bind fun x => (evalList_within es).map

end

end Expr

namespace Stmt

variable {v : Valuation}

mutual

theorem run_within (s : Stmt) : Within s.callees (s.run v) := by
  cases s with
  | effect e =>
    simp only [run, callees_effect]
    exact e.eval_within.map
  | assign op target value =>
    simp only [run, callees_assign]
    cases target.target? with
    | none => exact .throw _ _
    | some name =>
      have assigned := (value.eval_within (v := v)).setting name
        (fun x m => op.apply (m.get name) x) Flow.continued
      exact assigned.mono fun weight => by simp
  | declare name value =>
    simp only [run, callees_declare]
    exact value.eval_within.setting name (fun x _ => x) Flow.continued
  | block body =>
    simp only [run, callees_block]
    exact runList_within body
  | ifThen t s =>
    simp only [run, callees_ifThen]
    refine t.eval_within.bind fun x => ?_
    split
    · exact run_within s
    · exact .pure _ _
  | ifElse t s z =>
    simp only [run, callees_ifElse, List.append_assoc]
    refine t.eval_within.bind fun x => ?_
    split
    · exact (run_within s).mono fun weight => by simp
    · exact (run_within z).mono fun weight => by simp
  | ret value =>
    cases value with
    | none => exact .pure _ _
    | some e =>
      simp only [run, callees_ret]
      exact e.eval_within.map

theorem runList_within (p : List Stmt) : Within (calleesList p) (runList v p) := by
  cases p with
  | nil => exact .pure _ _
  | cons s ss =>
    simp only [runList, calleesList_cons]
    refine (run_within s).bind fun flow => ?_
    cases flow with
    | returned => exact .pure _ _
    | continued => exact runList_within ss

end

end Stmt

namespace Program

theorem runWith_within (p : Program) (v : Valuation) : Within p.calls (p.runWith v) := by
  rw [← Stmt.calleesList_eq_calls]
  exact Stmt.runList_within p

/-- The record is the whole truth about memory. However the run of a program ends, by a fault too,
it has only appended to the record of accesses and to the outputs, memory is what the appended
accesses make of it, and ports and the source of random numbers are as they were. Reads and writes
are all that is recorded. -/
theorem run_records (p : Program) (m : Machine) :
    (∃ accesses sent, m.Records (p.run.after m) accesses sent) ∧
      (p.run.after m).reads + (p.run.after m).writes = (p.run.after m).log.size := by
  obtain ⟨accesses, sent, records, -⟩ := p.runWith_within .none m
  exact ⟨⟨accesses, sent, records⟩, Machine.reads_add_writes _⟩

/-- A fault in the second argument of a write comes after what the first one reads, and before the
write. -/
example : ((run [.effect (Primitive.writeByte.call
    [Primitive.readByte.call [5], .call "nothing" []])]).after .blank).log = #[.read 5] := rfl

end Program

end Z80Effects
