import Z80Effects.Proofs.ByteOperands
import Z80Effects.Proofs.ExecutablePrograms
import Z80Effects.Proofs.PrimitiveCalls

/-!
# Programs of instructions cannot fault

An executable program runs to its end on every machine, and the program of every accepted
instruction is executable. The sums by which primitives count register pairs stay within the range
of values as long as the registers hold bytes.
-/
namespace Z80Effects

open Effect

namespace Primitive

/-- The pair that a primitive counts, and the number that it adds. -/
def count? : Primitive → Option (RegisterPair × Value)
  | incHl => some (.hl, 1) | decHl => some (.hl, -1)
  | incBc => some (.bc, 1) | decBc => some (.bc, -1)
  | incDe => some (.de, 1) | decDe => some (.de, -1)
  | _ => none

theorem apply_of_count? {f : Primitive} {p : RegisterPair} {step : Value}
    (h : f.count? = some (p, step)) (x y : Value) (m : Machine) :
    f.apply x y m = (0, m.setPair p (m.pair p + step)) := by
  cases f <;> cases h <;> simp only [apply, BitVec.sub_eq_add_neg]

/-- A primitive that counts a pair does nothing but set it to a sum, which is the exact one. -/
def CountsExactly (f : Primitive) (m : Machine) : Prop :=
  ∀ p step, f.count? = some (p, step) →
    (∀ x y, f.apply x y m = (0, m.setPair p (m.pair p + step))) ∧
      (m.pair p + step).toInt = (m.pair p).toInt + step.toInt

theorem countsExactly (f : Primitive) {m : Machine} (hm : m.ByteRegisters) :
    f.CountsExactly m := by
  intro p step h
  refine ⟨fun x y => apply_of_count? h x y m, ?_⟩
  have bound : (m.pair p).toNat < 65536 := hm.pair_fits p
  have value : (m.pair p).toInt = (m.pair p).toNat := BitVec.toInt_eq_toNat_of_lt (by omega)
  have unit : step.toInt = 1 ∨ step.toInt = -1 := by
    cases f <;> cases h <;> decide
  rw [BitVec.toInt_add, Int.bmod_eq_of_le] <;> omega

end Primitive

/-- No primitive named in the program counts a pair. -/
def Program.countsNothing (p : Program) : Bool :=
  p.calls.all fun name => (Primitive.ofName? name).all (·.count?.isNone)

theorem Program.countsExactly_of_countsNothing {p : Program} (h : p.countsNothing) {m : Machine} :
    ∀ c ∈ p.callsOn m, c.1.CountsExactly c.2 := by
  intro c hc q step counts
  have named := Stmt.mem_calleesList_of_mem_callsOnList p hc
  rw [Stmt.calleesList_eq_calls] at named
  have none := List.all_eq_true.mp h _ named
  rw [Primitive.ofName?_name, Option.all_some, counts] at none
  cases none

theorem Program.countsExactly_of_keeps {p : Program} (h : p.keeps byteRegisters) {m : Machine}
    (hm : m.ByteRegisters) : ∀ c ∈ p.callsOn m, c.1.CountsExactly c.2 := by
  obtain ⟨Γ, hΓ⟩ := Option.isSome_iff_exists.mp h
  have fits : ∀ a, Value.Fits 0 (byteRegisters.holeWidth a) := fun a => Value.fits_zero _
  intro c hc
  have keeps := Stmt.callsOnList_within fits p hΓ (keeps_byteRegisters_iff.mpr hm).within c hc
  exact c.1.countsExactly (keeps_byteRegisters_iff.mp keeps)

/-- Only programs without holes count pairs, and these keep bytes in the registers. -/
theorem EffectForm.countsNothing_or {policy : Policy} {i : Instruction} {p : Program}
    (h : EffectForm policy i p) : p.countsNothing ∨
      p.holes = [] ∧ p.keeps byteRegisters ∧ p.annotate.keeps byteRegisters := by
  cases h with
  | ini | outi | outd | otir | ldi | ldd | ldir | lddr | cpi | cpir => exact .inr ⟨rfl, rfl, rfl⟩
  | loadFromR =>
    obtain ⟨_, refresh, _⟩ := policy
    cases refresh <;> exact .inl rfl
  | halt =>
    obtain ⟨speedup, _, _⟩ := policy
    cases speedup <;> exact .inl rfl
  | loadIndirect dst q _ _ | loadSpPair q _ | storeRegister q src _ _ | jumpTo q _
  | storePairDirect q _ | storeWordPair q _ =>
    cases q <;> exact .inl rfl
  | loadIndexed dst x | storeIndexedImmediate x | storeIndexedRegister x src | incIndexed x
  | decIndexed x | exStackIndex x => cases x <;> exact .inl rfl
  | addWord q src _ hs =>
    cases src with
    | sp => cases q <;> exact .inl rfl
    | pair q' => cases q <;> cases q' <;> exact .inl rfl
  | adcWord src second hs | sbcWord src second hs => cases hs <;> exact .inl rfl
  | accumulateArithmetic op src operand f hs hf =>
    cases hs with
    | indexed x => cases op <;> cases hf <;> cases x <;> exact .inl rfl
    | _ => cases op <;> cases hf <;> exact .inl rfl
  | accumulateLogical op src operand hs hf =>
    cases hs with
    | indexed x => cases op <;> cases hf <;> cases x <;> exact .inl rfl
    | register reg hr => cases op <;> cases hf <;> cases reg <;> exact .inl rfl
    | _ => cases op <;> cases hf <;> exact .inl rfl
  | shiftRegister op reg hr | shiftMemory op | bitRegister op n hn reg | bitMemory op n hn =>
    cases op <;> exact .inl rfl
  | shiftIndexed op x | shiftIndexedCopy op x reg hr | bitIndexed op n hn x =>
    cases op <;> cases x <;> exact .inl rfl
  | jumpRelativeIf k _ => cases k <;> exact .inl rfl
  | jump k | call k | ret k =>
    cases k with
    | none => exact .inl rfl
    | some k => cases k <;> exact .inl rfl
  | input dst port => cases port <;> exact .inl rfl
  | output port src => cases port <;> exact .inl rfl
  | _ => exact .inl rfl

theorem EffectForm.countsExactly {policy : Policy} {i : Instruction} {p : Program}
    (h : EffectForm policy i p) (annotate : Bool) (ops : Operands) {m : Machine}
    (hm : m.ByteRegisters) :
    ∀ c ∈ ((Template.ofProgram annotate p).instantiate ops).callsOn m,
      c.1.CountsExactly c.2 := by
  rcases h.countsNothing_or with nothing | ⟨holes, keeps, keeps'⟩
  · refine Program.countsExactly_of_countsNothing ?_
    rwa [Program.countsNothing, p.calls_instantiate]
  · refine Program.countsExactly_of_keeps ?_ hm
    rw [Template.ofProgram, holes]
    cases annotate with
    | false => exact keeps
    | true => exact keeps'

/-- Executable programs run to their end on every machine. So do the programs of all instructions,
with all operands, which are executable; on a machine with bytes in its registers they count
without overflow. -/
theorem Program.never_faults :
    (∀ p : Program, p.Executable → ∀ m, ∃ flow m', p.run m = .ok flow m') ∧
    ∀ (policy : Policy) (i : Instruction) (t : Template), i.template policy = .ok t →
      ∀ ops : Operands, (t.instantiate ops).Executable ∧
        (∀ m, ∃ flow m', (t.instantiate ops).run m = .ok flow m') ∧
        ∀ m : Machine, m.ByteRegisters →
          ∀ c ∈ (t.instantiate ops).callsOn m, c.1.CountsExactly c.2 := by
  refine ⟨fun p hp m => hp.exists_run m, fun policy i t ht ops => ?_⟩
  unfold Instruction.template at ht
  cases he : i.effect policy with
  | error refusal => rw [he] at ht; cases ht
  | ok skeleton =>
    rw [he] at ht
    cases ht
    have form := EffectForm.of_effect he
    have executable := Template.executable_instantiate policy.annotate form.wellFormed ops
    exact ⟨executable, fun m => executable.exists_run m,
      fun m hm => form.countsExactly policy.annotate ops hm⟩

theorem Program.never_faults_ldi :
    Instruction.ldi.template { annotate := false } = .ok (.ready ldi) ∧ ldi.Executable ∧
      Machine.blank.ByteRegisters ∧ (∃ flow m', ldi.run .blank = .ok flow m') ∧
      ∀ c ∈ ldi.callsOn .blank, c.1.CountsExactly c.2 := by
  have accepted : Instruction.ldi.template { annotate := false } = .ok (.ready ldi) := rfl
  obtain ⟨runs, safe⟩ := Program.never_faults
  obtain ⟨executable, -, counts⟩ := safe { annotate := false } .ldi (.ready ldi) accepted {}
  exact ⟨accepted, executable, Machine.blank_byteRegisters, runs ldi executable .blank,
    counts .blank Machine.blank_byteRegisters⟩

end Z80Effects
