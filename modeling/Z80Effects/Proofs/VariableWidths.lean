import Mathlib.Algebra.Group.Nat.Defs
import Z80Effects.Proofs.MachineUpdates
import Z80Effects.Proofs.Outcome

/-!
# Widths of variables

`widths` follows how many bits the variables of a machine take through a program, without running
it. Some variables have a limit of their own, which no assignment may exceed; the eight-bit
registers always have. A program that keeps to the limits in this sense does so on every machine.
-/
namespace Z80Effects

namespace Value

/-- A non-negative number of at most the given number of bits. -/
def Fits (v : Value) (w : Nat) : Prop := v.toNat < 2 ^ w

instance (v : Value) (w : Nat) : Decidable (v.Fits w) :=
  inferInstanceAs (Decidable (v.toNat < 2 ^ w))

theorem fits_of_le {v : Value} {w w' : Nat} (h : v.Fits w) (hw : w ≤ w') : v.Fits w' :=
  Nat.lt_of_lt_of_le h (Nat.pow_le_pow_right (by decide) hw)

theorem fits_thirtyTwo (v : Value) : v.Fits 32 := v.isLt

theorem fits_zero (w : Nat) : Fits 0 w := Nat.two_pow_pos w

theorem fits_ofByte (b : Byte) : (ofByte b).Fits 8 := by
  rw [Fits, ofByte, BitVec.toNat_setWidth_of_le (by decide)]
  exact b.isLt

theorem fits_ofWord (w : Word) : (ofWord w).Fits 16 := by
  rw [Fits, ofWord, BitVec.toNat_setWidth_of_le (by decide)]
  exact w.isLt

theorem fits_ofBool (b : Bool) : (ofBool b).Fits 1 := by
  cases b <;> simp [Fits]

theorem fits_and {x y : Value} {v w : Nat} (hx : x.Fits v) (hy : y.Fits w) :
    (x &&& y).Fits (min v w) := by
  rcases Nat.le_total v w with h | h
  · rw [Nat.min_eq_left h]
    exact Nat.lt_of_le_of_lt (by rw [BitVec.toNat_and]; exact Nat.and_le_left) hx
  · rw [Nat.min_eq_right h]
    exact Nat.lt_of_le_of_lt (by rw [BitVec.toNat_and]; exact Nat.and_le_right) hy

theorem fits_or {x y : Value} {v w : Nat} (hx : x.Fits v) (hy : y.Fits w) :
    (x ||| y).Fits (max v w) := by
  rw [Fits, BitVec.toNat_or]
  exact Nat.or_lt_two_pow (fits_of_le hx (Nat.le_max_left v w))
    (fits_of_le hy (Nat.le_max_right v w))

theorem fits_xor {x y : Value} {v w : Nat} (hx : x.Fits v) (hy : y.Fits w) :
    (x ^^^ y).Fits (max v w) := by
  rw [Fits, BitVec.toNat_xor]
  exact Nat.xor_lt_two_pow (fits_of_le hx (Nat.le_max_left v w))
    (fits_of_le hy (Nat.le_max_right v w))

theorem fits_shiftLeft {x : Value} {w : Nat} (hx : x.Fits w) (n : Nat) :
    Fits (x <<< n) (w + n) := by
  rw [Fits, BitVec.toNat_shiftLeft, Nat.shiftLeft_eq]
  refine Nat.lt_of_le_of_lt (Nat.mod_le _ _) ?_
  rw [Nat.pow_add]
  exact Nat.mul_lt_mul_of_pos_right hx (Nat.two_pow_pos n)

theorem fits_sshiftRight {x : Value} {w : Nat} (hx : x.Fits w) (hw : w < 32) (n : Nat) :
    Fits (x.sshiftRight n) (w - n) := by
  have nonneg : x.msb = false := by
    rw [BitVec.msb_eq_decide, decide_eq_false_iff_not]
    exact Nat.not_le.mpr (Nat.lt_of_lt_of_le hx (Nat.pow_le_pow_right (by decide) (by omega)))
  rw [BitVec.sshiftRight_eq_of_msb_false nonneg, Fits, BitVec.toNat_ushiftRight,
    Nat.shiftRight_eq_div_pow, Nat.div_lt_iff_lt_mul (Nat.two_pow_pos n), ← Nat.pow_add]
  exact Nat.lt_of_lt_of_le hx (Nat.pow_le_pow_right (by decide) (by omega))

def width (v : Value) : Nat := ((List.range 32).find? fun w => v.Fits w).getD 32

theorem fits_width (v : Value) : v.Fits v.width := by
  unfold width
  cases h : (List.range 32).find? fun w => v.Fits w with
  | none => exact v.fits_thirtyTwo
  | some w =>
    have found := (List.find?_range_eq_some.mp h).1
    rwa [decide_eq_true_iff] at found

theorem width_le {v : Value} {w : Nat} (h : v.Fits w) : v.width ≤ w := by
  refine Nat.le_of_not_lt fun hw => ?_
  unfold width at hw
  cases hf : (List.range 32).find? fun w => v.Fits w with
  | none =>
    rw [hf] at hw
    exact List.find?_eq_none.mp hf w (List.mem_range.mpr hw) (decide_eq_true h)
  | some l =>
    rw [hf] at hw
    have smaller := (List.find?_range_eq_some.mp hf).2.2 w hw
    rw [decide_eq_true h] at smaller
    cases smaller

end Value

open Value

/-- The variables with a limit on their width, registers and stack pointer among them, and the width
of the immediate operand. -/
structure Discipline where
  limit : String → Option Nat
  immediate : Nat
  limit_register : ∀ reg : Register, limit reg.name = some 8
  limit_stackPointer : ∃ w, limit stackPointer = some w ∧ 16 ≤ w

abbrev Widths := String → Nat

namespace Discipline

variable (d : Discipline)

def width (Γ : Widths) (name : String) : Nat := (d.limit name).getD (Γ name)

/-- Only the plain immediate operand has a known width. -/
def holeWidth (h : Hole) : Nat := if h = { slot := .value } then d.immediate else 32

def Within (Γ : Widths) (m : Machine) : Prop := ∀ name, (m.get name).Fits (d.width Γ name)

/-- Every variable with a limit keeps to it. -/
def Keeps (m : Machine) : Prop := ∀ name w, d.limit name = some w → (m.get name).Fits w

/-- The widths after an assignment of a value of the given width, if that is within the limit. -/
def assign (Γ : Widths) (name : String) (w : Nat) : Option Widths :=
  match d.limit name with
  | some l => if w ≤ l then some Γ else none
  | none => some fun other => if other = name then w else Γ other

end Discipline

/-- The width of a result, from the widths of the operands and the number that the second one may
be. A right shift of a value that may be negative has no known width. -/
def BinaryOp.width (v w : Nat) (second : Option Value) : BinaryOp → Nat
  | and => min v w
  | or | xor => max v w
  | shl => second.elim 32 fun n => min 32 (v + shiftCount n)
  | shr => second.elim 32 fun n => if v < 32 then v - shiftCount n else 32
  | eq | ne | gt => 1
  | add | sub | mul => 32

def UnaryOp.width : UnaryOp → Nat
  | not => 1
  | complement => 32

/-- The new width of a variable, from its present one and that of the assigned value. -/
def AssignOp.width (v w : Nat) : AssignOp → Nat
  | set => w
  | and => min v w
  | or | xor => max v w
  | add | sub => 32

/-- The width of the value of a call, from that of the first argument. -/
def Primitive.resultWidth (w : Nat) : Primitive → Nat
  | getPair _ | readWord | addWord => 16
  | readByte | portIn | inc | dec | shift _ => 8
  | random => w
  | _ => 0

namespace Expr

mutual

def width (d : Discipline) (Γ : Widths) : Expr → Nat
  | literal l => l.constant.value.width
  | var name => d.width Γ name
  | register _ => 8
  | hole h => d.holeWidth h
  | binary op l r => op.width (l.width d Γ) (r.width d Γ) r.num?
  | unary op _ => op.width
  | logical _ l r => max (l.width d Γ) (r.width d Γ)
  | conditional _ y n => max (y.width d Γ) (n.width d Γ)
  | index _ _ => 8
  | call name args =>
      (Primitive.ofName? name).elim 0 (·.resultWidth ((widthList d Γ args).headD 0))

def widthList (d : Discipline) (Γ : Widths) : List Expr → List Nat
  | [] => []
  | e :: es => e.width d Γ :: widthList d Γ es

end

end Expr

namespace Stmt

mutual

/-- The widths after a statement, unless it exceeds a limit. -/
def widths (d : Discipline) (Γ : Widths) : Stmt → Option Widths
  | effect _ => some Γ
  | assign op (.register _) e => if op.width 8 (e.width d Γ) ≤ 8 then some Γ else none
  | assign op (.var name) e => d.assign Γ name (op.width (d.width Γ name) (e.width d Γ))
  | assign _ _ _ => none
  | declare name e => d.assign Γ name (e.width d Γ)
  | block body => widthsList d Γ body
  | ifThen _ yes => (yes.widths d Γ).map fun Γ' name => max (Γ name) (Γ' name)
  | ifElse _ yes no => (yes.widths d Γ).bind fun Γ' => (no.widths d Γ).map fun Γ'' name =>
      max (Γ' name) (Γ'' name)
  | ret _ => some Γ

def widthsList (d : Discipline) (Γ : Widths) : List Stmt → Option Widths
  | [] => some Γ
  | s :: ss => (s.widths d Γ).bind fun Γ' => widthsList d Γ' ss

end

end Stmt

def Program.keeps (d : Discipline) (p : Program) : Bool :=
  (Stmt.widthsList d (fun _ => 32) p).isSome

namespace Discipline

variable {d : Discipline} {Γ Γ' : Widths} {m m' : Machine}

theorem Within.keeps (h : d.Within Γ m) : d.Keeps m := by
  intro name w hw
  have fits := h name
  rwa [width, hw] at fits

theorem Keeps.within (h : d.Keeps m) : d.Within (fun _ => 32) m := by
  intro name
  rw [width]
  cases hw : d.limit name with
  | none => exact fits_thirtyTwo _
  | some w => exact h name w hw

theorem Within.of_get_eq (h : d.Within Γ m) (eq : ∀ name, m'.get name = m.get name) :
    d.Within Γ m' := by
  intro name
  rw [eq]
  exact h name

theorem Within.max_left (h : d.Within Γ m) :
    d.Within (fun name => max (Γ name) (Γ' name)) m := by
  intro name
  have fits := h name
  unfold width at fits ⊢
  cases hl : d.limit name with
  | none =>
    rw [hl] at fits
    exact fits_of_le fits (Nat.le_max_left _ _)
  | some w =>
    rw [hl] at fits
    exact fits

theorem Within.max_right (h : d.Within Γ' m) :
    d.Within (fun name => max (Γ name) (Γ' name)) m := by
  have swapped : d.Within (fun name => max (Γ' name) (Γ name)) m := h.max_left
  simp only [Nat.max_comm] at swapped ⊢
  exact swapped

theorem Within.assign (h : d.Within Γ m) {name : String} {w : Nat} {v : Value}
    (ha : d.assign Γ name w = some Γ') (hv : v.Fits w) : d.Within Γ' (m.set name v) := by
  intro other
  rw [Machine.get_set]
  unfold Discipline.assign at ha
  cases hl : d.limit name with
  | none =>
    simp only [hl, Option.some.injEq] at ha
    subst ha
    split
    · next eq =>
      subst eq
      simpa only [width, hl, Option.getD_none, if_true] using hv
    · next ne =>
      have fits := h other
      simpa only [width, if_neg (Ne.symm ne)] using fits
  | some l =>
    simp only [hl, Option.ite_none_right_eq_some, Option.some.injEq] at ha
    obtain ⟨hw, rfl⟩ := ha
    split
    · next eq =>
      subst eq
      simpa only [width, hl, Option.getD_some] using fits_of_le hv hw
    · exact h other

theorem Within.set_register (h : d.Within Γ m) (reg : Register) {v : Value} (hv : v.Fits 8) :
    d.Within Γ (m.set reg.name v) := by
  refine h.assign (w := 8) ?_ hv
  simp only [Discipline.assign, d.limit_register, Nat.le_refl, if_true]

theorem Within.fits_register (h : d.Within Γ m) (reg : Register) : (m.reg reg).Fits 8 := by
  have fits := h reg.name
  rwa [width, d.limit_register] at fits

theorem Within.fits_pair (h : d.Within Γ m) (p : RegisterPair) : (m.pair p).Fits 16 :=
  fits_or (fits_shiftLeft (h.fits_register p.high) 8) (h.fits_register p.low)

theorem Within.setPair (h : d.Within Γ m) (p : RegisterPair) (v : Value) :
    d.Within Γ (m.setPair p v) := by
  rw [Machine.setPair_eq_set]
  exact (h.set_register p.high (fits_ofByte _)).set_register p.low (fits_ofByte _)

theorem Within.setFlags (h : d.Within Γ m) (f : Flags) : d.Within Γ (m.setFlags f) := by
  rw [Machine.setFlags_eq_set]
  exact h.set_register .f (fits_ofByte _)

theorem Within.setAccumulator (h : d.Within Γ m) (r : FlaggedResult 8) :
    d.Within Γ (m.setAccumulator r) :=
  (h.set_register .a (fits_ofByte r.value)).setFlags r.flags

theorem Within.read (h : d.Within Γ m) (address : Word) : d.Within Γ (m.read address).2 :=
  h.of_get_eq (m.get_read address)

theorem Within.write (h : d.Within Γ m) (address : Word) (b : Byte) :
    d.Within Γ (m.write address b) := h.of_get_eq (m.get_write address b)

theorem Within.push (h : d.Within Γ m) (high low : Byte) : d.Within Γ (m.push high low) := by
  have fits : (m.get stackPointer - 2 &&& 0xFFFF).Fits 16 :=
    fits_of_le (fits_and (fits_thirtyTwo _) (fits_width 0xFFFF)) (by decide)
  obtain ⟨w, hl, hw⟩ := d.limit_stackPointer
  intro name
  rw [Machine.get_push]
  split
  · next eq =>
    subst eq
    rw [width, hl]
    exact fits_of_le fits hw
  · exact h name

end Discipline

open Discipline

variable {d : Discipline} {Γ Γ' : Widths} {m : Machine} {holes : Hole → Value}

/-- A call of a primitive keeps all widths, and its value has the width of the result. -/
theorem Primitive.apply_within (f : Primitive) (hm : d.Within Γ m) {x : Value} {w : Nat}
    (hx : x.Fits w) (y : Value) :
    (f.apply x y m).1.Fits (f.resultWidth w) ∧ d.Within Γ (f.apply x y m).2 := by
  cases f with
  | getPair p => exact ⟨hm.fits_pair p, hm⟩
  | setPair p => exact ⟨fits_zero _, hm.setPair p x⟩
  | readByte => exact ⟨fits_ofByte _, hm.read _⟩
  | readWord => exact ⟨fits_ofWord _, (hm.read _).read _⟩
  | writeByte => exact ⟨fits_zero _, hm.write _ _⟩
  | incMemory | decMemory => exact ⟨fits_zero _, ((hm.read _).setFlags _).write _ _⟩
  | incHl | decHl | incBc | decBc | incDe | decDe => exact ⟨fits_zero _, hm.setPair _ _⟩
  | pushWord | pushBytes => exact ⟨fits_zero _, hm.push _ _⟩
  | portIn => exact ⟨fits_ofByte _, hm⟩
  | portOut => exact ⟨fits_zero _, hm.of_get_eq (m.get_putOut _ _)⟩
  | addA | adcA | subA | sbcA | cpA => exact ⟨fits_zero _, hm.setAccumulator _⟩
  | addWord => exact ⟨fits_ofWord _, hm.setFlags _⟩
  | inc | dec | shift op => exact ⟨fits_ofByte _, hm.setFlags _⟩
  | rlca | rrca | rla | rra | daa | cpl => exact ⟨fits_zero _, hm.setAccumulator _⟩
  | ccf | testBit => exact ⟨fits_zero _, hm.setFlags _⟩
  | random => exact ⟨fits_of_le (fits_and (fits_thirtyTwo _) hx) (Nat.min_le_right _ _), hm⟩

theorem BinaryOp.fits_apply (op : BinaryOp) {x y : Value} {v w : Nat} (hx : x.Fits v)
    (hy : y.Fits w) {second : Option Value} (hn : ∀ n, second = some n → y = n) :
    (op.apply x y).Fits (op.width v w second) := by
  cases op with
  | and => exact fits_and hx hy
  | or => exact fits_or hx hy
  | xor => exact fits_xor hx hy
  | shl =>
    cases second with
    | none => exact fits_thirtyTwo _
    | some n =>
      obtain rfl := hn n rfl
      simp only [BinaryOp.width, Option.elim_some, BinaryOp.apply]
      rcases Nat.le_total 32 (v + shiftCount y) with h | h
      · rw [Nat.min_eq_left h]
        exact fits_thirtyTwo _
      · rw [Nat.min_eq_right h]
        exact fits_shiftLeft hx _
  | shr =>
    cases second with
    | none => exact fits_thirtyTwo _
    | some n =>
      obtain rfl := hn n rfl
      simp only [BinaryOp.width, Option.elim_some, BinaryOp.apply]
      split
      · next h => exact fits_sshiftRight hx h _
      · exact fits_thirtyTwo _
  | eq | ne | gt => exact fits_ofBool _
  | add | sub | mul => exact fits_thirtyTwo _

theorem AssignOp.fits_apply (op : AssignOp) {x y : Value} {v w : Nat} (hx : x.Fits v)
    (hy : y.Fits w) : (op.apply x y).Fits (op.width v w) := by
  cases op with
  | set => exact hy
  | and => exact fits_and hx hy
  | or => exact fits_or hx hy
  | xor => exact fits_xor hx hy
  | add | sub => exact fits_thirtyTwo _

namespace Expr

theorem outcome_of_num? {e : Expr} {n : Value} (h : e.num? = some n) (m : Machine) :
    e.outcome holes m = (n, m) := by
  unfold num? at h
  split at h
  · cases h
    simp only [outcome, Constant.value]
  · cases h

mutual

/-- An expression has its width, and evaluating it keeps all widths. -/
theorem outcome_within {Γ : Widths} {m : Machine}
    (hh : ∀ h, (holes h).Fits (d.holeWidth h)) (e : Expr) (hm : d.Within Γ m) : (e.outcome holes m).1.Fits (e.width d Γ) ∧
      d.Within Γ (e.outcome holes m).2 := by
  cases e with
  | literal l => exact ⟨fits_width _, hm⟩
  | var name => exact ⟨hm name, hm⟩
  | register reg => exact ⟨hm.fits_register reg, hm⟩
  | hole h => exact ⟨hh h, hm⟩
  | binary op l r =>
    obtain ⟨fl, hl⟩ := outcome_within hh l hm
    obtain ⟨fr, hr⟩ := outcome_within hh r hl
    simp only [outcome, width]
    refine ⟨op.fits_apply fl fr fun n hn => ?_, hr⟩
    rw [outcome_of_num? hn]
  | unary op e =>
    obtain ⟨-, he⟩ := outcome_within hh e hm
    simp only [outcome, width]
    refine ⟨?_, he⟩
    cases op with
    | not => exact fits_ofBool _
    | complement => exact fits_thirtyTwo _
  | logical op l r =>
    obtain ⟨fl, hl⟩ := outcome_within hh l hm
    obtain ⟨fr, hr⟩ := outcome_within hh r hl
    simp only [outcome, width]
    split
    · exact ⟨fits_of_le fl (Nat.le_max_left _ _), hl⟩
    · exact ⟨fits_of_le fr (Nat.le_max_right _ _), hr⟩
  | conditional t y n =>
    obtain ⟨-, ht⟩ := outcome_within hh t hm
    obtain ⟨fy, hy⟩ := outcome_within hh y ht
    obtain ⟨fn, hn⟩ := outcome_within hh n ht
    simp only [outcome, width]
    split
    · exact ⟨fits_of_le fy (Nat.le_max_left _ _), hy⟩
    · exact ⟨fits_of_le fn (Nat.le_max_right _ _), hn⟩
  | index t k =>
    obtain ⟨-, hk⟩ := outcome_within hh k hm
    simp only [outcome, width]
    refine ⟨?_, hk⟩
    cases t.table? with
    | none => exact fits_zero 8
    | some table => exact fits_ofByte _
  | call name args =>
    obtain ⟨fargs, hargs⟩ := outcomeList_within hh args hm
    simp only [outcome, width]
    cases Primitive.ofName? name with
    | none => exact ⟨fits_zero _, hargs⟩
    | some f => exact f.apply_within hargs fargs _

theorem outcomeList_within {Γ : Widths} {m : Machine}
    (hh : ∀ h, (holes h).Fits (d.holeWidth h)) (es : List Expr) (hm : d.Within Γ m) :
    ((outcomeList holes es m).1.getD 0 0).Fits ((widthList d Γ es).headD 0) ∧
      d.Within Γ (outcomeList holes es m).2 := by
  cases es with
  | nil => exact ⟨fits_zero _, hm⟩
  | cons e es =>
    obtain ⟨fe, he⟩ := outcome_within hh e hm
    obtain ⟨-, hes⟩ := outcomeList_within hh es he
    simp only [outcomeList, widthList]
    exact ⟨fe, hes⟩

end

end Expr

namespace Stmt

mutual

/-- A statement keeps to all limits, and leads to the widths after it unless it ends the program. -/
theorem outcome_within {Γ Γ' : Widths} {m : Machine}
    (hh : ∀ h, (holes h).Fits (d.holeWidth h)) (s : Stmt) (hs : s.widths d Γ = some Γ') (hm : d.Within Γ m) : d.Keeps (s.outcome holes m).2 ∧
      ((s.outcome holes m).1 = .continued → d.Within Γ' (s.outcome holes m).2) := by
  cases s with
  | effect e =>
    simp only [widths, Option.some.injEq] at hs
    subst hs
    obtain ⟨-, he⟩ := e.outcome_within hh hm
    simp only [outcome]
    exact ⟨he.keeps, fun _ => he⟩
  | assign op target e =>
    obtain ⟨fe, he⟩ := e.outcome_within hh hm
    cases target with
    | var name =>
      simp only [widths] at hs
      have after := he.assign hs (op.fits_apply (he name) fe)
      rw [outcome_assign_var]
      exact ⟨after.keeps, fun _ => after⟩
    | register reg =>
      simp only [widths, Option.ite_none_right_eq_some, Option.some.injEq] at hs
      obtain ⟨hw, rfl⟩ := hs
      have after := he.set_register reg
        (fits_of_le (op.fits_apply (he.fits_register reg) fe) hw)
      rw [outcome_assign_register, Machine.setReg_eq_set]
      exact ⟨after.keeps, fun _ => after⟩
    | _ => simp only [widths, reduceCtorEq] at hs
  | declare name e =>
    obtain ⟨fe, he⟩ := e.outcome_within hh hm
    simp only [widths] at hs
    have after := he.assign hs fe
    simp only [outcome]
    exact ⟨after.keeps, fun _ => after⟩
  | block body =>
    simp only [widths] at hs
    simp only [outcome]
    exact outcomeList_within hh body hs hm
  | ifThen test yes =>
    obtain ⟨-, ht⟩ := test.outcome_within hh hm
    simp only [widths, Option.map_eq_some_iff] at hs
    obtain ⟨Γ₁, hyes, rfl⟩ := hs
    obtain ⟨ky, wy⟩ := outcome_within hh yes hyes ht
    simp only [outcome]
    split
    · exact ⟨ky, fun h => (wy h).max_right⟩
    · exact ⟨ht.keeps, fun _ => ht.max_left⟩
  | ifElse test yes no =>
    obtain ⟨-, ht⟩ := test.outcome_within hh hm
    simp only [widths, Option.bind_eq_some_iff, Option.map_eq_some_iff] at hs
    obtain ⟨Γ₁, hyes, Γ₂, hno, rfl⟩ := hs
    obtain ⟨ky, wy⟩ := outcome_within hh yes hyes ht
    obtain ⟨kn, wn⟩ := outcome_within hh no hno ht
    simp only [outcome]
    split
    · exact ⟨ky, fun h => (wy h).max_left⟩
    · exact ⟨kn, fun h => (wn h).max_right⟩
  | ret value =>
    cases value with
    | none =>
      simp only [outcome, Option.elim]
      exact ⟨hm.keeps, fun h => by cases h⟩
    | some e =>
      obtain ⟨-, he⟩ := e.outcome_within hh hm
      simp only [outcome, Option.elim]
      exact ⟨he.keeps, fun h => by cases h⟩

theorem outcomeList_within {Γ Γ' : Widths} {m : Machine}
    (hh : ∀ h, (holes h).Fits (d.holeWidth h)) (p : List Stmt) (hp : widthsList d Γ p = some Γ') (hm : d.Within Γ m) :
    d.Keeps (outcomeList holes p m).2 ∧
      ((outcomeList holes p m).1 = .continued → d.Within Γ' (outcomeList holes p m).2) := by
  cases p with
  | nil =>
    simp only [widthsList, Option.some.injEq] at hp
    subst hp
    simp only [outcomeList]
    exact ⟨hm.keeps, fun _ => hm⟩
  | cons s ss =>
    simp only [widthsList, Option.bind_eq_some_iff] at hp
    obtain ⟨Γ₁, hs, hss⟩ := hp
    have step := outcome_within hh s hs hm
    simp only [outcomeList]
    generalize s.outcome holes m = after at step ⊢
    obtain ⟨_ | _, m'⟩ := after
    · exact outcomeList_within hh ss hss (step.2 rfl)
    · exact ⟨step.1, fun h => by cases h⟩

end

end Stmt

/-- A program that exceeds no limit keeps to all of them on every machine. -/
theorem Program.keeps_outcome {p : Program} (hp : p.keeps d) (hm : d.Keeps m) (ops : Operands)
    (hi : ops.value.Fits d.immediate) : d.Keeps (p.outcome ops m).2 := by
  obtain ⟨Γ', hΓ⟩ := Option.isSome_iff_exists.mp hp
  have hh : ∀ h, (ops.resolve h).Fits (d.holeWidth h) := by
    intro h
    unfold Discipline.holeWidth
    split
    · next eq =>
      subst eq
      simpa [Operands.resolve, Operands.get] using hi
    · exact fits_thirtyTwo _
  exact (Stmt.outcomeList_within hh p hΓ hm.within).1

end Z80Effects
