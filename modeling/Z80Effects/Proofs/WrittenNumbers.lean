import Z80Effects.Word

/-!
# Reading written numbers

Numbers are written in decimal or, after `0x`, in hexadecimal, with a sign in front. Reading what is
written gives the number again.
-/
namespace Z80Effects.Numeral

def hexDigitValue (d : Char) : Nat := if d.isDigit then d.toNat - 48 else d.toNat - 55

def readHexDigits (ds : List Char) : Nat := ds.foldl (fun n d => 16 * n + hexDigitValue d) 0

theorem hexDigitValue_digitChar : ∀ d < 16, hexDigitValue (Nat.digitChar d).toUpper = d := by
  decide

theorem readHexDigits_append (ds : List Char) (d : Char) :
    readHexDigits (ds ++ [d]) = 16 * readHexDigits ds + hexDigitValue d := by
  rw [readHexDigits, List.foldl_append]
  rfl

theorem readHexDigits_toDigits (n : Nat) :
    readHexDigits ((Nat.toDigits 16 n).map Char.toUpper) = n := by
  induction n using Nat.base_induction 16 (by decide) with
  | single d hd =>
    rw [Nat.toDigits_of_lt_base hd, List.map_singleton, ← List.nil_append [_], readHexDigits_append,
      hexDigitValue_digitChar d hd]
    exact Nat.zero_add d
  | digit n d hd hn ih =>
    rw [← Nat.toDigits_append_toDigits (by decide) hn hd, List.map_append,
      Nat.toDigits_of_lt_base hd, List.map_singleton, readHexDigits_append, ih,
      hexDigitValue_digitChar d hd]

theorem readHexDigits_replicate (k : Nat) (ds : List Char) :
    readHexDigits (List.replicate k '0' ++ ds) = readHexDigits ds := by
  induction k with
  | zero => rfl
  | succ k ih => exact ih

theorem readHexDigits_hexDigits (width n : Nat) : readHexDigits (hexDigits width n).toList = n := by
  rw [hexDigits, String.toList_ofList, readHexDigits_replicate, readHexDigits_toDigits]

theorem isAlphanum_toDigits (n : Nat) :
    ∀ c ∈ (Nat.toDigits 16 n).map Char.toUpper, c.isAlphanum := by
  have digit : ∀ d < 16, (Nat.digitChar d).toUpper.isAlphanum := by decide
  induction n using Nat.base_induction 16 (by decide) with
  | single d hd => simpa [Nat.toDigits_of_lt_base hd] using digit d hd
  | digit n d hd hn ih =>
    rw [← Nat.toDigits_append_toDigits (by decide) hn hd, List.map_append, List.forall_mem_append]
    exact ⟨ih, by simpa [Nat.toDigits_of_lt_base hd] using digit d hd⟩

theorem isAlphanum_of_mem_hexDigits {width n : Nat} {c : Char}
    (h : c ∈ (hexDigits width n).toList) : c.isAlphanum := by
  rw [hexDigits, String.toList_ofList] at h
  rcases List.mem_append.mp h with zero | digit
  · rw [List.eq_of_mem_replicate zero]
    rfl
  · exact isAlphanum_toDigits n c digit

theorem isDigit_of_mem_decimalDigits {n : Nat} {c : Char} (h : c ∈ (decimalDigits n).toList) :
    c.isDigit := by
  rw [decimalDigits, String.toList_ofList] at h
  exact Nat.isDigit_of_mem_toDigits (by decide) (by decide) h

/-- The number with a magnitude and a sign. -/
def signed (negative : Bool) (n : Nat) : Value := BitVec.ofInt 32 (if negative then -n else n)

theorem signed_magnitude (v : Value) : signed v.msb (magnitude v) = v := by
  rw [signed, magnitude, BitVec.msb_eq_toInt]
  simp only [decide_eq_true_eq]
  split
  · next negative => rw [Int.ofNat_natAbs_of_nonpos (by omega), Int.neg_neg, BitVec.ofInt_toInt]
  · next nonnegative => rw [Int.natAbs_of_nonneg (by omega), BitVec.ofInt_toInt]

def readMagnitude : List Char → Nat
  | '0' :: 'x' :: ds => readHexDigits ds
  | ds => Nat.ofDigitChars 10 ds 0

def read : List Char → Value
  | '-' :: ds => signed true (readMagnitude ds)
  | '+' :: ds => signed false (readMagnitude ds)
  | ds => signed false (readMagnitude ds)

theorem readMagnitude_decimalDigits (n : Nat) : readMagnitude (decimalDigits n).toList = n := by
  unfold readMagnitude
  split
  · next ds eq =>
    have digit : 'x' ∈ (decimalDigits n).toList := by simp [eq]
    cases isDigit_of_mem_decimalDigits digit
  · rw [decimalDigits, String.toList_ofList, Nat.ofDigitChars_ten_toDigits]

theorem exists_digit_decimalDigits (n : Nat) :
    ∃ d ds, (decimalDigits n).toList = d :: ds ∧ d.isDigit := by
  have some : (decimalDigits n).toList ≠ [] := by simp [decimalDigits]
  obtain ⟨d, ds, eq⟩ := List.exists_cons_of_ne_nil some
  exact ⟨d, ds, eq, isDigit_of_mem_decimalDigits (eq ▸ List.mem_cons_self)⟩

theorem read_of_isDigit {d : Char} (hd : d.isDigit) (ds : List Char) :
    read (d :: ds) = signed false (readMagnitude (d :: ds)) := by
  unfold read
  split
  · next eq => cases eq; cases hd
  · next eq => cases eq; cases hd
  · rfl

theorem read_decimal (v : Value) : read (decimal v).toList = v := by
  have magnitude := readMagnitude_decimalDigits (magnitude v)
  have number := signed_magnitude v
  rw [decimal, String.toList_append, sign]
  cases hv : v.msb with
  | true =>
    rw [hv, ← magnitude] at number
    exact number
  | false =>
    rw [hv, ← magnitude] at number
    obtain ⟨d, ds, eq, digit⟩ := exists_digit_decimalDigits (Numeral.magnitude v)
    rw [eq] at number ⊢
    exact (read_of_isDigit digit ds).trans number

theorem read_signedDecimal (v : Value) : read (signedDecimal v).toList = v := by
  have number := signed_magnitude v
  rw [← readMagnitude_decimalDigits (magnitude v)] at number
  rw [signedDecimal, String.toList_append]
  cases hv : v.msb with
  | true => rwa [hv] at number
  | false => rwa [hv] at number

theorem read_hex (v : Value) : read (hex v).toList = v := by
  have number := signed_magnitude v
  rw [← readHexDigits_hexDigits (if magnitude v ≤ 0xFF then 2 else 4) (magnitude v)] at number
  rw [hex, String.toList_append, String.toList_append, sign]
  cases hv : v.msb with
  | true => rwa [hv] at number
  | false => rwa [hv] at number

def isStart (c : Char) : Bool := c == '-' || c.isDigit

theorem exists_start_decimal (v : Value) : ∃ c cs, (decimal v).toList = c :: cs ∧ isStart c := by
  rw [decimal, String.toList_append, sign]
  cases v.msb with
  | true => exact ⟨'-', _, rfl, rfl⟩
  | false =>
    obtain ⟨d, ds, eq, digit⟩ := exists_digit_decimalDigits (magnitude v)
    exact ⟨d, ds, eq, by simp [isStart, digit]⟩

theorem exists_start_hex (v : Value) : ∃ c cs, (hex v).toList = c :: cs ∧ isStart c := by
  rw [hex, String.toList_append, String.toList_append, sign]
  cases v.msb with
  | true => exact ⟨'-', _, rfl, rfl⟩
  | false => exact ⟨'0', _, rfl, rfl⟩

theorem exists_sign_signedDecimal (v : Value) :
    ∃ c d ds, (signedDecimal v).toList = c :: d :: ds ∧ (c = '+' ∨ c = '-') ∧ d.isDigit := by
  obtain ⟨d, ds, eq, digit⟩ := exists_digit_decimalDigits (magnitude v)
  rw [signedDecimal, String.toList_append, eq]
  cases v.msb with
  | true => exact ⟨'-', d, ds, rfl, .inr rfl, digit⟩
  | false => exact ⟨'+', d, ds, rfl, .inl rfl, digit⟩

def isPart (c : Char) : Bool := c == '-' || c == '+' || c.isAlphanum

theorem isPart_of_isDigit {c : Char} (h : c.isDigit) : isPart c := by
  simp [isPart, Char.isAlphanum, h]

theorem all_isPart_sign (v : Value) : (sign v).toList.all isPart := by
  rw [sign]
  cases v.msb <;> rfl

theorem all_isPart_decimalDigits (n : Nat) : (decimalDigits n).toList.all isPart := by
  rw [List.all_eq_true]
  intro c digit
  exact isPart_of_isDigit (isDigit_of_mem_decimalDigits digit)

theorem all_isPart_hexDigits (width n : Nat) : (hexDigits width n).toList.all isPart := by
  rw [List.all_eq_true]
  intro c digit
  simp [isPart, isAlphanum_of_mem_hexDigits digit]

theorem all_isPart_decimal (v : Value) : (decimal v).toList.all isPart := by
  rw [decimal, String.toList_append, List.all_append, Bool.and_eq_true]
  exact ⟨all_isPart_sign v, all_isPart_decimalDigits _⟩

theorem all_isPart_signedDecimal (v : Value) : (signedDecimal v).toList.all isPart := by
  rw [signedDecimal, String.toList_append, List.all_append, Bool.and_eq_true]
  constructor
  · cases v.msb <;> rfl
  · exact all_isPart_decimalDigits _

theorem all_isPart_hex (v : Value) : (hex v).toList.all isPart := by
  rw [hex, String.toList_append, String.toList_append, List.all_append, List.all_append,
    Bool.and_eq_true, Bool.and_eq_true]
  exact ⟨⟨all_isPart_sign v, rfl⟩, all_isPart_hexDigits _ _⟩

/-- Hexadecimal numbers are told by their `x`. -/
theorem x_mem_hex (v : Value) : 'x' ∈ (hex v).toList := by
  simp [hex]

theorem x_not_mem_decimal (v : Value) : 'x' ∉ (decimal v).toList := by
  rw [decimal, String.toList_append, List.mem_append, not_or, sign]
  constructor
  · cases v.msb <;> simp
  · intro digit
    cases isDigit_of_mem_decimalDigits digit

end Z80Effects.Numeral
