import Mathlib.Data.List.Basic
import Z80Effects.Program.Template
import Z80Effects.Program.Text
import Z80Effects.Proofs.WrittenNumbers

/-!
# Reading written expressions

The written form of an expression begins with a bracket, with a prefix operator, or with a word that
a delimiter ends. This and the token after the first operand tell how the expression is built, so
that it can be read back from its written form. What is read has variables for registers, which are
written like variables.
-/
namespace Z80Effects

namespace Text

def delimiters : List Char := [' ', '\n', ';', ',', '(', ')', '[', ']']

def isDelimiter (c : Char) : Bool := delimiters.contains c

def isPlain (cs : List Char) : Bool := cs.all fun c => !isDelimiter c

def word (cs : List Char) : List Char := cs.takeWhile fun c => !isDelimiter c

def afterWord (cs : List Char) : List Char := cs.dropWhile fun c => !isDelimiter c

/-- A text that can follow a word. -/
def endsWord (cs : List Char) : Bool := cs.head?.all isDelimiter

/-- A text that can follow an expression. -/
def endsExpr (cs : List Char) : Bool := cs.head?.all [' ', ';', ')', ',', ']'].contains

theorem endsWord_of_endsExpr {cs : List Char} (h : endsExpr cs) : endsWord cs := by
  cases cs with
  | nil => rfl
  | cons c cs =>
    simp only [endsExpr, List.head?_cons, Option.all_some, List.contains_eq_mem,
      decide_eq_true_eq] at h
    revert c
    simp [endsWord, isDelimiter, delimiters]

variable {w r : List Char}

theorem word_append (hw : isPlain w) (hr : endsWord r) : word (w ++ r) = w := by
  rw [word, List.takeWhile_append_of_pos (List.all_eq_true.mp hw)]
  cases r with
  | nil => simp
  | cons c r =>
    have delimiter : isDelimiter c := by simpa [endsWord] using hr
    simp [delimiter]

theorem afterWord_append (hw : isPlain w) (hr : endsWord r) : afterWord (w ++ r) = r := by
  rw [afterWord, List.dropWhile_append_of_pos (List.all_eq_true.mp hw)]
  cases r with
  | nil => rfl
  | cons c r =>
    have delimiter : isDelimiter c := by simpa [endsWord] using hr
    simp [delimiter]

def reservedWords : List String := ["true", "false", "var", "if", "else", "return"]

/-- A letter of some alphabet. All characters beyond the first 128 count. -/
def isLetter (c : Char) : Bool := c.isAlpha || decide (128 ≤ c.toNat)

def isNamePart (c : Char) : Bool := isLetter c || c.isDigit || c == '_' || c == '.'

def isName (s : String) : Bool :=
  s.toList.head?.any isLetter && s.toList.all isNamePart && !reservedWords.contains s

variable {s : String}

theorem exists_letter_of_isName (h : isName s) : ∃ c cs, s.toList = c :: cs ∧ isLetter c := by
  simp only [isName, Bool.and_eq_true] at h
  cases eq : s.toList with
  | nil => simp [eq] at h
  | cons c cs =>
    simp only [eq, List.head?_cons, Option.any_some] at h
    exact ⟨c, cs, rfl, h.1.1⟩

theorem not_mem_reservedWords_of_isName (h : isName s) : s ∉ reservedWords := by
  simp only [isName, Bool.and_eq_true, Bool.not_eq_true', List.contains_eq_mem,
    decide_eq_false_iff_not] at h
  exact h.2

theorem isPlain_of_all {part : Char → Bool} (apart : (delimiters.all fun c => !part c) = true)
    {cs : List Char} (h : cs.all part) : isPlain cs := by
  rw [isPlain, List.all_eq_true]
  intro c hc
  by_contra delimiter
  simp only [isDelimiter, Bool.not_eq_true', Bool.not_eq_false, List.contains_iff_mem] at delimiter
  have outside := List.all_eq_true.mp apart c delimiter
  rw [List.all_eq_true.mp h c hc] at outside
  cases outside

theorem isPlain_of_isName (h : isName s) : isPlain s.toList := by
  simp only [isName, Bool.and_eq_true] at h
  exact isPlain_of_all rfl h.1.2

theorem not_isStart_of_isLetter {c : Char} (h : isLetter c) : Numeral.isStart c = false := by
  have code : c.toNat = c.val.toNat := rfl
  have letter : isLetter c = (decide ('A'.val ≤ c.val ∧ c.val ≤ 'Z'.val) ||
      decide ('a'.val ≤ c.val) && decide (c.val ≤ 'z'.val) || decide (128 ≤ c.toNat)) := rfl
  have start : Numeral.isStart c =
      (c == '-' || decide ('0'.val ≤ c.val) && decide (c.val ≤ '9'.val)) := rfl
  simp only [letter, Bool.or_eq_true, Bool.and_eq_true, decide_eq_true_eq,
    UInt32.le_iff_toNat_le] at h
  simp only [start, Bool.or_eq_false_iff, beq_eq_false_iff_ne, Bool.and_eq_false_iff,
    decide_eq_false_iff_not, UInt32.le_iff_toNat_le]
  constructor
  · rintro rfl
    revert h
    decide
  · simp at h ⊢
    omega

end Text

/-- The literal has no note, or the one that annotating it gives. -/
def Literal.readable (l : Literal) : Bool := l == l.bare || l == l.bare.annotate

theorem Literal.cases_of_readable {l : Literal} (h : l.readable) :
    (∃ constant, l = ⟨constant, none⟩) ∨ ∃ v, l = ⟨.num v, some (Numeral.hex v)⟩ := by
  obtain ⟨constant, note⟩ := l
  simp only [readable, bare, Bool.or_eq_true, beq_iff_eq] at h
  rcases h with bare | annotated
  · exact .inl ⟨constant, bare⟩
  · cases constant with
    | num v => exact .inr ⟨v, annotated⟩
    | bool b => exact .inl ⟨.bool b, annotated⟩

theorem Literal.readable_annotate {l : Literal} (h : l.readable) : l.annotate.readable := by
  rcases l.cases_of_readable h with ⟨v | b, rfl⟩ | ⟨v, rfl⟩ <;> simp [readable, annotate, bare]

namespace Expr

open Text

mutual

/-- Names are names, literals carry no notes but those of `annotate`, and the place of a table is a
name. -/
def readable : Expr → Bool
  | literal l => l.readable
  | var name => isName name
  | register _ | hole _ => true
  | binary _ l r | logical _ l r => l.readable && r.readable
  | unary _ e => e.readable
  | conditional t y n => t.readable && y.readable && n.readable
  | index (var name) k => isName name && k.readable
  | index _ _ => false
  | call name args => isName name && readableList args

def readableList : List Expr → Bool
  | [] => true
  | e :: es => e.readable && readableList es

end

mutual

theorem readable_annotate (e : Expr) (he : e.readable) : e.annotate.readable := by
  unfold annotate
  cases e with
  | literal l => exact Literal.readable_annotate he
  | var | register | hole => exact he
  | binary op l r | logical op l r =>
    simp only [readable, Bool.and_eq_true] at he
    simp only [mapLiterals, readable, Bool.and_eq_true]
    exact ⟨readable_annotate l he.1, readable_annotate r he.2⟩
  | unary op e => exact readable_annotate e he
  | conditional t y n =>
    simp only [readable, Bool.and_eq_true] at he
    simp only [mapLiterals, readable, Bool.and_eq_true]
    exact ⟨⟨readable_annotate t he.1.1, readable_annotate y he.1.2⟩, readable_annotate n he.2⟩
  | index t k =>
    cases t with
    | var name =>
      simp only [readable, Bool.and_eq_true] at he
      simp only [mapLiterals, readable, Bool.and_eq_true]
      exact ⟨he.1, readable_annotate k he.2⟩
    | _ => cases he
  | call name args =>
    simp only [readable, Bool.and_eq_true] at he
    simp only [mapLiterals, readable, Bool.and_eq_true]
    exact ⟨he.1, readableList_annotate args he.2⟩

theorem readableList_annotate (es : List Expr) (hes : readableList es) :
    readableList (mapLiteralsList Literal.annotate es) := by
  cases es with
  | nil => rfl
  | cons e es =>
    simp only [readableList, Bool.and_eq_true] at hes
    simp only [mapLiteralsList, readableList, Bool.and_eq_true]
    exact ⟨readable_annotate e hes.1, readableList_annotate es hes.2⟩

end

mutual

/-- The expression with each register as the variable that holds it. -/
def nameRegisters : Expr → Expr
  | literal l => literal l
  | var name => var name
  | register reg => var reg.name
  | hole h => hole h
  | binary op l r => binary op l.nameRegisters r.nameRegisters
  | unary op e => unary op e.nameRegisters
  | logical op l r => logical op l.nameRegisters r.nameRegisters
  | conditional t y n => conditional t.nameRegisters y.nameRegisters n.nameRegisters
  | index t k => index t.nameRegisters k.nameRegisters
  | call name args => call name (nameRegistersList args)

def nameRegistersList : List Expr → List Expr
  | [] => []
  | e :: es => e.nameRegisters :: nameRegistersList es

end

mutual

theorem text_nameRegisters (e : Expr) : e.nameRegisters.text = e.text := by
  cases e with
  | literal | var | register | hole => rfl
  | binary op l r | logical op l r =>
    simp only [nameRegisters, text, text_nameRegisters l, text_nameRegisters r]
  | unary op e => simp only [nameRegisters, text, text_nameRegisters e]
  | conditional t y n =>
    simp only [nameRegisters, text, text_nameRegisters t, text_nameRegisters y,
      text_nameRegisters n]
  | index t k => simp only [nameRegisters, text, text_nameRegisters t, text_nameRegisters k]
  | call name args => simp only [nameRegisters, text, texts_nameRegistersList args]

theorem texts_nameRegistersList (es : List Expr) : texts (nameRegistersList es) = texts es := by
  cases es with
  | nil => rfl
  | cons e es =>
    simp only [nameRegistersList, texts, text_nameRegisters e, texts_nameRegistersList es]

end

def slotNamed (name : List Char) : Slot :=
  if name = "value".toList then .value else if name = "target".toList then .target else .nextAddress

def ofWord (w : List Char) : Expr :=
  if w = "true".toList then bool true
  else if w = "false".toList then bool false
  else match w with
    | '$' :: name => hole { slot := slotNamed name }
    | c :: _ =>
        if Numeral.isStart c then
          literal ⟨.num (Numeral.read w), if 'x' ∈ w then some (String.ofList w) else none⟩
        else var (String.ofList w)
    | [] => var ""

theorem ofWord_name {name : String} (h : isName name) : ofWord name.toList = var name := by
  obtain ⟨c, cs, eq, letter⟩ := exists_letter_of_isName h
  have different {other : String} (ho : other ∈ reservedWords) : name.toList ≠ other.toList := by
    intro same
    rw [String.toList_inj.mp same] at h
    exact not_mem_reservedWords_of_isName h ho
  unfold ofWord
  rw [if_neg (different (by decide)), if_neg (different (by decide)), eq]
  split
  · next dollar => cases dollar; cases letter
  · next cons =>
    cases cons
    rw [if_neg (by simp [not_isStart_of_isLetter letter]), ← eq, String.ofList_toList]
  · next nil => cases nil

theorem ofWord_number {w : List Char} (h : ∃ c cs, w = c :: cs ∧ Numeral.isStart c) : ofWord w =
    literal ⟨.num (Numeral.read w), if 'x' ∈ w then some (String.ofList w) else none⟩ := by
  obtain ⟨c, cs, rfl, start⟩ := h
  unfold ofWord
  split
  · next word => cases word; cases start
  · split
    · next word => cases word; cases start
    · split
      · next dollar => cases dollar; cases start
      · next cons => cases cons; rw [if_pos start]
      · next nil => cases nil

theorem ofWord_literal {l : Literal} (h : l.readable) : ofWord l.text.toList = literal l := by
  rcases l.cases_of_readable h with ⟨v | b, rfl⟩ | ⟨v, rfl⟩
  · change ofWord (Numeral.decimal v).toList = _
    rw [ofWord_number (Numeral.exists_start_decimal v), Numeral.read_decimal,
      if_neg (Numeral.x_not_mem_decimal v)]
  · cases b <;> rfl
  · change ofWord (Numeral.hex v).toList = _
    rw [ofWord_number (Numeral.exists_start_hex v), Numeral.read_hex, if_pos (Numeral.x_mem_hex v),
      String.ofList_toList]

theorem ofWord_slot (slot : Slot) : ofWord ('$' :: slot.name.toList) = hole { slot := slot } := by
  cases slot <;> rfl

def keywords : List String := ["\x7b", "var", "if", "else", "return"]

/-- A word that an expression can begin with. -/
structure LeadingWord (w : List Char) : Prop where
  plain : isPlain w
  begins : ∃ c cs, w = c :: cs ∧ c ≠ '!' ∧ c ≠ '~'
  notKeyword : ∀ keyword ∈ keywords, w ≠ keyword.toList

theorem leadingWord_name {name : String} (h : isName name) : LeadingWord name.toList where
  plain := isPlain_of_isName h
  begins := by
    obtain ⟨c, cs, eq, letter⟩ := exists_letter_of_isName h
    refine ⟨c, cs, eq, ?_, ?_⟩ <;>
    · rintro rfl
      cases letter
  notKeyword := by
    have noNames : ∀ keyword ∈ keywords, isName keyword = false := by decide
    intro keyword hk same
    rw [String.toList_inj.mp same, noNames keyword hk] at h
    cases h

theorem leadingWord_number {w : List Char} (hw : w.all Numeral.isPart)
    (h : ∃ c cs, w = c :: cs ∧ Numeral.isStart c) : LeadingWord w where
  plain := isPlain_of_all rfl hw
  begins := by
    obtain ⟨c, cs, eq, start⟩ := h
    refine ⟨c, cs, eq, ?_, ?_⟩ <;>
    · rintro rfl
      cases start
  notKeyword := by
    have noNumbers : ∀ keyword ∈ keywords, keyword.toList.head?.any Numeral.isStart = false := by
      decide
    obtain ⟨c, cs, rfl, start⟩ := h
    intro keyword hk same
    have first := noNumbers keyword hk
    rw [← same, List.head?_cons, Option.any_some, start] at first
    cases first

theorem leadingWord_literal {l : Literal} (h : l.readable) : LeadingWord l.text.toList := by
  rcases l.cases_of_readable h with ⟨v | b, rfl⟩ | ⟨v, rfl⟩
  · exact leadingWord_number (Numeral.all_isPart_decimal v) (Numeral.exists_start_decimal v)
  · cases b with
    | false => exact ⟨rfl, ⟨'f', _, rfl, by decide, by decide⟩, by decide⟩
    | true => exact ⟨rfl, ⟨'t', _, rfl, by decide, by decide⟩, by decide⟩
  · exact leadingWord_number (Numeral.all_isPart_hex v) (Numeral.exists_start_hex v)

theorem leadingWord_slot (slot : Slot) : LeadingWord ('$' :: slot.name.toList) := by
  refine ⟨?_, ⟨'$', _, rfl, by decide, by decide⟩, ?_⟩ <;> cases slot <;> decide

theorem isName_register (reg : Register) : isName reg.name := by
  cases reg <;> decide

/-- What a bracket holds, told by the token after the first operand. -/
inductive Operation
  | binary (op : BinaryOp)
  | logical (op : LogicalOp)
  | conditional
  /-- A hole reduced to an offset within a page. -/
  | inPage
  /-- A hole with an offset. -/
  | offset (v : Value)

namespace Operation

def token : Operation → List Char
  | binary op => op.symbol.toList
  | logical op => op.symbol.toList
  | conditional => ['?']
  | inPage => ['%']
  | offset v => (Numeral.signedDecimal v).toList

def named : List Operation :=
  [.add, .sub, .mul, .shl, .shr, .and, .or, .xor, .eq, .ne, .gt].map binary ++
    [logical .and, logical .or, conditional, inPage]

def ofToken (w : List Char) : Operation :=
  (named.find? (·.token == w)).getD (.offset (Numeral.read w))

theorem ofToken_token (o : Operation) : ofToken o.token = o := by
  cases o with
  | binary op => cases op <;> rfl
  | logical op => cases op <;> rfl
  | conditional | inPage => rfl
  | offset v =>
    obtain ⟨c, d, ds, eq, -, digit⟩ := Numeral.exists_sign_signedDecimal v
    have unnamed : named.find? (·.token == token (.offset v)) = none := by
      have short : ∀ o ∈ named, (o.token.drop 1).head?.all (!·.isDigit) := by decide
      rw [token, eq, List.find?_eq_none]
      intro o ho same
      have second := short o ho
      rw [beq_iff_eq.mp same] at second
      simp [digit] at second
    rw [ofToken, unnamed]
    exact congrArg offset (Numeral.read_signedDecimal v)

theorem isPlain_token (o : Operation) : isPlain o.token := by
  cases o with
  | binary op => cases op <;> rfl
  | logical op => cases op <;> rfl
  | conditional | inPage => rfl
  | offset v => exact isPlain_of_all rfl (Numeral.all_isPart_signedDecimal v)

end Operation

section
variable (slot : Slot) (offset : Value)

theorem toList_slot : (hole { slot := slot }).text.toList = '$' :: slot.name.toList := by
  simp [text, Hole.text, Hole.sum]

theorem toList_sum {offset : Value} (nonzero : ¬ offset = 0#32) :
    (hole { slot := slot, offset := offset }).text.toList =
      '(' :: ((hole { slot := slot }).text.toList ++
        ' ' :: ((Operation.offset offset).token ++ [')'])) := by
  simp [text, Hole.text, Hole.sum, nonzero, Operation.token]

theorem toList_inPage : (hole { slot := slot, offset := offset, inPage := true }).text.toList =
    '(' :: ((hole { slot := slot, offset := offset }).text.toList ++
      ' ' :: (Operation.inPage.token ++ " 0x4000)".toList)) := by
  simp [text, Hole.text, Hole.sum, Operation.token]

end

section
variable (operand : List Char → Option (Expr × List Char))

/-- Reads the rest of an operation in brackets, given how to read an operand. -/
def readOperation (first : Expr) : Operation → List Char → Option (Expr × List Char)
  | .binary op, ' ' :: cs => do
      let (right, ')' :: cs) ← operand cs | none
      return (binary op first right, cs)
  | .logical op, ' ' :: cs => do
      let (right, ')' :: cs) ← operand cs | none
      return (logical op first right, cs)
  | .conditional, ' ' :: cs => do
      let (yes, ' ' :: ':' :: ' ' :: cs) ← operand cs | none
      let (no, ')' :: cs) ← operand cs | none
      return (conditional first yes no, cs)
  | .inPage, ' ' :: '0' :: 'x' :: '4' :: '0' :: '0' :: '0' :: ')' :: cs => do
      let h ← first.hole?
      return (hole { h with inPage := true }, cs)
  | .offset v, ')' :: cs => do
      let h ← first.hole?
      return (hole { h with offset := v }, cs)
  | _, _ => none

def readBracket (cs : List Char) : Option (Expr × List Char) := do
  let (first, ' ' :: cs) ← operand cs | none
  readOperation operand first (Operation.ofToken (word cs)) (afterWord cs)

/-- Reads the arguments of a call, of which there is one at least. -/
def readArguments : Nat → List Char → Option (List Expr × List Char)
  | 0, _ => none
  | fuel + 1, cs => do
      match ← operand cs with
      | (e, ')' :: cs) => return ([e], cs)
      | (e, ',' :: ' ' :: cs) => do
          let (es, cs) ← readArguments fuel cs
          return (e :: es, cs)
      | _ => none

def readAfterWord (fuel : Nat) (w : List Char) : List Char → Option (Expr × List Char)
  | '[' :: cs => do
      let (key, ']' :: cs) ← operand cs | none
      return (index (var (String.ofList w)) key, cs)
  | '(' :: ')' :: cs => return (call (String.ofList w) [], cs)
  | '(' :: cs => do
      let (args, cs) ← readArguments operand fuel cs
      return (call (String.ofList w) args, cs)
  | cs => return (ofWord w, cs)

end

theorem readAfterWord_of_endsExpr {r : List Char} (ends : endsExpr r)
    (operand : List Char → Option (Expr × List Char)) (fuel : Nat) (w : List Char) :
    readAfterWord operand fuel w r = some (ofWord w, r) := by
  unfold readAfterWord
  split
  · cases ends
  · cases ends
  · cases ends
  · rfl

theorem readAfterWord_arguments {c : Char} (notClosing : c ≠ ')')
    (operand : List Char → Option (Expr × List Char)) (fuel : Nat) (w cs : List Char) :
    readAfterWord operand fuel w ('(' :: c :: cs) =
      (readArguments operand fuel (c :: cs)).map fun x => (call (String.ofList w) x.1, x.2) := by
  unfold readAfterWord
  split
  · next eq => cases eq
  · next eq => cases eq; cases notClosing rfl
  · next eq =>
    cases eq
    cases readArguments operand fuel (c :: cs) <;> rfl
  · next eq => cases (eq _ rfl)

/-- Reads an expression off a text, and gives what is left of the text. -/
def read : Nat → List Char → Option (Expr × List Char)
  | 0, _ => none
  | fuel + 1, '(' :: cs => readBracket (read fuel) cs
  | fuel + 1, '!' :: cs => do
      let (e, cs) ← read fuel cs
      return (unary .not e, cs)
  | fuel + 1, '~' :: cs => do
      let (e, cs) ← read fuel cs
      return (unary .complement e, cs)
  | fuel + 1, cs => readAfterWord (read fuel) fuel (word cs) (afterWord cs)

theorem readBracket_of_token {operand : List Char → Option (Expr × List Char)} {first : Expr}
    {cs rest : List Char} {o : Operation} (hf : operand cs = some (first, ' ' :: (o.token ++ rest)))
    (hr : endsWord rest) : readBracket operand cs = readOperation operand first o rest := by
  simp only [readBracket, hf, Option.bind_eq_bind, Option.bind_some, word_append o.isPlain_token hr,
    afterWord_append o.isPlain_token hr, o.ofToken_token]

/-- The expression is read off any text that it is put in front of. -/
def ReadsBack (e : Expr) : Prop := ∀ fuel r, e.text.toList.length < fuel → endsExpr r →
  read fuel (e.text.toList ++ r) = some (e.nameRegisters, r)

theorem read_bracket {first : Expr} (hf : first.ReadsBack) (o : Operation) (rest : List Char)
    (hr : endsWord rest) {fuel : Nat} (enough : first.text.toList.length < fuel) :
    read (fuel + 1) ('(' :: (first.text.toList ++ ' ' :: (o.token ++ rest))) =
      readOperation (read fuel) first.nameRegisters o rest := by
  rw [read]
  exact readBracket_of_token (hf fuel _ enough rfl) hr

theorem read_word {w : List Char} (hw : LeadingWord w) (rest : List Char) (hr : endsWord rest)
    (fuel : Nat) :
    read (fuel + 1) (w ++ rest) = readAfterWord (read fuel) fuel w rest := by
  have before := word_append hw.plain hr
  have after := afterWord_append hw.plain hr
  obtain ⟨c, cs, rfl, notNot, notComplement⟩ := hw.begins
  have notBracket : c ≠ '(' := by
    rintro rfl
    cases hw.plain
  rw [List.cons_append] at before after ⊢
  rw [read, before, after]
  · rintro _ ⟨⟩
    exact notBracket rfl
  · rintro _ ⟨⟩
    exact notNot rfl
  · rintro _ ⟨⟩
    exact notComplement rfl

section
variable {e left right test yes no key : Expr} {name : String}

theorem ReadsBack.of_succ (h : ∀ fuel r, e.text.toList.length ≤ fuel → endsExpr r →
    read (fuel + 1) (e.text.toList ++ r) = some (e.nameRegisters, r)) : e.ReadsBack := by
  intro fuel r enough ends
  cases fuel with
  | zero => exact absurd enough (Nat.not_lt_zero _)
  | succ fuel => exact h fuel r (Nat.le_of_lt_succ enough) ends

/-- An operation on two operands in brackets. -/
theorem readsBack_operation (o : Operation) (build : Expr → Expr → Expr)
    (text : e.text.toList = '(' :: (left.text.toList ++
      ' ' :: (o.token ++ ' ' :: (right.text.toList ++ [')']))))
    (names : e.nameRegisters = build left.nameRegisters right.nameRegisters)
    (reads : ∀ operand first second cs r, operand cs = some (second, ')' :: r) →
      readOperation operand first o (' ' :: cs) = some (build first second, r))
    (hl : left.ReadsBack) (hr : right.ReadsBack) : e.ReadsBack := by
  refine .of_succ fun fuel r enough ends => ?_
  simp only [text, List.length_cons, List.length_append] at enough
  have second := hr fuel (')' :: r) (by omega) rfl
  have whole := read_bracket hl o (' ' :: (right.text.toList ++ ')' :: r)) rfl
    (show _ < fuel by omega)
  rw [reads _ _ _ _ _ second, ← names] at whole
  simpa [text] using whole

theorem readsBack_binary (op : BinaryOp) (hl : left.ReadsBack) (hr : right.ReadsBack) :
    (binary op left right).ReadsBack := by
  have written : (binary op left right).text.toList = '(' :: (left.text.toList ++
      ' ' :: ((Operation.binary op).token ++ ' ' :: (right.text.toList ++ [')']))) := by
    simp [text, Operation.token]
  refine readsBack_operation (.binary op) (binary op) written rfl
    (fun operand first second cs r h => ?_) hl hr
  simp [readOperation, h]

theorem readsBack_logical (op : LogicalOp) (hl : left.ReadsBack) (hr : right.ReadsBack) :
    (logical op left right).ReadsBack := by
  have written : (logical op left right).text.toList = '(' :: (left.text.toList ++
      ' ' :: ((Operation.logical op).token ++ ' ' :: (right.text.toList ++ [')']))) := by
    simp [text, Operation.token]
  refine readsBack_operation (.logical op) (logical op) written rfl
    (fun operand first second cs r h => ?_) hl hr
  simp [readOperation, h]

theorem readsBack_conditional (ht : test.ReadsBack) (hy : yes.ReadsBack) (hn : no.ReadsBack) :
    (conditional test yes no).ReadsBack := by
  have text : (conditional test yes no).text.toList = '(' :: (test.text.toList ++ ' ' :: '?' ::
      ' ' :: (yes.text.toList ++ ' ' :: ':' :: ' ' :: (no.text.toList ++ [')']))) := by
    simp [Expr.text]
  refine .of_succ fun fuel r enough ends => ?_
  simp only [text, List.length_cons, List.length_append] at enough
  have second := hy fuel (' ' :: ':' :: ' ' :: (no.text.toList ++ ')' :: r)) (by omega) rfl
  have third := hn fuel (')' :: r) (by omega) rfl
  have whole := read_bracket ht .conditional
    (' ' :: (yes.text.toList ++ ' ' :: ':' :: ' ' :: (no.text.toList ++ ')' :: r))) rfl
    (show _ < fuel by omega)
  simp only [Operation.token, readOperation, second, third, Option.bind_eq_bind,
    Option.bind_some] at whole
  simpa [text, nameRegisters] using whole

theorem readsBack_unary (op : UnaryOp) (he : e.ReadsBack) : (unary op e).ReadsBack := by
  have text : (unary op e).text.toList = op.symbol.toList ++ e.text.toList := by
    simp [Expr.text]
  refine .of_succ fun fuel r enough ends => ?_
  rw [text] at enough ⊢
  cases op with
  | not | complement =>
    have operand := he fuel r enough ends
    simp [UnaryOp.symbol, read, operand, nameRegisters]

/-- A word on its own. -/
theorem readsBack_word (hw : LeadingWord e.text.toList)
    (he : ofWord e.text.toList = e.nameRegisters) : e.ReadsBack := by
  refine .of_succ fun fuel r _ ends => ?_
  rw [read_word hw r (endsWord_of_endsExpr ends), readAfterWord_of_endsExpr ends, he]

theorem readsBack_index (hn : isName name) (hk : key.ReadsBack) :
    (index (var name) key).ReadsBack := by
  have text : (index (var name) key).text.toList =
      name.toList ++ '[' :: (key.text.toList ++ [']']) := by
    simp [Expr.text]
  refine .of_succ fun fuel r enough ends => ?_
  simp only [text, List.length_cons, List.length_append] at enough
  have inner := hk fuel (']' :: r) (by omega) rfl
  have whole := read_word (leadingWord_name hn) ('[' :: (key.text.toList ++ ']' :: r)) rfl fuel
  simp only [readAfterWord, inner] at whole
  simpa [text, nameRegisters] using whole

theorem readsBack_slot (slot : Slot) : (hole { slot := slot }).ReadsBack := by
  refine readsBack_word ?_ ?_
  · rw [toList_slot]
    exact leadingWord_slot slot
  · rw [toList_slot]
    exact ofWord_slot slot

/-- A hole that is not reduced to a page. -/
theorem readsBack_sum (slot : Slot) (offset : Value) :
    (hole { slot := slot, offset := offset }).ReadsBack := by
  by_cases zero : offset = 0
  · rw [zero]
    exact readsBack_slot slot
  have text := toList_sum slot zero
  refine .of_succ fun fuel r enough ends => ?_
  simp only [text, List.length_cons, List.length_append] at enough
  have whole := read_bracket (readsBack_slot slot) (.offset offset) (')' :: r) rfl
    (show _ < fuel by omega)
  simpa [text, readOperation, nameRegisters, hole?] using whole

theorem readsBack_hole (h : Hole) : (hole h).ReadsBack := by
  obtain ⟨slot, offset, inPage⟩ := h
  cases inPage with
  | false => exact readsBack_sum slot offset
  | true =>
    have text := toList_inPage slot offset
    refine .of_succ fun fuel r enough ends => ?_
    simp only [text, List.length_cons, List.length_append] at enough
    have whole := read_bracket (readsBack_sum slot offset) .inPage
      (' ' :: '0' :: 'x' :: '4' :: '0' :: '0' :: '0' :: ')' :: r) rfl
      (show _ < fuel by omega)
    simpa [text, readOperation, nameRegisters, hole?] using whole

end

/-- A text that begins like an expression: with a word, a bracket or a prefix operator. -/
inductive Begins : List Char → Prop
  | word {w : List Char} (hw : LeadingWord w) (rest : List Char) (ends : endsWord rest) :
      Begins (w ++ rest)
  | bracket (cs : List Char) : Begins ('(' :: cs)
  | prefixed (op : UnaryOp) (cs : List Char) : Begins (op.symbol.toList ++ cs)

theorem begins_text (e : Expr) (he : e.readable) {r : List Char} (ends : endsExpr r) :
    Begins (e.text.toList ++ r) := by
  have ends := endsWord_of_endsExpr ends
  cases e with
  | literal l => exact .word (leadingWord_literal he) r ends
  | var name => exact .word (leadingWord_name he) r ends
  | register reg => exact .word (leadingWord_name (isName_register reg)) r ends
  | hole h =>
    obtain ⟨slot, offset, inPage⟩ := h
    cases inPage with
    | true =>
      rw [toList_inPage]
      exact .bracket _
    | false =>
      by_cases zero : offset = 0
      · rw [zero, toList_slot]
        exact .word (leadingWord_slot slot) r ends
      · rw [toList_sum slot zero]
        exact .bracket _
  | binary op l r' | logical op l r' | conditional t y n =>
    simp only [text, String.toList_append, List.append_assoc]
    exact .bracket _
  | unary op e =>
    simp only [text, String.toList_append, List.append_assoc]
    exact .prefixed op _
  | index t k =>
    cases t with
    | var name =>
      simp only [readable, Bool.and_eq_true] at he
      simp only [text, String.toList_append, List.append_assoc]
      exact .word (leadingWord_name he.1) _ rfl
    | _ => cases he
  | call name args =>
    simp only [readable, Bool.and_eq_true] at he
    simp only [text, String.toList_append, List.append_assoc]
    exact .word (leadingWord_name he.1) _ rfl

namespace Begins

theorem head_ne {cs : List Char} (h : Begins cs) : ∃ c tail, cs = c :: tail ∧ c ≠ ')' := by
  cases h with
  | word hw rest ends =>
    obtain ⟨c, tail, rfl, -⟩ := hw.begins
    refine ⟨c, tail ++ rest, rfl, ?_⟩
    rintro rfl
    cases hw.plain
  | bracket cs => exact ⟨'(', cs, rfl, by decide⟩
  | prefixed op cs =>
    cases op with
    | not => exact ⟨'!', cs, rfl, by decide⟩
    | complement => exact ⟨'~', cs, rfl, by decide⟩

theorem word_ne_keyword {cs : List Char} (h : Begins cs) :
    ∀ keyword ∈ keywords, Text.word cs ≠ keyword.toList := by
  cases h with
  | word hw rest ends =>
    rw [word_append hw.plain ends]
    exact hw.notKeyword
  | bracket cs =>
    change ∀ keyword ∈ keywords, [] ≠ keyword.toList
    decide
  | prefixed op cs =>
    have apart : ∀ keyword ∈ keywords,
        keyword.toList.head? ≠ some '!' ∧ keyword.toList.head? ≠ some '~' := by
      decide
    intro keyword hk same
    cases op with
    | not => exact (apart keyword hk).1 (same ▸ rfl)
    | complement => exact (apart keyword hk).2 (same ▸ rfl)

end Begins

def afterArgument : List Expr → List Char
  | [] => [')']
  | e :: es => ',' :: ' ' :: (e.text.toList ++ afterArgument es)

theorem toList_arguments (e : Expr) (es : List Expr) :
    (", ".intercalate (texts (e :: es))).toList ++ [')'] = e.text.toList ++ afterArgument es := by
  induction es generalizing e with
  | nil => simp [texts, afterArgument]
  | cons e' es ih => simpa [texts, afterArgument] using ih e'

theorem endsExpr_afterArgument (es : List Expr) (r : List Char) :
    endsExpr (afterArgument es ++ r) := by
  cases es <;> rfl

theorem readArguments_append {e : Expr} {es : List Expr} (he : e.ReadsBack)
    (hes : ∀ e' ∈ es, e'.ReadsBack) (fuel count : Nat) (r : List Char)
    (enough : (e.text.toList ++ afterArgument es).length ≤ fuel)
    (countEnough : (e.text.toList ++ afterArgument es).length ≤ count) :
    readArguments (read fuel) count (e.text.toList ++ (afterArgument es ++ r)) =
      some (nameRegistersList (e :: es), r) := by
  induction es generalizing e count with
  | nil =>
    simp only [afterArgument, List.length_append, List.length_singleton] at enough countEnough
    obtain ⟨count, rfl⟩ := Nat.exists_eq_add_of_le' (show 1 ≤ count by omega)
    have first := he fuel (')' :: r) (by omega) rfl
    simp [readArguments, afterArgument, first, nameRegistersList]
  | cons e' es ih =>
    simp only [afterArgument, List.length_append, List.length_cons] at enough countEnough
    obtain ⟨count, rfl⟩ := Nat.exists_eq_add_of_le' (show 1 ≤ count by omega)
    have first := he fuel (afterArgument (e' :: es) ++ r) (by omega)
      (endsExpr_afterArgument (e' :: es) r)
    have others := ih (hes e' List.mem_cons_self)
      (fun other ho => hes other (List.mem_cons_of_mem e' ho)) count
      (by rw [List.length_append]; omega) (by rw [List.length_append]; omega)
    simp only [afterArgument, List.cons_append, List.append_assoc] at first
    simp [readArguments, afterArgument, first, others, nameRegistersList]

theorem readsBack_call {name : String} {args : List Expr} (hn : isName name)
    (readable : readableList args) (hargs : ∀ e ∈ args, e.ReadsBack) :
    (call name args).ReadsBack := by
  refine .of_succ fun fuel r enough ends => ?_
  cases args with
  | nil =>
    have text : (call name []).text.toList = name.toList ++ ['(', ')'] := by
      simp [Expr.text, texts]
    have whole := read_word (leadingWord_name hn) ('(' :: ')' :: r) rfl fuel
    simpa [text, readAfterWord, nameRegisters, nameRegistersList] using whole
  | cons e es =>
    have text : (call name (e :: es)).text.toList =
        name.toList ++ '(' :: (e.text.toList ++ afterArgument es) := by
      rw [← toList_arguments]
      simp [Expr.text]
    simp only [readableList, Bool.and_eq_true] at readable
    rw [text, List.length_append, List.length_cons] at enough
    have others := readArguments_append (hargs e List.mem_cons_self)
      (fun other ho => hargs other (List.mem_cons_of_mem e ho)) fuel fuel r
      (by omega) (by omega)
    have whole := read_word (leadingWord_name hn)
      ('(' :: (e.text.toList ++ (afterArgument es ++ r))) rfl fuel
    obtain ⟨c, tail, first, notClosing⟩ :=
      (begins_text e readable.1 (endsExpr_afterArgument es r)).head_ne
    rw [first] at others whole
    rw [readAfterWord_arguments notClosing, others, ← first] at whole
    simpa [text, nameRegisters] using whole

mutual

/-- Every expression of the readable form is read back from its written form, with registers as
variables. -/
theorem readsBack (e : Expr) (he : e.readable) : e.ReadsBack := by
  cases e with
  | literal l => exact readsBack_word (leadingWord_literal he) (ofWord_literal he)
  | var name => exact readsBack_word (leadingWord_name he) (ofWord_name he)
  | register reg =>
    have name := isName_register reg
    exact readsBack_word (leadingWord_name name) (ofWord_name name)
  | hole h => exact readsBack_hole h
  | binary op l r =>
    simp only [readable, Bool.and_eq_true] at he
    exact readsBack_binary op (readsBack l he.1) (readsBack r he.2)
  | unary op e =>
    simp only [readable] at he
    exact readsBack_unary op (readsBack e he)
  | logical op l r =>
    simp only [readable, Bool.and_eq_true] at he
    exact readsBack_logical op (readsBack l he.1) (readsBack r he.2)
  | conditional t y n =>
    simp only [readable, Bool.and_eq_true] at he
    exact readsBack_conditional (readsBack t he.1.1) (readsBack y he.1.2) (readsBack n he.2)
  | index t k =>
    cases t with
    | var name =>
      simp only [readable, Bool.and_eq_true] at he
      exact readsBack_index he.1 (readsBack k he.2)
    | _ => cases he
  | call name args =>
    simp only [readable, Bool.and_eq_true] at he
    exact readsBack_call he.1 he.2 (readsBackList args he.2)

theorem readsBackList (es : List Expr) (hes : readableList es) : ∀ e ∈ es, e.ReadsBack := by
  cases es with
  | nil => exact List.forall_mem_nil _
  | cons e es =>
    simp only [readableList, Bool.and_eq_true] at hes
    exact List.forall_mem_cons.mpr ⟨readsBack e hes.1, readsBackList es hes.2⟩

end

/-- Reads an expression off a text, however long it is. -/
def readFrom (cs : List Char) : Option (Expr × List Char) := read (cs.length + 1) cs

theorem readFrom_text {e : Expr} (he : e.readable) {r : List Char} (ends : endsExpr r) :
    readFrom (e.text.toList ++ r) = some (e.nameRegisters, r) :=
  readsBack e he _ r (by rw [List.length_append]; omega) ends

end Expr

end Z80Effects
