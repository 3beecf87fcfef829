import Z80Effects.Proofs.WrittenExpressions

/-!
# Reading written programs

The first word of a line tells what kind of statement it begins, and the indentation tells where a
block ends. So a program can be read back from its written form, and two programs that are written
alike differ at most in whether a register is given as a register or as the variable that holds it.
-/
namespace Z80Effects

open Text

namespace Stmt

def isBlock : Stmt → Bool
  | block _ => true
  | _ => false

mutual

/-- All expressions are readable, declared names are names, and branches are blocks. -/
def readable : Stmt → Bool
  | effect e => e.readable
  | assign _ target value => target.readable && value.readable
  | declare name value => isName name && value.readable
  | block body => readableList body
  | ifThen test yes => test.readable && yes.isBlock && yes.readable
  | ifElse test yes no =>
      test.readable && yes.isBlock && yes.readable && no.isBlock && no.readable
  | ret value => value.all Expr.readable

def readableList : List Stmt → Bool
  | [] => true
  | s :: ss => s.readable && readableList ss

end

theorem isBlock_mapLiterals (f : Literal → Literal) (s : Stmt) :
    (s.mapLiterals f).isBlock = s.isBlock := by
  cases s <;> rfl

mutual

theorem readable_annotate (s : Stmt) (hs : s.readable) :
    (s.mapLiterals Literal.annotate).readable := by
  cases s with
  | effect e => exact e.readable_annotate hs
  | assign op target value =>
    simp only [readable, Bool.and_eq_true] at hs
    simp only [mapLiterals, readable, Bool.and_eq_true]
    exact ⟨target.readable_annotate hs.1, value.readable_annotate hs.2⟩
  | declare name value =>
    simp only [readable, Bool.and_eq_true] at hs
    simp only [mapLiterals, readable, Bool.and_eq_true]
    exact ⟨hs.1, value.readable_annotate hs.2⟩
  | block body => exact readableList_annotate body hs
  | ifThen test yes =>
    simp only [readable, Bool.and_eq_true] at hs
    simp only [mapLiterals, readable, isBlock_mapLiterals, Bool.and_eq_true]
    exact ⟨⟨test.readable_annotate hs.1.1, hs.1.2⟩, readable_annotate yes hs.2⟩
  | ifElse test yes no =>
    simp only [readable, Bool.and_eq_true] at hs
    obtain ⟨⟨⟨⟨ht, hyb⟩, hy⟩, hnb⟩, hn⟩ := hs
    simp only [mapLiterals, readable, isBlock_mapLiterals, Bool.and_eq_true]
    exact ⟨⟨⟨⟨test.readable_annotate ht, hyb⟩, readable_annotate yes hy⟩, hnb⟩,
      readable_annotate no hn⟩
  | ret value =>
    cases value with
    | none => rfl
    | some e => exact e.readable_annotate hs

theorem readableList_annotate (ss : List Stmt) (hss : readableList ss) :
    readableList (mapLiteralsList Literal.annotate ss) := by
  cases ss with
  | nil => rfl
  | cons s ss =>
    simp only [readableList, Bool.and_eq_true] at hss
    simp only [mapLiteralsList, readableList, Bool.and_eq_true]
    exact ⟨readable_annotate s hss.1, readableList_annotate ss hss.2⟩

end

mutual

def nameRegisters : Stmt → Stmt
  | effect e => effect e.nameRegisters
  | assign op target value => assign op target.nameRegisters value.nameRegisters
  | declare name value => declare name value.nameRegisters
  | block body => block (nameRegistersList body)
  | ifThen test yes => ifThen test.nameRegisters yes.nameRegisters
  | ifElse test yes no => ifElse test.nameRegisters yes.nameRegisters no.nameRegisters
  | ret value => ret (value.map Expr.nameRegisters)

def nameRegistersList : List Stmt → List Stmt
  | [] => []
  | s :: ss => s.nameRegisters :: nameRegistersList ss

end

mutual

theorem textAt_nameRegisters (s : Stmt) (depth : Nat) :
    s.nameRegisters.textAt depth = s.textAt depth := by
  cases s with
  | effect e => simp only [nameRegisters, textAt, e.text_nameRegisters]
  | assign op target value =>
    simp only [nameRegisters, textAt, target.text_nameRegisters, value.text_nameRegisters]
  | declare name value => simp only [nameRegisters, textAt, value.text_nameRegisters]
  | block body => simp only [nameRegisters, textAt, textsAt_nameRegistersList body]
  | ifThen test yes =>
    simp only [nameRegisters, textAt, test.text_nameRegisters, textAt_nameRegisters yes]
  | ifElse test yes no =>
    simp only [nameRegisters, textAt, test.text_nameRegisters, textAt_nameRegisters yes,
      textAt_nameRegisters no]
  | ret value =>
    cases value with
    | none => rfl
    | some e => simp only [nameRegisters, Option.map_some, textAt, e.text_nameRegisters]

theorem textsAt_nameRegistersList (ss : List Stmt) (depth : Nat) :
    textsAt depth (nameRegistersList ss) = textsAt depth ss := by
  cases ss with
  | nil => rfl
  | cons s ss =>
    simp only [nameRegistersList, textsAt, textAt_nameRegisters s, textsAt_nameRegistersList ss]

end

def assignOps : List AssignOp := [.set, .add, .sub, .and, .or, .xor]

def readExpression (cs : List Char) : Option (Stmt × List Char) := do
  match ← Expr.readFrom cs with
  | (e, ';' :: '\n' :: cs) => return (effect e, cs)
  | (target, ' ' :: cs) => do
      let op ← assignOps.find? (·.symbol.toList == word cs)
      let ' ' :: rest := afterWord cs | none
      let (value, ';' :: '\n' :: rest) ← Expr.readFrom rest | none
      return (assign op target value, rest)
  | _ => none

/-- Reads a statement without a block, from its first word on. -/
def readSimple (cs : List Char) : Option (Stmt × List Char) :=
  if word cs = "var".toList then do
    let ' ' :: cs := afterWord cs | none
    let ' ' :: '=' :: ' ' :: rest := afterWord cs | none
    let (value, ';' :: '\n' :: rest) ← Expr.readFrom rest | none
    return (declare (String.ofList (word cs)) value, rest)
  else if word cs = "return".toList then
    match afterWord cs with
    | ';' :: '\n' :: cs => return (ret none, cs)
    | ' ' :: cs => do
        let (e, ';' :: '\n' :: cs) ← Expr.readFrom cs | none
        return (ret (some e), cs)
    | _ => none
  else readExpression cs

mutual

/-- Reads a statement inside the given number of blocks off a text, and gives what is left of the
text. -/
def readAt : Nat → Nat → List Char → Option (Stmt × List Char)
  | 0, _, _ => none
  | fuel + 1, depth, cs => do
      let cs ← (indentation depth).toList.isPrefixOf? cs
      if word cs = "\x7b".toList then do
        let '\n' :: rest := afterWord cs | none
        let (body, rest) ← readListAt fuel (depth + 1) rest
        let rest ← (line depth "\x7d").toList.isPrefixOf? rest
        return (block body, rest)
      else if word cs = "if".toList then do
        let ' ' :: '(' :: rest := afterWord cs | none
        let (test, ')' :: '\n' :: rest) ← Expr.readFrom rest | none
        let (yes, rest) ← readAt fuel depth rest
        match (line depth "else").toList.isPrefixOf? rest with
        | some rest => do
            let (no, rest) ← readAt fuel depth rest
            return (ifElse test yes no, rest)
        | none => return (ifThen test yes, rest)
      else readSimple cs

/-- Reads statements as long as lines are indented. -/
def readListAt : Nat → Nat → List Char → Option (List Stmt × List Char)
  | 0, _, _ => none
  | fuel + 1, depth, cs =>
      match (indentation depth).toList.isPrefixOf? cs with
      | some (_ :: _) => do
          let (s, cs) ← readAt fuel depth cs
          let (ss, cs) ← readListAt fuel depth cs
          return (s :: ss, cs)
      | _ => return ([], cs)

end

section
variable {e target value : Expr} {name : String} (r : List Char)

theorem readSimple_declare (hn : isName name) (hv : value.readable) :
    readSimple ('v' :: 'a' :: 'r' :: ' ' :: (name.toList ++
      ' ' :: '=' :: ' ' :: (value.text.toList ++ ';' :: '\n' :: r))) =
      some (declare name value.nameRegisters, r) := by
  have keyword (cs : List Char) : word ('v' :: 'a' :: 'r' :: ' ' :: cs) = ['v', 'a', 'r'] := rfl
  have afterKeyword (cs : List Char) : afterWord ('v' :: 'a' :: 'r' :: ' ' :: cs) = ' ' :: cs := rfl
  have declared (cs : List Char) : word (name.toList ++ ' ' :: cs) = name.toList :=
    word_append (isPlain_of_isName hn) rfl
  have afterDeclared (cs : List Char) : afterWord (name.toList ++ ' ' :: cs) = ' ' :: cs :=
    afterWord_append (isPlain_of_isName hn) rfl
  have first := Expr.readFrom_text hv (show endsExpr (';' :: '\n' :: r) from rfl)
  simp [readSimple, keyword, afterKeyword, declared, afterDeclared, first]

theorem readSimple_ret :
    readSimple ('r' :: 'e' :: 't' :: 'u' :: 'r' :: 'n' :: ';' :: '\n' :: r) =
      some (ret none, r) := rfl

theorem readSimple_ret_some (he : e.readable) :
    readSimple ('r' :: 'e' :: 't' :: 'u' :: 'r' :: 'n' :: ' ' ::
      (e.text.toList ++ ';' :: '\n' :: r)) = some (ret (some e.nameRegisters), r) := by
  have keyword (cs : List Char) : word ('r' :: 'e' :: 't' :: 'u' :: 'r' :: 'n' :: ' ' :: cs) =
      ['r', 'e', 't', 'u', 'r', 'n'] := rfl
  have afterKeyword (cs : List Char) :
      afterWord ('r' :: 'e' :: 't' :: 'u' :: 'r' :: 'n' :: ' ' :: cs) = ' ' :: cs := rfl
  have first := Expr.readFrom_text he (show endsExpr (';' :: '\n' :: r) from rfl)
  simp [readSimple, keyword, afterKeyword, first]

theorem readSimple_of_begins {cs : List Char} (h : Expr.Begins cs) :
    readSimple cs = readExpression cs := by
  rw [readSimple, if_neg (h.word_ne_keyword "var" (by decide)),
    if_neg (h.word_ne_keyword "return" (by decide))]

theorem readExpression_effect (he : e.readable) :
    readExpression (e.text.toList ++ ';' :: '\n' :: r) = some (effect e.nameRegisters, r) := by
  have first := Expr.readFrom_text he (show endsExpr (';' :: '\n' :: r) from rfl)
  simp [readExpression, first]

theorem readExpression_assign (op : AssignOp) (ht : target.readable) (hv : value.readable) :
    readExpression (target.text.toList ++ ' ' :: (op.symbol.toList ++
      ' ' :: (value.text.toList ++ ';' :: '\n' :: r))) =
      some (assign op target.nameRegisters value.nameRegisters, r) := by
  have plain : isPlain op.symbol.toList := by
    cases op <;> rfl
  have found : assignOps.find? (·.symbol.toList == op.symbol.toList) = some op := by
    cases op <;> rfl
  have operator (cs : List Char) : word (op.symbol.toList ++ ' ' :: cs) = op.symbol.toList :=
    word_append plain rfl
  have afterOperator (cs : List Char) : afterWord (op.symbol.toList ++ ' ' :: cs) = ' ' :: cs :=
    afterWord_append plain rfl
  have first (cs : List Char) := Expr.readFrom_text ht (show endsExpr (' ' :: cs) from rfl)
  have second := Expr.readFrom_text hv (show endsExpr (';' :: '\n' :: r) from rfl)
  simp only [readExpression, first, second, operator, afterOperator, found, Option.bind_eq_bind,
    Option.bind_some]
  rfl

end

/-- No line with `else` follows at the depth. -/
def NoElse (depth : Nat) (r : List Char) : Prop :=
  (line depth "else").toList.isPrefixOf? r = none

theorem NoElse.eq {depth : Nat} {r : List Char} (h : NoElse depth r) :
    (line depth "else").toList.isPrefixOf? r = none := h

/-- The text ends, or goes on with a line that is less indented. -/
def EndsList (depth : Nat) (r : List Char) : Prop :=
  r = [] ∨ ∃ outer < depth, ∃ cs, r = (line outer "\x7d").toList ++ cs

theorem toList_line (depth : Nat) (content : String) : (line depth content).toList =
    (indentation depth).toList ++ (content.toList ++ ['\n']) := by
  simp [line]

theorem isPrefixOf?_append (xs r : List Char) : xs.isPrefixOf? (xs ++ r) = some r :=
  List.isPrefixOf?_eq_some_iff_append_eq.mpr rfl

/-- A line that is less indented does not go on at the depth. -/
theorem isPrefixOf?_of_endsList {depth : Nat} {r : List Char} (h : EndsList depth r) (c : Char)
    (cs : List Char) : (indentation depth).toList.isPrefixOf? r ≠ some (c :: cs) := by
  intro found
  have same := List.isPrefixOf?_eq_some_iff_append_eq.mp found
  rcases h with rfl | ⟨outer, less, tail, rfl⟩
  · simp at same
  · have deeper : 2 * depth = 2 * outer + (2 * (depth - outer) - 1 + 1) := by omega
    rw [toList_line, indentation, indentation, String.toList_ofList, String.toList_ofList, deeper,
      List.replicate_add, List.append_assoc, List.append_assoc, List.append_cancel_left_eq,
      List.replicate_succ] at same
    cases same

theorem noElse_of_endsList {depth : Nat} {r : List Char} (h : EndsList depth r) :
    NoElse depth r := by
  rw [NoElse, Option.eq_none_iff_forall_ne_some]
  intro rest found
  have same := List.isPrefixOf?_eq_some_iff_append_eq.mp found
  rw [toList_line, List.append_assoc] at same
  exact isPrefixOf?_of_endsList h _ _ (List.isPrefixOf?_eq_some_iff_append_eq.mpr same)

theorem noElse_indented {depth : Nat} {cs : List Char} (h : word cs ≠ "else".toList) :
    NoElse depth ((indentation depth).toList ++ cs) := by
  rw [NoElse, Option.eq_none_iff_forall_ne_some]
  intro rest found
  have same := List.isPrefixOf?_eq_some_iff_append_eq.mp found
  rw [toList_line, List.append_assoc, List.append_cancel_left_eq] at same
  rw [← same] at h
  exact h rfl

/-- The written form of a statement from its first word on, and what follows it. -/
def content (depth : Nat) (r : List Char) : Stmt → List Char
  | effect e => e.text.toList ++ ';' :: '\n' :: r
  | assign op target value => target.text.toList ++ ' ' :: (op.symbol.toList ++
      ' ' :: (value.text.toList ++ ';' :: '\n' :: r))
  | declare name value => 'v' :: 'a' :: 'r' :: ' ' :: (name.toList ++
      ' ' :: '=' :: ' ' :: (value.text.toList ++ ';' :: '\n' :: r))
  | block body => '\x7b' :: '\n' :: ((textsAt (depth + 1) body).toList ++
      ((line depth "\x7d").toList ++ r))
  | ifThen test yes => 'i' :: 'f' :: ' ' :: '(' :: (test.text.toList ++
      ')' :: '\n' :: ((yes.textAt depth).toList ++ r))
  | ifElse test yes no => 'i' :: 'f' :: ' ' :: '(' :: (test.text.toList ++
      ')' :: '\n' :: ((yes.textAt depth).toList ++ ((line depth "else").toList ++
        ((no.textAt depth).toList ++ r))))
  | ret none => 'r' :: 'e' :: 't' :: 'u' :: 'r' :: 'n' :: ';' :: '\n' :: r
  | ret (some e) => 'r' :: 'e' :: 't' :: 'u' :: 'r' :: 'n' :: ' ' ::
      (e.text.toList ++ ';' :: '\n' :: r)

theorem toList_textAt (s : Stmt) (depth : Nat) (r : List Char) :
    (s.textAt depth).toList ++ r = (indentation depth).toList ++ s.content depth r := by
  cases s with
  | ret value => cases value <;> simp [textAt, content, toList_line]
  | _ => simp [textAt, content, toList_line]

theorem length_textAt (s : Stmt) (depth : Nat) :
    (s.content depth []).length ≤ (s.textAt depth).toList.length := by
  have text := congrArg List.length (s.toList_textAt depth [])
  rw [List.append_nil, List.length_append] at text
  rw [text]
  exact Nat.le_add_left _ _

/-- No statement begins with `else`. -/
theorem word_content (s : Stmt) (hs : s.readable) (depth : Nat) (r : List Char) :
    s.content depth r ≠ [] ∧ word (s.content depth r) ≠ "else".toList := by
  have expression {cs : List Char} (h : Expr.Begins cs) : cs ≠ [] ∧ word cs ≠ "else".toList := by
    obtain ⟨c, tail, rfl, -⟩ := h.head_ne
    exact ⟨List.cons_ne_nil c tail, h.word_ne_keyword _ (by decide)⟩
  cases s with
  | effect e => exact expression (e.begins_text hs rfl)
  | assign op target value =>
    simp only [readable, Bool.and_eq_true] at hs
    exact expression (target.begins_text hs.1 rfl)
  | declare => exact ⟨List.cons_ne_nil _ _, show "var".toList ≠ _ by decide⟩
  | block => exact ⟨List.cons_ne_nil _ _, show "\x7b".toList ≠ _ by decide⟩
  | ifThen | ifElse => exact ⟨List.cons_ne_nil _ _, show "if".toList ≠ _ by decide⟩
  | ret value =>
    cases value <;> exact ⟨List.cons_ne_nil _ _, show "return".toList ≠ _ by decide⟩

/-- The statement is read off any text that it is put in front of, other than an `else`. -/
def ReadsBack (s : Stmt) : Prop := ∀ fuel depth r, (s.textAt depth).toList.length < fuel →
  (s.isBlock ∨ NoElse depth r) →
  readAt fuel depth ((s.textAt depth).toList ++ r) = some (s.nameRegisters, r)

/-- The statements are read off any text that they are put in front of, in which the depth ends. -/
def AllReadBack (ss : List Stmt) : Prop := ∀ fuel depth r,
  (textsAt depth ss).toList.length + 1 < fuel → EndsList depth r →
  readListAt fuel depth ((textsAt depth ss).toList ++ r) = some (nameRegistersList ss, r)

theorem ReadsBack.of_content {s : Stmt} (h : ∀ fuel depth r, (s.content depth []).length ≤ fuel →
    (s.isBlock ∨ NoElse depth r) →
    readAt (fuel + 1) depth ((indentation depth).toList ++ s.content depth r) =
      some (s.nameRegisters, r)) : s.ReadsBack := by
  intro fuel depth r enough ends
  cases fuel with
  | zero => exact absurd enough (Nat.not_lt_zero _)
  | succ fuel =>
    rw [toList_textAt]
    exact h fuel depth r (Nat.le_trans (s.length_textAt depth) (Nat.le_of_lt_succ enough)) ends

/-- A statement without a block. -/
theorem readsBack_simple {s : Stmt} (notBlock : ∀ depth r, word (s.content depth r) ≠ "\x7b".toList)
    (notIf : ∀ depth r, word (s.content depth r) ≠ "if".toList)
    (reads : ∀ depth r, readSimple (s.content depth r) = some (s.nameRegisters, r)) :
    s.ReadsBack := by
  refine .of_content fun fuel depth r _ _ => ?_
  rw [readAt, isPrefixOf?_append, Option.bind_eq_bind, Option.bind_some,
    if_neg (notBlock depth r), if_neg (notIf depth r), reads]

theorem readsBack_declare {name : String} {value : Expr} (hn : isName name) (hv : value.readable) :
    (declare name value).ReadsBack :=
  readsBack_simple (fun _ _ => show "var".toList ≠ _ by decide)
    (fun _ _ => show "var".toList ≠ _ by decide) (fun _ r => readSimple_declare r hn hv)

theorem readsBack_ret {value : Option Expr} (hv : value.all Expr.readable) :
    (ret value).ReadsBack := by
  cases value with
  | none =>
    exact readsBack_simple (fun _ _ => show "return".toList ≠ _ by decide)
      (fun _ _ => show "return".toList ≠ _ by decide) (fun _ r => readSimple_ret r)
  | some e =>
    exact readsBack_simple (fun _ _ => show "return".toList ≠ _ by decide)
      (fun _ _ => show "return".toList ≠ _ by decide) (fun _ r => readSimple_ret_some r hv)

/-- A statement that begins with an expression. -/
theorem readsBack_expression {s : Stmt} (begins : ∀ depth r, Expr.Begins (s.content depth r))
    (reads : ∀ depth r, readExpression (s.content depth r) = some (s.nameRegisters, r)) :
    s.ReadsBack := by
  refine readsBack_simple (fun depth r => (begins depth r).word_ne_keyword _ (by decide))
    (fun depth r => (begins depth r).word_ne_keyword _ (by decide)) (fun depth r => ?_)
  rw [readSimple_of_begins (begins depth r)]
  exact reads depth r

theorem readsBack_effect {e : Expr} (he : e.readable) : (effect e).ReadsBack :=
  readsBack_expression (fun _ _ => e.begins_text he rfl) fun _ r => readExpression_effect r he

theorem readsBack_assign (op : AssignOp) {target value : Expr} (ht : target.readable)
    (hv : value.readable) : (assign op target value).ReadsBack :=
  readsBack_expression (fun _ _ => target.begins_text ht rfl) fun _ r =>
    readExpression_assign r op ht hv

theorem readsBack_block {body : List Stmt} (hb : AllReadBack body) : (block body).ReadsBack := by
  refine .of_content fun fuel depth r enough _ => ?_
  have keyword (cs : List Char) : word ('\x7b' :: '\n' :: cs) = ['\x7b'] := rfl
  have afterKeyword (cs : List Char) : afterWord ('\x7b' :: '\n' :: cs) = '\n' :: cs := rfl
  simp only [content, List.length_append, List.length_cons] at enough
  have inner := hb fuel (depth + 1) ((line depth "\x7d").toList ++ r) (by omega)
    (.inr ⟨depth, by omega, r, rfl⟩)
  rw [readAt, isPrefixOf?_append]
  simp [content, keyword, afterKeyword, inner, isPrefixOf?_append, nameRegisters]

/-- A conditional statement after its first line. -/
theorem readAt_if {test : Expr} (ht : test.readable) (fuel depth : Nat) (r : List Char) :
    readAt (fuel + 1) depth ((indentation depth).toList ++
      'i' :: 'f' :: ' ' :: '(' :: (test.text.toList ++ ')' :: '\n' :: r)) = (do
        let (yes, rest) ← readAt fuel depth r
        match (line depth "else").toList.isPrefixOf? rest with
        | some rest => do
            let (no, rest) ← readAt fuel depth rest
            return (ifElse test.nameRegisters yes no, rest)
        | none => return (ifThen test.nameRegisters yes, rest)) := by
  have keyword (cs : List Char) : word ('i' :: 'f' :: ' ' :: cs) = ['i', 'f'] := rfl
  have afterKeyword (cs : List Char) : afterWord ('i' :: 'f' :: ' ' :: cs) = ' ' :: cs := rfl
  have first := Expr.readFrom_text ht (show endsExpr (')' :: '\n' :: r) from rfl)
  rw [readAt, isPrefixOf?_append]
  simp [keyword, afterKeyword, first]

theorem readsBack_ifThen {test : Expr} {yes : Stmt} (ht : test.readable) (hb : yes.isBlock)
    (hy : yes.ReadsBack) : (ifThen test yes).ReadsBack := by
  refine .of_content fun fuel depth r enough ends => ?_
  have noElse : NoElse depth r := ends.resolve_left Bool.false_ne_true
  simp only [content, List.length_append, List.length_cons] at enough
  have branch := hy fuel depth r (by omega) (.inl hb)
  rw [content, readAt_if ht]
  simp [branch, noElse.eq, nameRegisters]

theorem readsBack_ifElse {test : Expr} {yes no : Stmt} (ht : test.readable) (hyb : yes.isBlock)
    (hy : yes.ReadsBack) (hnb : no.isBlock) (hn : no.ReadsBack) :
    (ifElse test yes no).ReadsBack := by
  refine .of_content fun fuel depth r enough _ => ?_
  simp only [content, List.length_append, List.length_cons] at enough
  have second := hn fuel depth r (by omega) (.inl hnb)
  have first := hy fuel depth ((line depth "else").toList ++ ((no.textAt depth).toList ++ r))
    (by omega) (.inl hyb)
  rw [content, readAt_if ht]
  simp [first, second, isPrefixOf?_append, nameRegisters]

theorem noElse_textsAt {ss : List Stmt} (hss : readableList ss) {depth : Nat} {r : List Char}
    (ends : EndsList depth r) : NoElse depth ((textsAt depth ss).toList ++ r) := by
  cases ss with
  | nil => exact noElse_of_endsList ends
  | cons s ss =>
    simp only [readableList, Bool.and_eq_true] at hss
    rw [textsAt, String.toList_append, List.append_assoc, toList_textAt]
    exact noElse_indented (s.word_content hss.1 depth _).2

theorem allReadBack_nil : AllReadBack [] := by
  intro fuel depth r enough ends
  cases fuel with
  | zero => exact absurd enough (Nat.not_lt_zero _)
  | succ fuel =>
    have stops := isPrefixOf?_of_endsList ends
    rw [textsAt, String.toList_empty, List.nil_append, readListAt]
    split
    · next c cs found => exact absurd found (stops c cs)
    · rfl

theorem allReadBack_cons {s : Stmt} {ss : List Stmt} (readable : readableList (s :: ss))
    (hs : s.ReadsBack) (hss : AllReadBack ss) : AllReadBack (s :: ss) := by
  intro fuel depth r enough ends
  simp only [readableList, Bool.and_eq_true] at readable
  cases fuel with
  | zero => exact absurd enough (Nat.not_lt_zero _)
  | succ fuel =>
    rw [textsAt, String.toList_append, List.length_append] at enough
    have nonempty := List.length_pos_of_ne_nil (s.word_content readable.1 depth []).1
    have written := s.length_textAt depth
    have first := hs fuel depth ((textsAt depth ss).toList ++ r) (by omega)
      (.inr (noElse_textsAt readable.2 ends))
    have others := hss fuel depth r (by omega) ends
    have text := s.toList_textAt depth ((textsAt depth ss).toList ++ r)
    obtain ⟨c, cs, more⟩ := List.exists_cons_of_ne_nil
      (s.word_content readable.1 depth ((textsAt depth ss).toList ++ r)).1
    have indented : (indentation depth).toList.isPrefixOf?
        ((s.textAt depth).toList ++ ((textsAt depth ss).toList ++ r)) = some (c :: cs) := by
      rw [text, more, isPrefixOf?_append]
    rw [textsAt, String.toList_append, List.append_assoc, readListAt]
    simp [indented, first, others, nameRegistersList]

mutual

theorem readsBack (s : Stmt) (hs : s.readable) : s.ReadsBack := by
  cases s with
  | effect e => exact readsBack_effect hs
  | assign op target value =>
    simp only [readable, Bool.and_eq_true] at hs
    exact readsBack_assign op hs.1 hs.2
  | declare name value =>
    simp only [readable, Bool.and_eq_true] at hs
    exact readsBack_declare hs.1 hs.2
  | block body => exact readsBack_block (allReadBack body hs)
  | ifThen test yes =>
    simp only [readable, Bool.and_eq_true] at hs
    exact readsBack_ifThen hs.1.1 hs.1.2 (readsBack yes hs.2)
  | ifElse test yes no =>
    simp only [readable, Bool.and_eq_true] at hs
    exact readsBack_ifElse hs.1.1.1.1 hs.1.1.1.2 (readsBack yes hs.1.1.2) hs.1.2
      (readsBack no hs.2)
  | ret value => exact readsBack_ret hs

theorem allReadBack (ss : List Stmt) (hss : readableList ss) : AllReadBack ss := by
  cases ss with
  | nil => exact allReadBack_nil
  | cons s ss =>
    have parts := hss
    simp only [readableList, Bool.and_eq_true] at parts
    exact allReadBack_cons hss (readsBack s parts.1) (allReadBack ss parts.2)

end

end Stmt

namespace Program

/-- The program has the shape that effects have, with the notes of `annotate` or none. -/
def readable (p : Program) : Bool := Stmt.readableList p

theorem readable_annotate {p : Program} (hp : p.readable) : p.annotate.readable := by
  rw [annotate, mapLiterals, ← Stmt.mapLiteralsList_eq_map]
  exact Stmt.readableList_annotate p hp

/-- The program with each register as the variable that holds it. -/
def nameRegisters (p : Program) : Program := Stmt.nameRegistersList p

def read (text : String) : Option Program :=
  (Stmt.readListAt (text.toList.length + 2) 0 text.toList).map (·.1)

theorem text_nameRegisters (p : Program) : p.nameRegisters.text = p.text :=
  Stmt.textsAt_nameRegistersList p 0

/-- A readable program is read back from its written form, with registers as variables. -/
theorem read_text {p : Program} (hp : p.readable) : read p.text = some p.nameRegisters := by
  have whole :=
    Stmt.allReadBack p hp (p.text.toList.length + 2) 0 [] (Nat.lt_succ_self _) (.inl rfl)
  rw [List.append_nil] at whole
  exact congrArg (Option.map (·.1)) whole

/-- Readable programs are written alike exactly if they are equal once registers are given as
variables. -/
theorem text_eq_iff {p q : Program} (hp : p.readable) (hq : q.readable) :
    p.text = q.text ↔ p.nameRegisters = q.nameRegisters := by
  constructor
  · intro same
    have read := congrArg read same
    rwa [read_text hp, read_text hq, Option.some.injEq] at read
  · intro same
    rw [← p.text_nameRegisters, same, q.text_nameRegisters]

/-- Counting down a register and counting down its variable are written alike, also with notes. -/
theorem text_eq_iff_countDown :
    let countDown (counter : Expr) : Program :=
      annotate [.whenever (.exceeds counter 0x40) [.assign .sub counter 1]]
    (countDown (.register .b)).readable ∧ (countDown (.var "b")).readable ∧
      (countDown (.register .b)).text = (countDown (.var "b")).text := by
  intro countDown
  have register : (countDown (.register .b)).readable := readable_annotate (by decide)
  have named : (countDown (.var "b")).readable := readable_annotate (by decide)
  exact ⟨register, named, (text_eq_iff register named).mpr rfl⟩

/-- An operand with an offset is not taken for a sum. -/
example : text [.effect (.hole { slot := .value, offset := 1 })] ≠
    text [.effect (.hole { slot := .value } + 1)] := by
  decide

end Program

end Z80Effects
