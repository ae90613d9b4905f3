import Lox.Expr
import Mathlib.Data.List.TakeWhile

/-!
What is printed of a tree, by itself.

* `Printed`: an atom, or a head and one operand or two in parentheses.
* `Printed.text p`: its text.
* `Printed.Plain p`: its atoms and heads are words without a space or a parenthesis.
* `Expr.printed e`: what is printed of an expression.

The text of a plain tree ends where its parentheses are closed, or at the first space or parenthesis behind an atom. So no
two have the same text, whatever stands behind them (`Printed.eq_of_append_eq`).
-/

namespace Lox

/-! ## Words -/

/-- The character is a space or a parenthesis. -/
def isDelimiter (c : Char) : Bool := c = ' ' || c = '(' || c = ')'

/-- The word has characters, and none of them is a delimiter. -/
def Word (word : String) : Prop := word ≠ "" ∧ ∀ c ∈ word.toList, isDelimiter c = false

/-- The text is empty, or starts with a delimiter. -/
def Delimited (text : List Char) : Prop := ∀ c, text.head? = some c → isDelimiter c = true

/-- A class of characters that has no delimiters. -/
theorem isDelimiter_eq_false {p : Char → Bool} (hp : ([' ', '(', ')'].all fun d => !p d) = true) {c : Char}
    (h : p c = true) : isDelimiter c = false := by
  refine Bool.eq_false_iff.2 fun hdelimiter => ?_
  have hmem : c ∈ [' ', '(', ')'] := by simpa [isDelimiter, or_assoc] using hdelimiter
  have hnot := List.all_eq_true.1 hp c hmem
  simp [h] at hnot

theorem delimited_cons {c : Char} (h : isDelimiter c = true) (rest : List Char) : Delimited (c :: rest) := by
  rintro d ⟨⟩
  exact h

/-- A word is what stands in front of the first delimiter. -/
theorem Word.takeWhile_append {word : String} (h : Word word) {rest : List Char} (hrest : Delimited rest) :
    (word.toList ++ rest).takeWhile (fun c => !isDelimiter c) = word.toList := by
  have hword : ∀ c ∈ word.toList, (!isDelimiter c) = true := fun c hc => by rw [h.2 c hc]; rfl
  have hnone : rest.takeWhile (fun c => !isDelimiter c) = [] := by
    cases rest with
    | nil => rfl
    | cons c rest => simp [hrest c rfl]
  rw [List.takeWhile_append_of_pos hword, hnone, List.append_nil]

theorem Word.eq_of_append_eq {word word' : String} (h : Word word) (h' : Word word') {rest rest' : List Char}
    (hrest : Delimited rest) (hrest' : Delimited rest') (heq : word.toList ++ rest = word'.toList ++ rest') :
    word = word' ∧ rest = rest' := by
  have hword : word.toList = word'.toList := by rw [← h.takeWhile_append hrest, heq, h'.takeWhile_append hrest']
  rw [hword] at heq
  exact ⟨String.toList_inj.1 hword, List.append_cancel_left heq⟩

/-- A word does not start with a parenthesis. -/
theorem Word.append_ne {word : String} (h : Word word) (rest tail : List Char) : word.toList ++ rest ≠ '(' :: tail := by
  intro heq
  cases hword : word.toList with
  | nil => exact h.1 (String.toList_eq_nil_iff.1 hword)
  | cons c cs =>
    rw [hword] at heq
    obtain ⟨rfl, -⟩ := List.cons.inj heq
    have hdelimiter := h.2 '(' (hword ▸ List.mem_cons_self)
    exact absurd hdelimiter (by decide)

/-! ## Trees -/

/-- What is printed of a tree. -/
inductive Printed where
  | atom (word : String)
  | one (head : String) (operand : Printed)
  | two (head : String) (left right : Printed)

namespace Printed

/-- the text that is printed -/
def text : Printed → List Char
  | atom word => word.toList
  | one head operand => '(' :: (head.toList ++ ' ' :: (operand.text ++ [')']))
  | two head left right => '(' :: (head.toList ++ ' ' :: (left.text ++ ' ' :: (right.text ++ [')'])))

/-- All atoms and heads are words. -/
def Plain : Printed → Prop
  | atom word => Word word
  | one head operand => Word head ∧ operand.Plain
  | two head left right => Word head ∧ left.Plain ∧ right.Plain

theorem text_one_append (head : String) (operand : Printed) (rest : List Char) :
    (one head operand).text ++ rest = '(' :: (head.toList ++ ' ' :: (operand.text ++ ')' :: rest)) := by simp [text]

theorem text_two_append (head : String) (left right : Printed) (rest : List Char) : (two head left right).text ++ rest =
    '(' :: (head.toList ++ ' ' :: (left.text ++ ' ' :: (right.text ++ ')' :: rest))) := by simp [text]

/-- What is printed of plain trees is the same, together with what stands behind it, for equal trees only. -/
theorem eq_of_append_eq {x y : Printed} (hx : x.Plain) (hy : y.Plain) {rest rest' : List Char} (hrest : Delimited rest)
    (hrest' : Delimited rest') (h : x.text ++ rest = y.text ++ rest') : x = y ∧ rest = rest' := by
  have hspace : ∀ tail, Delimited (' ' :: tail) := delimited_cons (by decide)
  have hclosing : ∀ tail, Delimited (')' :: tail) := delimited_cons (by decide)
  induction x generalizing y rest rest' with
  | atom word =>
    cases y with
    | atom word' =>
      obtain ⟨rfl, hrests⟩ := Word.eq_of_append_eq hx hy hrest hrest' h
      exact ⟨rfl, hrests⟩
    | one | two => exact absurd h (Word.append_ne hx _ _)
  | one head operand ih =>
    cases y with
    | atom word => exact absurd h.symm (Word.append_ne hy _ _)
    | one head' operand' =>
      rw [text_one_append, text_one_append] at h
      obtain ⟨rfl, hbehind⟩ := Word.eq_of_append_eq hx.1 hy.1 (hspace _) (hspace _) (List.cons.inj h).2
      obtain ⟨rfl, hrests⟩ := ih hx.2 hy.2 (hclosing _) (hclosing _) (List.cons.inj hbehind).2
      exact ⟨rfl, (List.cons.inj hrests).2⟩
    | two head' left right =>
      rw [text_one_append, text_two_append] at h
      obtain ⟨-, hbehind⟩ := Word.eq_of_append_eq hx.1 hy.1 (hspace _) (hspace _) (List.cons.inj h).2
      -- the operand is followed by the closing parenthesis, the left one by a space
      obtain ⟨-, hrests⟩ := ih hx.2 hy.2.1 (hclosing _) (hspace _) (List.cons.inj hbehind).2
      exact absurd (List.cons.inj hrests).1 (by decide)
  | two head left right ihleft ihright =>
    cases y with
    | atom word => exact absurd h.symm (Word.append_ne hy _ _)
    | one head' operand =>
      rw [text_two_append, text_one_append] at h
      obtain ⟨-, hbehind⟩ := Word.eq_of_append_eq hx.1 hy.1 (hspace _) (hspace _) (List.cons.inj h).2
      obtain ⟨-, hrests⟩ := ihleft hx.2.1 hy.2 (hspace _) (hclosing _) (List.cons.inj hbehind).2
      exact absurd (List.cons.inj hrests).1 (by decide)
    | two head' left' right' =>
      rw [text_two_append, text_two_append] at h
      obtain ⟨rfl, hbehind⟩ := Word.eq_of_append_eq hx.1 hy.1 (hspace _) (hspace _) (List.cons.inj h).2
      obtain ⟨rfl, hsecond⟩ := ihleft hx.2.1 hy.2.1 (hspace _) (hspace _) (List.cons.inj hbehind).2
      obtain ⟨rfl, hrests⟩ := ihright hx.2.2 hy.2.2 (hclosing _) (hclosing _) (List.cons.inj hsecond).2
      exact ⟨rfl, (List.cons.inj hrests).2⟩

end Printed

/-! ## Expressions -/

/-- what is printed of an expression -/
def Expr.printed : Expr → Printed
  | literal value => .atom value.display
  | reference name => .atom name.lexeme
  | assign name value => .two "=" (.atom name.lexeme) value.printed
  | unary operator operand => .one operator.lexeme operand.printed
  | binary left operator right | logical left operator right => .two operator.lexeme left.printed right.printed
  | group inner => .one "group" inner.printed

theorem Expr.toList_parenthesized (e : Expr) : e.parenthesized.toList = e.printed.text := by
  induction e with
  | literal value => rfl
  | reference name => rfl
  | assign name value ih => simp [parenthesized, parenthesize, printed, Printed.text, ih]
  | unary operator operand ih => simp [parenthesized, parenthesize, printed, Printed.text, ih]
  | binary left operator right ihleft ihright =>
    simp [parenthesized, parenthesize, printed, Printed.text, ihleft, ihright]
  | logical left operator right ihleft ihright =>
    simp [parenthesized, parenthesize, printed, Printed.text, ihleft, ihright]
  | group inner ih => simp [parenthesized, parenthesize, printed, Printed.text, ih]

/-- Expressions that are printed plainly have the same text only if the same is printed of them. -/
theorem Expr.printed_eq {e e' : Expr} (he : e.printed.Plain) (he' : e'.printed.Plain)
    (h : e.parenthesized = e'.parenthesized) : e.printed = e'.printed := by
  have hend : Delimited [] := fun c hc => by cases hc
  have htext : e.printed.text ++ [] = e'.printed.text ++ [] := by
    rw [← e.toList_parenthesized, ← e'.toList_parenthesized, h]
  exact (Printed.eq_of_append_eq he he' hend hend htext).1

end Lox
