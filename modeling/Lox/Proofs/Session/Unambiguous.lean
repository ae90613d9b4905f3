import Lox.Proofs.Expr.Printed
import Lox.Proofs.Number.Denoted
import Lox.Proofs.Session.Layout
import Lox.Proofs.Session.NumberText

/-!
Printed expressions are unambiguous.

* `Token.Legible t`: the token is no string, and no number that is rounded to infinity.
* `Value.Legible v`, `Expr.Legible e`: the values of such literals, and trees of such tokens with operators of their kinds.
* `Value.decode text`: the value that is printed so.

What is printed of a legible tree is plain, so its text gives back the heads and their operands (`Expr.printed_eq`). A
head is a lexeme or one of two marks, and a lexeme belongs to tokens of one kind; what stands by itself is a name if it
is spelled as one, and is decoded as a value else.
-/

namespace Lox

open Binary64

/-! ## Literals -/

/-- The token is no string, and no number that is rounded to infinity. -/
def Token.Legible (t : Token) : Prop :=
  t.kind ≠ .string ∧ ∀ x, t.literal = some (.number x) → magnitude x ≠ infinity

/-- The value is that of a legible literal: no string, and no number but finite ones that are not negative. -/
inductive Value.Legible : Value → Prop
  | nil : Legible .nil
  | boolean (b : Bool) : Legible (.boolean b)
  | number {x : Float} : negative x = false → magnitude x < infinity → Legible (.number x)

/-- A spelled identifier is a word that is not reserved. -/
theorem Token.Spelled.word_of_identifier {t : Token} (h : t.Spelled) (hkind : t.kind = .identifier) :
    TokenKind.ofWord t.lexeme = .identifier ∧ Rule.Matches .word t.lexeme.toList := by
  rcases h.cases with hmem | ⟨hnumber, -⟩ | hstring | ⟨hword, hmatches⟩
  · have hall : ∀ pair ∈ operators, pair.2 ≠ .identifier := by decide
    exact absurd hkind (hall _ hmem)
  · rw [hkind] at hnumber
    cases hnumber
  · rw [hkind] at hstring
    cases hstring
  · exact ⟨hword.symm.trans hkind, hmatches⟩

/-- The lexeme of a spelled token is a word, if it is no string and no parenthesis. -/
theorem Token.Spelled.word_lexeme {t : Token} (h : t.Spelled)
    (hkind : t.kind ∉ [.leftParen, .rightParen, .string]) : Word t.lexeme := by
  refine ⟨fun hnil => ?_, ?_⟩
  · obtain ⟨r, line, hmatches, -⟩ := h
    obtain ⟨c, cs, hcs, -⟩ := hmatches.of?_head
    rw [hnil] at hcs
    cases hcs
  rcases h.cases with hmem | ⟨-, hmatches, -⟩ | hstring | ⟨-, hmatches⟩
  · have hall : ∀ pair ∈ operators, pair.2 ∉ [.leftParen, .rightParen, .string] →
        (pair.1.all fun c => !isDelimiter c) = true := by decide
    exact fun c hc => by simpa using List.all_eq_true.1 (hall _ hmem hkind) c hc
  · exact fun c hc => isDelimiter_eq_false (by decide) ((Number.ne_exponent_of_matches hmatches).1.2 c hc)
  · rw [hstring] at hkind
    exact absurd hkind (by decide)
  · generalize t.lexeme.toList = text at hmatches ⊢
    cases hmatches with
    | word hstart hpart =>
      refine List.forall_mem_cons.2 ⟨isDelimiter_eq_false (by decide) hstart, fun c hc => ?_⟩
      exact isDelimiter_eq_false (by decide) (hpart c hc)

/-- A spelled number has the value of a numeral. -/
theorem Token.Spelled.literal_of_number {t : Token} (h : t.Spelled) (hkind : t.kind = .number) :
    ∃ text, t.literal = some (.number (Numeral.value text)) := by
  rcases h.cases with hmem | ⟨-, -, hliteral⟩ | hstring | ⟨hword, -⟩
  · have hall : ∀ pair ∈ operators, pair.2 ≠ .number := by decide
    exact absurd hkind (hall _ hmem)
  · exact ⟨_, hliteral⟩
  · rw [hkind] at hstring
    cases hstring
  · have hall : ∀ kind ∈ TokenKind.identifier :: TokenKind.reserved.map Prod.snd, kind ≠ .number := by decide
    exact absurd (hword.symm.trans hkind) (hall _ (TokenKind.ofWord_mem _))

theorem Value.legible_of_constant? {t : Token} (hspelled : t.Spelled) (ht : t.Legible) {value : Value}
    (h : t.constant? = some value) : value.Legible := by
  unfold Token.constant? at h
  split at h
  · cases h
    exact .boolean false
  · cases h
    exact .boolean true
  · cases h
    exact .nil
  · rename_i hkind
    obtain ⟨text, hliteral⟩ := hspelled.literal_of_number hkind
    have hfinite := ht.2 _ hliteral
    rw [hliteral] at h
    cases h
    have hvalue : Numeral.value text = ofMagnitude (nearest (Numeral.ratio text)) := value_eq_ofMagnitude rfl
    have hle := nearest_le_infinity (Numeral.ratio text)
    rw [hvalue, magnitude_ofMagnitude hle] at hfinite
    refine .number ?_ ?_
    · rw [hvalue, negative_ofMagnitude hle]
    · rw [hvalue, magnitude_ofMagnitude hle]
      exact Nat.lt_of_le_of_ne hle hfinite
  · rename_i hkind
    exact absurd hkind ht.1
  · cases h

/-! ## Values -/

/-- the values that are printed as reserved words, with their words -/
def Value.words : List (Value × String) := [(.nil, "nil"), (.boolean true, "true"), (.boolean false, "false")]

/-- the value that is printed so -/
def Value.decode (text : String) : Value :=
  if text = "nil" then .nil
  else if text = "true" then .boolean true
  else if text = "false" then .boolean false
  else .number (ofMagnitude (nearest (Number.denoted text.toList)))

namespace Value.Legible

variable {v : Value}

/-- A legible value is printed as a reserved word, or as a text that starts with a digit. -/
theorem display_cases (h : v.Legible) :
    (v, v.display) ∈ words ∨
    ∃ x text, v = .number x ∧ v.display = String.ofList text ∧ Number.Numeric text ∧
      ofMagnitude (nearest (Number.denoted text)) = x := by
  cases h with
  | nil => exact .inl (by decide)
  | boolean b => exact .inl (by cases b <;> decide)
  | @number x hnegative hfinite =>
    obtain ⟨text, hformat, hnumeric, hnearest⟩ := Number.formatMagnitude_denotes hfinite
    have hsigned : ¬ Signed x := fun h => by rw [h.1] at hnegative; cases hnegative
    refine .inr ⟨x, text, rfl, (display_number hformat hfinite.le).2 hsigned, hnumeric, ?_⟩
    rw [hnearest, ofMagnitude_of_not_negative hnegative]

/-- What is printed of a legible value is decoded. -/
theorem decode_display (h : v.Legible) : decode v.display = v := by
  rcases h.display_cases with hword | ⟨x, text, rfl, hdisplay, ⟨⟨d, ds, rfl, hd⟩, -⟩, hvalue⟩
  · have hall : ∀ pair ∈ words, decode pair.2 = pair.1 := by simp [words, decode]
    exact hall _ hword
  · have hne : ∀ word ∈ ["nil", "true", "false"], String.ofList (d :: ds) ≠ word := by
      intro word hword heq
      have hall : ∀ word ∈ ["nil", "true", "false"], word.toList.head?.any Char.isDigit = false := by decide
      have hhead := hall word hword
      rw [← heq, String.toList_ofList, List.head?_cons, Option.any_some, hd] at hhead
      cases hhead
    rw [hdisplay, decode, if_neg (hne _ (by simp)), if_neg (hne _ (by simp)), if_neg (hne _ (by simp)),
      String.toList_ofList, hvalue]

theorem display_inj {w : Value} (hv : v.Legible) (hw : w.Legible) (h : v.display = w.display) : v = w := by
  rw [← hv.decode_display, h, hw.decode_display]

/-- No name is spelled as a value is printed. -/
theorem display_ne_lexeme (h : v.Legible) {name : Token} (hname : name.Spelled) (hkind : name.kind = .identifier) :
    v.display ≠ name.lexeme := by
  obtain ⟨hword, hmatches⟩ := hname.word_of_identifier hkind
  intro heq
  rcases h.display_cases with hreserved | ⟨x, text, -, hdisplay, ⟨⟨d, ds, rfl, hd⟩, -⟩, -⟩
  · have hall : ∀ pair ∈ words, TokenKind.ofWord pair.2 ≠ .identifier := by decide
    exact hall _ hreserved (by rw [heq, hword])
  · rw [← heq, hdisplay, String.toList_ofList] at hmatches
    cases hmatches with
    | word hstart _ =>
      rw [Rule.isDigit_eq_false_of_isWordStart hstart] at hd
      cases hd

theorem word_display (h : v.Legible) : Word v.display := by
  rcases h.display_cases with hreserved | ⟨x, text, -, hdisplay, ⟨⟨d, ds, rfl, -⟩, hnumeric⟩, -⟩
  · have hall : ∀ pair ∈ words, pair.2 ≠ "" ∧ (pair.2.toList.all fun c => !isDelimiter c) = true := by decide
    obtain ⟨hne, hchars⟩ := hall _ hreserved
    exact ⟨hne, fun c hc => by simpa using List.all_eq_true.1 hchars c hc⟩
  · rw [hdisplay]
    refine ⟨fun hnil => ?_, fun c hc => ?_⟩
    · have hempty := congrArg String.toList hnil
      rw [String.toList_ofList] at hempty
      cases hempty
    · rw [String.toList_ofList] at hc
      exact isDelimiter_eq_false (by decide) (hnumeric c hc)

end Value.Legible

/-! ## Trees -/

theorem spelled_group : Token.Spelled ⟨.identifier, "group", none, 1⟩ :=
  @spelled_of_mem_scan "group" _ (by decide +kernel) (by decide)

theorem spelled_equal : Token.Spelled ⟨.equal, "=", none, 1⟩ :=
  @spelled_of_mem_scan "=" _ (by decide +kernel) (by decide)

/-- The values of the tree are legible, and its names and operators are spelled tokens of the kinds of their places. -/
def Expr.Legible : Expr → Prop
  | literal value => value.Legible
  | reference name => name.Spelled ∧ name.kind = .identifier
  | assign name value => (name.Spelled ∧ name.kind = .identifier) ∧ value.Legible
  | unary operator operand =>
    (operator.Spelled ∧ operator.kind ∈ [.bang, .minus]) ∧ operand.Legible
  | binary left operator right =>
    (operator.Spelled ∧ operator.kind ∈ binaryOperators) ∧ left.Legible ∧ right.Legible
  | logical left operator right =>
    (operator.Spelled ∧ operator.kind ∈ [.kwOr, .kwAnd]) ∧ left.Legible ∧ right.Legible
  | group inner => inner.Legible

namespace Expr

theorem legible_node {r : Rung} {left right : Expr} {operator : Token} (hkind : operator.kind ∈ r.operators)
    (hoperator : operator.Spelled) (hleft : left.Legible) (hright : right.Legible) :
    (r.node left operator right).Legible := by
  have hlogical : ∀ r ∈ [Rung.or, .and], ∀ kind ∈ r.operators, kind ∈ [TokenKind.kwOr, .kwAnd] := by decide
  have hbinary : ∀ r ∈ [Rung.assignment, .equality, .comparison, .additive, .multiplicative, .prefixed, .primary],
      ∀ kind ∈ r.operators, kind ∈ binaryOperators := by decide
  cases r with
  | or | and => exact ⟨⟨hoperator, hlogical _ (by decide) _ hkind⟩, hleft, hright⟩
  | _ => exact ⟨⟨hoperator, hbinary _ (by decide) _ hkind⟩, hleft, hright⟩

/-- Spelled tokens that are legible are an expression with a legible tree. -/
theorem Derives.legible {r : Rung} {ts : List Token} {e : Expr} (h : Derives r ts e)
    (hts : ∀ t ∈ ts, t.Spelled ∧ t.Legible) : e.Legible := by
  induction h with
  | tighter _ ih => exact ih hts
  | assign hname _ _ ih =>
    rw [List.forall_mem_cons, List.forall_mem_cons] at hts
    exact ⟨⟨hts.1.1, hname⟩, ih hts.2.2⟩
  | operator hkind _ _ ihleft ihright =>
    rw [List.forall_mem_append, List.forall_mem_cons] at hts
    exact legible_node hkind hts.2.1.1 (ihleft hts.1) (ihright hts.2.2)
  | prefixed hkind _ ih =>
    rw [List.forall_mem_cons] at hts
    exact ⟨⟨hts.1.1, by simpa using hkind⟩, ih hts.2⟩
  | constant hvalue =>
    obtain ⟨hspelled, hlegible⟩ := hts _ List.mem_cons_self
    exact Value.legible_of_constant? hspelled hlegible hvalue
  | name hkind => exact ⟨(hts _ List.mem_cons_self).1, hkind⟩
  | group _ _ _ ih =>
    rw [List.forall_mem_cons, List.forall_mem_append] at hts
    exact ih hts.2.1

/-- Operators are no parentheses and no strings, and of other kinds than the marks of a group and of an assignment. -/
theorem operator_ne {kind : TokenKind}
    (h : kind ∈ [.bang, .minus] ∨ kind ∈ binaryOperators ∨ kind ∈ [.kwOr, .kwAnd]) :
    kind ∉ [.leftParen, .rightParen, .string] ∧ kind ≠ .identifier ∧ kind ≠ .equal := by
  have hall : ∀ kind ∈ [TokenKind.bang, .minus] ++ (binaryOperators ++ [.kwOr, .kwAnd]),
      kind ∉ [.leftParen, .rightParen, .string] ∧ kind ≠ .identifier ∧ kind ≠ .equal := by decide
  exact hall kind (by rwa [List.mem_append, List.mem_append])

/-- What is printed of a legible tree is plain. -/
theorem Legible.plain {e : Expr} (h : e.Legible) : e.printed.Plain := by
  have hgroup : Word "group" := spelled_group.word_lexeme (by decide)
  have hequal : Word "=" := spelled_equal.word_lexeme (by decide)
  induction e with
  | literal value => exact Value.Legible.word_display h
  | reference name => exact h.1.word_lexeme (by rw [h.2]; decide)
  | assign name value ih => exact ⟨hequal, h.1.1.word_lexeme (by rw [h.1.2]; decide), ih h.2⟩
  | unary operator operand ih => exact ⟨h.1.1.word_lexeme (operator_ne (.inl h.1.2)).1, ih h.2⟩
  | binary left operator right ihleft ihright =>
    exact ⟨h.1.1.word_lexeme (operator_ne (.inr (.inl h.1.2))).1, ihleft h.2.1, ihright h.2.2⟩
  | logical left operator right ihleft ihright =>
    exact ⟨h.1.1.word_lexeme (operator_ne (.inr (.inr h.1.2))).1, ihleft h.2.1, ihright h.2.2⟩
  | group inner ih => exact ⟨hgroup, ih h⟩

theorem binary_ne_logical {kind kind' : TokenKind} (h : kind ∈ binaryOperators) (h' : kind' ∈ [.kwOr, .kwAnd]) :
    kind ≠ kind' := by
  have hall : ∀ kind ∈ binaryOperators, ∀ kind' ∈ [TokenKind.kwOr, .kwAnd], kind ≠ kind' := by decide
  exact hall kind h kind' h'

/-- **What is printed of a legible tree gives it back.** Two legible trees of which the same is printed differ in the
lines of their tokens at most. -/
theorem Legible.alike {e e' : Expr} (h : e.Legible) (h' : e'.Legible) (heq : e.printed = e'.printed) :
    Alike .anywhere e e' := by
  induction e generalizing e' with
  | literal value =>
    cases e' with
    | literal value' =>
      obtain rfl := Value.Legible.display_inj h h' (Printed.atom.inj heq)
      exact .literal value
    | reference name => exact absurd (Printed.atom.inj heq) (Value.Legible.display_ne_lexeme h h'.1 h'.2)
    | _ => cases heq
  | reference name =>
    cases e' with
    | literal value => exact absurd (Printed.atom.inj heq).symm (Value.Legible.display_ne_lexeme h' h.1 h.2)
    | reference name' => exact .reference (h.1.anywhere h'.1 (Printed.atom.inj heq).symm)
    | _ => cases heq
  | assign name value ih =>
    cases e' with
    | assign name' value' =>
      obtain ⟨-, hname, hvalue⟩ := Printed.two.inj heq
      exact .assign (h.1.1.anywhere h'.1.1 (Printed.atom.inj hname).symm) (ih h.2 h'.2 hvalue)
    | binary left operator right =>
      have hne := spelled_equal.lexeme_ne h'.1.1 (operator_ne (.inr (.inl h'.1.2))).2.2
      exact absurd (Printed.two.inj heq).1.symm hne
    | logical left operator right =>
      have hne := spelled_equal.lexeme_ne h'.1.1 (operator_ne (.inr (.inr h'.1.2))).2.2
      exact absurd (Printed.two.inj heq).1.symm hne
    | _ => cases heq
  | unary operator operand ih =>
    cases e' with
    | unary operator' operand' =>
      obtain ⟨hoperator, hoperand⟩ := Printed.one.inj heq
      exact .unary (h.1.1.anywhere h'.1.1 hoperator.symm) (ih h.2 h'.2 hoperand)
    | group inner =>
      have hne := spelled_group.lexeme_ne h.1.1 (operator_ne (.inl h.1.2)).2.1
      exact absurd (Printed.one.inj heq).1 hne
    | _ => cases heq
  | binary left operator right ihleft ihright =>
    cases e' with
    | assign name value =>
      have hne := spelled_equal.lexeme_ne h.1.1 (operator_ne (.inr (.inl h.1.2))).2.2
      exact absurd (Printed.two.inj heq).1 hne
    | binary left' operator' right' =>
      obtain ⟨hoperator, hleft, hright⟩ := Printed.two.inj heq
      exact .binary (ihleft h.2.1 h'.2.1 hleft) (h.1.1.anywhere h'.1.1 hoperator.symm) (ihright h.2.2 h'.2.2 hright)
    | logical left' operator' right' =>
      have hne := h'.1.1.lexeme_ne h.1.1 (binary_ne_logical h.1.2 h'.1.2)
      exact absurd (Printed.two.inj heq).1 hne
    | _ => cases heq
  | logical left operator right ihleft ihright =>
    cases e' with
    | assign name value =>
      have hne := spelled_equal.lexeme_ne h.1.1 (operator_ne (.inr (.inr h.1.2))).2.2
      exact absurd (Printed.two.inj heq).1 hne
    | binary left' operator' right' =>
      have hne := h.1.1.lexeme_ne h'.1.1 (binary_ne_logical h'.1.2 h.1.2)
      exact absurd (Printed.two.inj heq).1.symm hne
    | logical left' operator' right' =>
      obtain ⟨hoperator, hleft, hright⟩ := Printed.two.inj heq
      exact .logical (ihleft h.2.1 h'.2.1 hleft) (h.1.1.anywhere h'.1.1 hoperator.symm) (ihright h.2.2 h'.2.2 hright)
    | _ => cases heq
  | group inner ih =>
    cases e' with
    | unary operator operand =>
      have hne := spelled_group.lexeme_ne h'.1.1 (operator_ne (.inl h'.1.2)).2.1
      exact absurd (Printed.one.inj heq).1.symm hne
    | group inner' => exact .group (ih h h' (Printed.one.inj heq).2)
    | _ => cases heq

end Expr

/-! ## Texts -/

/-- An expression that is parsed without a report from the legible tokens of a text is legible. -/
theorem legible_of_parse {source : String} {e : Expr} (htokens : ∀ t ∈ (scan source).tokens, t.Legible)
    (he : (Expr.parse (scan source).tokens).result = some e) (herrors : (Expr.parse (scan source).tokens).errors = []) :
    e.Legible := by
  have hfault := (Expr.parse_safe (scan_marked source).2).1
  have hparse : Expr.parse (scan source).tokens = ⟨some e, [], none⟩ := by
    rw [← he]
    exact Parser.eq_of_errors_eq_nil herrors hfault
  rw [scan_tokens] at hparse
  refine (Expr.derives_of_parse_eq (fun t => kind_of_mem_tokensOf) hparse).legible fun t ht => ?_
  refine ⟨spelled_of_mem_tokensOf ht, htokens t ?_⟩
  rw [scan_tokens]
  exact List.mem_append_left _ ht

/-- **Printed expressions are unambiguous.** Let two texts have no strings and no numbers that are rounded to infinity,
and let their tokens be parsed to expressions without a report. The expressions are printed alike exactly if they have
the same nodes, operators, names and values, and differ in the lines of their tokens at most. -/
theorem printed_expressions_unambiguous {p q : String} {e e' : Expr} (hp : ∀ t ∈ (scan p).tokens, t.Legible)
    (hq : ∀ t ∈ (scan q).tokens, t.Legible) (he : (Expr.parse (scan p).tokens).result = some e)
    (herrors : (Expr.parse (scan p).tokens).errors = []) (he' : (Expr.parse (scan q).tokens).result = some e')
    (herrors' : (Expr.parse (scan q).tokens).errors = []) :
    e.parenthesized = e'.parenthesized ↔ Expr.Alike .anywhere e e' := by
  have hlegible := legible_of_parse hp he herrors
  have hlegible' := legible_of_parse hq he' herrors'
  constructor
  · intro h
    exact hlegible.alike hlegible' (Expr.printed_eq hlegible.plain hlegible'.plain h)
  · intro h
    exact h.parenthesized_eq.symm

/-- The difference of a negated number and a variable in parentheses that has the name of their mark, on one line and on
two, where the number is written with a point. -/
theorem printed_expressions_unambiguous_two_lines :
    let p := "-100000000000000000000000 - (group)"
    let q := "-100000000000000000000000.0\n- (group)"
    let x := Numeral.value "100000000000000000000000".toList
    let minus (line : Nat) : Token := ⟨.minus, "-", none, line⟩
    let e (line : Nat) : Expr := .binary (.unary (minus 1) (.literal (.number x))) (minus line)
      (.group (.reference ⟨.identifier, "group", none, line⟩))
    (∀ t ∈ (scan p).tokens, t.Legible) ∧ (∀ t ∈ (scan q).tokens, t.Legible) ∧
    (Expr.parse (scan p).tokens).result = some (e 1) ∧ (Expr.parse (scan p).tokens).errors = [] ∧
    (Expr.parse (scan q).tokens).result = some (e 2) ∧ (Expr.parse (scan q).tokens).errors = [] ∧
    (e 1).parenthesized = "(- (- 1e+23) (group group))" ∧ (e 1).parenthesized = (e 2).parenthesized ∧
    Expr.Alike .anywhere (e 1) (e 2) := by
  intro p q x minus e
  have hnumber : ∀ lexeme, (Token.mk .number lexeme (some (.number x)) 1).Legible := by
    refine fun lexeme => ⟨by simp, fun y hy => ?_⟩
    obtain rfl : x = y := by simpa using hy
    decide +kernel
  have hother : ∀ t : Token, t.kind ≠ .string → t.literal = none → t.Legible :=
    fun t hkind hnone => ⟨hkind, fun y hy => by rw [hnone] at hy; cases hy⟩
  have hp : (scan p).tokens = [minus 1, ⟨.number, "100000000000000000000000", some (.number x), 1⟩, minus 1,
      ⟨.leftParen, "(", none, 1⟩, ⟨.identifier, "group", none, 1⟩, ⟨.rightParen, ")", none, 1⟩, Token.endOn 1] := by
    decide +kernel
  have hq : (scan q).tokens = [minus 1, ⟨.number, "100000000000000000000000.0", some (.number x), 1⟩, minus 2,
      ⟨.leftParen, "(", none, 2⟩, ⟨.identifier, "group", none, 2⟩, ⟨.rightParen, ")", none, 2⟩, Token.endOn 2] := by
    decide +kernel
  have hlegible : ∀ t ∈ (scan p).tokens, t.Legible := by
    rw [hp]
    simp [hnumber, hother, minus, Token.endOn]
  have hlegible' : ∀ t ∈ (scan q).tokens, t.Legible := by
    rw [hq]
    simp [hnumber, hother, minus, Token.endOn]
  have he : (Expr.parse (scan p).tokens).result = some (e 1) := by
    rw [hp]
    decide +kernel
  have he' : (Expr.parse (scan q).tokens).result = some (e 2) := by
    rw [hq]
    decide +kernel
  have herrors : (Expr.parse (scan p).tokens).errors = [] := by
    rw [hp]
    decide +kernel
  have herrors' : (Expr.parse (scan q).tokens).errors = [] := by
    rw [hq]
    decide +kernel
  have hprinted : (e 1).parenthesized = "(- (- 1e+23) (group group))" := by decide +kernel
  have hsame : (e 1).parenthesized = (e 2).parenthesized := by decide +kernel
  exact ⟨hlegible, hlegible', he, herrors, he', herrors', hprinted, hsame,
    (printed_expressions_unambiguous hlegible hlegible' he herrors he' herrors').1 hsame⟩

end Lox
