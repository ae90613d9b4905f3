import Mathlib.Data.List.TakeWhile
import Lox.Token.CharClass

/-!
Spans: the pieces a source text is cut into, from left to right.

* `Rule.Matches r s`: the characters `s` match the lexical rule `r`.
* `Munches text s`: the span `s` is what comes first in the text: its longest beginning that matches
  a rule; where no rule matches, a quote takes the rest of the text and any other character stands
  alone.
* `Cuts text spans`: the text is cut into the spans, each the first of what is left.

A text is cut in one way only (`Cuts.unique`). `Span.first` and `Span.cut` compute it.
-/

namespace Lox

/-! ## Numerals -/

namespace Numeral

variable {ds : List Char} (h : ∀ d ∈ ds, d.isDigit = true)

include h

theorem ne_point_of_isDigit : ∀ d ∈ ds, decide (d ≠ '.') = true := by
  intro d hd
  refine decide_eq_true fun heq => ?_
  exact absurd (heq ▸ h d hd) (by decide)

theorem parts_whole : whole ds = ds ∧ fraction ds = [] := by
  refine ⟨List.takeWhile_eq_self_iff.2 (ne_point_of_isDigit h), ?_⟩
  rw [fraction, List.dropWhile_eq_nil_iff.2 (ne_point_of_isDigit h), List.drop_nil]

theorem parts_decimal (fs : List Char) : whole (ds ++ '.' :: fs) = ds ∧ fraction (ds ++ '.' :: fs) = fs := by
  constructor
  · rw [whole, List.takeWhile_append_of_pos (ne_point_of_isDigit h), List.takeWhile_cons_of_neg (by simp),
      List.append_nil]
  · rw [fraction, List.dropWhile_append_of_pos (ne_point_of_isDigit h), List.dropWhile_cons_of_neg (by simp)]
    rfl

end Numeral

/-! ## Lexical rules -/

/-- The lexical rules. -/
inductive Rule where
  | operator | number | string | word | comment | blank
deriving DecidableEq

/-- the operators and their kinds -/
def operators : List (List Char × TokenKind) :=
  [(['('], .leftParen), ([')'], .rightParen), (['\x7b'], .leftBrace), (['\x7d'], .rightBrace),
    ([','], .comma), (['.'], .dot), (['-'], .minus), (['+'], .plus), ([';'], .semicolon),
    (['/'], .slash), (['*'], .star), (['!'], .bang), (['!', '='], .bangEqual), (['='], .equal),
    (['=', '='], .equalEqual), (['>'], .greater), (['>', '='], .greaterEqual), (['<'], .less), (['<', '='], .lessEqual)]

namespace Rule

/-- The characters match the rule. -/
inductive Matches : Rule → List Char → Prop
  | operator {s : List Char} {kind : TokenKind} : (s, kind) ∈ operators → Matches .operator s
  | whole {ds : List Char} : ds ≠ [] → (∀ d ∈ ds, d.isDigit) → Matches .number ds
  | decimal {ds fs : List Char} : ds ≠ [] → (∀ d ∈ ds, d.isDigit) → fs ≠ [] → (∀ d ∈ fs, d.isDigit) →
      Matches .number (ds ++ '.' :: fs)
  | string {body : List Char} : '"' ∉ body → Matches .string ('"' :: (body ++ ['"']))
  | word {c : Char} {cs : List Char} : isWordStart c → (∀ d ∈ cs, isWordPart d) →
      Matches .word (c :: cs)
  | comment {body : List Char} : '\n' ∉ body → Matches .comment ('/' :: '/' :: body)
  | blank {c : Char} : isBlank c → Matches .blank [c]

/-- the rule of what starts with a character, unless that is a comment -/
def of? (c : Char) : Option Rule :=
  if (operator? c).isSome then some .operator
  else if isBlank c then some .blank
  else if c = '"' then some .string
  else if c.isDigit then some .number
  else if isWordStart c then some .word
  else none

/-! ### First characters -/

/-- The character can be the first of what matches the rule. -/
def Starts (c : Char) : Rule → Prop
  | .operator => ∃ kind, operator? c = some kind
  | .number => c.isDigit = true
  | .string => c = '"'
  | .word => isWordStart c = true
  | .comment => c = '/'
  | .blank => isBlank c = true

theorem starts_of_of? {c : Char} {r : Rule} (h : of? c = some r) : r.Starts c := by
  unfold of? at h
  split at h
  · rename_i hc
    obtain rfl := Option.some.inj h
    exact Option.isSome_iff_exists.1 hc
  repeat
    split at h
    · rename_i hc
      obtain rfl := Option.some.inj h
      exact hc
  cases h

theorem mem_operators_of_operator? {c : Char} {kind : TokenKind} (h : operator? c = some kind) :
    ([c], kind) ∈ operators := by
  unfold operator? at h
  split at h <;> cases h <;> decide

theorem mem_operators_of_operatorEqual? {c : Char} {kind : TokenKind}
    (h : operatorEqual? c = some kind) :
    ([c, '='], kind) ∈ operators := by
  unfold operatorEqual? at h
  split at h <;> cases h <;> decide

/-- A class of characters that has none of those of the operators. -/
theorem operator?_eq_none {p : Char → Bool}
    (hp : ∀ pair ∈ operators, (pair.1.all fun d => !p d) = true) {c : Char} (h : p c = true) :
    operator? c = none := by
  cases hop : operator? c with
  | none => rfl
  | some kind =>
    have hnot := hp _ (mem_operators_of_operator? hop)
    simp [h] at hnot

/-- A class of characters that has no blanks. -/
theorem isBlank_eq_false {p : Char → Bool} (hp : ([' ', '\t', '\r', '\n'].all fun d => !p d) = true)
    {c : Char} (h : p c = true) : isBlank c = false := by
  cases hblank : isBlank c with
  | false => rfl
  | true =>
    have hmem : c ∈ [' ', '\t', '\r', '\n'] := by simpa [isBlank, or_assoc] using hblank
    have hnot := List.all_eq_true.1 hp c hmem
    simp [h] at hnot

/-- No blank is in a class of characters that has none. -/
theorem eq_false_of_isBlank {p : Char → Bool} (hp : ([' ', '\t', '\r', '\n'].all fun d => !p d) = true)
    {c : Char} (h : isBlank c = true) : p c = false := by
  refine Bool.eq_false_iff.2 fun hc => ?_
  rw [isBlank_eq_false hp hc] at h
  cases h

theorem isDigit_eq_false_of_isWordStart {c : Char} (h : isWordStart c = true) : c.isDigit = false := by
  refine Bool.eq_false_iff.2 fun hdigit => ?_
  have hle : c.toNat ≤ '9'.toNat := (Char.isDigit_iff_toNat.1 hdigit).2
  have h9 : '9'.toNat < 'A'.toNat ∧ 'A'.toNat < 'a'.toNat := by decide
  rcases Bool.or_eq_true_iff.1 h with h | h
  · rcases Bool.or_eq_true_iff.1 h with h | h
    · have hupper : 'A'.toNat ≤ c.toNat := UInt32.le_iff_toNat_le.1 (of_decide_eq_true h).1
      omega
    · have hlower : 'a'.toNat ≤ c.toNat :=
        UInt32.le_iff_toNat_le.1 (of_decide_eq_true (Bool.and_eq_true_iff.1 h).1)
      omega
  · obtain rfl := of_decide_eq_true h
    exact absurd hdigit (by decide)

theorem of?_of_isBlank {c : Char} (h : isBlank c = true) : of? c = some .blank := by
  simp [of?, operator?_eq_none (by decide) h, h]

theorem of?_of_isDigit {c : Char} (h : c.isDigit = true) : of? c = some .number := by
  have hquote : c ≠ '"' := fun hc => by revert h; rw [hc]; decide
  simp [of?, operator?_eq_none (by decide) h, isBlank_eq_false (by decide) h, hquote, h]

theorem of?_of_isWordStart {c : Char} (h : isWordStart c = true) : of? c = some .word := by
  have hquote : c ≠ '"' := fun hc => by revert h; rw [hc]; decide
  simp [of?, operator?_eq_none (by decide) h, isBlank_eq_false (by decide) h, hquote,
    isDigit_eq_false_of_isWordStart h, h]

/-- The first character says which rule characters match, but for comments. -/
theorem Matches.of?_head {r : Rule} {s : List Char} (h : r.Matches s) :
    ∃ c cs, s = c :: cs ∧ (of? c = some r ∨ c = '/' ∧ r = .comment) := by
  cases h with
  | @operator s kind h =>
    have hall : ∀ pair ∈ operators, pair.1.head?.bind of? = some .operator := by decide
    have hhead := hall _ h
    cases s with
    | nil => cases hhead
    | cons c cs => exact ⟨c, cs, rfl, .inl hhead⟩
  | @whole ds hds hdigits =>
    obtain ⟨d, ds, rfl⟩ := List.exists_cons_of_ne_nil hds
    exact ⟨d, ds, rfl, .inl (of?_of_isDigit (hdigits d (by simp)))⟩
  | @decimal ds fs hds hdigits _ _ =>
    obtain ⟨d, ds, rfl⟩ := List.exists_cons_of_ne_nil hds
    exact ⟨d, ds ++ '.' :: fs, rfl, .inl (of?_of_isDigit (hdigits d (by simp)))⟩
  | @string body _ => exact ⟨'"', body ++ ['"'], rfl, .inl (by decide)⟩
  | @word c cs hc _ => exact ⟨c, cs, rfl, .inl (of?_of_isWordStart hc)⟩
  | @comment body _ => exact ⟨'/', '/' :: body, rfl, .inr ⟨rfl, rfl⟩⟩
  | @blank c hc => exact ⟨c, [], rfl, .inl (of?_of_isBlank hc)⟩

theorem Matches.rule_of_cons {r : Rule} {c : Char} {cs : List Char} (h : r.Matches (c :: cs)) :
    of? c = some r ∨ c = '/' ∧ r = .comment := by
  obtain ⟨d, ds, heq, hd⟩ := h.of?_head
  obtain ⟨rfl, rfl⟩ := List.cons.inj heq
  exact hd

theorem Matches.not_comment {s : List Char} (h : Matches .operator s) : ¬ Matches .comment s := by
  intro h'
  cases h' with
  | @comment body _ =>
    cases h with
    | operator h => simp [operators] at h

/-- No characters match two rules. -/
theorem Matches.unique {r r' : Rule} {s : List Char} (h : r.Matches s) (h' : r'.Matches s) :
    r = r' := by
  have hslash : of? '/' = some .operator := by decide
  obtain ⟨c, cs, rfl, hc | ⟨rfl, rfl⟩⟩ := h.of?_head
  · rcases h'.rule_of_cons with hc' | ⟨rfl, rfl⟩
    · exact Option.some.inj (hc.symm.trans hc')
    · obtain rfl := Option.some.inj (hc.symm.trans hslash)
      exact absurd h' h.not_comment
  · rcases h'.rule_of_cons with hc' | ⟨-, rfl⟩
    · obtain rfl := Option.some.inj (hc'.symm.trans hslash)
      exact absurd h h'.not_comment
    · rfl

/-- Only strings and blanks go over the end of a line. -/
theorem Matches.newline_notMem {r : Rule} {s : List Char} (h : r.Matches s) (hstring : r ≠ .string)
    (hblank : r ≠ .blank) :
    '\n' ∉ s := by
  have hdigit : ∀ ds : List Char, (∀ d ∈ ds, d.isDigit = true) → '\n' ∉ ds := fun ds hds hmem =>
    absurd (hds _ hmem) (by decide)
  cases h with
  | operator h =>
    have hall : ∀ pair ∈ operators, '\n' ∉ pair.1 := by decide
    exact hall _ h
  | whole _ hds => exact hdigit _ hds
  | decimal _ hds _ hfs => simp [hdigit _ hds, hdigit _ hfs]
  | string _ => exact absurd rfl hstring
  | @word c cs hc hcs =>
    intro hmem
    rcases List.mem_cons.1 hmem with rfl | hmem
    · exact absurd hc (by decide)
    · exact absurd (hcs _ hmem) (by decide)
  | comment hbody => simp [hbody]
  | blank _ => exact absurd rfl hblank

/-- What matches the rule of numbers is a numeral. -/
theorem Matches.wellFormed {s : List Char} (h : Matches .number s) : Numeral.WellFormed s := by
  cases h with
  | whole hne hds =>
    obtain ⟨hwhole, hfraction⟩ := Numeral.parts_whole hds
    rw [Numeral.WellFormed, hwhole, hfraction, List.append_nil]
    exact ⟨hne, hds⟩
  | @decimal ds fs hne hds _ hfs =>
    obtain ⟨hwhole, hfraction⟩ := Numeral.parts_decimal hds fs
    rw [Numeral.WellFormed, hwhole, hfraction]
    refine ⟨by simp [hne], fun d hd => ?_⟩
    rcases List.mem_append.1 hd with hd | hd
    · exact hds d hd
    · exact hfs d hd

end Rule

/-! ## Cutting a text -/

/-- What a span is: the match of a rule, or one of two errors. -/
inductive SpanKind where
  | rule (rule : Rule)
  | openString
  | stray
deriving DecidableEq

/-- A piece of source text. -/
structure Span where
  kind : SpanKind
  text : List Char
deriving DecidableEq

/-- The span comes first in the text. -/
inductive Munches : List Char → Span → Prop
  | longest {text s : List Char} {r : Rule} : r.Matches s → s <+: text →
      (∀ (r' : Rule) (s' : List Char), r'.Matches s' → s' <+: text → s'.length ≤ s.length) →
      Munches text ⟨.rule r, s⟩
  | openString {cs : List Char} : (∀ (r : Rule) (s : List Char), r.Matches s → ¬ s <+: '"' :: cs) →
      Munches ('"' :: cs) ⟨.openString, '"' :: cs⟩
  | stray {c : Char} {cs : List Char} : c ≠ '"' →
      (∀ (r : Rule) (s : List Char), r.Matches s → ¬ s <+: c :: cs) → Munches (c :: cs) ⟨.stray, [c]⟩

/-- The text is cut into the spans, from left to right. -/
inductive Cuts : List Char → List Span → Prop
  | nil : Cuts [] []
  | cons {s : Span} {rest : List Char} {spans : List Span} : Munches (s.text ++ rest) s →
      Cuts rest spans → Cuts (s.text ++ rest) (s :: spans)

theorem Munches.unique {text : List Char} {s s' : Span} (h : Munches text s) (h' : Munches text s') :
    s = s' := by
  cases h with
  | @longest _ s r hmatches hs hlongest =>
    cases h' with
    | @longest _ s' r' hmatches' hs' hlongest' =>
      have hlength : s.length = s'.length :=
        Nat.le_antisymm (hlongest' r s hmatches hs) (hlongest r' s' hmatches' hs')
      obtain rfl : s = s' := (List.prefix_of_prefix_length_le hs hs'
        (Nat.le_of_eq hlength)).eq_of_length hlength
      obtain rfl := hmatches.unique hmatches'
      rfl
    | openString hnone => exact absurd hs (hnone r s hmatches)
    | stray _ hnone => exact absurd hs (hnone r s hmatches)
  | openString hnone =>
    cases h' with
    | longest hmatches' hs' _ => exact absurd hs' (hnone _ _ hmatches')
    | openString => rfl
    | stray hquote _ => exact absurd rfl hquote
  | stray hquote hnone =>
    cases h' with
    | longest hmatches' hs' _ => exact absurd hs' (hnone _ _ hmatches')
    | openString => exact absurd rfl hquote
    | stray => rfl

theorem Munches.isPrefix {text : List Char} {s : Span} (h : Munches text s) : s.text <+: text := by
  cases h with
  | longest _ hs _ => exact hs
  | openString => exact List.prefix_rfl
  | stray => exact ⟨_, rfl⟩

theorem Munches.ne_nil {text : List Char} {s : Span} (h : Munches text s) : s.text ≠ [] := by
  cases h with
  | longest hmatches _ _ =>
    obtain ⟨c, cs, rfl, -⟩ := hmatches.of?_head
    simp
  | openString | stray => simp

/-- The spans of a text, one after the other, are the text. -/
theorem Cuts.flatMap_text {text : List Char} {spans : List Span} (h : Cuts text spans) :
    spans.flatMap Span.text = text := by
  induction h with
  | nil => rfl
  | cons _ _ ih => rw [List.flatMap_cons, ih]

/-- A text is cut in one way only. -/
theorem Cuts.unique {text : List Char} {spans spans' : List Span} (h : Cuts text spans)
    (h' : Cuts text spans') :
    spans = spans' := by
  induction h generalizing spans' with
  | nil =>
    generalize htext : ([] : List Char) = text at h'
    cases h' with
    | nil => rfl
    | cons hs _ => exact absurd (List.append_eq_nil_iff.1 htext.symm).1 hs.ne_nil
  | @cons s rest spans hs _ ih =>
    generalize htext : s.text ++ rest = text at h'
    cases h' with
    | nil => exact absurd (List.append_eq_nil_iff.1 htext).1 hs.ne_nil
    | cons hs' hspans' =>
      rw [htext] at hs
      obtain rfl := hs.unique hs'
      obtain rfl := List.append_cancel_left htext
      rw [ih hspans']

/-! ## Computing the spans -/

namespace Span

/-- the point and the digits behind it that come first, if digits come behind it -/
def fraction : List Char → List Char
  | '.' :: cs => if cs.takeWhile Char.isDigit = [] then [] else '.' :: cs.takeWhile Char.isDigit
  | _ => []

/-- what follows the first digit of a numeral -/
def numeralTail (cs : List Char) : List Char :=
  cs.takeWhile Char.isDigit ++ fraction (cs.dropWhile Char.isDigit)

/-- the first span of the text `c :: cs` -/
def first (c : Char) (cs : List Char) : Span :=
  match Rule.of? c with
  | some .operator =>
    if c = '/' ∧ cs.head? = some '/' then ⟨.rule .comment, c :: cs.takeWhile (· ≠ '\n')⟩
    else if (operatorEqual? c).isSome ∧ cs.head? = some '=' then ⟨.rule .operator, [c, '=']⟩
    else ⟨.rule .operator, [c]⟩
  | some .number => ⟨.rule .number, c :: numeralTail cs⟩
  | some .string =>
    if '"' ∈ cs then ⟨.rule .string, c :: (cs.takeWhile (· ≠ '"') ++ ['"'])⟩ else ⟨.openString, c :: cs⟩
  | some .word => ⟨.rule .word, c :: cs.takeWhile isWordPart⟩
  | some .blank => ⟨.rule .blank, [c]⟩
  | _ => ⟨.stray, [c]⟩

/-- the spans of a text -/
def cut : List Char → List Span
  | [] => []
  | c :: cs =>
    let s := first c cs
    s :: cut (cs.drop (s.text.length - 1))
termination_by text => text.length
decreasing_by simp only [List.length_drop, List.length_cons]; omega

end Span

/-! ### Longest matches -/

namespace Rule

/-- Characters of a class that begin a text are among the first of the text that are of the class. -/
theorem length_le_takeWhile {p : Char → Bool} {s cs : List Char} (hs : s <+: cs)
    (hp : ∀ d ∈ s, p d = true) :
    s.length ≤ (cs.takeWhile p).length := by
  obtain ⟨rest, rfl⟩ := hs
  rw [List.takeWhile_append_of_pos hp, List.length_append]
  omega

/-- A numeral matches. -/
theorem matches_numeral {c : Char} (hc : c.isDigit = true) (cs : List Char) :
    Matches .number (c :: Span.numeralTail cs) := by
  have hwhole : ∀ d ∈ c :: cs.takeWhile Char.isDigit, d.isDigit = true := by
    intro d hd
    rcases List.mem_cons.1 hd with rfl | hd
    · exact hc
    · exact List.mem_takeWhile_imp hd
  unfold Span.numeralTail Span.fraction
  split
  · split
    · simpa using Matches.whole (by simp) hwhole
    · rename_i rest _ hfraction
      exact .decimal (List.cons_ne_nil c (cs.takeWhile Char.isDigit)) hwhole hfraction fun d =>
        List.mem_takeWhile_imp
  · simpa using Matches.whole (by simp) hwhole

theorem numeralTail_append {ds fs rest : List Char} (hds : ∀ d ∈ ds, d.isDigit = true)
    (hfs : fs ≠ []) (hdigits : ∀ d ∈ fs, d.isDigit = true) :
    Span.numeralTail (ds ++ '.' :: (fs ++ rest)) =
      ds ++ '.' :: (fs ++ rest.takeWhile Char.isDigit) := by
  have hpoint : ('.' :: (fs ++ rest)).takeWhile Char.isDigit = [] :=
    List.takeWhile_cons_of_neg (by decide)
  have hwhole : (ds ++ '.' :: (fs ++ rest)).takeWhile Char.isDigit = ds := by
    rw [List.takeWhile_append_of_pos hds, hpoint, List.append_nil]
  have hafter : (ds ++ '.' :: (fs ++ rest)).dropWhile Char.isDigit = '.' :: (fs ++ rest) := by
    rw [List.dropWhile_append_of_pos hds]
    exact List.dropWhile_cons_of_neg (by decide)
  simp only [Span.numeralTail, Span.fraction, hafter, hwhole, List.takeWhile_append_of_pos hdigits]
  rw [if_neg (by simp [hfs])]

/-- No numeral that begins a text is longer. -/
theorem length_le_numeral {c : Char} {s cs : List Char} (h : Matches .number (c :: s)) (hs : s <+: cs) :
    s.length ≤ (Span.numeralTail cs).length := by
  generalize htext : c :: s = text at h
  cases h with
  | whole _ hdigits =>
    subst htext
    have hwhole : s.length ≤ (cs.takeWhile Char.isDigit).length :=
      length_le_takeWhile hs fun d hd => hdigits d (List.mem_cons_of_mem c hd)
    exact Nat.le_trans hwhole (by simp [Span.numeralTail])
  | @decimal ds fs hds hdigits hfs hfraction =>
    obtain ⟨rest, rfl⟩ := hs
    obtain ⟨d, ds, rfl⟩ := List.exists_cons_of_ne_nil hds
    rw [List.cons_append] at htext
    obtain ⟨rfl, rfl⟩ := List.cons.inj htext
    have hwhole : ∀ d ∈ ds, d.isDigit = true := fun d hd => hdigits d (List.mem_cons_of_mem c hd)
    rw [List.append_assoc, List.cons_append, numeralTail_append hwhole hfs hfraction]
    simp

/-- An operator has one character, or an equals sign behind its first. -/
theorem mem_operators_iff {c : Char} {s : List Char} {kind : TokenKind} : (c :: s, kind) ∈ operators ↔
    s = [] ∧ operator? c = some kind ∨ s = ['='] ∧ operatorEqual? c = some kind := by
  constructor
  · intro h
    have hall : ∀ pair ∈ operators, pair.1.tail = [] ∧ pair.1.head?.bind operator? = some pair.2 ∨
        pair.1.tail = ['='] ∧ pair.1.head?.bind operatorEqual? = some pair.2 := by decide
    exact hall _ h
  · rintro (⟨rfl, h⟩ | ⟨rfl, h⟩)
    · exact mem_operators_of_operator? h
    · exact mem_operators_of_operatorEqual? h

/-- What matches a rule and starts as an operator is an operator or a comment. -/
theorem Matches.after_operator {r : Rule} {c : Char} {s : List Char} (hc : of? c = some .operator)
    (h : r.Matches (c :: s)) : r = .operator ∧ (s = [] ∨ s = ['='] ∧ (operatorEqual? c).isSome) ∨
      r = .comment ∧ c = '/' ∧ s.head? = some '/' := by
  rcases h.rule_of_cons with hr | ⟨rfl, rfl⟩
  · obtain rfl := Option.some.inj (hr.symm.trans hc)
    cases h with
    | operator hmem =>
      refine .inl ⟨rfl, ?_⟩
      rcases mem_operators_iff.1 hmem with ⟨hs, -⟩ | ⟨hs, hkind⟩
      · exact .inl hs
      · exact .inr ⟨hs, by simp [hkind]⟩
  · cases h with
    | comment _ => exact .inr ⟨rfl, rfl, rfl⟩

/-- What matches a rule and begins a text begins with its first character. -/
theorem Matches.cons_of_isPrefix {r : Rule} {c : Char} {s cs : List Char} (h : r.Matches s)
    (hs : s <+: c :: cs) :
    ∃ s', s = c :: s' ∧ s' <+: cs := by
  obtain ⟨d, s', rfl, -⟩ := h.of?_head
  obtain ⟨rfl, hs'⟩ := List.cons_prefix_cons.1 hs
  exact ⟨s', rfl, hs'⟩

end Rule

/-- Where the first character allows one rule only, the longest match of this rule is the first span. -/
theorem Munches.of_rule {c : Char} {s cs : List Char} {r : Rule} (hc : Rule.of? c = some r)
    (hslash : c ≠ '/') (hmatches : r.Matches (c :: s)) (hs : s <+: cs)
    (hlongest : ∀ s', r.Matches (c :: s') → s' <+: cs → s'.length ≤ s.length) :
    Munches (c :: cs) ⟨.rule r, c :: s⟩ := by
  refine .longest hmatches (List.cons_prefix_cons.2 ⟨rfl, hs⟩) fun r' text' hmatches' htext' => ?_
  obtain ⟨s', rfl, hs'⟩ := hmatches'.cons_of_isPrefix htext'
  rcases hmatches'.rule_of_cons with hc' | ⟨hc', -⟩
  · obtain rfl : r = r' := Option.some.inj (hc.symm.trans hc')
    exact Nat.succ_le_succ (hlongest s' hmatches' hs')
  · exact absurd hc' hslash

namespace Span

theorem fraction_isPrefix (cs : List Char) : fraction cs <+: cs := by
  unfold fraction
  split
  · split
    · exact List.nil_prefix
    · exact (List.prefix_cons_inj '.').2 (List.takeWhile_prefix Char.isDigit)
  · exact List.nil_prefix

theorem numeralTail_isPrefix (cs : List Char) : numeralTail cs <+: cs := by
  have hjoined := (List.prefix_append_right_inj (cs.takeWhile Char.isDigit)).2
    (fraction_isPrefix (cs.dropWhile Char.isDigit))
  rwa [List.takeWhile_append_dropWhile] at hjoined

/-- A string goes up to the next quote. -/
theorem takeWhile_quote_append {body rest : List Char} (h : '"' ∉ body) :
    (body ++ '"' :: rest).takeWhile (· ≠ '"') = body := by
  have hbody : ∀ d ∈ body, decide (d ≠ '"') = true := fun d hd => decide_eq_true fun heq => h (heq ▸ hd)
  rw [List.takeWhile_append_of_pos hbody, List.takeWhile_cons_of_neg (by simp), List.append_nil]

theorem munches_string {cs : List Char} (h : '"' ∈ cs) :
    Munches ('"' :: cs) ⟨.rule .string, '"' :: (cs.takeWhile (· ≠ '"') ++ ['"'])⟩ := by
  obtain ⟨body, rest, rfl, hbody⟩ := List.eq_append_cons_of_mem h
  rw [takeWhile_quote_append hbody]
  refine .of_rule (by decide) (by decide) (.string hbody) ⟨rest, by simp⟩ fun s' hmatches hs' => ?_
  generalize htext : '"' :: s' = text at hmatches
  cases hmatches with
  | @string body' hbody' =>
    obtain ⟨-, rfl⟩ := List.cons.inj htext
    obtain ⟨rest', hrest'⟩ := hs'
    have hbody₁ : (body' ++ '"' :: rest').takeWhile (· ≠ '"') = body' := takeWhile_quote_append hbody'
    have hbody₂ : (body ++ '"' :: rest).takeWhile (· ≠ '"') = body := takeWhile_quote_append hbody
    have heq : body' = body := by
      rw [← hbody₁, ← hbody₂, ← hrest', List.append_assoc, List.singleton_append]
    rw [heq]

theorem munches_openString {cs : List Char} (h : '"' ∉ cs) :
    Munches ('"' :: cs) ⟨.openString, '"' :: cs⟩ := by
  refine .openString fun r s hmatches hs => ?_
  obtain ⟨s', rfl, hs'⟩ := hmatches.cons_of_isPrefix hs
  have hquote : Rule.of? '"' = some .string := by decide
  rcases hmatches.rule_of_cons with hc | ⟨hc, -⟩
  · obtain rfl := Option.some.inj (hquote.symm.trans hc)
    generalize htext : '"' :: s' = text at hmatches
    cases hmatches with
    | @string body _ =>
      obtain ⟨-, rfl⟩ := List.cons.inj htext
      exact h (hs'.subset (by simp))
  · simp at hc

theorem munches_stray {c : Char} {cs : List Char} (h : Rule.of? c = none) :
    Munches (c :: cs) ⟨.stray, [c]⟩ := by
  refine .stray (fun hc => ?_) fun r s hmatches hs => ?_
  · revert h
    rw [hc]
    decide
  · obtain ⟨s', rfl, -⟩ := hmatches.cons_of_isPrefix hs
    rcases hmatches.rule_of_cons with hc | ⟨rfl, -⟩
    · rw [h] at hc
      cases hc
    · revert h
      decide

theorem munches_comment {cs : List Char} :
    Munches ('/' :: '/' :: cs) ⟨.rule .comment, '/' :: '/' :: cs.takeWhile (· ≠ '\n')⟩ := by
  have hbody : '\n' ∉ cs.takeWhile (· ≠ '\n') := fun h => by simpa using List.mem_takeWhile_imp h
  refine .longest (.comment hbody) ?_ fun r s hmatches hs => ?_
  · exact List.cons_prefix_cons.2 ⟨rfl, List.cons_prefix_cons.2 ⟨rfl, List.takeWhile_prefix _⟩⟩
  · obtain ⟨s', rfl, hs'⟩ := hmatches.cons_of_isPrefix hs
    rcases hmatches.after_operator (by decide) with ⟨-, rfl | ⟨-, hsome⟩⟩ | ⟨rfl, -, -⟩
    · simp
    · cases hsome
    · cases hmatches with
      | @comment body hbody' =>
        obtain ⟨-, hs''⟩ := List.cons_prefix_cons.1 hs'
        have hline : ∀ d ∈ body, decide (d ≠ '\n') = true := fun d hd =>
          decide_eq_true fun heq => hbody' (heq ▸ hd)
        exact Nat.succ_le_succ (Nat.succ_le_succ (Rule.length_le_takeWhile hs'' hline))

theorem munches_operatorEqual {c : Char} {cs : List Char} {kind : TokenKind}
    (hc : Rule.of? c = some .operator) (hkind : operatorEqual? c = some kind) :
    Munches (c :: '=' :: cs) ⟨.rule .operator, [c, '=']⟩ := by
  have hmatches : Rule.Matches .operator [c, '='] :=
    .operator (Rule.mem_operators_iff.2 (.inr ⟨rfl, hkind⟩))
  refine .longest hmatches ⟨cs, rfl⟩ fun r s hmatches' hs => ?_
  obtain ⟨s', rfl, -⟩ := hmatches'.cons_of_isPrefix hs
  rcases hmatches'.after_operator hc with ⟨-, rfl | ⟨rfl, -⟩⟩ | ⟨-, rfl, -⟩
  · simp
  · simp
  · cases hkind

theorem munches_operator {c : Char} {cs : List Char} (hc : Rule.of? c = some .operator)
    (hcomment : ¬ (c = '/' ∧ cs.head? = some '/'))
    (hequal : ¬ ((operatorEqual? c).isSome ∧ cs.head? = some '=')) :
    Munches (c :: cs) ⟨.rule .operator, [c]⟩ := by
  obtain ⟨kind, hkind⟩ := Rule.starts_of_of? hc
  have hmatches : Rule.Matches .operator [c] := .operator (Rule.mem_operators_iff.2 (.inl ⟨rfl, hkind⟩))
  refine .longest hmatches ⟨cs, rfl⟩ fun r s hmatches' hs => ?_
  obtain ⟨s', rfl, hs'⟩ := hmatches'.cons_of_isPrefix hs
  rcases hmatches'.after_operator hc with ⟨-, rfl | ⟨rfl, hsome⟩⟩ | ⟨-, hslash, hhead⟩
  · simp
  · obtain ⟨rest, rfl⟩ := hs'
    exact absurd ⟨hsome, rfl⟩ hequal
  · obtain ⟨rest, rfl⟩ := hs'
    refine absurd ⟨hslash, ?_⟩ hcomment
    cases s' with
    | nil => cases hhead
    | cons d ds => exact hhead

theorem munches_number {c : Char} (hc : c.isDigit = true) (cs : List Char) :
    Munches (c :: cs) ⟨.rule .number, c :: numeralTail cs⟩ :=
  .of_rule (Rule.of?_of_isDigit hc) (fun h => by revert hc; rw [h]; decide) (Rule.matches_numeral hc cs)
    (numeralTail_isPrefix cs) fun _ => Rule.length_le_numeral

theorem munches_word {c : Char} (hc : isWordStart c = true) (cs : List Char) :
    Munches (c :: cs) ⟨.rule .word, c :: cs.takeWhile isWordPart⟩ := by
  refine .of_rule (Rule.of?_of_isWordStart hc) (fun h => by revert hc; rw [h]; decide)
    (.word hc fun d => List.mem_takeWhile_imp) (List.takeWhile_prefix _) fun s' hmatches hs' => ?_
  cases hmatches with
  | word _ hs => exact Rule.length_le_takeWhile hs' hs

theorem munches_blank {c : Char} (hc : isBlank c = true) (cs : List Char) :
    Munches (c :: cs) ⟨.rule .blank, [c]⟩ := by
  refine .of_rule (Rule.of?_of_isBlank hc) (fun h => by revert hc; rw [h]; decide)
    (.blank hc) List.nil_prefix
    fun s' hmatches _ => ?_
  cases hmatches with
  | blank => exact Nat.le_refl _

/-- What is computed to be the first span is it. -/
theorem munches_first (c : Char) (cs : List Char) : Munches (c :: cs) (first c cs) := by
  unfold first
  split
  · rename_i hc
    split
    · rename_i hcomment
      obtain ⟨rfl, hhead⟩ := hcomment
      obtain ⟨cs, rfl⟩ : ∃ rest, cs = '/' :: rest := List.head?_eq_some_iff.1 hhead
      exact munches_comment
    · rename_i hcomment
      split
      · rename_i hequal
        obtain ⟨hsome, hhead⟩ := hequal
        obtain ⟨kind, hkind⟩ := Option.isSome_iff_exists.1 hsome
        obtain ⟨cs, rfl⟩ : ∃ rest, cs = '=' :: rest := List.head?_eq_some_iff.1 hhead
        exact munches_operatorEqual hc hkind
      · rename_i hequal
        exact munches_operator hc hcomment hequal
  · rename_i hc
    exact munches_number (Rule.starts_of_of? hc) cs
  · rename_i hc
    obtain rfl : c = '"' := Rule.starts_of_of? hc
    split
    · rename_i hquote
      exact munches_string hquote
    · rename_i hquote
      exact munches_openString hquote
  · rename_i hc
    exact munches_word (Rule.starts_of_of? hc) cs
  · rename_i hc
    exact munches_blank (Rule.starts_of_of? hc) cs
  · rename_i hoperator hnumber hstring hword hblank
    refine munches_stray ?_
    cases hc : Rule.of? c with
    | none => rfl
    | some r =>
      cases r with
      | comment =>
        obtain rfl : c = '/' := Rule.starts_of_of? hc
        cases hc
      | _ => simp_all

/-- The first span and what is left of the text. -/
theorem first_text_append (c : Char) (cs : List Char) :
    (first c cs).text ++ cs.drop ((first c cs).text.length - 1) = c :: cs := by
  have hs := munches_first c cs
  obtain ⟨rest, hrest⟩ := hs.isPrefix
  obtain ⟨d, ds, hds⟩ := List.exists_cons_of_ne_nil hs.ne_nil
  rw [hds, List.cons_append] at hrest
  obtain ⟨rfl, rfl⟩ := List.cons.inj hrest
  simp [hds]

/-- Every text is cut into the spans that are computed. -/
theorem cuts_cut (text : List Char) : Cuts text (cut text) := by
  fun_induction cut text with
  | case1 => exact .nil
  | case2 c cs s ih =>
    have hs := munches_first c cs
    rw [← first_text_append c cs] at hs ⊢
    exact .cons hs ih

end Span

end Lox
