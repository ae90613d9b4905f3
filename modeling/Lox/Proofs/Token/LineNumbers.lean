import Lox.Proofs.Token.MaximalMunch

/-!
Lines: a token, and an error, is on the line of its first character, which is one more than the line ends before it.

* `Span.withBefore before spans`: the spans, each with the text before it.
* `Span.isError`: the spans that are errors.
* `Rejects line s e`: the span `s` on a line is the error `e`.

The lines that spans are placed on are counted from the text before them (`Span.place_eq`), also behind a string of
several lines.
-/

namespace Lox

/-- The span on a line is the error. -/
inductive Rejects (line : Nat) : Span → SyntaxError → Prop
  | openString {cs : List Char} : Rejects line ⟨.openString, '"' :: cs⟩ ⟨line, "", "Unterminated string."⟩
  | stray {c : Char} : Rejects line ⟨.stray, [c]⟩ ⟨line, "", "Unexpected character."⟩

namespace Span

/-- the spans, each with the text before it, of which the first has `before` -/
def withBefore : List Char → List Span → List (List Char × Span)
  | _, [] => []
  | before, s :: spans => (before, s) :: withBefore (before ++ s.text) spans

/-- the spans that are errors -/
def isError (s : Span) : Bool :=
  match s.kind with
  | .openString | .stray => true
  | .rule _ => false

section Before

variable {before : List Char} {spans : List Span}

/-- Spans are placed on lines by the line ends before them. -/
theorem place_eq (before : List Char) : place (1 + before.count '\n') spans =
    (withBefore before spans).map fun p => (1 + p.1.count '\n', p.2) := by
  induction spans generalizing before with
  | nil => rfl
  | cons s spans ih =>
    have hrest := ih (before ++ s.text)
    rw [List.count_append, ← Nat.add_assoc] at hrest
    rw [place, withBefore, List.map_cons, hrest]

theorem place_one (spans : List Span) :
    place 1 spans = (withBefore [] spans).map fun p => (1 + p.1.count '\n', p.2) :=
  place_eq []

/-- A span comes right behind the text before it. -/
theorem isPrefix_of_mem_withBefore {p : List Char × Span} (h : p ∈ withBefore before spans) :
    before <+: p.1 ∧ p.1 ++ p.2.text <+: before ++ spans.flatMap text := by
  induction spans generalizing before with
  | nil => cases h
  | cons s spans ih =>
    rcases List.mem_cons.1 h with rfl | h
    · exact ⟨List.prefix_refl _, by simp⟩
    · obtain ⟨hbefore, hspan⟩ := ih h
      exact ⟨(List.prefix_append _ _).trans hbefore, by simpa using hspan⟩

/-- What comes before a span begins what comes before a later one. -/
theorem pairwise_withBefore : (withBefore before spans).Pairwise fun p q => p.1 <+: q.1 := by
  induction spans generalizing before with
  | nil => exact .nil
  | cons s spans ih =>
    refine .cons (fun q hq => ?_) ih
    exact (List.prefix_append before s.text).trans (isPrefix_of_mem_withBefore hq).1

end Before

/-! ## Errors -/

theorem rejects_error? {text : List Char} {s : Span} (hs : Munches text s) (h : s.isError = true) (line : Nat) :
    ∃ e, s.error? line = some e ∧ Rejects line s e := by
  cases hs with
  | longest => cases h
  | openString => exact ⟨_, rfl, .openString⟩
  | stray => exact ⟨_, rfl, .stray⟩

theorem error?_of_isError_eq_false {s : Span} (h : s.isError = false) (line : Nat) : s.error? line = none := by
  obtain ⟨kind, text⟩ := s
  cases kind with
  | rule => rfl
  | openString | stray => cases h

/-- Spans that are errors are reported in order, the others are not. -/
theorem forall₂_rejects {placed : List (Nat × Span)} (h : ∀ p ∈ placed, ∃ text, Munches text p.2) :
    List.Forall₂ (fun p e => Rejects p.1 p.2 e) (placed.filter (·.2.isError))
      (placed.filterMap fun p => p.2.error? p.1) := by
  induction placed with
  | nil => exact .nil
  | cons p placed ih =>
    have hplaced := ih fun q hq => h q (List.mem_cons_of_mem p hq)
    cases herror : p.2.isError with
    | false => simpa [herror, error?_of_isError_eq_false herror p.1] using hplaced
    | true =>
      obtain ⟨text, hp⟩ := h p List.mem_cons_self
      obtain ⟨e, he, hrejects⟩ := rejects_error? hp herror p.1
      simpa [herror, he] using ⟨hrejects, hplaced⟩

end Span

theorem Cuts.munches {text : List Char} {spans : List Span} (h : Cuts text spans) :
    ∀ s ∈ spans, ∃ text', Munches text' s := by
  induction h with
  | nil => simp
  | cons hs _ ih =>
    intro s hmem
    rcases List.mem_cons.1 hmem with rfl | hmem
    · exact ⟨_, hs⟩
    · exact ih s hmem

/-! ## Lines -/

theorem Reads.line_eq {line : Nat} {s : Span} {t : Token} (h : Reads line s t) : t.line = line := by
  cases h <;> rfl

theorem Reads.lexeme_eq {line : Nat} {s : Span} {t : Token} (h : Reads line s t) : t.lexeme = String.ofList s.text := by
  cases h <;> rfl

theorem map_line_eq {placed : List (List Char × Span)} {tokens : List Token}
    (h : List.Forall₂ (fun p t => Reads (1 + p.1.count '\n') p.2 t) placed tokens) :
    tokens.map Token.line = placed.map fun p => 1 + p.1.count '\n' := by
  induction h with
  | nil => rfl
  | cons hreads _ ih => rw [List.map_cons, List.map_cons, hreads.line_eq, ih]

/-- A text has at least the line ends of its beginnings. -/
theorem line_le_of_isPrefix {before text : List Char} (h : before <+: text) :
    1 + before.count '\n' ≤ 1 + text.count '\n' :=
  Nat.add_le_add_left (h.sublist.count_le '\n') 1

/-- **Tokens and errors are on the line of their first character.** A source text is cut in one way. Behind the text
before it each span comes next; the spans that are tokens are read in order, each on the line that the line ends before it
count up to, and so are the open string and the stray characters among the errors; the end mark is on the line after all
line ends. So the lines of the tokens do not decrease. -/
theorem lines_count_newlines (source : String) : ∃ (spans : List Span) (tokens : List Token),
    Cuts source.toList spans ∧ (∀ spans', Cuts source.toList spans' → spans' = spans) ∧
    (∀ p ∈ Span.withBefore [] spans, p.1 ++ p.2.text <+: source.toList) ∧
    (scan source).tokens = tokens ++ [Token.endOn (1 + source.toList.count '\n')] ∧
    List.Forall₂ (fun p t => t.lexeme = String.ofList p.2.text ∧ t.line = 1 + p.1.count '\n')
      ((Span.withBefore [] spans).filter (·.2.isToken)) tokens ∧
    List.Forall₂ (fun p e => Rejects (1 + p.1.count '\n') p.2 e)
      ((Span.withBefore [] spans).filter (·.2.isError)) (scan source).errors ∧
    ((scan source).tokens.map Token.line).Pairwise (· ≤ ·) := by
  have hcuts := Span.cuts_cut source.toList
  have hbehind : ∀ p ∈ Span.withBefore [] (Span.cut source.toList), p.1 ++ p.2.text <+: source.toList := fun p hp => by
    simpa [hcuts.flatMap_text] using (Span.isPrefix_of_mem_withBefore hp).2
  have hmem : ∀ p ∈ Span.place 1 (Span.cut source.toList), p.2 ∈ Span.cut source.toList := fun _ => Span.mem_of_mem_place
  have hreads := Span.forall₂_reads fun p hp => hcuts.genuine p.2 (hmem p hp)
  have hrejects := Span.forall₂_rejects fun p hp => hcuts.munches p.2 (hmem p hp)
  simp only [scan_eq]
  generalize (Span.place 1 (Span.cut source.toList)).filterMap (fun p => p.2.token? p.1) = tokens at hreads ⊢
  generalize (Span.place 1 (Span.cut source.toList)).filterMap (fun p => p.2.error? p.1) = errors at hrejects ⊢
  rw [Span.place_one, List.filter_map, List.forall₂_map_left_iff] at hreads hrejects
  refine ⟨_, tokens, hcuts, fun _ h => h.unique hcuts, hbehind, rfl,
    hreads.imp fun p t h => ⟨h.lexeme_eq, h.line_eq⟩, hrejects, ?_⟩
  rw [List.map_append, map_line_eq hreads, List.pairwise_append]
  refine ⟨?_, List.pairwise_singleton _ _, fun line hline line' hline' => ?_⟩
  · rw [List.pairwise_map]
    exact (Span.pairwise_withBefore.filter _).imp line_le_of_isPrefix
  · obtain ⟨p, hp, rfl⟩ := List.mem_map.1 hline
    obtain rfl := List.mem_singleton.1 hline'
    exact line_le_of_isPrefix ((List.prefix_append _ _).trans (hbehind p (List.mem_of_mem_filter hp)))

/-- A string that goes over a line end is on the line of its opening quote, and what comes behind it on the next one. -/
example : (scan "1 \"\n\" 2 ?").tokens.map Token.line = [1, 1, 2, 2] ∧
    (scan "1 \"\n\" 2 ?").errors = [⟨2, "", "Unexpected character."⟩] := by decide +kernel

end Lox
