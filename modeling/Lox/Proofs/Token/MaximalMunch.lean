import Mathlib.Data.List.Forall2
import Lox.Proofs.Token.Reader

/-!
Scanning cuts a source text by the rule of the longest match, and reads the spans one by one.

* `Reads line s t`: the span `s` on a line is read as the token `t`.
* `scan_reads_cut`: the text is cut in one way, its operators, numerals, strings and words are read
  as the tokens, and its open string and stray characters are the errors.
-/

namespace Lox

/-- The span on a line is read as the token. -/
inductive Reads (line : Nat) : Span → Token → Prop
  | operator {s : List Char} {kind : TokenKind} : (s, kind) ∈ operators →
      Reads line ⟨.rule .operator, s⟩ ⟨kind, String.ofList s, none, line⟩
  | number {s : List Char} {value : Float} : Numeral.value? s = some value →
      Reads line ⟨.rule .number, s⟩ ⟨.number, String.ofList s, some (.number value), line⟩
  | string {body : List Char} : Reads line ⟨.rule .string, '"' :: (body ++ ['"'])⟩
      ⟨.string, String.ofList ('"' :: (body ++ ['"'])), some (.string (String.ofList body)), line⟩
  | reserved {s : List Char} {kind : TokenKind} : (String.ofList s, kind) ∈ TokenKind.reserved →
      Reads line ⟨.rule .word, s⟩ ⟨kind, String.ofList s, none, line⟩
  | identifier {s : List Char} : String.ofList s ∉ TokenKind.reserved.map Prod.fst →
      Reads line ⟨.rule .word, s⟩ ⟨.identifier, String.ofList s, none, line⟩

namespace Span

/-- the spans that are tokens -/
def isToken (s : Span) : Bool :=
  match s.kind with
  | .rule .operator | .rule .number | .rule .string | .rule .word => true
  | .rule .comment | .rule .blank | .openString | .stray => false

/-- The span is what its kind says. -/
def Genuine (s : Span) : Prop := ∀ r, s.kind = .rule r → r.Matches s.text

theorem token?_of_isToken_eq_false {s : Span} (h : s.isToken = false) (line : Nat) :
    s.token? line = none := by
  unfold isToken at h
  unfold token?
  split at h <;> simp_all

theorem reads_word (line : Nat) (s : List Char) :
    Reads line ⟨.rule .word, s⟩ ⟨.ofWord (String.ofList s), String.ofList s, none, line⟩ := by
  unfold TokenKind.ofWord
  cases hlookup : TokenKind.reserved.lookup (String.ofList s) with
  | none =>
    refine .identifier fun hmem => ?_
    obtain ⟨pair, hpair, hword⟩ := List.mem_map.1 hmem
    have hne := List.lookup_eq_none_iff.1 hlookup pair hpair
    simp [hword] at hne
  | some kind =>
    obtain ⟨before, after, heq, -⟩ := List.lookup_eq_some_iff.1 hlookup
    exact .reserved (by simp [heq])

theorem reads_token? {s : Span} (hs : s.Genuine) (h : s.isToken = true) (line : Nat) :
    ∃ t, s.token? line = some t ∧ Reads line s t := by
  obtain ⟨kind, text⟩ := s
  unfold isToken at h
  split at h
  · rename_i hkind
    obtain rfl : kind = .rule .operator := hkind
    cases hs .operator rfl with
    | operator hmem =>
      have hall : ∀ pair ∈ operators, operators.lookup pair.1 = some pair.2 := by decide
      exact ⟨_, by simp only [token?, hall _ hmem]; rfl, .operator hmem⟩
  · rename_i hkind
    obtain rfl : kind = .rule .number := hkind
    exact ⟨_, rfl, .number (if_pos (hs .number rfl).wellFormed)⟩
  · rename_i hkind
    obtain rfl : kind = .rule .string := hkind
    cases hs .string rfl with
    | @string body _ => exact ⟨_, by simp [token?], .string⟩
  · rename_i hkind
    obtain rfl : kind = .rule .word := hkind
    exact ⟨_, rfl, reads_word line text⟩
  all_goals cases h

/-- Spans that are tokens are read in order, the others are passed over. -/
theorem forall₂_reads {placed : List (Nat × Span)} (h : ∀ p ∈ placed, p.2.Genuine) :
    List.Forall₂ (fun p t => Reads p.1 p.2 t) (placed.filter (·.2.isToken))
      (placed.filterMap fun p => p.2.token? p.1) := by
  induction placed with
  | nil => exact .nil
  | cons p placed ih =>
    have hplaced := ih fun q hq => h q (List.mem_cons_of_mem p hq)
    cases htoken : p.2.isToken with
    | false => simpa [htoken, token?_of_isToken_eq_false htoken p.1] using hplaced
    | true =>
      obtain ⟨t, ht, hreads⟩ := reads_token? (h p List.mem_cons_self) htoken p.1
      simpa [htoken, ht] using ⟨hreads, hplaced⟩

theorem mem_of_mem_place {line : Nat} {spans : List Span} {p : Nat × Span}
    (h : p ∈ place line spans) : p.2 ∈ spans := by
  induction spans generalizing line with
  | nil => cases h
  | cons s spans ih =>
    rcases List.mem_cons.1 h with rfl | h
    · exact List.mem_cons_self
    · exact List.mem_cons_of_mem s (ih h)

end Span

theorem Munches.genuine {text : List Char} {s : Span} (h : Munches text s) : s.Genuine := by
  intro r hr
  cases h with
  | longest hmatches _ _ => exact SpanKind.rule.inj hr ▸ hmatches
  | openString | stray => cases hr

theorem Cuts.genuine {text : List Char} {spans : List Span} (h : Cuts text spans) :
    ∀ s ∈ spans, s.Genuine := by
  induction h with
  | nil => simp
  | cons hs _ ih =>
    intro s hmem
    rcases List.mem_cons.1 hmem with rfl | hmem
    · exact hs.genuine
    · exact ih s hmem

/-- **Scanning reads the longest matches.** A source text is cut in one way into the longest matches
of the lexical rules and what no rule matches, and nothing of it is lost. The operators, numerals,
strings and words among the spans are read as the tokens, in order and on the lines they start on,
the end mark coming last; each open string and each stray character is one error, and there are no
others. -/
theorem scan_reads_cut (source : String) : ∃ (spans : List Span) (tokens : List Token),
    Cuts source.toList spans ∧ (∀ spans', Cuts source.toList spans' → spans' = spans) ∧
    spans.flatMap Span.text = source.toList ∧
    List.Forall₂ (fun p t => Reads p.1 p.2 t) ((Span.place 1 spans).filter (·.2.isToken)) tokens ∧
    scan source = ⟨tokens ++ [Token.endOn (1 + source.toList.count '\n')],
      (Span.place 1 spans).filterMap (fun p => p.2.error? p.1), none⟩ := by
  have hcuts := Span.cuts_cut source.toList
  have hgenuine : ∀ p ∈ Span.place 1 (Span.cut source.toList), p.2.Genuine := fun p hp =>
    hcuts.genuine p.2 (Span.mem_of_mem_place hp)
  exact ⟨_, _, hcuts, fun _ h => h.unique hcuts, hcuts.flatMap_text, Span.forall₂_reads hgenuine,
    scan_eq source⟩

end Lox
