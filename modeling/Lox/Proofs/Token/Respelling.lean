import Lox.Proofs.Stmt.Likeness
import Lox.Proofs.Token.Lines
import Lox.Proofs.Token.MaximalMunch

/-!
Tokens written out again. The lexemes of the tokens of a text, with separators between them, are scanned to the same
tokens on other lines.

* `Filler cs`: the characters are blanks and comments, each comment with the end of its line.
* `Separator cs`: a filler that starts with a blank.
* `writtenOut tokens separators`: the lexemes of the tokens, each with a separator behind it.
* `Token.Spelled t`: a rule matches the lexeme of the token, and reads it as the token.

No rule but that of comments goes on over a blank behind one of its matches, so a lexeme in front of a separator is
again the first span (`munches_before_blank`).
-/

namespace Lox

/-! ## Separators -/

/-- The characters are blanks and comments with the ends of their lines. -/
inductive Filler : List Char → Prop
  | nil : Filler []
  | blank {c : Char} {cs : List Char} : isBlank c = true → Filler cs → Filler (c :: cs)
  | comment {body cs : List Char} : '\n' ∉ body → Filler cs → Filler ('/' :: '/' :: (body ++ '\n' :: cs))

/-- The characters are a blank with a filler behind it. -/
def Separator (cs : List Char) : Prop := ∃ b rest, cs = b :: rest ∧ isBlank b = true ∧ Filler rest

/-- the lexemes of tokens, each with a separator behind it -/
def writtenOut : List Token → List String → String
  | t :: tokens, s :: separators => t.lexeme ++ s ++ writtenOut tokens separators
  | _, _ => ""

namespace Span

theorem cut_of_munches {s : Span} {rest : List Char} (h : Munches (s.text ++ rest) s) :
    cut (s.text ++ rest) = s :: cut rest :=
  (cuts_cut _).unique (.cons h (cuts_cut rest))

/-- What matches a rule is the first span of a text where nothing is behind it. -/
theorem munches_alone {r : Rule} {s : List Char} (h : r.Matches s) : Munches s ⟨.rule r, s⟩ :=
  .longest h List.prefix_rfl fun _ _ _ hprefix => hprefix.length_le

/-- What matches a rule other than that of comments comes first in a text where a blank is behind it. -/
theorem munches_before_blank {r : Rule} {s : List Char} (h : r.Matches s) (hr : r ≠ .comment) {b : Char}
    (hb : isBlank b = true) (rest : List Char) : Munches (s ++ b :: rest) ⟨.rule r, s⟩ := by
  obtain ⟨c, cs, rfl, -⟩ := h.of?_head
  have hfirst : first c cs = ⟨.rule r, c :: cs⟩ := (munches_first c cs).unique (munches_alone h)
  have happend := first_append_blank c cs rest hb (by simp [hfirst]) (by simp [hfirst, hr])
  rw [List.cons_append, ← hfirst, ← happend]
  exact munches_first c _

/-- The spans are blanks and comments. -/
def Silent (spans : List Span) : Prop := ∀ s ∈ spans, s.kind = .rule .blank ∨ s.kind = .rule .comment

theorem Silent.lexical {spans : List Span} (h : Silent spans) : Lexical spans :=
  fun s hs => (h s hs).elim (fun hkind => ⟨_, hkind⟩) fun hkind => ⟨_, hkind⟩

theorem Silent.tokens {spans : List Span} (h : Silent spans) (line : Nat) :
    (place line spans).filterMap (fun p => p.2.token? p.1) = [] := by
  refine List.filterMap_eq_nil_iff.2 fun p hp => ?_
  rcases h p.2 (mem_of_mem_place hp) with hkind | hkind <;> simp [token?, hkind]

/-- A filler in front of a text is cut into blanks and comments. -/
theorem cut_filler {cs : List Char} (h : Filler cs) (rest : List Char) :
    ∃ spans, Silent spans ∧ cut (cs ++ rest) = spans ++ cut rest := by
  have hblank : ∀ {c : Char} (text : List Char), isBlank c = true → cut (c :: text) = ⟨.rule .blank, [c]⟩ :: cut text :=
    fun text hc => cut_of_munches (s := ⟨.rule .blank, [_]⟩) (munches_blank hc text)
  induction h with
  | nil => exact ⟨[], by simp [Silent], rfl⟩
  | @blank c cs hc _ ih =>
    obtain ⟨spans, hspans, hcut⟩ := ih
    refine ⟨⟨.rule .blank, [c]⟩ :: spans, List.forall_mem_cons.2 ⟨.inl rfl, hspans⟩, ?_⟩
    rw [List.cons_append, hblank _ hc, hcut, List.cons_append]
  | @comment body cs hbody _ ih =>
    obtain ⟨spans, hspans, hcut⟩ := ih
    have hline : (body ++ '\n' :: (cs ++ rest)).takeWhile (· ≠ '\n') = body := by
      rw [takeWhile_append_stop _ _ (by simp), List.takeWhile_eq_self_iff]
      exact fun d hd => decide_eq_true fun heq => hbody (heq ▸ hd)
    have hcomment := @munches_comment (body ++ '\n' :: (cs ++ rest))
    rw [hline] at hcomment
    have hfirst := @cut_of_munches ⟨.rule .comment, '/' :: '/' :: body⟩ ('\n' :: (cs ++ rest)) hcomment
    refine ⟨⟨.rule .comment, '/' :: '/' :: body⟩ :: ⟨.rule .blank, ['\n']⟩ :: spans, ?_, ?_⟩
    · exact List.forall_mem_cons.2 ⟨.inr rfl, List.forall_mem_cons.2 ⟨.inl rfl, hspans⟩⟩
    · simp only [List.cons_append, List.append_assoc] at hfirst ⊢
      rw [hfirst, hblank _ (by decide), hcut]

theorem lexical_append {spans spans' : List Span} : Lexical (spans ++ spans') ↔ Lexical spans ∧ Lexical spans' :=
  List.forall_mem_append

/-- The token a span is has the same kind, lexeme and literal on every line. -/
theorem token?_anywhere {s : Span} {line : Nat} {t : Token} (h : s.token? line = some t) (line' : Nat) :
    ∃ u, s.token? line' = some u ∧ Likeness.anywhere.Rel t u := by
  have hline := token?_add 0 line s
  have hline' := token?_add 0 line' s
  rw [Nat.zero_add] at hline hline'
  rw [hline] at h
  obtain ⟨v, hv, rfl⟩ := Option.map_eq_some_iff.1 h
  exact ⟨v.lowered line', by rw [hline', hv]; rfl, rfl, rfl, rfl⟩

theorem lexeme_of_token? {s : Span} {line : Nat} {t : Token} (h : s.token? line = some t) :
    t.lexeme = String.ofList s.text := by
  unfold token? at h
  dsimp only at h
  split at h
  · obtain ⟨kind, -, rfl⟩ := Option.map_eq_some_iff.1 h
    rfl
  all_goals cases h
  all_goals rfl

end Span

/-! ## Lexemes -/

/-- A rule matches the lexeme of the token, and reads it as the token. -/
def Token.Spelled (t : Token) : Prop :=
  ∃ (r : Rule) (line : Nat), r.Matches t.lexeme.toList ∧ (Span.mk (.rule r) t.lexeme.toList).token? line = some t

theorem spelled_of_mem_tokensOf {text : List Char} {t : Token} (h : t ∈ tokensOf text) : t.Spelled := by
  obtain ⟨⟨line, kind, cs⟩, hp, ht⟩ := List.mem_filterMap.1 h
  have hgenuine := (Span.cuts_cut text).genuine _ (Span.mem_of_mem_place hp)
  have hlexeme : t.lexeme.toList = cs := by
    rw [Span.lexeme_of_token? ht]
    exact String.toList_ofList
  cases kind with
  | rule r => exact ⟨r, line, hlexeme ▸ hgenuine r rfl, hlexeme ▸ ht⟩
  | openString => cases ht
  | stray => cases ht

theorem spelled_of_mem_scan {source : String} {t : Token} (h : t ∈ (scan source).tokens) (hkind : t.kind ≠ .endMark) :
    t.Spelled := by
  rw [scan_tokens] at h
  rcases List.mem_append.1 h with h | h
  · exact spelled_of_mem_tokensOf h
  · rw [List.mem_singleton.1 h] at hkind
    exact absurd rfl hkind

/-- A spelled token is an operator, a number with the value of its numeral, a string or a word. -/
theorem Token.Spelled.cases {t : Token} (h : t.Spelled) :
    (t.lexeme.toList, t.kind) ∈ operators ∨
    (t.kind = .number ∧ Rule.Matches .number t.lexeme.toList ∧
      t.literal = some (.number (Numeral.value t.lexeme.toList))) ∨
    t.kind = .string ∨
    (t.kind = .ofWord t.lexeme ∧ Rule.Matches .word t.lexeme.toList) := by
  obtain ⟨r, line, hmatches, htoken⟩ := h
  generalize t.lexeme.toList = text at hmatches htoken ⊢
  unfold Span.token? at htoken
  cases r with
  | operator =>
    obtain ⟨kind, hlookup, rfl⟩ := Option.map_eq_some_iff.1 htoken
    obtain ⟨before, after, heq, -⟩ := List.lookup_eq_some_iff.1 hlookup
    exact .inl (by simp [heq])
  | number =>
    obtain rfl := Option.some.inj htoken
    exact .inr (.inl ⟨rfl, hmatches, rfl⟩)
  | string =>
    obtain rfl := Option.some.inj htoken
    exact .inr (.inr (.inl rfl))
  | word =>
    obtain rfl := Option.some.inj htoken
    exact .inr (.inr (.inr ⟨rfl, hmatches⟩))
  | comment | blank => cases htoken

/-- Spelled tokens with the same lexeme differ in their lines at most. -/
theorem Token.Spelled.anywhere {t u : Token} (ht : t.Spelled) (hu : u.Spelled) (h : u.lexeme = t.lexeme) :
    Likeness.anywhere.Rel t u := by
  obtain ⟨r, line, hmatches, htoken⟩ := ht
  obtain ⟨r', line', hmatches', htoken'⟩ := hu
  rw [h] at hmatches' htoken'
  obtain rfl := hmatches.unique hmatches'
  obtain ⟨v, hv, halike⟩ := Span.token?_anywhere htoken line'
  rw [htoken'] at hv
  exact Option.some.inj hv ▸ halike

/-- Spelled tokens of different kinds have different lexemes. -/
theorem Token.Spelled.lexeme_ne {t u : Token} (ht : t.Spelled) (hu : u.Spelled) (h : u.kind ≠ t.kind) :
    u.lexeme ≠ t.lexeme :=
  fun heq => h (ht.anywhere hu heq).1

/-- Spelled tokens that are written out are cut without an error, and read again. -/
theorem tokens_writtenOut {tokens : List Token} (htokens : ∀ t ∈ tokens, t.Spelled) {separators : List String}
    (hlength : separators.length = tokens.length) (hseparators : ∀ s ∈ separators, Separator s.toList) (line : Nat) :
    let spans := Span.cut (writtenOut tokens separators).toList
    Span.Lexical spans ∧ List.Forall₂ Likeness.anywhere.Rel tokens
      ((Span.place line spans).filterMap fun p => p.2.token? p.1) := by
  induction tokens generalizing separators line with
  | nil => simp [writtenOut, Span.cut, Span.Lexical, Span.place]
  | cons t tokens ih =>
    obtain ⟨s, separators, rfl⟩ := List.exists_cons_of_length_eq_add_one hlength
    obtain ⟨ht, htokens⟩ := List.forall_mem_cons.1 htokens
    obtain ⟨hs, hseparators⟩ := List.forall_mem_cons.1 hseparators
    obtain ⟨r, line', hmatches, hread⟩ := ht
    obtain ⟨b, filler, hfiller, hb, hfills⟩ := hs
    have hr : r ≠ .comment := by
      rintro rfl
      cases hread
    -- the lexeme is the first span, and the separator is cut into blanks and comments
    obtain ⟨silent, hsilent, hcut⟩ := Span.cut_filler (Filler.blank hb hfills) (writtenOut tokens separators).toList
    have hfirst := Span.cut_of_munches (s := ⟨.rule r, t.lexeme.toList⟩)
      (Span.munches_before_blank hmatches hr hb (filler ++ (writtenOut tokens separators).toList))
    have hspans : Span.cut (writtenOut (t :: tokens) (s :: separators)).toList =
        ⟨.rule r, t.lexeme.toList⟩ :: (silent ++ Span.cut (writtenOut tokens separators).toList) := by
      rw [← hcut]
      simpa [writtenOut, hfiller] using hfirst
    obtain ⟨u, hu, halike⟩ := Span.token?_anywhere hread line
    intro spans
    simp only [spans, hspans, Span.place, Span.place_append, List.filterMap_append, List.filterMap_cons, hu,
      hsilent.tokens, List.nil_append]
    obtain ⟨hlexical, hrest⟩ := ih htokens (Nat.succ.inj hlength) hseparators
      (line + t.lexeme.toList.count '\n' + (silent.flatMap Span.text).count '\n')
    exact ⟨List.forall_mem_cons.2 ⟨⟨r, rfl⟩, Span.lexical_append.2 ⟨hsilent.lexical, hlexical⟩⟩, .cons halike hrest⟩

/-- **Tokens survive being written out.** Take the tokens of any source text, errors or not, and write out their lexemes
with separators behind them, and any filler in front. The text this gives has no lexical error, and its tokens, the end
mark included, are those of the source in the same order; only their lines differ. -/
theorem written_out_reads_same (source : String) {filler : String} {separators : List String}
    (hfiller : Filler filler.toList) (hlength : separators.length = (scan source).tokens.dropLast.length)
    (hseparators : ∀ s ∈ separators, Separator s.toList) :
    let written := filler ++ writtenOut (scan source).tokens.dropLast separators
    (scan written).errors = [] ∧ (scan written).fault = none ∧
      List.Forall₂ Likeness.anywhere.Rel (scan source).tokens (scan written).tokens := by
  intro written
  have htokens : (scan source).tokens.dropLast = tokensOf source.toList := by rw [scan_tokens, List.dropLast_concat]
  obtain ⟨silent, hsilent, hcut⟩ :=
    Span.cut_filler hfiller (writtenOut (scan source).tokens.dropLast separators).toList
  have hspans : Span.cut written.toList =
      silent ++ Span.cut (writtenOut (scan source).tokens.dropLast separators).toList := by
    rw [← hcut, String.toList_append]
  rw [htokens] at hlength hspans
  obtain ⟨hlexical, hread⟩ := tokens_writtenOut (fun t => spelled_of_mem_tokensOf) hlength hseparators
    (1 + (silent.flatMap Span.text).count '\n')
  rw [scan_eq written, scan_tokens source, hspans]
  refine ⟨Span.errors_eq_nil_iff.2 (Span.lexical_append.2 ⟨hsilent.lexical, hlexical⟩), rfl, ?_⟩
  simp only [Span.place_append, List.filterMap_append, hsilent.tokens, List.nil_append]
  exact List.rel_append hread (.cons ⟨rfl, rfl, rfl⟩ .nil)

/-- Tokens of a text with an error, among them two that would merge and a string that looks like a comment. -/
theorem written_out_reads_same_merging :
    let source := "@1./= =\"//\n\""
    let separators := [" ", "\n", " // =\n", "\t", "\r\n", " "]
    let written := "//\n1 .\n/ // =\n=\t=\r\n\"//\n\" "
    (scan source).errors = [⟨1, "", "Unexpected character."⟩] ∧ Filler "//\n".toList ∧
    separators.length = (scan source).tokens.dropLast.length ∧ (∀ s ∈ separators, Separator s.toList) ∧
    "//\n" ++ writtenOut (scan source).tokens.dropLast separators = written ∧ (scan written).errors = [] ∧
    List.Forall₂ Likeness.anywhere.Rel (scan source).tokens (scan written).tokens := by
  intro source separators written
  have hfiller : Filler "//\n".toList := @Filler.comment [] [] (by decide) .nil
  have hlength : separators.length = (scan source).tokens.dropLast.length := by decide +kernel
  have hseparators : ∀ s ∈ separators, Separator s.toList := by
    have hblank : ∀ b : Char, isBlank b = true → Separator [b] := fun b hb => ⟨b, [], rfl, hb, .nil⟩
    simp only [separators, List.forall_mem_cons]
    refine ⟨hblank ' ' (by decide), hblank '\n' (by decide), ?_, hblank '\t' (by decide), ?_, hblank ' ' (by decide), ?_⟩
    · exact ⟨' ', _, rfl, by decide, @Filler.comment [' ', '='] [] (by decide) .nil⟩
    · exact ⟨'\r', _, rfl, by decide, .blank (by decide) .nil⟩
    · simp
  have hwritten : "//\n" ++ writtenOut (scan source).tokens.dropLast separators = written := by decide +kernel
  obtain ⟨herrors, -, hread⟩ := written_out_reads_same source hfiller hlength hseparators
  rw [hwritten] at herrors hread
  exact ⟨by decide +kernel, hfiller, hlength, hseparators, hwritten, herrors, hread⟩

end Lox
