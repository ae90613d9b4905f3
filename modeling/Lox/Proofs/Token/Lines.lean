import Lox.Proofs.Stmt.Likeness
import Lox.Proofs.Token.Reader

/-!
Texts one below the other. A line end between two texts keeps their spans apart: what comes before it
is cut as if nothing followed, unless it has an open string, and what comes after it as if it stood
alone.

* `tokensOf text`: the tokens of a text, without the end mark.
* `Span.Lexical spans`: every span matches a rule, so that none is an error.
* `Span.Closed spans`: no span is an open string; there may be stray characters.

The spans of the joined text are those of both texts (`cut_append_newline`), so its tokens and errors are those of the
first text and, further down, those of the second (`scan_append_newline`).
-/

namespace Lox

/-- the error of the source some lines further down -/
def SyntaxError.lowered (k : Nat) (e : SyntaxError) : SyntaxError := { e with line := e.line + k }

/-! ## Tokens without the end mark -/

/-- the tokens of a text, without the end mark -/
def tokensOf (text : List Char) : List Token :=
  (Span.place 1 (Span.cut text)).filterMap fun p => p.2.token? p.1

theorem scan_tokens (source : String) :
    (scan source).tokens = tokensOf source.toList ++ [Token.endOn (1 + source.toList.count '\n')] := by
  rw [scan_eq]
  rfl

/-- The kind of a word is that of identifiers, or of a reserved word. -/
theorem TokenKind.ofWord_mem (word : String) : ofWord word ∈ .identifier :: reserved.map Prod.snd := by
  unfold ofWord
  cases hlookup : reserved.lookup word with
  | none => exact List.mem_cons_self
  | some kind =>
    obtain ⟨before, after, heq, -⟩ := List.lookup_eq_some_iff.1 hlookup
    exact List.mem_cons_of_mem _ (List.mem_map.2 ⟨(word, kind), by simp [heq], rfl⟩)

theorem TokenKind.ofWord_ne_endMark (word : String) : ofWord word ≠ .endMark := by
  have hall : ∀ kind ∈ .identifier :: reserved.map Prod.snd, kind ≠ .endMark := by decide
  exact hall _ (ofWord_mem word)

/-- No span is an end mark. -/
theorem Span.kind_of_token? {line : Nat} {s : Span} {t : Token} (h : s.token? line = some t) :
    t.kind ≠ .endMark := by
  unfold Span.token? at h
  dsimp only at h
  split at h
  · obtain ⟨kind, hlookup, rfl⟩ := Option.map_eq_some_iff.1 h
    obtain ⟨before, after, heq, -⟩ := List.lookup_eq_some_iff.1 hlookup
    have hall : ∀ pair ∈ operators, pair.2 ≠ .endMark := by decide
    exact hall (s.text, kind) (by simp [heq])
  · cases h
    simp
  · cases h
    simp
  · cases h
    exact TokenKind.ofWord_ne_endMark _
  all_goals cases h

theorem kind_of_mem_tokensOf {text : List Char} {t : Token} (h : t ∈ tokensOf text) : t.kind ≠ .endMark := by
  obtain ⟨p, -, ht⟩ := List.mem_filterMap.1 h
  exact Span.kind_of_token? ht

/-! ## The first span before a blank -/

namespace Span

section FirstSpan

variable {b : Char} (c : Char) (cs rest : List Char)

theorem takeWhile_append_stop {p : Char → Bool} (hp : p b = false) :
    (cs ++ b :: rest).takeWhile p = cs.takeWhile p := by
  induction cs with
  | nil => simp [hp]
  | cons d ds ih => simp [List.takeWhile_cons, ih]

theorem dropWhile_append_stop {p : Char → Bool} (hp : p b = false) :
    (cs ++ b :: rest).dropWhile p = cs.dropWhile p ++ b :: rest := by
  induction cs with
  | nil => simp [hp]
  | cons d ds ih =>
    by_cases hd : p d = true
    · simp [hd, ih]
    · simp [hd]

theorem head?_append_stop {d : Char} (hd : d ≠ b) :
    (cs ++ b :: rest).head? = some d ↔ cs.head? = some d := by
  cases cs with
  | nil => simp [Ne.symm hd]
  | cons e es => simp

variable (hb : isBlank b = true)

include hb

omit c cs rest in
theorem ne_of_isBlank {d : Char} (hd : isBlank d = false) : d ≠ b := by
  rintro rfl
  rw [hb] at hd
  cases hd

omit c in
theorem fraction_append_blank : fraction (cs ++ b :: rest) = fraction cs := by
  have hpoint : '.' ≠ b := ne_of_isBlank hb (by decide)
  have hdigit : Char.isDigit b = false := Rule.eq_false_of_isBlank (by decide) hb
  cases cs with
  | nil => simp [fraction, Ne.symm hpoint]
  | cons d ds =>
    by_cases hd : d = '.'
    · subst hd
      simp only [List.cons_append, fraction, takeWhile_append_stop ds rest hdigit]
    · simp [fraction, hd]

omit c in
theorem numeralTail_append_blank : numeralTail (cs ++ b :: rest) = numeralTail cs := by
  have hdigit : Char.isDigit b = false := Rule.eq_false_of_isBlank (by decide) hb
  unfold numeralTail
  rw [takeWhile_append_stop cs rest hdigit, dropWhile_append_stop cs rest hdigit, fraction_append_blank _ rest hb]

/-- A blank behind a text does not change its first span, unless that is an open string, or a comment and
the blank is no line end. -/
theorem first_append_blank (h : (first c cs).kind ≠ .openString)
    (hcomment : (first c cs).kind = .rule .comment → b = '\n') : first c (cs ++ b :: rest) = first c cs := by
  unfold first at h hcomment ⊢
  split
  · have hslash := head?_append_stop cs rest (ne_of_isBlank hb (by decide : isBlank '/' = false))
    have hequal := head?_append_stop cs rest (ne_of_isBlank hb (by decide : isBlank '=' = false))
    simp only [hslash, hequal]
    split
    · rename_i hc hstarts
      simp only [hc, if_pos hstarts, forall_const] at hcomment
      subst hcomment
      rw [takeWhile_append_stop cs rest (by simp)]
    · rfl
  · rw [numeralTail_append_blank cs rest hb]
  · rename_i hc
    simp only [hc] at h
    by_cases hquote : '"' ∈ cs
    · obtain ⟨body, after, rfl, hbody⟩ := List.eq_append_cons_of_mem hquote
      have hmem : '"' ∈ body ++ '"' :: after ++ b :: rest := by simp
      rw [if_pos hquote, if_pos hmem, takeWhile_quote_append hbody, List.append_assoc, List.cons_append,
        takeWhile_quote_append hbody]
    · rw [if_neg hquote] at h
      exact absurd rfl h
  · rw [takeWhile_append_stop cs rest (Rule.eq_false_of_isBlank (by decide) hb)]
  · rfl
  · rfl

end FirstSpan

/-! ## All spans -/

/-- Every span matches a rule, and so none is an error. -/
def Lexical (spans : List Span) : Prop := ∀ s ∈ spans, ∃ r, s.kind = .rule r

/-- No span is an open string, and so each ends where it would in a longer text. -/
def Closed (spans : List Span) : Prop := ∀ s ∈ spans, s.kind ≠ .openString

theorem Lexical.closed {spans : List Span} (h : Lexical spans) : Closed spans := by
  intro s hs hopen
  obtain ⟨r, hr⟩ := h s hs
  rw [hr] at hopen
  cases hopen

/-- An open string is an error, with a message that no other has. -/
theorem closed_of_errors {line : Nat} {spans : List Span}
    (h : ∀ e ∈ (place line spans).filterMap (fun p => p.2.error? p.1), e.message ≠ "Unterminated string.") :
    Closed spans := by
  induction spans generalizing line with
  | nil => simp [Closed]
  | cons s spans ih =>
    rw [place, List.filterMap_cons] at h
    refine List.forall_mem_cons.2 ⟨fun hopen => ?_, ?_⟩
    · have herror : s.error? line = some ⟨line, "", "Unterminated string."⟩ := by rw [error?, hopen]
      rw [herror] at h
      exact h _ List.mem_cons_self rfl
    · cases herror : s.error? line with
      | none => exact ih (by simpa only [herror] using h)
      | some e =>
        rw [herror] at h
        exact ih (List.forall_mem_cons.1 h).2

theorem errors_eq_nil_iff {line : Nat} {spans : List Span} :
    (place line spans).filterMap (fun p => p.2.error? p.1) = [] ↔ Lexical spans := by
  induction spans generalizing line with
  | nil => simp [place, Lexical]
  | cons s spans ih =>
    have hnone : s.error? line = none ↔ ∃ r, s.kind = .rule r := by
      unfold error?
      split <;> simp_all
    have hcons : Lexical (s :: spans) ↔ s.error? line = none ∧ Lexical spans := by
      rw [hnone]
      exact List.forall_mem_cons
    rw [place, List.filterMap_cons, hcons]
    cases herror : s.error? line with
    | none => simpa only [true_and] using ih
    | some e => simp

theorem first_newline (rest : List Char) : first '\n' rest = ⟨.rule .blank, ['\n']⟩ := by
  have hrule : Rule.of? '\n' = some .blank := by decide
  simp [first, hrule]

/-- A line end keeps the spans before it and behind it apart. -/
theorem cut_append_newline {text : List Char} (below : List Char) (h : Closed (cut text)) :
    cut (text ++ '\n' :: below) = cut text ++ ⟨.rule .blank, ['\n']⟩ :: cut below := by
  fun_induction cut text with
  | case1 =>
    rw [List.nil_append, cut, first_newline]
    rfl
  | case2 c cs s ih =>
    obtain ⟨hs, hspans⟩ := List.forall_mem_cons.1 h
    have hfirst : first c (cs ++ '\n' :: below) = s := first_append_blank c cs below rfl hs fun _ => rfl
    have hlength : s.text.length - 1 ≤ cs.length := by
      have hle := (munches_first c cs).isPrefix.length_le
      simp only [List.length_cons] at hle
      show (first c cs).text.length - 1 ≤ cs.length
      omega
    rw [List.cons_append, cut]
    simp only [hfirst, List.drop_append_of_le_length hlength]
    rw [ih hspans, List.cons_append]

theorem place_append (line : Nat) (spans spans' : List Span) : place line (spans ++ spans') =
    place line spans ++ place (line + (spans.flatMap Span.text).count '\n') spans' := by
  induction spans generalizing line with
  | nil => simp [place]
  | cons s spans ih => simp [place, ih, List.count_append, Nat.add_assoc]

theorem token?_add (line k : Nat) (s : Span) : s.token? (line + k) = (s.token? line).map (Token.lowered k) := by
  unfold token?
  dsimp only
  split
  · cases operators.lookup s.text <;> rfl
  all_goals rfl

theorem error?_add (line k : Nat) (s : Span) : s.error? (line + k) = (s.error? line).map (SyntaxError.lowered k) := by
  unfold error?
  split <;> rfl

/-- Spans that start further down are tokens further down. -/
theorem tokens_add (line k : Nat) (spans : List Span) :
    (place (line + k) spans).filterMap (fun p => p.2.token? p.1) =
      ((place line spans).filterMap fun p => p.2.token? p.1).map (Token.lowered k) := by
  induction spans generalizing line with
  | nil => rfl
  | cons s spans ih =>
    have hrest := ih (line + s.text.count '\n')
    rw [place, place, Nat.add_right_comm, List.filterMap_cons, List.filterMap_cons, token?_add, hrest]
    cases s.token? line <;> rfl

/-- Spans that start further down are errors further down. -/
theorem errors_add (line k : Nat) (spans : List Span) :
    (place (line + k) spans).filterMap (fun p => p.2.error? p.1) =
      ((place line spans).filterMap fun p => p.2.error? p.1).map (SyntaxError.lowered k) := by
  induction spans generalizing line with
  | nil => rfl
  | cons s spans ih =>
    have hrest := ih (line + s.text.count '\n')
    rw [place, place, Nat.add_right_comm, List.filterMap_cons, List.filterMap_cons, error?_add, hrest]
    cases s.error? line <;> rfl

/-- The spans of two texts with a line end in between, each on its line. -/
theorem place_append_newline {text : List Char} (below : List Char) (h : Closed (cut text)) :
    place 1 (cut (text ++ '\n' :: below)) = place 1 (cut text) ++
      (1 + text.count '\n', ⟨.rule .blank, ['\n']⟩) :: place (1 + (1 + text.count '\n')) (cut below) := by
  have hlines : 1 + text.count '\n' + ['\n'].count '\n' = 1 + (1 + text.count '\n') := by
    rw [List.count_singleton_self, Nat.add_comm]
  rw [cut_append_newline below h, place_append, (cuts_cut text).flatMap_text, place, hlines]

end Span

/-! ## Texts -/

/-- The tokens of a text, and below it those of another. -/
theorem tokensOf_append_newline {text : List Char} (h : Span.Closed (Span.cut text)) (below : List Char) :
    tokensOf (text ++ '\n' :: below) =
      tokensOf text ++ (tokensOf below).map (Token.lowered (1 + text.count '\n')) := by
  unfold tokensOf
  rw [Span.place_append_newline below h, List.filterMap_append, List.filterMap_cons, Span.tokens_add]
  rfl

/-- Two texts without lexical errors, joined by a line end, have none, and the tokens of both. -/
theorem scan_joined {source below : String} (h : (scan source).errors = []) (h' : (scan below).errors = []) :
    (scan (source ++ "\n" ++ below)).errors = [] ∧
      tokensOf (source ++ "\n" ++ below).toList = tokensOf source.toList ++
        (tokensOf below.toList).map (Token.lowered (source.toList.count '\n' + 1)) := by
  have hlist : (source ++ "\n" ++ below).toList = source.toList ++ '\n' :: below.toList := by simp
  rw [scan_eq] at h h' ⊢
  have hlexical := Span.errors_eq_nil_iff.1 h
  have hlexical' := Span.errors_eq_nil_iff.1 h'
  rw [hlist, Nat.add_comm (source.toList.count '\n')]
  refine ⟨Span.errors_eq_nil_iff.2 ?_, tokensOf_append_newline hlexical.closed below.toList⟩
  rw [Span.cut_append_newline below.toList hlexical.closed]
  intro s hs
  rcases List.mem_append.1 hs with hs | hs
  · exact hlexical s hs
  rcases List.mem_cons.1 hs with rfl | hs
  · exact ⟨.blank, rfl⟩
  · exact hlexical' s hs

/-- **Scanning goes line by line.** Let a text have no string that is left open; other lexical errors may be in it. With a
line end and any other text behind it, the tokens are those of the text, but for its end mark, and then those of the other
text with its end mark, further down by the lines of the first. So are the errors. -/
theorem scan_append_newline {text : String} (h : ∀ e ∈ (scan text).errors, e.message ≠ "Unterminated string.")
    (below : String) : ∃ tokens, (scan text).tokens = tokens ++ [Token.endOn (1 + text.toList.count '\n')] ∧
      scan (text ++ "\n" ++ below) =
        ⟨tokens ++ (scan below).tokens.map (Token.lowered (1 + text.toList.count '\n')),
          (scan text).errors ++ (scan below).errors.map (SyntaxError.lowered (1 + text.toList.count '\n')), none⟩ := by
  have hlist : (text ++ "\n" ++ below).toList = text.toList ++ '\n' :: below.toList := by simp
  have hclosed : Span.Closed (Span.cut text.toList) := Span.closed_of_errors (by simpa only [scan_eq] using h)
  have hplace := Span.place_append_newline below.toList hclosed
  have hlast : Token.endOn (1 + (text.toList ++ '\n' :: below.toList).count '\n') =
      (Token.endOn (1 + below.toList.count '\n')).lowered (1 + text.toList.count '\n') := by
    simp only [List.count_append, List.count_cons_self, Token.endOn, Token.lowered]
    congr 1
    omega
  refine ⟨tokensOf text.toList, scan_tokens text, ?_⟩
  rw [scan_eq (text ++ "\n" ++ below), scan_eq below, hlist]
  dsimp only
  rw [hplace, hlast, List.filterMap_append, List.filterMap_cons, Span.tokens_add, List.filterMap_append,
    List.filterMap_cons, Span.errors_add, List.map_append, ← List.append_assoc, scan_eq text]
  rfl

/-- A stray character and an open comment in front of the line end, and behind it an equals sign and an open string. -/
theorem scan_append_newline_open_comment :
    let text := "\"\n\" @ ! // \""
    let below := "= \""
    (∀ e ∈ (scan text).errors, e.message ≠ "Unterminated string.") ∧
    (scan text).errors = [⟨2, "", "Unexpected character."⟩] ∧
    scan (text ++ "\n" ++ below) =
      ⟨[⟨.string, "\"\n\"", some (.string "\n"), 1⟩, ⟨.bang, "!", none, 2⟩, ⟨.equal, "=", none, 3⟩, Token.endOn 3],
        [⟨2, "", "Unexpected character."⟩, ⟨3, "", "Unterminated string."⟩], none⟩ := by
  intro text below
  have herrors : (scan text).errors = [⟨2, "", "Unexpected character."⟩] := by decide +kernel
  have hclosed : ∀ e ∈ (scan text).errors, e.message ≠ "Unterminated string." := by
    rw [herrors]
    decide
  obtain ⟨tokens, htokens, hscan⟩ := scan_append_newline hclosed below
  have hfirst : (scan text).tokens = [⟨.string, "\"\n\"", some (.string "\n"), 1⟩, ⟨.bang, "!", none, 2⟩] ++
      [Token.endOn (1 + text.toList.count '\n')] := by decide +kernel
  obtain rfl := (List.append_inj' (htokens.symm.trans hfirst) rfl).1
  have hbelow : (scan below).tokens = [⟨.equal, "=", none, 1⟩, Token.endOn 1] := by decide +kernel
  have hopen : (scan below).errors = [⟨1, "", "Unterminated string."⟩] := by decide +kernel
  have hlines : 1 + text.toList.count '\n' = 2 := by decide +kernel
  rw [herrors, hbelow, hopen, hlines] at hscan
  exact ⟨hclosed, herrors, hscan⟩

end Lox
