import Lox.Token.Scan
import Lox.Proofs.Token.Span

/-!
A reader goes from span to span, and stays inside its text.

* `Span.place line spans`: the spans with the lines they start on.
* `Span.token?`, `Span.error?`: what a span on a line is, a token, an error, or neither.
* `Reader.rest`, `Reader.forward`: the text that is left, and the reader after some of it.
* `Reader.take`: the reader after a span, with what the span is.

One step of the reader takes the first span (`token_eq`), and all steps take all spans (`all_spec`).
-/

namespace Lox

namespace Span

/-- spans with the lines they start on, the first one starting on `line` -/
def place : Nat → List Span → List (Nat × Span)
  | _, [] => []
  | line, s :: spans => (line, s) :: place (line + s.text.count '\n') spans

/-- the token a span on a line is, if it is one -/
def token? (line : Nat) (s : Span) : Option Token :=
  let lexeme := String.ofList s.text
  match s.kind with
  | .rule .operator => (operators.lookup s.text).map fun kind => ⟨kind, lexeme, none, line⟩
  | .rule .number => some ⟨.number, lexeme, some (.number (Numeral.value s.text)), line⟩
  | .rule .string => some ⟨.string, lexeme, some (.string (String.ofList s.text.tail.dropLast)), line⟩
  | .rule .word => some ⟨.ofWord lexeme, lexeme, none, line⟩
  | .rule .comment | .rule .blank | .openString | .stray => none

/-- the error a span on a line is, if it is one -/
def error? (line : Nat) (s : Span) : Option SyntaxError :=
  match s.kind with
  | .openString => some ⟨line, "", "Unterminated string."⟩
  | .stray => some ⟨line, "", "Unexpected character."⟩
  | .rule _ => none

end Span

namespace Reader

/-! ## The text that is left -/

/-- the characters that are left -/
def rest (r : Reader) : List Char := r.chars.toList.drop r.position

/-- the reader after characters that come next -/
def forward (r : Reader) (cs : List Char) : Reader :=
  { r with position := r.position + cs.length, line := r.line + cs.count '\n' }

variable {r : Reader} {c : Char} {cs as bs : List Char}

theorem atEnd_iff : r.atEnd = true ↔ r.rest = [] := by simp [atEnd, rest, List.drop_eq_nil_iff]

theorem left_eq : r.left = r.rest.length := by simp [left, rest]

theorem peek_eq : r.peek = r.rest.head?.getD '\x00' := by
  simp [peek, rest, List.head?_drop, Array.getD_eq_getD_getElem?]

theorem peekNext_eq : r.peekNext = r.rest.tail.head?.getD '\x00' := by
  simp [peekNext, rest, List.tail_drop, List.head?_drop, Array.getD_eq_getD_getElem?]

theorem next_eq (h : r.rest = c :: cs) : r.next = .ok (c, { r with position := r.position + 1 }) := by
  have hitem : r.chars[r.position]? = some c := by
    have hhead : r.rest.head? = some c := by rw [h]; rfl
    simpa [rest, List.head?_drop] using hhead
  unfold next
  rw [Range.item_of_getElem? hitem]
  rfl

theorem advance_eq (h : r.rest = c :: cs) (hc : c ≠ '\n') : r.advance = .ok (r.forward [c]) := by
  unfold advance
  rw [next_eq h]
  simp [forward, hc, bind, Except.bind, pure, Except.pure]

theorem advanceLine_eq (h : r.rest = c :: cs) : r.advanceLine = .ok (r.forward [c]) := by
  have hpeek : r.peek = c := by rw [peek_eq, h]; rfl
  have hnext : ({ r with line := if r.peek = '\n' then r.line + 1 else r.line } : Reader).rest =
      c :: cs := h
  unfold advanceLine advance
  rw [next_eq hnext, hpeek]
  by_cases hc : c = '\n' <;> simp [forward, hc, bind, Except.bind, pure, Except.pure]

@[simp] theorem forward_chars : (r.forward as).chars = r.chars := rfl

@[simp] theorem forward_start : (r.forward as).start = r.start := rfl

@[simp] theorem forward_tokens : (r.forward as).tokens = r.tokens := rfl

@[simp] theorem forward_errors : (r.forward as).errors = r.errors := rfl

@[simp] theorem forward_nil : r.forward [] = r := by simp [forward]

theorem forward_forward : (r.forward as).forward bs = r.forward (as ++ bs) := by
  simp [forward, Nat.add_assoc]

theorem rest_forward (h : r.rest = as ++ bs) : (r.forward as).rest = bs := by
  have hdrop : (r.forward as).rest = r.rest.drop as.length := by simp [rest, forward]
  rw [hdrop, h, List.drop_left]

/-- A loop that goes on as long as a test of the next character holds goes past the characters that
pass it. -/
theorem stepWhile_eq {test : Reader → Bool} {p : Char → Bool}
    {step : Reader → Except OutOfRange Reader} (htest : ∀ r : Reader, test r = r.rest.head?.any p)
    (hstep : ∀ (r : Reader) (c : Char) (cs : List Char), r.rest = c :: cs → p c = true →
      step r = .ok (r.forward [c])) (n : Nat) (r : Reader) (hn : r.rest.length ≤ n) :
    stepWhile test step n r = .ok (r.forward (r.rest.takeWhile p)) := by
  induction n generalizing r with
  | zero =>
    have hnil : r.rest = [] := List.eq_nil_of_length_eq_zero (by omega)
    simp [stepWhile, hnil, pure, Except.pure]
  | succ n ih =>
    unfold stepWhile
    rw [htest]
    cases hrest : r.rest with
    | nil => simp [pure, Except.pure]
    | cons c cs =>
      cases hp : p c with
      | false => simp [hp, pure, Except.pure]
      | true =>
        have hforward : (r.forward [c]).rest = cs := rest_forward (by simp [hrest])
        have hlength : cs.length ≤ n := by simpa [hrest] using hn
        have hmore := ih (r.forward [c]) (by rw [hforward]; exact hlength)
        rw [hforward, forward_forward] at hmore
        simp only [List.head?_cons, Option.any_some, hp, if_true, hstep r c cs hrest hp,
          List.takeWhile_cons]
        exact hmore

/-- The loop over characters of a class goes past them. -/
theorem stepWhile_peek {p : Char → Bool} (hzero : p '\x00' = false) (hline : p '\n' = false)
    (r : Reader) :
    stepWhile (p ·.peek) advance r.left r = .ok (r.forward (r.rest.takeWhile p)) := by
  refine stepWhile_eq (fun r => ?_) (fun r c cs hrest hp => ?_) _ r (Nat.le_of_eq left_eq.symm)
  · rw [peek_eq]
    cases r.rest with
    | nil => simp [hzero]
    | cons c cs => rfl
  · exact advance_eq hrest fun hc => by simp [hc, hline] at hp

/-- The loop up to a character, or to the end, goes past the characters before it. -/
theorem stepWhile_until (stop : Char) {step : Reader → Except OutOfRange Reader}
    (hstep : ∀ (r : Reader) (c : Char) (cs : List Char), r.rest = c :: cs → c ≠ stop →
      step r = .ok (r.forward [c])) (r : Reader) :
    stepWhile (fun r => r.peek ≠ stop && !r.atEnd) step r.left r =
      .ok (r.forward (r.rest.takeWhile (· ≠ stop))) := by
  refine stepWhile_eq (fun r => ?_) (fun r c cs hrest hc => ?_) _ r (Nat.le_of_eq left_eq.symm)
  · cases hrest : r.rest with
    | nil => simp [atEnd_iff.2 hrest]
    | cons c cs =>
      have hend : r.atEnd = false := by simpa [hrest] using mt atEnd_iff.1 (by simp [hrest])
      simp [peek_eq, hrest, hend]
  · exact hstep r c cs hrest (by simpa using hc)

/-! ## What is taken out of the text -/

theorem slice_eq (hrest : r.rest ≠ []) {i j : Nat} (hij : i ≤ j) (hj : j ≤ r.rest.length) :
    Range.slice r.chars (r.position + i) (r.position + j) = .ok ((r.rest.drop i).take (j - i)) := by
  have hlength : r.rest.length = r.chars.size - r.position := by simp [rest]
  have hpos : 0 < r.rest.length := List.length_pos_iff.2 hrest
  rw [Range.slice_of_le (by omega) (by omega)]
  have hcount : r.position + j - (r.position + i) = j - i := by omega
  rw [hcount, rest, List.drop_drop]

section Lexeme

variable (hstart : r.start = r.position) (has : as ≠ []) (h : r.rest = as ++ bs)

include hstart has h

theorem lexeme_forward : (r.forward as).lexeme = .ok as := by
  have hrest : r.rest ≠ [] := by simp [h, has]
  have hslice := slice_eq hrest (Nat.zero_le as.length) (by simp [h])
  rw [h] at hslice
  simpa [lexeme, forward, hstart] using hslice

theorem add_forward (kind : TokenKind) (literal : Option Value) (line : Nat) :
    (r.forward as).add kind literal line =
      .ok { r.forward as with tokens := r.tokens.push ⟨kind, String.ofList as, literal, line⟩ } := by
  unfold add
  rw [lexeme_forward hstart has h]
  rfl

theorem addPlain_forward (hline : '\n' ∉ as) (kind : TokenKind) : (r.forward as).addPlain kind =
    .ok { r.forward as with tokens := r.tokens.push ⟨kind, String.ofList as, none, r.line⟩ } := by
  have hsame : (r.forward as).line = r.line := by simp [forward, List.count_eq_zero_of_not_mem hline]
  unfold addPlain
  rw [add_forward hstart has h, hsame]

end Lexeme

/-- the reader after a span, with the token or the error it is -/
def take (r : Reader) (s : Span) : Reader :=
  { r.forward s.text with
    tokens := (s.token? r.line).elim r.tokens r.tokens.push
    errors := (s.error? r.line).elim r.errors r.errors.push }

/-! ## One step -/

section Step

variable (h : r.rest = c :: cs)

include h

theorem stepWhile_quote (hc : c = '"') :
    stepWhile (fun r => r.peek ≠ '"' && !r.atEnd) advanceLine (r.forward [c]).left
    (r.forward [c]) = .ok (r.forward ('"' :: cs.takeWhile (· ≠ '"'))) := by
  have hloop := stepWhile_until '"' (fun r c cs hrest _ => advanceLine_eq hrest) (r.forward [c])
  rw [rest_forward h, forward_forward, List.singleton_append] at hloop
  rw [hloop, hc]

theorem openString_eq (hc : c = '"') (hquote : '"' ∉ cs) :
    (r.forward [c]).string = .ok (r.take ⟨.openString, c :: cs⟩) := by
  have hloop := stepWhile_quote h hc
  have hall : cs.takeWhile (· ≠ '"') = cs :=
    List.takeWhile_eq_self_iff.2 fun d hd => decide_eq_true fun heq => hquote (heq ▸ hd)
  rw [hall] at hloop
  subst hc
  have hend : (r.forward ('"' :: cs)).atEnd = true := atEnd_iff.2 (rest_forward (by simp [h]))
  have hsame : (r.forward ['"']).line = r.line := by simp [forward]
  unfold string
  simp only [hloop, bind, Except.bind, hend, if_true, hsame]
  simp [take, Span.token?, Span.error?, report, forward, pure, Except.pure]

theorem comment_eq (hc : c = '/') (hcs : cs = '/' :: bs) :
    (r.forward [c, '/']).comment = .ok (r.take ⟨.rule .comment, c :: cs.takeWhile (· ≠ '\n')⟩) := by
  subst hc hcs
  have hloop := stepWhile_until '\n' (fun r c cs hrest hc => advance_eq hrest hc) (r.forward ['/', '/'])
  have hrest : (r.forward ['/', '/']).rest = bs := rest_forward h
  rw [hrest, forward_forward] at hloop
  unfold comment
  rw [hloop]
  simp [take, Span.token?, Span.error?, forward]

variable (hstart : r.start = r.position)

include hstart

theorem string_eq (hc : c = '"') (hquote : '"' ∈ cs) :
    (r.forward [c]).string = .ok (r.take ⟨.rule .string, c :: (cs.takeWhile (· ≠ '"') ++ ['"'])⟩) := by
  have hloop := stepWhile_quote h hc
  obtain ⟨body, after, rfl, hbody⟩ := List.eq_append_cons_of_mem hquote
  rw [Span.takeWhile_quote_append hbody] at hloop ⊢
  subst hc
  have hrest : (r.forward ('"' :: body)).rest = '"' :: after := rest_forward (by simp [h])
  have hend : (r.forward ('"' :: body)).atEnd = false := by
    simpa using mt atEnd_iff.1 (by simp [hrest])
  have hclose : (r.forward ('"' :: body)).advance = .ok (r.forward ('"' :: (body ++ ['"']))) := by
    rw [advance_eq hrest (by decide), forward_forward, List.cons_append]
  have hsplit : r.rest = '"' :: (body ++ ['"']) ++ after := by simp [h]
  have hinside : Range.slice (r.forward ('"' :: (body ++ ['"']))).chars
      ((r.forward ('"' :: (body ++ ['"']))).start + 1)
      ((r.forward ('"' :: (body ++ ['"']))).position - 1) = .ok body := by
    have hslice := slice_eq (r := r) (i := 1) (j := body.length + 1) (by simp [h]) (by omega)
      (by simp [h])
    have hstop : (r.forward ('"' :: (body ++ ['"']))).position - 1 =
        r.position + (body.length + 1) := by
      simp only [forward, List.length_cons, List.length_append, List.length_nil]
      omega
    rw [forward_chars, forward_start, hstart, hstop, hslice, h]
    simp
  have hsame : (r.forward ['"']).line = r.line := by simp [forward]
  unfold string
  simp only [hloop, bind, Except.bind, hend, Bool.false_eq_true, if_false, hclose, hinside, hsame,
    add_forward hstart (by simp) hsplit]
  simp [take, Span.token?, Span.error?]

theorem word_eq (hc : isWordStart c = true) :
    (r.forward [c]).word = .ok (r.take ⟨.rule .word, c :: cs.takeWhile isWordPart⟩) := by
  have hloop := stepWhile_peek (p := isWordPart) (by decide) (by decide) (r.forward [c])
  rw [rest_forward h, forward_forward, List.singleton_append] at hloop
  have hsplit : r.rest = (c :: cs.takeWhile isWordPart) ++ cs.dropWhile isWordPart := by
    rw [h, List.cons_append, List.takeWhile_append_dropWhile]
  have hmatches : Rule.Matches .word (c :: cs.takeWhile isWordPart) :=
    .word hc fun d => List.mem_takeWhile_imp
  have hline := hmatches.newline_notMem (by simp) (by simp)
  unfold word
  simp only [hloop, bind, Except.bind, lexeme_forward hstart (by simp) hsplit]
  exact addPlain_forward hstart (by simp) hsplit hline _

omit h hstart in
theorem advanceDigits_eq (r : Reader) :
    r.advanceDigits = .ok (r.forward (r.rest.takeWhile Char.isDigit)) :=
  stepWhile_peek (by decide) (by decide) r

omit h hstart in
/-- A point is gone past only together with digits behind it. -/
theorem advanceFraction_eq (r : Reader) :
    r.advanceFraction = .ok (r.forward (Span.fraction r.rest)) := by
  unfold advanceFraction
  rw [peek_eq, peekNext_eq]
  cases hrest : r.rest with
  | nil => simp [Span.fraction, pure, Except.pure]
  | cons d ds =>
    by_cases hd : d = '.'
    · subst hd
      have hadvance := advance_eq hrest (by decide)
      have hdigits := advanceDigits_eq (r.forward ['.'])
      rw [rest_forward hrest, forward_forward, List.singleton_append] at hdigits
      have hfirst : (ds.head?.getD '\x00').isDigit = true ↔ ds.takeWhile Char.isDigit ≠ [] := by
        cases ds with
        | nil => simp [Char.isDigit]
        | cons e es => by_cases he : e.isDigit = true <;> simp [he]
      by_cases hmore : (ds.head?.getD '\x00').isDigit = true
      · have hnext := hfirst.1 hmore
        simp [Span.fraction, hmore, hnext, hadvance, hdigits, bind, Except.bind]
      · have hnext : ds.takeWhile Char.isDigit = [] := by simpa using mt hfirst.2 hmore
        simp [Span.fraction, hmore, hnext, pure, Except.pure]
    · simp [hd, Span.fraction, pure, Except.pure]

theorem number_eq (hc : c.isDigit = true) :
    (r.forward [c]).number = .ok (r.take ⟨.rule .number, c :: Span.numeralTail cs⟩) := by
  have hwhole := advanceDigits_eq (r.forward [c])
  rw [rest_forward h, forward_forward, List.singleton_append] at hwhole
  have hsplit : r.rest = (c :: cs.takeWhile Char.isDigit) ++ cs.dropWhile Char.isDigit := by
    rw [h, List.cons_append, List.takeWhile_append_dropWhile]
  have hfraction := advanceFraction_eq (r.forward (c :: cs.takeWhile Char.isDigit))
  rw [rest_forward hsplit, forward_forward, List.cons_append] at hfraction
  have hnumeral : cs.takeWhile Char.isDigit ++ Span.fraction (cs.dropWhile Char.isDigit) =
      Span.numeralTail cs := rfl
  rw [hnumeral] at hfraction
  obtain ⟨after, hafter⟩ := (Span.munches_number hc cs).isPrefix
  have hlexeme : r.rest = (c :: Span.numeralTail cs) ++ after := by rw [h, ← hafter]
  have hmatches := Rule.matches_numeral hc cs
  have hsame : (r.forward (c :: Span.numeralTail cs)).line = r.line := by
    simp [forward, List.count_eq_zero_of_not_mem (hmatches.newline_notMem (by simp) (by simp))]
  have hvalue : Numeral.value? (c :: Span.numeralTail cs) =
      some (Numeral.value (c :: Span.numeralTail cs)) :=
    if_pos hmatches.wellFormed
  unfold number
  simp only [hwhole, hfraction, bind, Except.bind, lexeme_forward hstart (by simp) hlexeme, hvalue,
    Option.getD_some, hsame]
  exact add_forward hstart (by simp) hlexeme _ _ _

omit hstart in
theorem advanceIf_eq {asked : Char} (hasked : asked ≠ '\n') : (r.forward [c]).advanceIf asked =
    if cs.head? = some asked then (true, r.forward [c, asked]) else (false, r.forward [c]) := by
  have hrest : (r.forward [c]).rest = cs := rest_forward h
  unfold advanceIf
  cases cs with
  | nil => simp [atEnd_iff.2 hrest]
  | cons d ds =>
    have hend : (r.forward [c]).atEnd = false := by simpa using mt atEnd_iff.1 (by simp [hrest])
    by_cases hd : d = asked
    · subst hd
      simp only [peek_eq, hrest, List.head?_cons, Option.getD_some, decide_true, hend,
        Bool.not_false, Bool.and_self, if_true]
      simp [forward, List.count_cons, hasked]
    · simp [peek_eq, hrest, hend, hd]

omit h in
theorem addPlain_operator {s after : List Char} {kind : TokenKind} (hs : (s, kind) ∈ operators)
    (hsplit : r.rest = s ++ after) :
    (r.forward s).addPlain kind = .ok (r.take ⟨.rule .operator, s⟩) := by
  have hall : ∀ pair ∈ operators, operators.lookup pair.1 = some pair.2 ∧ pair.1 ≠ [] := by decide
  obtain ⟨hlookup, hne⟩ := hall _ hs
  have hline := (Rule.Matches.operator hs).newline_notMem (by simp) (by simp)
  rw [addPlain_forward hstart hne hsplit hline]
  simp [take, Span.token?, Span.error?, hlookup]

theorem operator_eq {kind : TokenKind} (hkind : operator? c = some kind) :
    (r.forward [c]).operator kind (operatorEqual? c) = .ok (r.take
      (if (operatorEqual? c).isSome ∧ cs.head? = some '=' then ⟨.rule .operator, [c, '=']⟩
      else ⟨.rule .operator, [c]⟩)) := by
  have hone : (r.forward [c]).addPlain kind = .ok (r.take ⟨.rule .operator, [c]⟩) :=
    addPlain_operator hstart (Rule.mem_operators_of_operator? hkind) h
  unfold operator
  cases hequal : operatorEqual? c with
  | none => simpa using hone
  | some withEqual =>
    rw [advanceIf_eq h (by decide)]
    by_cases hhead : cs.head? = some '='
    · obtain ⟨after, rfl⟩ := List.head?_eq_some_iff.1 hhead
      simpa using addPlain_operator hstart (Rule.mem_operators_of_operatorEqual? hequal) h
    · simpa [hhead] using hone

omit hstart in
theorem next_forward (hc : c ≠ '\n') : r.next = .ok (c, r.forward [c]) := by
  rw [next_eq h]
  simp [forward, hc]

/-- What the reader does behind a slash. -/
theorem token_of_slash (hc : c = '/') : r.token = .ok (r.take (Span.first c cs)) := by
  have hslash : r.token =
      if ((r.forward [c]).advanceIf '/').1 then ((r.forward [c]).advanceIf '/').2.comment
      else ((r.forward [c]).advanceIf '/').2.addPlain .slash := by
    unfold token
    rw [next_forward h (by simp [hc]), hc]
    rfl
  have hone : (r.forward [c]).addPlain .slash = .ok (r.take ⟨.rule .operator, [c]⟩) :=
    addPlain_operator hstart (Rule.mem_operators_of_operator? (by rw [hc]; rfl)) h
  have hrule : Rule.of? c = some .operator := by rw [hc]; decide
  have hequal : operatorEqual? c = none := by rw [hc]; rfl
  rw [hslash, advanceIf_eq h (by decide), Span.first, hrule]
  by_cases hhead : cs.head? = some '/'
  · obtain ⟨after, hafter⟩ := List.head?_eq_some_iff.1 hhead
    simpa [hc, hhead] using comment_eq h hc hafter
  · simpa [hhead, hequal] using hone

theorem token_of_operator {kind : TokenKind} (hc : c ≠ '/') (hkind : operator? c = some kind) :
    r.token = .ok (r.take (Span.first c cs)) := by
  have hline : c ≠ '\n' := fun hc => by simp [hc, operator?] at hkind
  have hslash : kind ≠ .slash := by
    intro heq
    have hall : ∀ pair ∈ operators, pair.2 = .slash → pair.1 = ['/'] := by decide
    exact hc (List.cons.inj (hall _ (Rule.mem_operators_of_operator? hkind) heq)).1
  have hrule : Rule.of? c = some .operator := by simp [Rule.of?, hkind]
  have htoken : r.token = (r.forward [c]).operator kind (operatorEqual? c) := by
    unfold token
    simp only [next_forward h hline, bind, Except.bind, hkind]
  rw [htoken, operator_eq h hstart hkind, Span.first, hrule]
  simp [hc]

/-- One step takes the first span of what is left. -/
theorem token_eq : r.token = .ok (r.take (Span.first c cs)) := by
  cases hkind : operator? c with
  | some kind =>
    by_cases hc : c = '/'
    · exact token_of_slash h hstart hc
    · exact token_of_operator h hstart hc hkind
  | none =>
    by_cases hline : c = '\n'
    · subst hline
      unfold token
      rw [next_eq h]
      simp [take, Span.first, Rule.of?, hkind, isBlank, Span.token?, Span.error?, forward, bind,
        Except.bind, pure, Except.pure]
    · unfold token Span.first Rule.of?
      simp only [next_forward h hline, bind, Except.bind, hkind, hline, Option.isSome_none,
        Bool.false_eq_true, if_false]
      split
      · simp [take, Span.token?, Span.error?, pure, Except.pure, forward]
      split
      · rename_i hquote
        by_cases hclosed : '"' ∈ cs
        · simpa [hclosed] using string_eq h hstart hquote hclosed
        · simpa [hclosed] using openString_eq h hquote hclosed
      split
      · rename_i hdigit
        exact number_eq h hstart hdigit
      split
      · rename_i hword
        exact word_eq h hstart hword
      · simp [take, Span.token?, Span.error?, report, pure, Except.pure, forward, hline]

end Step

/-! ## All steps -/

theorem take_tokens (r : Reader) (s : Span) :
    (r.take s).tokens.toList = r.tokens.toList ++ (s.token? r.line).toList := by
  cases h : s.token? r.line <;> simp [take, h]

theorem take_errors (r : Reader) (s : Span) :
    (r.take s).errors.toList = r.errors.toList ++ (s.error? r.line).toList := by
  cases h : s.error? r.line <;> simp [take, h]

/-- All steps take all spans of what is left, and none goes out of range. -/
theorem all_spec (n : Nat) (r : Reader) (hn : r.rest.length ≤ n) : ∃ r', all n r = .ok r' ∧
    r'.line = r.line + r.rest.count '\n' ∧
    r'.tokens.toList = r.tokens.toList ++
      (Span.place r.line (Span.cut r.rest)).filterMap (fun p => p.2.token? p.1) ∧
    r'.errors.toList = r.errors.toList ++
      (Span.place r.line (Span.cut r.rest)).filterMap (fun p => p.2.error? p.1) := by
  induction n generalizing r with
  | zero =>
    have hnil : r.rest = [] := List.eq_nil_of_length_eq_zero (by omega)
    exact ⟨r, rfl, by simp [hnil], by simp [hnil, Span.cut, Span.place],
      by simp [hnil, Span.cut, Span.place]⟩
  | succ n ih =>
    cases hrest : r.rest with
    | nil =>
      refine ⟨r, ?_, by simp, by simp [Span.cut, Span.place], by simp [Span.cut, Span.place]⟩
      rw [all, if_pos (atEnd_iff.2 hrest)]
      rfl
    | cons c cs =>
      let q : Reader := { r with start := r.position }
      let s := Span.first c cs
      have htoken : q.token = .ok (q.take s) := token_eq hrest rfl
      have hsplit : r.rest = s.text ++ cs.drop (s.text.length - 1) := by
        rw [hrest, Span.first_text_append]
      have hafter : (q.take s).rest = cs.drop (s.text.length - 1) := rest_forward (r := q) hsplit
      have hlength : (q.take s).rest.length ≤ n := by
        rw [hafter, List.length_drop]
        simp only [hrest, List.length_cons] at hn
        omega
      obtain ⟨r', hall, hline, htokens, herrors⟩ := ih (q.take s) hlength
      have hstep : all (n + 1) r = all n (q.take s) := by
        have hend : r.atEnd = false := by simpa using mt atEnd_iff.1 (by simp [hrest])
        rw [all, if_neg (by simp [hend]), htoken]
        rfl
      have hqline : (q.take s).line = r.line + s.text.count '\n' := rfl
      rw [hafter, hqline] at hline htokens herrors
      have hcut : Span.cut (c :: cs) = s :: Span.cut (cs.drop (s.text.length - 1)) := by rw [Span.cut]
      refine ⟨r', by rw [hstep, hall], ?_, ?_, ?_⟩
      · rw [hline, ← hrest, hsplit, List.count_append, Nat.add_assoc]
      · have hq : s.token? q.line = s.token? r.line := rfl
        rw [htokens, take_tokens, hcut, Span.place, hq]
        cases h : s.token? r.line <;> simp [h, q]
      · have hq : s.error? q.line = s.error? r.line := rfl
        rw [herrors, take_errors, hcut, Span.place, hq]
        cases h : s.error? r.line <;> simp [h, q]

end Reader

/-- The tokens and errors of a source text are those of its spans. -/
theorem scan_eq (source : String) : scan source =
    let spans := Span.place 1 (Span.cut source.toList)
    ⟨spans.filterMap (fun p => p.2.token? p.1) ++ [Token.endOn (1 + source.toList.count '\n')],
      spans.filterMap (fun p => p.2.error? p.1), none⟩ := by
  have hrest : (Reader.ofText source.toList).rest = source.toList := by
    simp [Reader.rest, Reader.ofText]
  have hsize : (Reader.ofText source.toList).chars.size = source.toList.length := by
    simp [Reader.ofText]
  obtain ⟨r, hall, hline, htokens, herrors⟩ :=
    Reader.all_spec (Reader.ofText source.toList).chars.size (Reader.ofText source.toList)
      (by rw [hrest, hsize])
  rw [hrest] at hline htokens herrors
  unfold scan
  simp only [hall, hline, htokens, herrors]
  simp [Reader.ofText]

end Lox
