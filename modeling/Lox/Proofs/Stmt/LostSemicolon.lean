import Lox.Proofs.Parser.Trace
import Lox.Proofs.Stmt.FirstError
import Lox.Proofs.Stmt.Refusals
import Lox.Proofs.Stmt.Scrap

/-!
What becomes of a program where the semicolon of a simple statement is lost.

* `GoesOnAs closes c ts us`: on the first tokens the loop over declarations makes the complaint, and then does what it does
  on the second.
* `Gap.next`: without its semicolon the statement goes on with an expression that starts with `-`, or the loop over the
  declarations of the program goes on as if the innermost declaration around the gap were an empty block.
* `lost_semicolon_blamed_once`: so the parser finds nothing, or one error about that declaration, and then what it finds in
  the program with the block in its place.

The tokens in front of the gap are read as before, in any nesting (`GoesOnAs.behind`, `GoesOnAs.block`): a block that goes on
otherwise is part of a declaration that goes on otherwise. An empty block has the place of the declaration since what is
left of it may start with an `else`, which would belong to the declaration in front.
-/

namespace Lox.Stmt

open Lox.Parser

/-! ## Declarations around a gap -/

/-- On the first tokens the loop over declarations makes the complaint, and then goes on as on the second. -/
def GoesOnAs (closes : TokenKind → Bool) (c : Complaint) (ts us : List Token) : Prop :=
  ∀ N n m k : Nat, ts.length ≤ N → us.length ≤ N → N ≤ n → N ≤ m → N ≤ k →
    Echoes [c] (declarations closes (declarationOr (Expr.parser n) (parser m)) k ts)
      (declarations closes (declarationOr (Expr.parser n) (parser m)) k us)

section Declarations

variable {closes : TokenKind → Bool} {c : Complaint} {t t' : Token} {us us' : List Token}

/-- A round of the loop over declarations. -/
theorem declarations_open (hopen : closes t.kind = false) (one : Parser Stmt) (k : Nat) :
    declarations closes one (k + 1) (t :: us) =
      (recover one >>= fun head => declarations closes one k >>= fun tail => pure (head.toList ++ tail)) (t :: us) := by
  rw [declarations, bind_of_accepts (accepts_peek_iff.2 ⟨us, rfl, rfl⟩), hopen]
  rfl

theorem blind_tail (one : Parser Stmt) (k : Nat) : Blind fun head : Option Stmt =>
    declarations closes one k >>= fun tail => pure (head.toList ++ tail) :=
  blind_bind fun tail => blind_pure fun head : Option Stmt => head.toList ++ tail

/-- A parser that refuses a token has nothing under recovery, and leaves the tokens at the boundary. -/
theorem yields_recover_of_refuses {α : Type} {p : Parser α} {ts vs left : List Token} {reason : Reason} {u : Token}
    (h : Refuses p ts reason u vs) (hboundary : toBoundary (u :: vs) = (pure () : Parser Unit) left) :
    Yields (recover p) ts none left [⟨reason, u⟩] := by
  have hfail : p ts = (fail reason : Parser α) (u :: vs) := h
  exact yields_recover_of_gaveUp (congrArg Outcome.value hfail) (congrArg Outcome.rest hfail)
    (congrArg Outcome.complaints hfail) hboundary

/-- An empty block is a declaration, whatever comes behind it. -/
theorem emptyBlock_accepted {opening closing : Token} (hopening : opening.kind = .leftBrace)
    (hclosing : closing.kind = .rightBrace) (n : Nat) {m : Nat} (hm : (opening :: closing :: t :: us).length ≤ m) :
    Accepts (declarationOr (Expr.parser n) (parser m)) (opening :: closing :: t :: us) (block []) (t :: us) := by
  have hblock : Derives (.statement (block []) .closed) [opening, closing] := .block hopening .nil hclosing
  have hnone : Accepts (accept .kwVar) (opening :: closing :: t :: us) none (opening :: closing :: t :: us) :=
    accepts_acceptAny_none rfl (by simp [hopening]) _
  simp only [List.length_cons] at hm
  exact hnone.bind (hblock.accepted m t us (fun hclosed => by cases hclosed) (by simp; omega))

variable (hclosers : ∀ kind, closes kind = true → kind = .rightBrace ∨ kind = .endMark)

include hclosers

/-- The loop goes on so behind declarations. -/
theorem GoesOnAs.behind {ts : List Token} {ss : List Stmt} (hts : Derives (.declarations ss) ts)
    (ht : t.kind ≠ .kwElse) (ht' : t'.kind ≠ .kwElse) (h : GoesOnAs closes c (t :: us) (t' :: us')) :
    GoesOnAs closes c (ts ++ t :: us) (ts ++ t' :: us') := by
  induction ss generalizing ts with
  | nil =>
    cases hts
    exact h
  | cons s ss ih =>
    cases hts with
    | @cons ts₁ ts₂ _ _ hs hss =>
      intro N n m k hN hN' hn hm hk
      rw [List.append_assoc] at hN hN' ⊢
      rw [List.append_assoc]
      -- the first declaration is accepted, whichever of the two comes behind the others
      have hfirst : ∀ {u : Token} {vs : List Token}, u.kind ≠ .kwElse → (ts₁ ++ (ts₂ ++ u :: vs)).length ≤ N →
          Accepts (recover (declarationOr (Expr.parser n) (parser m))) (ts₁ ++ (ts₂ ++ u :: vs)) (some s)
            (ts₂ ++ u :: vs) := by
        intro u vs hu hlength
        obtain ⟨w, ws, hws, hw⟩ := Accepted.first_of_declarations hss u vs hu
        rw [hws] at hlength ⊢
        simp only [List.length_append, List.length_cons] at hlength
        exact accepts_recover_iff.2 ⟨s, rfl, hs.accepted n m w ws hw (by omega) (by omega)⟩
      have haccepts := hfirst ht hN
      have haccepts' := hfirst ht' hN'
      obtain ⟨w, ws, rfl, hw⟩ := hs.first_of_declaration
      have hopen := Accepted.closes_eq_false hclosers hw
      simp only [List.cons_append, List.length_cons, List.length_append] at hN hN'
      obtain ⟨k, rfl⟩ : ∃ i, k = i + 1 := ⟨k - 1, by omega⟩
      rw [List.cons_append, List.cons_append, declarations_open hopen, declarations_open hopen]
      rw [List.cons_append] at haccepts haccepts'
      rw [bind_of_accepts haccepts, bind_of_accepts haccepts']
      have hmore := ih hss (N - 1) n m k (by simp; omega) (by simp; omega) (by omega) (by omega) (by omega)
      exact hmore.bindBlind (blind_pure _)

/-- Where a declaration is refused the loop goes on at the next boundary, as behind an empty block. -/
theorem goesOnAs_of_refuses {opening closing u : Token} {vs left : List Token} {reason : Reason}
    (hopen : closes t.kind = false) (hopening : opening.kind = .leftBrace) (hclosing : closing.kind = .rightBrace)
    (hrefuses : ∀ n m, (t :: us).length ≤ n → (t :: us).length ≤ m →
      Refuses (declarationOr (Expr.parser n) (parser m)) (t :: us) reason u vs)
    (hboundary : toBoundary (u :: vs) = (pure () : Parser Unit) left) (hleft : left ≠ []) :
    GoesOnAs closes ⟨reason, u⟩ (t :: us) (opening :: closing :: left) := by
  intro N n m k hN hN' hn hm hk
  have hopen' := Accepted.closes_eq_false hclosers (.inr (by simp [starts, hopening] : starts opening.kind = true))
  obtain ⟨v, left, rfl⟩ := List.exists_cons_of_ne_nil hleft
  have hdropped := yields_recover_of_refuses (hrefuses n m (by omega) (by omega)) hboundary
  have hblock := emptyBlock_accepted hopening hclosing n (hN'.trans hm)
  have hkept := (accepts_recover_iff.2 ⟨block [], rfl, hblock⟩).yields
  have hrecover : Echoes [⟨reason, u⟩] (recover (declarationOr (Expr.parser n) (parser m)) (t :: us))
      (recover (declarationOr (Expr.parser n) (parser m)) (opening :: closing :: v :: left)) :=
    ⟨hdropped.rest.trans hkept.rest.symm, by rw [hdropped.complaints, hkept.complaints]; rfl,
      .inl ⟨none, some (block []), hdropped.value, hkept.value⟩⟩
  simp only [List.length_cons] at hN
  obtain ⟨k, rfl⟩ : ∃ i, k = i + 1 := ⟨k - 1, by omega⟩
  rw [declarations_open hopen, declarations_open hopen']
  exact hrecover.bindBlind (blind_tail _ k)

/-- What the loop does in a block it does to the declaration that the block stands in. -/
theorem GoesOnAs.block {opening : Token} {before behind ts ts' : List Token} {outer : Ending}
    (h : GoesOnAs closesBlock c ts ts') (hinside : Inside outer before .closed behind) (hopening : opening.kind = .leftBrace) :
    GoesOnAs closes c (before ++ opening :: ts) (before ++ opening :: ts') := by
  intro N n m k hN hN' hn hm hk
  obtain ⟨j, f, hf, hj, hleads⟩ := hinside.leads m
  obtain ⟨t, hfirst, ht⟩ := hinside.first_around hopening
  have hopen := Accepted.closes_eq_false hclosers (.inr ht)
  have hone : ∀ us, (before ++ opening :: us).length ≤ N →
      declarationOr (Expr.parser n) (parser m) (before ++ opening :: us) = (parser j >>= f) (opening :: us) := by
    intro us hus
    obtain ⟨vs, hvs⟩ := hfirst us
    have hnone : Accepts (accept .kwVar) (t :: vs) none (t :: vs) :=
      accepts_acceptAny_none rfl (decide_eq_false fun hk => by simp [hk, starts, Expr.starts] at ht) vs
    rw [← hleads _ (by omega), hvs]
    exact bind_of_accepts hnone
  simp only [List.length_append, List.length_cons] at hN hN'
  obtain ⟨k, rfl⟩ : ∃ i, k = i + 1 := ⟨k - 1, by omega⟩
  obtain ⟨j, rfl⟩ : ∃ i, j = i + 1 := ⟨j - 1, by omega⟩
  have hinner := h (N - before.length - 1) (j + 1) j j (by omega) (by omega) (by omega) (by omega) (by omega)
  have hblock : Echoes [c] ((parser (j + 1) >>= f) (opening :: ts)) ((parser (j + 1) >>= f) (opening :: ts')) := by
    refine Echoes.bindBlind ?_ hf
    rw [parser_block hopening, parser_block hopening]
    exact hinner.bindBlind (blind_bind fun _ => blind_pure fun inner => Stmt.block inner)
  have hrecover : Echoes [c] (recover (declarationOr (Expr.parser n) (parser m)) (before ++ opening :: ts))
      (recover (declarationOr (Expr.parser n) (parser m)) (before ++ opening :: ts')) := by
    refine Echoes.recover ?_
    rw [hone _ (by simp; omega), hone _ (by simp; omega)]
    exact hblock
  obtain ⟨vs, hvs⟩ := hfirst ts
  obtain ⟨vs', hvs'⟩ := hfirst ts'
  rw [hvs, hvs'] at hrecover ⊢
  rw [declarations_open hopen, declarations_open hopen]
  exact hrecover.bindBlind (blind_tail _ k)

end Declarations

/-! ## What becomes of a program with a gap -/

section Programs

variable {front inner after rest : List Token} {t : Token}

/-- Where a semicolon is lacking, the statement goes on with what follows, or the innermost declaration is refused. -/
theorem Gap.next (h : Gap Lacking front inner after) (ht : t.kind = .rightBrace ∨ t.kind = .endMark)
    (rest : List Token) :
    ((∃ v vs, after = v :: vs ∧ v.kind = .minus) ∧ ∃ ss, Derives (.declarations ss) (front ++ (inner ++ after))) ∨
      ∃ skipped u us reason, after ++ t :: rest = skipped ++ u :: us ∧ Accuses skipped u reason ∧
        ∀ left, toBoundary (u :: us) = (pure () : Parser Unit) left → left ≠ [] →
          ∀ opening closing : Token, opening.kind = .leftBrace → closing.kind = .rightBrace →
          ∀ closes : TokenKind → Bool, (∀ kind, closes kind = true → kind = .rightBrace ∨ kind = .endMark) →
            GoesOnAs closes ⟨reason, u⟩ (front ++ (inner ++ (after ++ t :: rest)))
              (front ++ opening :: closing :: left) := by
  induction h generalizing t rest with
  | @here ts us inner after ss ss' hts hlacking hus =>
    obtain ⟨v, vs, hvs, hv⟩ := hus.next_of_declarations ht rest
    obtain ⟨w, ws, rfl, hw⟩ := hlacking.first
    rcases hlacking.next hv vs with ⟨rfl, hminus, hmore⟩ | ⟨skipped, u, us', reason, hsplit, hu, hrefuses⟩
    · left
      cases hus with
      | nil =>
        obtain ⟨rfl, -⟩ := List.cons.inj hvs
        rcases ht with ht | ht <;> simp [ht] at hminus
      | @cons us₁ us₂ s ss hs hss =>
        obtain ⟨sign, us₁, rfl, -⟩ := hs.first_of_declaration
        obtain ⟨rfl, -⟩ := List.cons.inj hvs
        obtain ⟨us₁, semicolon, e, rfl, hsemicolon, he⟩ := hs.expression_of_minus hminus
        obtain ⟨s', hs'⟩ := (hmore us₁ e he).derives hsemicolon
        exact ⟨⟨sign, _, rfl, hminus⟩, _, by simpa using hts.append (.cons hs' hss)⟩
    · refine .inr ⟨skipped, u, us', reason, by rw [List.append_assoc, hvs]; exact hsplit, hu, ?_⟩
      intro left hboundary hleft opening closing hopening hclosing closes hclosers
      rw [List.append_assoc, hvs]
      have hopen := Accepted.closes_eq_false hclosers hw
      have hrefused := goesOnAs_of_refuses hclosers hopen hopening hclosing hrefuses hboundary hleft
      exact hrefused.behind hclosers hts (fun hk => by simp [hk, starts, Expr.starts] at hw) (by simp [hopening])
  | @block ts us front inner after before behind opening closing ss ss' outer hts hinside hopening hgap hclosing hus
      ih =>
    rcases ih (.inl hclosing) (behind ++ (us ++ t :: rest)) with
      ⟨⟨v, vs, rfl, hv⟩, body, hbody⟩ | ⟨skipped, u, us', reason, hsplit, hu, hgoes⟩
    · obtain ⟨ss, hss⟩ := hinside.derives_block hopening hclosing hts hbody hus
      exact .inl ⟨⟨v, _, rfl, hv⟩, ss, by simpa using hss⟩
    · refine .inr ⟨skipped, u, us', reason, by simpa using hsplit, hu, ?_⟩
      intro left hboundary hleft opening' closing' hopening' hclosing' closes hclosers
      have hbody := hgoes left hboundary hleft opening' closing' hopening' hclosing' closesBlock
        (fun kind hkind => by simpa [closesBlock] using hkind)
      have hblock := hbody.block hclosers hinside hopening
      obtain ⟨w, hfirst, hw⟩ := hinside.first_around hopening
      have hne : w.kind ≠ .kwElse := fun hk => by simp [hk, starts, Expr.starts] at hw
      obtain ⟨ws, hws⟩ := hfirst (front ++ (inner ++ (after ++ closing :: (behind ++ (us ++ t :: rest)))))
      obtain ⟨ws', hws'⟩ := hfirst (front ++ opening' :: closing' :: left)
      rw [hws, hws'] at hblock
      have hwhole := hblock.behind hclosers hts hne hne
      rw [← hws, ← hws'] at hwhole
      simpa using hwhole

/-- What is left of tokens that end with the mark ends with it too. -/
theorem exists_of_concat_eq {mark : Token} {ts used : List Token} (h : ts ++ [mark] = used ++ rest)
    (hrest : rest ≠ []) : ∃ vs, rest = vs ++ [mark] ∧ ts = used ++ vs := by
  rcases cut_or_cut h.symm with ⟨mid, -, hmid⟩ | ⟨vs, hts, hvs⟩
  · exact absurd (List.append_eq_nil_iff.1 hmid.symm).2 hrest
  · exact ⟨vs, hvs, hts⟩

/-- Where the loop over the declarations of a program goes on as on another, so do the errors. -/
theorem errors_parse_of_goesOnAs {mark : Token} {ts us : List Token} {c : Complaint}
    (hts : ∀ t ∈ ts, t.kind ≠ .endMark) (hus : ∀ t ∈ us, t.kind ≠ .endMark) (hmark : mark.kind = .endMark)
    (h : GoesOnAs (· = .endMark) c (ts ++ [mark]) (us ++ [mark])) :
    (parse (ts ++ [mark])).errors = c.toError :: (parse (us ++ [mark])).errors := by
  -- a bound that is large enough for both
  let N := (ts ++ [mark]).length + (us ++ [mark]).length
  have hechoes := h N N N N (Nat.le_add_right _ _) (Nat.le_add_left _ _) (Nat.le_refl N) (Nat.le_refl N) (Nat.le_refl N)
  have hcomplaints : (programParser N (ts ++ [mark])).complaints = c :: (programParser N (us ++ [mark])).complaints :=
    hechoes.complaints
  rw [errors_parse hts hmark (Nat.le_add_right _ _ : _ ≤ N), errors_parse hus hmark (Nat.le_add_left _ _ : _ ≤ N),
    hcomplaints, List.map_cons]

/-- What becomes of the errors where the semicolon of a simple statement is lacking. -/
theorem Gap.errors_parse {mark opening closing : Token} (hgap : Gap Lacking front inner after)
    (hts : ∀ t ∈ front ++ (inner ++ after), t.kind ≠ .endMark) (hmark : mark.kind = .endMark)
    (hopening : opening.kind = .leftBrace) (hclosing : closing.kind = .rightBrace) :
    (∃ t us, after = t :: us ∧ t.kind = .minus) ∧ (parse (front ++ (inner ++ after) ++ [mark])).errors = [] ∨
      ∃ skipped t us reason, after ++ [mark] = skipped ++ t :: us ∧ Accuses skipped t reason ∧
        (parse (front ++ (inner ++ after) ++ [mark])).errors = SyntaxError.atToken t reason.message ::
          (parse (front ++ opening :: closing :: (toBoundary (t :: us)).rest)).errors := by
  rcases hgap.next (.inr hmark) [] with ⟨hminus, ss, hss⟩ | ⟨skipped, t, us, reason, hsplit, haccuses, hgoes⟩
  · exact .inl ⟨hminus, by rw [hss.parse_eq hmark]⟩
  · refine .inr ⟨skipped, t, us, reason, hsplit, haccuses, ?_⟩
    -- what is left ends with the end mark, too, and has no other
    obtain ⟨vs, hvs, rfl⟩ := exists_of_concat_eq hsplit (by simp)
    have hmarked : Marked (t :: us) := hvs ▸ marked_concat vs hmark
    obtain ⟨used, hused, -⟩ := leaves_toBoundary (t :: us)
    have hne : (toBoundary (t :: us)).rest ≠ [] :=
      List.ne_nil_of_length_pos ((leaves_toBoundary (t :: us)).marked hmarked).length_pos
    obtain ⟨left, hleft, rfl⟩ := exists_of_concat_eq (hvs.symm.trans hused) hne
    have hboundary := toBoundary_eq hmarked
    rw [hleft] at hboundary ⊢
    have hloop := hgoes _ hboundary (by simp) opening closing hopening hclosing (· = .endMark) (by simp)
    have hreplaced : ∀ u ∈ front ++ opening :: closing :: left, u.kind ≠ .endMark := by
      intro u hu
      simp only [List.mem_append, List.mem_cons] at hu
      rcases hu with hu | rfl | rfl | hu
      · exact hts u (by simp [hu])
      · simp [hopening]
      · simp [hclosing]
      · exact hts u (by simp [hu])
    have hwhole := errors_parse_of_goesOnAs hts hreplaced hmark (by simpa using hloop)
    simpa [Complaint.toError] using hwhole

end Programs

/-- In a program every semicolon ends a simple statement, or is in the header of a loop and ends none. Where it ends one,
the tokens without it are a program too, as the statement goes on with an expression that starts with `-`; or there is one
error about the innermost declaration around the gap, at a token behind the gap, and the other errors are those of the
program that has an empty block in the place of this declaration, up to the next boundary. -/
theorem lost_semicolon_blamed_once {before after : List Token} {semicolon mark opening closing : Token}
    (hsemicolon : semicolon.kind = .semicolon) (hts : ∀ t ∈ before ++ semicolon :: after, t.kind ≠ .endMark)
    (hmark : mark.kind = .endMark) (haccepted : (parse (before ++ semicolon :: after ++ [mark])).errors = [])
    (hopening : opening.kind = .leftBrace) (hclosing : closing.kind = .rightBrace) :
    (∃ front inner, before = front ++ inner ∧ (Gap Lacking front inner after ∨ Gap Heading front inner after)) ∧
      ∀ front inner, before = front ++ inner → Gap Lacking front inner after →
        (∃ t us, after = t :: us ∧ t.kind = .minus) ∧ (parse (before ++ after ++ [mark])).errors = [] ∨
          ∃ skipped t us reason, after ++ [mark] = skipped ++ t :: us ∧ Accuses skipped t reason ∧
            (parse (before ++ after ++ [mark])).errors = SyntaxError.atToken t reason.message ::
              (parse (front ++ opening :: closing :: (toBoundary (t :: us)).rest)).errors := by
  constructor
  · have hfault := (parse_safe (marked_concat (before ++ semicolon :: after) hmark)).1
    exact (derives_of_parse_eq hts (eq_of_errors_eq_nil haccepted hfault)).gap_lacking_or_heading hsemicolon
  · rintro front inner rfl hgap
    have hothers : ∀ t ∈ front ++ (inner ++ after), t.kind ≠ .endMark := fun t ht => hts t (by simp at ht ⊢; tauto)
    simpa using hgap.errors_parse hothers hmark hopening hclosing

/-- In `if (a) print b; else print c;` the first semicolon is lost, and the `else` is blamed alone. -/
theorem lost_semicolon_blamed_once_else :
    let t (kind : TokenKind) (lexeme : String) : Token := ⟨kind, lexeme, none, 1⟩
    let printed (name : String) := [t .kwPrint "print", t .identifier name]
    let before := [t .kwIf "if", t .leftParen "(", t .identifier "a", t .rightParen ")"] ++ printed "b"
    let after := t .kwElse "else" :: (printed "c" ++ [t .semicolon ";"])
    Gap Lacking [] before after ∧ (parse (before ++ t .semicolon ";" :: after ++ [.endOn 1])).errors = [] ∧
      (∃ skipped t us reason, after ++ [.endOn 1] = skipped ++ t :: us ∧ Accuses skipped t reason ∧
        (parse (before ++ after ++ [.endOn 1])).errors = SyntaxError.atToken t reason.message ::
          (parse (.filler .leftBrace :: .filler .rightBrace :: (toBoundary (t :: us)).rest)).errors) ∧
      (parse (before ++ after ++ [.endOn 1])).errors = [.atToken (t .kwElse "else") "Expect ';' after value."] := by
  intro t printed before after
  have hname : ∀ name, Expr.Derives .assignment [t .identifier name] (.reference (t .identifier name)) := fun name =>
    (Expr.Derives.name rfl).mono (by decide)
  have hno : Derives (.statement (print (.reference (t .identifier "c"))) .closed) (printed "c" ++ [t .semicolon ";"]) :=
    .print rfl (hname "c") rfl
  have hinside : Inside .closed [t .kwIf "if", t .leftParen "(", t .identifier "a", t .rightParen ")"] .closed after :=
    .ifThenElse rfl rfl (hname "a") rfl .here rfl hno
  have hlacking : Lacking before after := .print hinside rfl (hname "b")
  have hgap : Gap Lacking [] before (after ++ []) := .here .nil hlacking .nil
  have haccepted : (parse (before ++ t .semicolon ";" :: after ++ [.endOn 1])).errors = [] := by decide +kernel
  have hopening : (Token.filler .leftBrace).kind = .leftBrace := rfl
  have hclosing : (Token.filler .rightBrace).kind = .rightBrace := rfl
  obtain ⟨-, hgaps⟩ := lost_semicolon_blamed_once rfl (by decide) rfl haccepted hopening hclosing
  refine ⟨hgap, haccepted, ?_, by decide +kernel⟩
  rcases hgaps [] before rfl hgap with ⟨⟨u, us, hu, hminus⟩, -⟩ | hblamed
  · obtain ⟨rfl, -⟩ := List.cons.inj hu
    cases hminus
  · exact hblamed

/-- In `{ print a; }` the semicolon is lost, and two errors are found: the brace is blamed and gone past, so that the block
is open at the end. -/
theorem lost_semicolon_in_block :
    let t (kind : TokenKind) (lexeme : String) : Token := ⟨kind, lexeme, none, 1⟩
    let opening := t .leftBrace "\x7b"
    let closing := t .rightBrace "\x7d"
    let inner := [t .kwPrint "print", t .identifier "a"]
    Gap Lacking [opening] inner [closing] ∧
      (parse ([opening] ++ inner ++ t .semicolon ";" :: [closing] ++ [.endOn 1])).errors = [] ∧
      (parse ([opening] ++ inner ++ [closing] ++ [.endOn 1])).errors =
        [.atToken closing "Expect ';' after value.", .atToken (.endOn 1) "Expect '\x7d' after block."] := by
  intro t opening closing inner
  have ha : Expr.Derives .assignment [t .identifier "a"] (.reference (t .identifier "a")) :=
    (Expr.Derives.name rfl).mono (by decide)
  have hlacking : Lacking ([] ++ inner) [] := .print .here rfl ha
  have hbody : Gap Lacking [] inner ([] ++ []) := .here .nil hlacking .nil
  have hgap : Gap Lacking ([] ++ ([] ++ [opening])) inner ([] ++ closing :: ([] ++ [])) :=
    .block .nil .here rfl hbody rfl .nil
  exact ⟨hgap, by decide +kernel, by decide +kernel⟩

end Lox.Stmt
