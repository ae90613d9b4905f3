import Lox.Proofs.Parser.Yields
import Lox.Proofs.Stmt.Pairing
import Lox.Proofs.Stmt.Recognition

/-!
Scraps: tokens that end with their only semicolon and can stand between declarations, whether they
are a simple statement or not.

* `Scrap tokens semicolon`: the tokens and the semicolon behind them are a scrap.
* `Scrap.Left vs`: the tokens are what is left of one, its semicolon apart.
* `Scrap.pairing`: what is left of a scrap, with one continuation and with another.

No parser of a simple statement looks behind its semicolon, so that a scrap has the same outcome
whatever follows it: it is a statement, or it is dropped and the next boundary is right behind its
semicolon (`Scrap.parse_eq`).
-/

namespace Lox

open Lox.Parser

namespace Stmt

/-! ## Scraps -/

/-- The tokens and the semicolon behind them can stand between declarations: no other semicolon, brace or
end mark is among them, they do not start with the word of a compound statement, and none of the words that
start statements comes later. -/
structure Scrap (tokens : List Token) (semicolon : Token) : Prop where
  closed : semicolon.kind = .semicolon
  flat : ∀ t ∈ tokens, t.kind ∉ [.semicolon, .endMark, .leftBrace, .rightBrace]
  simple : ∀ t ∈ tokens.head?, t.kind ∉ [.kwElse, .kwFor, .kwIf, .kwWhile]
  single : ∀ t ∈ tokens.tail, t.kind ∉ [.kwClass, .kwFun, .kwVar, .kwFor, .kwIf, .kwWhile, .kwPrint, .kwReturn]

section Scraps

variable {tokens rest rest' : List Token} {semicolon : Token}

/-- What is left of a scrap. -/
structure Scrap.Left (vs : List Token) : Prop where
  flat : ∀ t ∈ vs, t.kind ≠ .semicolon ∧ t.kind ≠ .endMark
  single : ∀ t ∈ vs.tail, startsStatement t.kind = false

theorem Scrap.left (h : Scrap tokens semicolon) : Scrap.Left tokens := by
  refine ⟨fun t ht => ?_, fun t ht => ?_⟩
  · have hkind := h.flat t ht
    simp only [List.mem_cons, not_or] at hkind
    exact ⟨hkind.1, hkind.2.1⟩
  · have hkind := h.single t ht
    simp only [List.mem_cons, List.not_mem_nil, or_false, not_or] at hkind
    unfold startsStatement
    split <;> simp_all

theorem Scrap.Left.tail {t : Token} {vs : List Token} (h : Scrap.Left (t :: vs)) : Scrap.Left vs :=
  ⟨fun u hu => h.flat u (List.mem_cons_of_mem t hu), fun u hu => h.single u (List.mem_of_mem_tail hu)⟩

/-- The next boundary is right behind the semicolon. -/
theorem Scrap.Left.toBoundary_eq (hsemicolon : semicolon.kind = .semicolon) {vs : List Token} (h : Scrap.Left vs)
    (hrest : rest ≠ []) : toBoundary (vs ++ semicolon :: rest) = (pure () : Parser Unit) rest := by
  induction vs with
  | nil =>
    obtain ⟨t, us, rfl⟩ := List.exists_cons_of_ne_nil hrest
    rw [List.nil_append, toBoundary_cons_cons (by simp [hsemicolon]), if_pos (.inr (.inl hsemicolon))]
  | cons v vs ih =>
    obtain ⟨hv, hmark⟩ := h.flat v List.mem_cons_self
    -- the token behind `v` is the next of the scrap, or its semicolon
    obtain ⟨u, us, hus, hu, hstart⟩ : ∃ u us, vs ++ semicolon :: rest = u :: us ∧ u.kind ≠ .endMark ∧
        startsStatement u.kind = false := by
      cases vs with
      | nil => exact ⟨semicolon, rest, rfl, by simp [hsemicolon], by simp [hsemicolon, startsStatement]⟩
      | cons u vs =>
        exact ⟨u, _, rfl, (h.flat u (by simp)).2, h.single u (by simp)⟩
    rw [List.cons_append, hus, toBoundary_cons_cons hmark, if_neg (by simp [hv, hu, hstart]), ← hus]
    exact ih h.tail

/-- The two lists are what is left of a scrap, with its semicolon and what follows. -/
def Scrap.pairing (hsemicolon : semicolon.kind = .semicolon) (hrest : Marked rest) (hrest' : Marked rest') :
    Pairing .same where
  Rel ts us := ∃ vs, Scrap.Left vs ∧ ts = vs ++ semicolon :: rest ∧ us = vs ++ semicolon :: rest'
  Passes kind := kind ≠ .semicolon
  head := by
    rintro ts us ⟨vs, -, rfl, rfl⟩
    cases vs with
    | nil => exact ⟨_, _, _, _, rfl, rfl, rfl⟩
    | cons v vs => exact ⟨_, _, _, _, rfl, rfl, rfl⟩
  tail := by
    rintro t u ts us ⟨vs, hvs, hts, hus⟩ hpasses
    cases vs with
    | nil =>
      obtain ⟨rfl, -⟩ := List.cons.inj hts
      exact absurd hsemicolon hpasses
    | cons v vs =>
      exact ⟨vs, hvs.tail, (List.cons.inj hts).2, (List.cons.inj hus).2⟩
  marked := by
    rintro ts us ⟨vs, -, rfl, rfl⟩
    exact ⟨(hrest.append [semicolon]).append vs, (hrest'.append [semicolon]).append vs⟩

/-- A statement in front of the semicolon ends there. -/
theorem Scrap.finishes (hsemicolon : semicolon.kind = .semicolon) (hrest : Marked rest) (hrest' : Marked rest')
    (ts us : List Token) : Finishes (Scrap.pairing hsemicolon hrest hrest')
      (fun s s' ws ws' => s = s' ∧ ws = rest ∧ ws' = rest') ts us := by
  rintro reason s s' mid mid' hs hmid
  obtain ⟨vs, hvs, rfl, rfl⟩ := hmid.rel
  cases vs with
  | nil =>
    have hmet : ∀ {s : Stmt} (ws : List Token),
        (expect .semicolon reason >>= fun _ => pure s) (semicolon :: ws) = (pure s : Parser Stmt) ws :=
      fun ws => bind_of_accepts ((accepts_expect_iff (by simp)).2 ⟨rfl, hsemicolon⟩)
    unfold Abreast
    rw [List.nil_append, List.nil_append, hmet, hmet]
    exact abreast_pure ⟨hs.eq, rfl, rfl⟩
  | cons v vs =>
    obtain ⟨hv, -⟩ := hvs.flat v List.mem_cons_self
    have hmissed : ∀ ws : List Token, expect .semicolon reason (v :: ws) = fail reason (v :: ws) :=
      fun ws => bind_of_accepts (accepts_acceptAny_none rfl (by simpa using hv) ws)
    have hexpect : Abreast .same (fun _ _ _ _ => False) ((Scrap.pairing hsemicolon hrest hrest').Within ts us)
        (expect .semicolon reason) (expect .semicolon reason) (v :: (vs ++ semicolon :: rest))
        (v :: (vs ++ semicolon :: rest')) := by
      unfold Abreast
      rw [hmissed, hmissed]
      exact abreast_fail hmid.rel hmid reason
    exact hexpect.bind fun _ _ _ _ h => absurd h id

/-- A scrap starts with no word of a compound statement, no brace and no `else`. -/
theorem Scrap.kind_of_cons (h : Scrap tokens semicolon) {t : Token} {us : List Token}
    (hus : tokens ++ semicolon :: rest = t :: us) :
    t.kind ∉ [.endMark, .leftBrace, .rightBrace, .kwElse, .kwFor, .kwIf, .kwWhile] := by
  cases tokens with
  | nil =>
    obtain ⟨rfl, -⟩ := List.cons.inj hus
    simp [h.closed]
  | cons u tokens =>
    obtain ⟨rfl, -⟩ := List.cons.inj hus
    have hflat := h.flat u List.mem_cons_self
    have hsimple := h.simple u rfl
    simp_all

/-- A scrap is parsed alike whatever follows it. -/
theorem Scrap.abreast (h : Scrap tokens semicolon) (hrest : Marked rest) (hrest' : Marked rest') {ts us : List Token}
    (hts : tokens ++ semicolon :: rest = ts) (hus : tokens ++ semicolon :: rest' = us) {n m n' m' : Nat}
    (hn : ts.length ≤ n) (hm : ts.length ≤ m) (hn' : us.length ≤ n') (hm' : us.length ≤ m') :
    Abreast .same (fun s s' ws ws' => s = s' ∧ ws = rest ∧ ws' = rest')
      ((Scrap.pairing h.closed hrest hrest').Within ts us) (declarationOr (Expr.parser n) (parser m))
      (declarationOr (Expr.parser n') (parser m')) ts us := by
  let P := Scrap.pairing h.closed hrest hrest'
  have hpasses : ∀ kind, kind ≠ .semicolon → kind ≠ .endMark → P.Passes kind := fun _ hkind _ => hkind
  have hrel : P.Rel ts us := ⟨tokens, h.left, hts.symm, hus.symm⟩
  have hfinishes := Scrap.finishes h.closed hrest hrest' ts us
  refine abreast_acceptAny_bind rfl ?_ hrel ?_ ?_
  · intro kind hasked
    rw [of_decide_eq_true hasked]
    exact hpasses .kwVar (by simp) (by simp)
  · have hpos := (P.marked hrel).1.length_pos
    have hpos' := (P.marked hrel).2.length_pos
    obtain ⟨m, rfl⟩ : ∃ i, m = i + 1 := ⟨m - 1, by omega⟩
    obtain ⟨m', rfl⟩ : ∃ i, m' = i + 1 := ⟨m' - 1, by omega⟩
    refine abreast_peek_bind hrel ?_
    rintro t vs u ws rfl rfl htoken
    have hkind := h.kind_of_cons hts
    rw [Likeness.same.kind_eq htoken]
    split
    case h_3 hprint =>
      have htail := P.tail hrel (hpasses _ (by simp [hprint]) (by simp [hprint]))
      refine abreast_skip_bind htoken (by simp [hprint]) ?_
      exact beforeSemicolon_abreast (Expr.parser_paired hpasses _ _) hfinishes (Pairing.Within.refl htail).cons hm hm'
        (fun _ _ => .print) _
    case h_6 =>
      exact beforeSemicolon_abreast (Expr.parser_paired hpasses _ _) hfinishes (.refl hrel) hm hm'
        (fun _ _ => .expression) _
    all_goals
      rename_i hword
      simp [hword] at hkind
  · rintro t vs u ws rfl rfl - - htail
    exact declaration_abreast hpasses (Expr.parser_paired hpasses _ _) hfinishes (Pairing.Within.refl htail).cons hn hn'

/-- Under recovery a scrap has the same outcome whatever follows it, and what follows is left. -/
theorem Scrap.recovered (h : Scrap tokens semicolon) (hrest : Marked rest) (hrest' : Marked rest') {n m n' m' : Nat}
    (hn : (tokens ++ semicolon :: rest).length ≤ n) (hm : (tokens ++ semicolon :: rest).length ≤ m)
    (hn' : (tokens ++ semicolon :: rest').length ≤ n') (hm' : (tokens ++ semicolon :: rest').length ≤ m') :
    ∃ o complaints,
      Yields (recover (declarationOr (Expr.parser n) (parser m))) (tokens ++ semicolon :: rest) o rest complaints ∧
      Yields (recover (declarationOr (Expr.parser n') (parser m'))) (tokens ++ semicolon :: rest') o rest' complaints := by
  have habreast := h.abreast hrest hrest' rfl rfl hn hm hn' hm'
  have hmarked := ((Scrap.pairing h.closed hrest hrest').marked ⟨tokens, h.left, rfl, rfl⟩).1
  have hbuilds := declarationOr_builds ((Expr.parser_builds n).mono hn) ((parser_builds m).mono hm)
  have hfault := (hbuilds _ hmarked (Nat.le_refl _)).2.1
  have hne : ∀ {ts : List Token}, Marked ts → ts ≠ [] := fun hts => List.ne_nil_of_length_pos hts.length_pos
  unfold Abreast at habreast
  rcases hend : declarationOr (Expr.parser n) (parser m) (tokens ++ semicolon :: rest) with ⟨value, left, made, _⟩
  rcases hend' : declarationOr (Expr.parser n') (parser m') (tokens ++ semicolon :: rest') with ⟨value', left', made', _⟩
  rw [hend, hend'] at habreast
  rw [hend] at hfault
  cases habreast with
  | @ok s s' _ _ _ _ _ _ hvalue hcomplaints =>
    obtain ⟨rfl, rfl, rfl⟩ := hvalue
    obtain rfl := eq_of_forall₂_alike hcomplaints
    refine ⟨some s, made, Yields.recover ⟨?_, ?_, ?_⟩, Yields.recover ⟨?_, ?_, ?_⟩⟩ <;> simp only [hend, hend']
  | @halted halt _ _ _ _ _ _ hleft hcomplaints =>
    obtain ⟨vs, hvs, rfl, rfl⟩ := hleft.rel
    obtain rfl := eq_of_forall₂_alike hcomplaints
    cases halt with
    | fault f => exact absurd rfl (hfault f)
    | gaveUp =>
      refine ⟨none, made, yields_recover_of_gaveUp ?_ ?_ ?_ (hvs.toBoundary_eq h.closed (hne hrest)),
        yields_recover_of_gaveUp ?_ ?_ ?_ (hvs.toBoundary_eq h.closed (hne hrest'))⟩ <;> simp only [hend, hend']

end Scraps

/-! ## Declarations -/

section Declarations

variable {closes : TokenKind → Bool} {one : Parser Stmt} {t : Token} {us mid rest : List Token} {k : Nat}

theorem declarations_stop (hcloses : closes t.kind = true) :
    Yields (declarations closes one (k + 1)) (t :: us) [] (t :: us) [] := by
  refine Accepts.yields (accepts_peek_bind_iff.2 ⟨t, us, rfl, ?_⟩)
  rw [if_pos hcloses]
  exact accepts_pure_iff.2 ⟨rfl, rfl⟩

/-- One round of the loop over declarations. -/
theorem declarations_step (hopen : closes t.kind = false) {o : Option Stmt} {ss : List Stmt}
    {made more : List Complaint} (h : Yields (recover one) (t :: us) o mid made)
    (h' : Yields (declarations closes one k) mid ss rest more) :
    Yields (declarations closes one (k + 1)) (t :: us) (o.toList ++ ss) rest (made ++ more) := by
  refine yields_peek_bind ?_
  rw [hopen, if_neg (by simp)]
  exact h.bind (h'.bindAccepts (accepts_pure_iff.2 ⟨rfl, rfl⟩))

end Declarations

/-- By itself a scrap is parsed to what it is in any place. -/
theorem Scrap.parse_eq {tokens rest : List Token} {semicolon mark : Token} (h : Scrap tokens semicolon)
    (hmark : mark.kind = .endMark) (hrest : Marked rest) {n m : Nat}
    (hn : (tokens ++ semicolon :: rest).length ≤ n) (hm : (tokens ++ semicolon :: rest).length ≤ m) :
    ∃ o complaints, parse (tokens ++ [semicolon, mark]) = ⟨o.toList, complaints.map Complaint.toError, none⟩ ∧
      Yields (recover (declarationOr (Expr.parser n) (parser m))) (tokens ++ semicolon :: rest) o rest complaints := by
  have hmarked : Marked [mark] := marked_concat [] hmark
  obtain ⟨o, complaints, hhere, halone⟩ := h.recovered hrest hmarked hn hm (Nat.le_refl _) (Nat.le_refl _)
  refine ⟨o, complaints, ?_, hhere⟩
  have hprogram : Yields (programParser (tokens ++ [semicolon, mark]).length) (tokens ++ [semicolon, mark])
      (o.toList ++ []) [mark] (complaints ++ []) := by
    have hlength : (tokens ++ [semicolon, mark]).length = tokens.length + 1 + 1 := by simp
    obtain ⟨t, us, hus⟩ := List.exists_cons_of_ne_nil (by simp : tokens ++ [semicolon, mark] ≠ [])
    have hkind := h.kind_of_cons hus
    rw [hus] at halone hlength ⊢
    rw [programParser, hlength] at *
    refine declarations_step ?_ halone (declarations_stop (by simpa using hmark))
    simp only [List.mem_cons, not_or] at hkind
    simpa using hkind.1
  rw [List.append_nil, List.append_nil] at hprogram
  obtain ⟨hvalue, -, hcomplaints⟩ := hprogram
  have hne : tokens ++ [semicolon, mark] ≠ [] := by simp
  simp only [parse, Parser.run, if_neg hne, hvalue, hcomplaints, Option.getD_some]

end Stmt

end Lox
