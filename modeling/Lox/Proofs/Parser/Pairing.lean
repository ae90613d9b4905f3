import Mathlib.Data.List.Forall2
import Lox.Proofs.Parser.Accept
import Lox.Proofs.Parser.Behaviour
import Lox.Proofs.Stmt.Likeness

/-!
Two parsers abreast, on two lists of tokens that belong together.

* `Outcome.Alike T Q E o o'`: the outcomes have complaints that are alike, and both have values and
  meet `Q`, or both stop for the same reason and what they leave meets `E`.
* `Abreast T Q E p q ts us`: the parsers have such outcomes on two lists of tokens.
* `Pairing T`: a relation between lists of tokens whose heads are alike, that goes on behind heads of
  certain kinds.
* `Paired P A n m p q`: on lists that belong together, of at most `n` and `m` tokens, the parsers are
  abreast, their values meet `A`, and what they leave belongs together again.

* `Parse.Alike T A p q`: what whole inputs are parsed to is alike.

As the bounds on the two sides may differ, a parser is paired with itself under another bound. There is
one rule for each basic parser and one for chains.
-/

namespace Lox

/-- The complaints have the same reason, at tokens that are alike. -/
structure Complaint.Alike (T : Likeness) (c c' : Complaint) : Prop where
  reason_eq : c'.reason = c.reason
  token : T.Rel c.token c'.token

variable {α β γ δ : Type} {T : Likeness}

/-! ## Outcomes -/

/-- The outcomes are alike: with values that meet `Q`, or stopped for the same reason, where what is left meets
`E`. -/
inductive Outcome.Alike (T : Likeness) (Q : α → β → List Token → List Token → Prop)
    (E : List Token → List Token → Prop) : Outcome α → Outcome β → Prop
  | ok {a : α} {b : β} {rest rest' : List Token} {complaints complaints' : List Complaint}
      {complained : Except.ok a = .error Halt.gaveUp → complaints ≠ []}
      {complained' : Except.ok b = .error Halt.gaveUp → complaints' ≠ []} : Q a b rest rest' →
      List.Forall₂ (Complaint.Alike T) complaints complaints' →
      Outcome.Alike T Q E ⟨.ok a, rest, complaints, complained⟩ ⟨.ok b, rest', complaints', complained'⟩
  | halted {halt : Halt} {rest rest' : List Token} {complaints complaints' : List Complaint}
      {complained : (Except.error halt : Except Halt α) = .error Halt.gaveUp → complaints ≠ []}
      {complained' : (Except.error halt : Except Halt β) = .error Halt.gaveUp → complaints' ≠ []} : E rest rest' →
      List.Forall₂ (Complaint.Alike T) complaints complaints' →
      Outcome.Alike T Q E ⟨.error halt, rest, complaints, complained⟩ ⟨.error halt, rest', complaints', complained'⟩

section Outcomes

variable {Q : α → β → List Token → List Token → Prop} {E : List Token → List Token → Prop}
  {o : Outcome α} {o' : Outcome β}

theorem Outcome.Alike.mono {Q' : α → β → List Token → List Token → Prop} {E' : List Token → List Token → Prop}
    (h : Outcome.Alike T Q E o o') (hQ : ∀ a b rest rest', Q a b rest rest' → Q' a b rest rest')
    (hE : ∀ rest rest', E rest rest' → E' rest rest') : Outcome.Alike T Q' E' o o' := by
  cases h with
  | ok hvalue hcomplaints => exact .ok (hQ _ _ _ _ hvalue) hcomplaints
  | halted hrest hcomplaints => exact .halted (hE _ _ hrest) hcomplaints

/-- Outcomes stay alike with complaints made before. -/
theorem Outcome.Alike.after (h : Outcome.Alike T Q E o o') {made made' : List Complaint}
    (hmade : List.Forall₂ (Complaint.Alike T) made made')
    {complained : o.value = .error .gaveUp → made ++ o.complaints ≠ []}
    {complained' : o'.value = .error .gaveUp → made' ++ o'.complaints ≠ []} :
    Outcome.Alike T Q E ⟨o.value, o.rest, made ++ o.complaints, complained⟩
      ⟨o'.value, o'.rest, made' ++ o'.complaints, complained'⟩ := by
  cases h with
  | ok hvalue hcomplaints => exact .ok hvalue (List.rel_append hmade hcomplaints)
  | halted hrest hcomplaints => exact .halted hrest (List.rel_append hmade hcomplaints)

/-- Outcomes stay alike with complaints made before, where their values are dropped. -/
theorem Outcome.Alike.droppedAfter {R : Option γ → Option δ → List Token → List Token → Prop}
    {E' : List Token → List Token → Prop} (h : Outcome.Alike T Q E o o')
    (hR : ∀ a b rest rest', Q a b rest rest' → R none none rest rest') (hE : ∀ rest rest', E rest rest' → E' rest rest')
    {made made' : List Complaint} (hmade : List.Forall₂ (Complaint.Alike T) made made')
    {complained : o.value.map (fun _ => (none : Option γ)) = .error .gaveUp → made ++ o.complaints ≠ []}
    {complained' : o'.value.map (fun _ => (none : Option δ)) = .error .gaveUp → made' ++ o'.complaints ≠ []} :
    Outcome.Alike T R E' ⟨o.value.map fun _ => none, o.rest, made ++ o.complaints, complained⟩
      ⟨o'.value.map fun _ => none, o'.rest, made' ++ o'.complaints, complained'⟩ := by
  cases h with
  | ok hvalue hcomplaints => exact .ok (hR _ _ _ _ hvalue) (List.rel_append hmade hcomplaints)
  | halted hrest hcomplaints => exact .halted (hE _ _ hrest) (List.rel_append hmade hcomplaints)

end Outcomes

namespace Parser

/-- On two lists the parsers have outcomes that are alike. -/
def Abreast (T : Likeness) (Q : α → β → List Token → List Token → Prop) (E : List Token → List Token → Prop)
    (p : Parser α) (q : Parser β) (ts us : List Token) : Prop :=
  Outcome.Alike T Q E (p ts) (q us)

section Rules

variable {Q : α → β → List Token → List Token → Prop} {E : List Token → List Token → Prop}
  {ts us : List Token}

theorem Abreast.mono {Q' : α → β → List Token → List Token → Prop} {E' : List Token → List Token → Prop}
    {p : Parser α} {q : Parser β} (h : Abreast T Q E p q ts us)
    (hQ : ∀ a b rest rest', Q a b rest rest' → Q' a b rest rest') (hE : ∀ rest rest', E rest rest' → E' rest rest') :
    Abreast T Q' E' p q ts us :=
  Outcome.Alike.mono h hQ hE

/-- Parsers that are abreast leave what each of them leaves by itself. -/
theorem Abreast.and {p : Parser α} {q : Parser β} (h : Abreast T Q E p q ts us) {K : α → List Token → Prop}
    {L : β → List Token → Prop} (hp : Behaves p ts K) (hq : Behaves q us L) :
    Abreast T (fun a b rest rest' => Q a b rest rest' ∧ K a rest ∧ L b rest') E p q ts us := by
  have hK := hp.2.2
  have hL := hq.2.2
  unfold Abreast at h ⊢
  generalize p ts = o at h hK ⊢
  generalize q us = o' at h hL ⊢
  cases h with
  | ok hvalue hcomplaints => exact .ok ⟨hvalue, hK _ rfl, hL _ rfl⟩ hcomplaints
  | halted hrest hcomplaints => exact .halted hrest hcomplaints

theorem abreast_pure {a : α} {b : β} (h : Q a b ts us) : Abreast T Q E (pure a) (pure b) ts us := .ok h .nil

/-- Chains are abreast if their first parsers are, and the next ones are on what these leave. -/
theorem Abreast.bind {p : Parser α} {q : Parser β} {f : α → Parser γ} {g : β → Parser δ}
    {R : γ → δ → List Token → List Token → Prop} (hp : Abreast T Q E p q ts us)
    (hf : ∀ a b rest rest', Q a b rest rest' → Abreast T R E (f a) (g b) rest rest') :
    Abreast T R E (p >>= f) (q >>= g) ts us := by
  simp only [Abreast, Bind.bind] at hp hf ⊢
  generalize p ts = o at hp ⊢
  generalize q us = o' at hp ⊢
  cases hp with
  | halted hrest hcomplaints => exact .halted hrest hcomplaints
  | ok hvalue hcomplaints => exact (hf _ _ _ _ hvalue).after hcomplaints

theorem Abreast.map {p : Parser α} {q : Parser β} {f : α → γ} {g : β → δ}
    {R : γ → δ → List Token → List Token → Prop} (hp : Abreast T Q E p q ts us)
    (hR : ∀ a b rest rest', Q a b rest rest' → R (f a) (g b) rest rest') :
    Abreast T R E (f <$> p) (g <$> q) ts us :=
  hp.bind fun a b rest rest' h => abreast_pure (hR a b rest rest' h)

end Rules

/-! ## Pairings -/

/-- A relation between lists of tokens that have an end mark and heads that are alike, and belong together
again behind heads of kinds that pass. -/
structure Pairing (T : Likeness) where
  Rel : List Token → List Token → Prop
  Passes : TokenKind → Prop
  head : ∀ {ts us : List Token}, Rel ts us →
    ∃ t ts' u us', ts = t :: ts' ∧ us = u :: us' ∧ T.Rel t u
  tail : ∀ {t u : Token} {ts us : List Token}, Rel (t :: ts) (u :: us) → Passes t.kind → Rel ts us
  marked : ∀ {ts us : List Token}, Rel ts us → Marked ts ∧ Marked us

namespace Pairing

variable {P : Pairing T} {ts us mid mid' rest rest' : List Token}

/-- The lists belong together, and are no longer than two others. -/
structure Within (P : Pairing T) (ts us rest rest' : List Token) : Prop where
  rel : P.Rel rest rest'
  le : rest.length ≤ ts.length
  le' : rest'.length ≤ us.length

theorem Within.refl (h : P.Rel ts us) : P.Within ts us ts us := ⟨h, Nat.le_refl _, Nat.le_refl _⟩

theorem Within.trans (h : P.Within ts us mid mid') (h' : P.Within mid mid' rest rest') :
    P.Within ts us rest rest' :=
  ⟨h'.rel, Nat.le_trans h'.le h.le, Nat.le_trans h'.le' h.le'⟩

theorem Within.cons {t u : Token} (h : P.Within ts us rest rest') : P.Within (t :: ts) (u :: us) rest rest' :=
  ⟨h.rel, Nat.le_succ_of_le h.le, Nat.le_succ_of_le h.le'⟩

/-- Lists with an end mark belong together if their tokens are alike one by one. -/
def ofLikeness (T : Likeness) : Pairing T where
  Rel ts us := Marked ts ∧ List.Forall₂ T.Rel ts us
  Passes kind := kind ≠ .endMark
  head := by
    rintro ts us ⟨hmarked, halike⟩
    obtain ⟨t, ts, rfl⟩ := hmarked.exists_cons
    cases halike with
    | cons htoken _ => exact ⟨t, ts, _, _, rfl, rfl, htoken⟩
  tail := by
    rintro t u ts us ⟨hmarked, halike⟩ hkind
    exact ⟨hmarked.tail hkind, (List.forall₂_cons.1 halike).2⟩
  marked := by
    rintro ts us ⟨hmarked, halike⟩
    refine ⟨hmarked, ?_⟩
    induction halike with
    | nil => exact hmarked
    | @cons t u ts us htoken _ ih =>
      by_cases hkind : t.kind = .endMark
      · exact ⟨u, List.mem_cons_self, by rw [T.kind_eq htoken, hkind]⟩
      · obtain ⟨v, hv, hmark⟩ := ih (hmarked.tail hkind)
        exact ⟨v, List.mem_cons_of_mem u hv, hmark⟩

end Pairing

/-- On lists that belong together, of at most `n` and `m` tokens, the parsers are abreast, with values that
meet `A`, and what they leave belongs together. -/
def Paired (P : Pairing T) (A : α → β → Prop) (n m : Nat) (p : Parser α) (q : Parser β) : Prop :=
  ∀ ts us, P.Rel ts us → ts.length ≤ n → us.length ≤ m →
    Abreast T (fun a b rest rest' => A a b ∧ P.Within ts us rest rest') (P.Within ts us) p q ts us

section Basic

variable {P : Pairing T} {A : α → β → Prop} {Q : α → β → List Token → List Token → Prop}
  {E : List Token → List Token → Prop} {ts us : List Token}

theorem Paired.mono {n m k l : Nat} {p : Parser α} {q : Parser β} (h : Paired P A n m p q) (hk : k ≤ n)
    (hl : l ≤ m) : Paired P A k l p q :=
  fun ts us hrel hts hus => h ts us hrel (Nat.le_trans hts hk) (Nat.le_trans hus hl)

/-- Paired parsers, on what is left of two lists. -/
theorem Paired.within {n m : Nat} {p : Parser α} {q : Parser β} (h : Paired P A n m p q) {mid mid' : List Token}
    (hmid : P.Within ts us mid mid') (hn : mid.length ≤ n) (hm : mid'.length ≤ m) :
    Abreast T (fun a b rest rest' => A a b ∧ P.Within ts us rest rest') (P.Within ts us) p q mid mid' :=
  (h mid mid' hmid.rel hn hm).mono (fun _ _ _ _ hvalue => ⟨hvalue.1, hmid.trans hvalue.2⟩)
    fun _ _ hrest => hmid.trans hrest

/-- No lists belong together without a token in them. -/
theorem paired_zero {n m : Nat} (h : n = 0 ∨ m = 0) {p : Parser α} {q : Parser β} : Paired P A n m p q := by
  intro ts us hrel hts hus
  obtain ⟨t, ts, u, us, rfl, rfl, -⟩ := P.head hrel
  simp only [List.length_cons] at hts hus
  omega

theorem abreast_peek_bind (hrel : P.Rel ts us) {f : Token → Parser α} {g : Token → Parser β}
    (h : ∀ t ts' u us', ts = t :: ts' → us = u :: us' → T.Rel t u → Abreast T Q E (f t) (g u) ts us) :
    Abreast T Q E (peek >>= f) (peek >>= g) ts us := by
  obtain ⟨t, ts, u, us, rfl, rfl, htoken⟩ := P.head hrel
  unfold Abreast
  rw [bind_of_accepts (accepts_peek_iff.2 ⟨ts, rfl, rfl⟩), bind_of_accepts (accepts_peek_iff.2 ⟨us, rfl, rfl⟩)]
  exact h t ts u us rfl rfl htoken

theorem abreast_skip_bind {t u : Token} (htoken : T.Rel t u) (hkind : t.kind ≠ .endMark) {f : Unit → Parser α}
    {g : Unit → Parser β} (h : Abreast T Q E (f ()) (g ()) ts us) :
    Abreast T Q E (skip >>= f) (skip >>= g) (t :: ts) (u :: us) := by
  unfold Abreast
  have hkind' : u.kind ≠ .endMark := by rwa [T.kind_eq htoken]
  rw [bind_of_accepts (accepts_skip hkind ts), bind_of_accepts (accepts_skip hkind' us)]
  exact h

theorem abreast_fail (hrel : P.Rel ts us) (hE : E ts us) (reason : Reason) :
    Abreast T Q E (fail reason) (fail reason) ts us := by
  obtain ⟨t, ts, u, us, rfl, rfl, htoken⟩ := P.head hrel
  exact .halted hE (.cons ⟨rfl, htoken⟩ .nil)

theorem abreast_complain {Q : Unit → Unit → List Token → List Token → Prop} {t u : Token} (htoken : T.Rel t u)
    (reason : Reason) (h : Q () () ts us) : Abreast T Q E (complain reason t) (complain reason u) ts us :=
  .ok h (.cons ⟨rfl, htoken⟩ .nil)

/-- Both sides consume the next token if its kind was asked for, and leave it if not. -/
theorem abreast_acceptAny_bind {asked : TokenKind → Bool} (hmark : asked .endMark = false)
    (hpasses : ∀ kind, asked kind = true → P.Passes kind) (hrel : P.Rel ts us) {f : Option Token → Parser α}
    {g : Option Token → Parser β} (hnone : Abreast T Q E (f none) (g none) ts us)
    (hsome : ∀ t ts' u us', ts = t :: ts' → us = u :: us' → T.Rel t u → asked t.kind = true →
      P.Rel ts' us' → Abreast T Q E (f (some t)) (g (some u)) ts' us') :
    Abreast T Q E (acceptAny asked >>= f) (acceptAny asked >>= g) ts us := by
  unfold Abreast
  obtain ⟨t, ts, u, us, rfl, rfl, htoken⟩ := P.head hrel
  have hkind := T.kind_eq htoken
  cases hasked : asked t.kind with
  | true =>
    rw [bind_of_accepts (accepts_acceptAny_some hmark hasked ts),
      bind_of_accepts (accepts_acceptAny_some hmark (hkind ▸ hasked) us)]
    exact hsome t ts u us rfl rfl htoken hasked (P.tail hrel (hpasses _ hasked))
  | false =>
    rw [bind_of_accepts (accepts_acceptAny_none hmark hasked ts),
      bind_of_accepts (accepts_acceptAny_none hmark (hkind ▸ hasked) us)]
    exact hnone

theorem abreast_expect {kind : TokenKind} (hmark : kind ≠ .endMark) (hpasses : P.Passes kind) (reason : Reason)
    {mid mid' : List Token} (hmid : P.Within ts us mid mid') :
    Abreast T (fun t u rest rest' => T.Rel t u ∧ P.Within ts us rest rest') (P.Within ts us) (expect kind reason)
      (expect kind reason) mid mid' := by
  refine abreast_acceptAny_bind (by simpa using Ne.symm hmark) ?_ hmid.rel (abreast_fail hmid.rel hmid reason) ?_
  · intro kind' hasked
    rwa [of_decide_eq_true hasked]
  · rintro t ts' u us' rfl rfl htoken - hrel
    exact abreast_pure ⟨htoken, hmid.trans (Pairing.Within.refl hrel).cons⟩

end Basic

/-! ## Recovery -/

section Recovery

variable {P : Pairing T} (hpasses : ∀ kind, kind ≠ .endMark → P.Passes kind)

include hpasses

/-- Boundaries belong together. -/
theorem toBoundary_abreast {ts us : List Token} (hrel : P.Rel ts us) :
    Abreast T (fun _ _ rest rest' => P.Within ts us rest rest') (P.Within ts us) toBoundary toBoundary ts us := by
  induction ts generalizing us with
  | nil =>
    obtain ⟨t, ts, u, us, heq, -⟩ := P.head hrel
    cases heq
  | cons t ts ih =>
    obtain ⟨t', ts', u, us, ⟨⟩, rfl, htoken⟩ := P.head hrel
    have hkind := T.kind_eq htoken
    by_cases hmark : t.kind = .endMark
    · unfold Abreast
      rw [toBoundary_of_endMark hmark, toBoundary_of_endMark (hkind.trans hmark)]
      exact abreast_pure (.refl hrel)
    · have htail := P.tail hrel (hpasses _ hmark)
      obtain ⟨v, vs, w, ws, rfl, rfl, hnext⟩ := P.head htail
      unfold Abreast
      rw [toBoundary_cons_cons hmark, toBoundary_cons_cons (by rwa [hkind]), T.kind_eq hnext, hkind]
      split
      · exact abreast_pure (Pairing.Within.refl htail).cons
      · exact (ih htail).mono (fun _ _ _ _ hrest => hrest.cons) fun _ _ hrest => hrest.cons

theorem Paired.recover {A : α → β → Prop} {n m : Nat} {p : Parser α} {q : Parser β} (h : Paired P A n m p q) :
    Paired P (Option.Rel A) n m (recover p) (recover q) := by
  intro ts us hrel hn hm
  have hend := h ts us hrel hn hm
  unfold Abreast Parser.recover at *
  generalize p ts = o at hend ⊢
  generalize q us = o' at hend ⊢
  cases hend with
  | ok hvalue hcomplaints => exact .ok ⟨.some hvalue.1, hvalue.2⟩ hcomplaints
  | @halted halt rest rest' _ _ _ _ hrest hcomplaints =>
    cases halt with
    | fault f => exact .halted hrest hcomplaints
    | gaveUp =>
      exact Outcome.Alike.droppedAfter (toBoundary_abreast hpasses hrest.rel)
        (fun _ _ _ _ hboundary => ⟨.none, hrest.trans hboundary⟩) (fun _ _ hboundary => hrest.trans hboundary) hcomplaints

end Recovery

end Parser

/-! ## Whole inputs -/

section Inputs

/-- What parsing gives is alike: results that meet `A`, errors at tokens that are alike, and the same fault if any. -/
structure Parse.Alike (T : Likeness) (A : α → β → Prop) (p : Parse α) (q : Parse β) : Prop where
  result : A p.result q.result
  errors : ∃ complaints complaints', List.Forall₂ (Complaint.Alike T) complaints complaints' ∧
    p.errors = complaints.map Complaint.toError ∧ q.errors = complaints'.map Complaint.toError
  fault_eq : q.fault = p.fault

/-- Parsers that are paired run alike on lists that belong together. -/
theorem Parser.Paired.run_alike {P : Parser.Pairing T} {A : α → β → Prop} {n m : Nat} {p : Parser α} {q : Parser β}
    (h : Paired P A n m p q) {ts us : List Token} (hrel : P.Rel ts us) (hn : ts.length ≤ n) (hm : us.length ≤ m) :
    (run p ts).Alike T (Option.Rel A) (run q us) := by
  have hend := h ts us hrel hn hm
  obtain ⟨t, vs, u, ws, hts, hus, -⟩ := P.head hrel
  have hts : ts ≠ [] := by simp [hts]
  have hus : us ≠ [] := by simp [hus]
  simp only [run, if_neg hts, if_neg hus, Abreast] at hend ⊢
  generalize p ts = o at hend ⊢
  generalize q us = o' at hend ⊢
  cases hend with
  | ok hvalue hcomplaints => exact ⟨.some hvalue.1, ⟨_, _, hcomplaints, rfl, rfl⟩, rfl⟩
  | @halted halt _ _ _ _ _ _ _ hcomplaints =>
    cases halt with
    | gaveUp => exact ⟨.none, ⟨_, _, hcomplaints, rfl, rfl⟩, rfl⟩
    | fault f => exact ⟨.none, ⟨_, _, hcomplaints, rfl, rfl⟩, rfl⟩

theorem eq_of_forall₂_alike {complaints complaints' : List Complaint}
    (h : List.Forall₂ (Complaint.Alike .same) complaints complaints') : complaints = complaints' := by
  induction h with
  | nil => rfl
  | @cons c c' _ _ hc _ ih =>
    obtain ⟨hreason, htoken⟩ := hc
    obtain ⟨reason, token⟩ := c
    obtain ⟨reason', token'⟩ := c'
    obtain rfl : reason' = reason := hreason
    obtain rfl : token = token' := Likeness.same_iff.1 htoken
    rw [ih]

/-- What is alike by equal tokens, with equal results, is equal. -/
theorem Parse.Alike.eq {A : α → α → Prop} {p q : Parse α} (h : p.Alike .same A q) (hA : ∀ a b, A a b → a = b) :
    p = q := by
  obtain ⟨hresult, ⟨complaints, complaints', hcomplaints, herrors, herrors'⟩, hfault⟩ := h
  obtain ⟨result, errors, fault⟩ := p
  obtain ⟨result', errors', fault'⟩ := q
  obtain rfl := hA _ _ hresult
  obtain rfl := eq_of_forall₂_alike hcomplaints
  obtain rfl : errors = errors' := herrors.trans herrors'.symm
  obtain rfl : fault' = fault := hfault
  rfl

end Inputs

end Lox
