import Lox.Proofs.Parser.Behaviour
import Lox.Proofs.Parser.Yields

/-!
Trials: how a parser does on tokens that may be wrong.

* `Mild complaints`: all of them are about targets of assignments, where no parser gives up.
* `Passes p ts rest`: the parser has a value and leaves `rest`, with mild complaints at most.
* `Trial L n p ts`: the parser passes over a word of the language `L`, or its first complaint that is not mild is about
  a token `t` behind a word that begins one of `L`. In both cases it does not look further: it does the same whatever
  comes behind the token in front of which it stops, as long as there are at most `n` tokens.
* `Exact L n p`: this holds on all tokens with an end mark, of at most `n`.

A language is a relation between words and the tokens behind them. In a chain what comes first is cut off it: behind the
word `w` the language is `fun v => L (w ++ v)`.
-/

namespace Lox

/-- a token of a kind, to stand for one that is missing -/
def Token.filler (kind : TokenKind) : Token := ⟨kind, "", none, 1⟩

namespace Parser

variable {α β : Type}

/-! ## Mild complaints -/

/-- All complaints are about targets of assignments. -/
def Mild (complaints : List Complaint) : Prop := ∀ c ∈ complaints, c.reason = .assignmentTarget

theorem mild_nil : Mild [] := by simp [Mild]

theorem Mild.append {made more : List Complaint} (h : Mild made) (h' : Mild more) : Mild (made ++ more) := by
  intro c hc
  rcases List.mem_append.1 hc with hc | hc
  · exact h c hc
  · exact h' c hc

/-- The parser has a value and leaves `rest`, with mild complaints at most. -/
def Passes (p : Parser α) (ts rest : List Token) : Prop :=
  ∃ a complaints, Yields p ts a rest complaints ∧ Mild complaints

section Passes

variable {p : Parser α} {f : α → Parser β} {ts mid rest : List Token}

theorem Accepts.passes {a : α} (h : Accepts p ts a rest) : Passes p ts rest := ⟨a, [], h.yields, mild_nil⟩

theorem passes_pure (a : α) (ts : List Token) : Passes (pure a) ts ts :=
  Accepts.passes (accepts_pure_iff.2 ⟨rfl, rfl⟩)

theorem passes_complain (t : Token) (ts : List Token) : Passes (complain .assignmentTarget t) ts ts :=
  ⟨(), [⟨.assignmentTarget, t⟩], ⟨rfl, rfl, rfl⟩, by simp [Mild]⟩

theorem Passes.bind (h : Passes p ts mid) (hf : ∀ a, Passes (f a) mid rest) : Passes (p >>= f) ts rest := by
  obtain ⟨a, made, hyields, hmade⟩ := h
  obtain ⟨b, more, hyields', hmore⟩ := hf a
  exact ⟨b, made ++ more, hyields.bind hyields', hmade.append hmore⟩

theorem Passes.map (h : Passes p ts rest) (f : α → β) : Passes (f <$> p) ts rest :=
  h.bind fun a => passes_pure (f a) rest

/-- What comes first without a complaint leaves the rest to what follows. -/
theorem Accepts.bindPasses {a : α} (h : Accepts p ts a mid) (hf : Passes (f a) mid rest) :
    Passes (p >>= f) ts rest := by
  obtain ⟨b, more, hyields, hmore⟩ := hf
  exact ⟨b, more, h.bindYields hyields, hmore⟩

theorem Passes.recover (h : Passes p ts rest) : Passes (recover p) ts rest := by
  obtain ⟨a, complaints, hyields, hmild⟩ := h
  exact ⟨some a, complaints, hyields.recover, hmild⟩

theorem passes_peek_bind {f : Token → Parser β} {t : Token} (h : Passes (f t) (t :: ts) rest) :
    Passes (peek >>= f) (t :: ts) rest :=
  Accepts.bindPasses (accepts_peek_iff.2 ⟨ts, rfl, rfl⟩) h

theorem passes_skip_bind {f : Unit → Parser β} {t : Token} (ht : t.kind ≠ .endMark) (h : Passes (f ()) ts rest) :
    Passes (skip >>= f) (t :: ts) rest :=
  Accepts.bindPasses (accepts_skip ht ts) h

theorem passes_expect_bind {kind : TokenKind} (hmark : kind ≠ .endMark) {reason : Reason} {f : Token → Parser β}
    {t : Token} (ht : t.kind = kind) (h : Passes (f t) ts rest) : Passes (expect kind reason >>= f) (t :: ts) rest :=
  Accepts.bindPasses ((accepts_expect_iff hmark).2 ⟨rfl, ht⟩) h

end Passes

/-! ## Complaints of chains -/

section Complaints

variable {p : Parser α} {f : α → Parser β} {ts mid : List Token}

theorem Yields.of_eq {q : Parser α} {us rest : List Token} {a : α} {made : List Complaint}
    (h : Yields p ts a rest made) (heq : q us = p ts) : Yields q us a rest made := by
  obtain ⟨hvalue, hrest, hcomplaints⟩ := h
  rw [← heq] at hvalue hrest hcomplaints
  exact ⟨hvalue, hrest, hcomplaints⟩

theorem Yields.complaints_bind {a : α} {made : List Complaint} (h : Yields p ts a mid made) :
    ((p >>= f) ts).complaints = made ++ (f a mid).complaints := by
  obtain ⟨hvalue, rfl, rfl⟩ := h
  rcases hend : p ts with ⟨value, rest, complaints, complained⟩
  rw [hend] at hvalue
  subst hvalue
  simp only [Bind.bind, hend]

/-- A chain makes the complaints of its first parser first. -/
theorem complaints_isPrefix_bind : (p ts).complaints <+: ((p >>= f) ts).complaints := by
  rcases hend : p ts with ⟨halt | a, rest, complaints, complained⟩
  · simp only [Bind.bind, hend]
    exact List.prefix_refl _
  · simp only [Bind.bind, hend]
    exact List.prefix_append _ _

theorem complaints_isPrefix_recover : (p ts).complaints <+: (recover p ts).complaints := by
  rcases hend : p ts with ⟨(_ | fault) | a, rest, complaints, complained⟩
  · simp only [recover, hend]
    exact List.prefix_append _ _
  · simp only [recover, hend]
    exact List.prefix_refl _
  · simp only [recover, hend]
    exact List.prefix_refl _

end Complaints

/-! ## Trials -/

/-- The parser passes over a word of the language, or blames a token behind a word that begins one; and it does the same
whatever comes behind the token in front of which it stops. -/
inductive Trial (L : List Token → Token → Prop) (n : Nat) (p : Parser α) (ts : List Token) : Prop
  | passed (a : α) {w rest : List Token} {u : Token} {made : List Complaint} : ts = w ++ u :: rest →
      Marked (u :: rest) → L w u → Mild made →
      (∀ us, (w ++ u :: us).length ≤ n → Yields p (w ++ u :: us) a (u :: us) made) → Trial L n p ts
  | blamed {w z rest : List Token} {t u : Token} {made : List Complaint} {c : Complaint} : ts = w ++ t :: rest →
      L (w ++ z) u → Mild made → c.reason ≠ .assignmentTarget → c.token = t →
      (∀ us, (w ++ t :: us).length ≤ n → made ++ [c] <+: (p (w ++ t :: us)).complaints) → Trial L n p ts

/-- On all tokens with an end mark, of at most `n`, the parser passes over a word of the language or blames a token
behind a word that begins one. -/
def Exact (L : List Token → Token → Prop) (n : Nat) (p : Parser α) : Prop :=
  ∀ ts, Marked ts → ts.length ≤ n → Trial L n p ts

section Trials

variable {L : List Token → Token → Prop} {n : Nat} {p : Parser α} {ts : List Token}

theorem Trial.mono {M : List Token → Token → Prop} {m : Nat} (h : Trial L n p ts) (hM : ∀ w u, L w u → M w u)
    (hm : m ≤ n) : Trial M m p ts := by
  cases h with
  | passed a hsplit hmarked hword hmild hyields =>
    exact .passed a hsplit hmarked (hM _ _ hword) hmild fun us hus => hyields us (Nat.le_trans hus hm)
  | blamed hsplit hviable hmild hhard htoken hcomplains =>
    exact .blamed hsplit (hM _ _ hviable) hmild hhard htoken fun us hus => hcomplains us (Nat.le_trans hus hm)

/-- An exact parser is on trial on any tokens, also for fewer behind them. -/
theorem Exact.trial (h : Exact L n p) {m : Nat} (hts : Marked ts) (hlength : ts.length ≤ m) (hm : m ≤ n) :
    Trial L m p ts :=
  (h ts hts (Nat.le_trans hlength hm)).mono (fun _ _ hw => hw) hm

theorem exact_zero : Exact L 0 p := fun ts hts hlength => absurd hts.length_pos (by omega)

/-- A word and the token behind it start with the same token whatever comes behind them. -/
theorem exists_cons_of_append {t u : Token} {us w rest : List Token} (h : t :: us = w ++ u :: rest) (vs : List Token) :
    ∃ us', w ++ u :: vs = t :: us' := by
  cases w with
  | nil =>
    obtain ⟨rfl, -⟩ := List.cons.inj h
    exact ⟨vs, rfl⟩
  | cons v w =>
    obtain ⟨rfl, -⟩ := List.cons.inj h
    exact ⟨w ++ u :: vs, rfl⟩

/-- A parser that does as another on all tokens with the same head has its trials. -/
theorem Trial.stay {q : Parser α} {t : Token} {us : List Token} (hq : ∀ us', q (t :: us') = p (t :: us'))
    (h : Trial L n p (t :: us)) : Trial L n q (t :: us) := by
  have heq : ∀ {w rest : List Token} {u : Token}, t :: us = w ++ u :: rest →
      ∀ vs, q (w ++ u :: vs) = p (w ++ u :: vs) := by
    intro w rest u hsplit vs
    obtain ⟨us', hus'⟩ := exists_cons_of_append hsplit vs
    rw [hus', hq]
  cases h with
  | passed a hsplit hmarked hword hmild hyields =>
    exact .passed a hsplit hmarked hword hmild fun vs hvs => (hyields vs hvs).of_eq (heq hsplit vs)
  | blamed hsplit hviable hmild hhard htoken hcomplains =>
    refine .blamed hsplit hviable hmild hhard htoken fun vs hvs => ?_
    rw [heq hsplit]
    exact hcomplains vs hvs

/-- A parser that goes past a token and then does as another has its trials, with the token in front. -/
theorem Trial.consume {q : Parser α} {t : Token} {us : List Token} (hq : ∀ us', q (t :: us') = p us')
    (h : Trial (fun v => L (t :: v)) (n - 1) p us) : Trial L n q (t :: us) := by
  cases h with
  | @passed a w rest u _ hsplit hmarked hword hmild hyields =>
    refine .passed (w := t :: w) a (congrArg (t :: ·) hsplit) hmarked hword hmild fun vs hvs => ?_
    simp only [List.cons_append, List.length_cons] at hvs
    exact (hyields vs (by omega)).of_eq (hq _)
  | @blamed w z rest t' u _ _ hsplit hviable hmild hhard htoken hcomplains =>
    refine .blamed (w := t :: w) (congrArg (t :: ·) hsplit) hviable hmild hhard htoken fun vs hvs => ?_
    simp only [List.cons_append, List.length_cons] at hvs
    rw [List.cons_append, hq]
    exact hcomplains vs (by omega)

/-- In a chain the second parser is on trial for what is missing behind the word that the first passed over. -/
theorem Trial.bind {M : List Token → Token → Prop} {f : α → Parser β} (h : Trial M n p ts) (hlength : ts.length ≤ n)
    (hviable : ∀ w u, M w u → ∃ z u', L (w ++ z) u')
    (hf : ∀ a w u rest, Marked (u :: rest) → (u :: rest).length ≤ n - w.length → M w u →
      Trial (fun v => L (w ++ v)) (n - w.length) (f a) (u :: rest)) : Trial L n (p >>= f) ts := by
  cases h with
  | @blamed w z rest t u _ _ hsplit hword hmild hhard htoken hcomplains =>
    obtain ⟨z', u', hword'⟩ := hviable _ _ hword
    rw [List.append_assoc] at hword'
    refine .blamed hsplit hword' hmild hhard htoken fun us hus => ?_
    exact (hcomplains us hus).trans complaints_isPrefix_bind
  | @passed a w rest u made hsplit hmarked hword hmild hyields =>
    -- the second parser sees the token behind the word whatever comes behind its own
    have hfirst : ∀ {v rest' : List Token} {u' : Token}, u :: rest = v ++ u' :: rest' → ∀ us,
        (w ++ v ++ u' :: us).length ≤ n → Yields p (w ++ v ++ u' :: us) a (v ++ u' :: us) made := by
      intro v rest' u' hsplit' us hus
      obtain ⟨us', hus'⟩ := exists_cons_of_append hsplit' us
      rw [List.append_assoc, hus'] at hus ⊢
      exact hyields us' hus
    have hroom : ∀ {v : List Token}, (w ++ v).length ≤ n → v.length ≤ n - w.length := by
      intro v hv
      rw [List.length_append] at hv
      omega
    cases hf a w u rest hmarked (hroom (hsplit ▸ hlength)) hword with
    | @passed b v rest' u' more hsplit' hmarked' hword' hmild' hyields' =>
      have hwhole : ts = (w ++ v) ++ u' :: rest' := by rw [hsplit, hsplit', List.append_assoc]
      refine .passed b hwhole hmarked' hword' (hmild.append hmild') fun us hus => ?_
      have hsecond := hyields' us (hroom (by rwa [← List.append_assoc]))
      exact (hfirst hsplit' us hus).bind hsecond
    | @blamed v z rest' t u' more c hsplit' hviable' hmild' hhard htoken hcomplains =>
      rw [← List.append_assoc] at hviable'
      have hwhole : ts = (w ++ v) ++ t :: rest' := by rw [hsplit, hsplit', List.append_assoc]
      refine .blamed hwhole hviable' (hmild.append hmild') hhard htoken fun us hus => ?_
      have hsecond := hcomplains us (hroom (by rwa [← List.append_assoc]))
      rw [(hfirst hsplit' us hus).complaints_bind, List.append_assoc]
      exact (List.prefix_append_right_inj made).2 hsecond

end Trials

/-! ## Basic parsers -/

section Basic

variable {L : List Token → Token → Prop} {n : Nat} {t : Token} {ts us : List Token}

theorem trial_pure (hts : Marked (t :: us)) (h : L [] t) (a : α) : Trial L n (pure a) (t :: us) :=
  .passed a rfl hts h mild_nil fun _ _ => Accepts.yields (accepts_pure_iff.2 ⟨rfl, rfl⟩)

theorem trial_complain (hts : Marked (t :: us)) (sign : Token) :
    Trial (fun w _ => w = []) n (complain .assignmentTarget sign) (t :: us) :=
  .passed () rfl hts rfl (by simp [Mild] : Mild [⟨.assignmentTarget, sign⟩]) fun _ _ => ⟨rfl, rfl, rfl⟩

theorem trial_fail {reason : Reason} (hreason : reason ≠ .assignmentTarget) {z : List Token} {u : Token} (h : L z u) :
    Trial L n (fail reason : Parser α) (t :: us) :=
  .blamed (w := []) (c := ⟨reason, t⟩) rfl h mild_nil hreason rfl fun _ _ => List.prefix_refl _

theorem trial_peek_bind {f : Token → Parser α} (h : Trial L n (f t) (t :: us)) : Trial L n (peek >>= f) (t :: us) :=
  h.stay fun us' => bind_of_accepts (accepts_peek_iff.2 ⟨us', rfl, rfl⟩)

theorem trial_skip_bind {f : Unit → Parser α} (ht : t.kind ≠ .endMark)
    (h : Trial (fun v => L (t :: v)) (n - 1) (f ()) us) : Trial L n (skip >>= f) (t :: us) :=
  h.consume fun us' => bind_of_accepts (accepts_skip ht us')

/-- What follows is on trial behind the next token if its kind was asked for, and at that token if not. -/
theorem trial_acceptAny_bind {asked : TokenKind → Bool} (hmark : asked .endMark = false) {f : Option Token → Parser α}
    (hsome : asked t.kind = true → Trial (fun v => L (t :: v)) (n - 1) (f (some t)) us)
    (hnone : asked t.kind = false → Trial L n (f none) (t :: us)) : Trial L n (acceptAny asked >>= f) (t :: us) := by
  cases hasked : asked t.kind with
  | true => exact (hsome hasked).consume fun us' => bind_of_accepts (accepts_acceptAny_some hmark hasked us')
  | false => exact (hnone hasked).stay fun us' => bind_of_accepts (accepts_acceptAny_none hmark hasked us')

/-- A token that has to be of a kind is blamed if it is not. -/
theorem trial_expect_bind {kind : TokenKind} (hmark : kind ≠ .endMark) {reason : Reason}
    (hreason : reason ≠ .assignmentTarget) {f : Token → Parser α} {z : List Token} {u : Token} (hviable : L z u)
    (hmet : t.kind = kind → Trial (fun v => L (t :: v)) (n - 1) (f t) us) :
    Trial L n (expect kind reason >>= f) (t :: us) := by
  by_cases ht : t.kind = kind
  · exact (hmet ht).consume fun us' => bind_of_accepts ((accepts_expect_iff hmark).2 ⟨rfl, ht⟩)
  · have hasked : decide (TokenKind.endMark = kind) = false := by simpa using Ne.symm hmark
    have hmissed : ∀ us', expect kind reason (t :: us') = fail reason (t :: us') := fun us' =>
      bind_of_accepts (accepts_acceptAny_none hasked (by simpa using ht) us')
    refine .blamed (w := []) (c := ⟨reason, t⟩) rfl hviable mild_nil hreason rfl fun us' _ => ?_
    refine List.IsPrefix.trans ?_ complaints_isPrefix_bind
    rw [List.nil_append, List.nil_append, hmissed]
    exact List.prefix_refl _

/-- A parser, a token that has to come behind its word, and what follows. -/
theorem Trial.thenExpect {M : List Token → Token → Prop} {p : Parser α} {f : α → Parser β} {kind : TokenKind}
    {reason : Reason} (h : Trial M n p ts) (hlength : ts.length ≤ n) (hmark : kind ≠ .endMark)
    (hreason : reason ≠ .assignmentTarget)
    (hviable : ∀ w u closing, M w u → closing.kind = kind → ∃ z u', L (w ++ closing :: z) u')
    (hf : ∀ a w closing rest, Marked rest → rest.length ≤ n - w.length - 1 → M w closing → closing.kind = kind →
      Trial (fun v => L (w ++ closing :: v)) (n - w.length - 1) (f a) rest) :
    Trial L n (do let a ← p; let _ ← expect kind reason; f a) ts := by
  refine h.bind hlength (fun w u hw => ?_) fun a w u rest hrest hroom hw => ?_
  · obtain ⟨z, u', hz⟩ := hviable w u (.filler kind) hw rfl
    exact ⟨_, u', hz⟩
  · obtain ⟨z, u', hz⟩ := hviable w u (.filler kind) hw rfl
    refine trial_expect_bind hmark hreason hz fun hu => ?_
    simp only [List.length_cons] at hroom
    exact hf a w u rest (hrest.tail (by rwa [hu])) (by omega) hw hu

/-- A parser, and a token that has to come behind its word. -/
theorem Trial.closing {M : List Token → Token → Prop} {p : Parser α} {kind : TokenKind} {reason : Reason}
    (h : Trial M n p ts) (hlength : ts.length ≤ n) (hmark : kind ≠ .endMark) (hreason : reason ≠ .assignmentTarget)
    (f : α → β) (hL : ∀ w u closing u', M w u → closing.kind = kind → L (w ++ [closing]) u') :
    Trial L n (do let a ← p; let _ ← expect kind reason; pure (f a)) ts := by
  refine h.thenExpect hlength hmark hreason (fun w u closing hw hclosing => ⟨[], u, hL w u closing u hw hclosing⟩) ?_
  intro a w closing rest hrest _ hw hclosing
  obtain ⟨t, us, rfl⟩ := hrest.exists_cons
  exact trial_pure hrest (hL w closing closing t hw hclosing) (f a)

theorem Trial.map {M : List Token → Token → Prop} {p : Parser α} (h : Trial M n p ts) (f : α → β)
    (hL : ∀ w u, M w u → L w u) : Trial L n (f <$> p) ts := by
  cases h with
  | passed a hsplit hmarked hword hmild hyields =>
    refine .passed (f a) hsplit hmarked (hL _ _ hword) hmild fun us hus => ?_
    exact (hyields us hus).bindAccepts (accepts_pure_iff.2 ⟨rfl, rfl⟩)
  | blamed hsplit hviable hmild hhard htoken hcomplains =>
    refine .blamed hsplit (hL _ _ hviable) hmild hhard htoken fun us hus => ?_
    exact (hcomplains us hus).trans complaints_isPrefix_bind

theorem Trial.recover {p : Parser α} (h : Trial L n p ts) : Trial L n (recover p) ts := by
  cases h with
  | passed a hsplit hmarked hword hmild hyields =>
    exact .passed (some a) hsplit hmarked hword hmild fun us hus => (hyields us hus).recover
  | blamed hsplit hviable hmild hhard htoken hcomplains =>
    exact .blamed hsplit hviable hmild hhard htoken fun us hus => (hcomplains us hus).trans complaints_isPrefix_recover

end Basic

end Parser

end Lox
