import Lox.Parser

/-!
Behaviour: what a parser does on tokens with an end mark, whether it has a value or gives up.

* `Marked ts`: there is an end mark among the tokens.
* `Leaves ts rest`: the tokens `rest` are left of `ts` after some that are no end marks.
* `Behaves p ts Q`: the parser does not fault on `ts`, consumes no end mark, and meets `Q` if it has
  a value.
* `Builds p n K`: on at most `n` tokens the parser behaves, consumes some if it has a value, and
  this meets `K`.

Behaviour goes through chains (`Behaves.bind`), so one lemma for each basic parser is enough for
those of the grammar. As a bound that is used up is a fault, a parser that behaves has bounds that
suffice.
-/

namespace Lox.Parser

variable {α β : Type}

/-! ## What is left -/

/-- There is an end mark among the tokens. -/
def Marked (ts : List Token) : Prop := ∃ t ∈ ts, t.kind = .endMark

/-- The second tokens are left of the first after some that are no end marks. -/
def Leaves (ts rest : List Token) : Prop := ∃ used, ts = used ++ rest ∧ ∀ t ∈ used, t.kind ≠ .endMark

theorem Leaves.refl (ts : List Token) : Leaves ts ts := ⟨[], rfl, by simp⟩

theorem Leaves.cons {t : Token} (ht : t.kind ≠ .endMark) {ts rest : List Token} (h : Leaves ts rest) :
    Leaves (t :: ts) rest := by
  obtain ⟨used, rfl, hused⟩ := h
  exact ⟨t :: used, rfl, by simpa [ht] using hused⟩

theorem Leaves.trans {ts us vs : List Token} (h : Leaves ts us) (h' : Leaves us vs) : Leaves ts vs := by
  obtain ⟨used, rfl, hused⟩ := h
  obtain ⟨used', rfl, hused'⟩ := h'
  refine ⟨used ++ used', by simp, fun t ht => ?_⟩
  rcases List.mem_append.1 ht with ht | ht
  · exact hused t ht
  · exact hused' t ht

theorem Leaves.length_le {ts rest : List Token} (h : Leaves ts rest) : rest.length ≤ ts.length := by
  obtain ⟨used, rfl, -⟩ := h
  simp

theorem Leaves.eq_of_length_le {ts rest : List Token} (h : Leaves ts rest)
    (hlength : ts.length ≤ rest.length) :
    rest = ts := by
  obtain ⟨used, rfl, -⟩ := h
  rw [List.length_append] at hlength
  have hused : used = [] := List.eq_nil_of_length_eq_zero (by omega)
  simp [hused]

theorem Leaves.marked {ts rest : List Token} (h : Leaves ts rest) (hts : Marked ts) : Marked rest := by
  obtain ⟨used, rfl, hused⟩ := h
  obtain ⟨t, ht, hmark⟩ := hts
  rcases List.mem_append.1 ht with ht | ht
  · exact absurd hmark (hused t ht)
  · exact ⟨t, ht, hmark⟩

theorem marked_concat (ts : List Token) {mark : Token} (h : mark.kind = .endMark) :
    Marked (ts ++ [mark]) :=
  ⟨mark, by simp, h⟩

theorem Marked.append {ts : List Token} (h : Marked ts) (us : List Token) : Marked (us ++ ts) := by
  obtain ⟨t, ht, hmark⟩ := h
  exact ⟨t, List.mem_append_right us ht, hmark⟩

theorem Marked.exists_cons {ts : List Token} (h : Marked ts) : ∃ t us, ts = t :: us := by
  obtain ⟨t, ht, -⟩ := h
  exact List.exists_cons_of_ne_nil (List.ne_nil_of_mem ht)

theorem Marked.length_pos {ts : List Token} (h : Marked ts) : 0 < ts.length := by
  obtain ⟨t, us, rfl⟩ := h.exists_cons
  simp

theorem Marked.tail {t : Token} {ts : List Token} (h : Marked (t :: ts)) (ht : t.kind ≠ .endMark) :
    Marked ts :=
  (Leaves.cons ht (.refl ts)).marked h

/-! ## Behaviour -/

/-- On the tokens the parser does not fault and consumes no end mark, and what it has and leaves
meets a condition. -/
def Behaves (p : Parser α) (ts : List Token) (Q : α → List Token → Prop) : Prop :=
  Leaves ts (p ts).rest ∧ (∀ fault, (p ts).value ≠ .error (.fault fault)) ∧
    ∀ a, (p ts).value = .ok a → Q a (p ts).rest

section Basic

variable {ts : List Token} {Q : α → List Token → Prop}

theorem Behaves.mono {R : α → List Token → Prop} {p : Parser α} (h : Behaves p ts Q)
    (hQ : ∀ a rest, Leaves ts rest → Q a rest → R a rest) : Behaves p ts R :=
  ⟨h.1, h.2.1, fun a ha => hQ a _ h.1 (h.2.2 a ha)⟩

/-- A parser that has a value behaves by what it has and leaves. -/
theorem Behaves.of_ok {p : Parser α} {a : α} {rest : List Token} (hvalue : (p ts).value = .ok a)
    (hrest : (p ts).rest = rest) (hleaves : Leaves ts rest) (h : Q a rest) : Behaves p ts Q := by
  refine ⟨hrest ▸ hleaves, fun fault heq => ?_, fun b hb => ?_⟩
  · rw [hvalue] at heq
    cases heq
  · rw [hvalue] at hb
    obtain rfl := Except.ok.inj hb
    rw [hrest]
    exact h

theorem behaves_pure {a : α} (h : Q a ts) : Behaves (pure a) ts Q := .of_ok rfl rfl (.refl ts) h

theorem bind_of_error {p : Parser α} {f : α → Parser β} {halt : Halt} (h : (p ts).value = .error halt) :
    ((p >>= f) ts).value = .error halt ∧ ((p >>= f) ts).rest = (p ts).rest := by
  simp only [bind]
  rcases hend : p ts with ⟨value, mid, complaints, complained⟩
  rw [hend] at h
  subst h
  exact ⟨rfl, rfl⟩

theorem bind_of_ok {p : Parser α} {f : α → Parser β} {a : α} (h : (p ts).value = .ok a) :
    ((p >>= f) ts).value = (f a (p ts).rest).value ∧ ((p >>= f) ts).rest = (f a (p ts).rest).rest := by
  simp only [bind]
  rcases hend : p ts with ⟨value, mid, complaints, complained⟩
  rw [hend] at h
  subst h
  exact ⟨rfl, rfl⟩

/-- A chain behaves if its first parser does, and the next one does on what the first leaves. -/
theorem Behaves.bind {p : Parser α} {f : α → Parser β} {R : β → List Token → Prop} (hp : Behaves p ts Q)
    (hf : ∀ a mid, Leaves ts mid → Q a mid → Behaves (f a) mid R) : Behaves (p >>= f) ts R := by
  obtain ⟨hleaves, hfault, hvalue⟩ := hp
  unfold Behaves
  cases hend : (p ts).value with
  | error halt =>
    obtain ⟨hhalt, hrest⟩ := bind_of_error (f := f) hend
    rw [hhalt, hrest]
    exact ⟨hleaves, fun fault heq => hfault fault (by rw [hend]; cases heq; rfl), nofun⟩
  | ok a =>
    obtain ⟨hnext, hrest⟩ := bind_of_ok (f := f) hend
    obtain ⟨hleaves', hfault', hvalue'⟩ := hf a _ hleaves (hvalue a hend)
    rw [hnext, hrest]
    exact ⟨hleaves.trans hleaves', hfault', hvalue'⟩

theorem Behaves.map {p : Parser α} {f : α → β} {R : β → List Token → Prop} (hp : Behaves p ts Q)
    (hR : ∀ a rest, Leaves ts rest → Q a rest → R (f a) rest) : Behaves (f <$> p) ts R :=
  hp.bind fun a mid hmid ha => behaves_pure (hR a mid hmid ha)

/-! ## Basic parsers -/

theorem behaves_complain {Q : Unit → List Token → Prop} {reason : Reason} {t : Token} (h : Q () ts) :
    Behaves (complain reason t) ts Q :=
  .of_ok rfl rfl (.refl _) h

theorem behaves_fail (hts : Marked ts) (reason : Reason) : Behaves (fail reason : Parser α) ts Q := by
  obtain ⟨t, us, rfl⟩ := hts.exists_cons
  exact ⟨.refl _, fun fault heq => (by cases heq), fun a ha => (by cases ha)⟩

theorem behaves_peek_bind {f : Token → Parser α} {t : Token} (h : Behaves (f t) (t :: ts) Q) :
    Behaves (peek >>= f) (t :: ts) Q := by
  have hpeek : Behaves peek (t :: ts) fun u rest => u = t ∧ rest = t :: ts :=
    .of_ok rfl rfl (.refl _) ⟨rfl, rfl⟩
  refine hpeek.bind fun u mid _ hu => ?_
  obtain ⟨rfl, rfl⟩ := hu
  exact h

theorem behaves_skip_bind {f : Unit → Parser α} {t : Token} (ht : t.kind ≠ .endMark)
    (h : Behaves (f ()) ts Q) :
    Behaves (skip >>= f) (t :: ts) Q := by
  have hskip : Behaves skip (t :: ts) fun _ rest => rest = ts :=
    .of_ok rfl (if_neg ht) (.cons ht (.refl ts)) rfl
  refine hskip.bind fun _ mid _ hmid => ?_
  subst hmid
  exact h

/-- What follows goes on behind the next token if its kind was asked for, and at that token if not. -/
theorem behaves_acceptAny_bind {asked : TokenKind → Bool} (hmark : asked .endMark = false)
    {f : Option Token → Parser α} {t : Token} (hnone : Behaves (f none) (t :: ts) Q)
    (hsome : asked t.kind = true → t.kind ≠ .endMark → Behaves (f (some t)) ts Q) :
    Behaves (acceptAny asked >>= f) (t :: ts) Q := by
  have haccept : Behaves (acceptAny asked) (t :: ts) fun o rest => o = none ∧ rest = t :: ts ∨
      o = some t ∧ rest = ts ∧ asked t.kind = true ∧ t.kind ≠ .endMark := by
    refine behaves_peek_bind ?_
    split
    · rename_i hasked
      have hkind : t.kind ≠ .endMark := fun hk => by simp [hk, hmark] at hasked
      exact behaves_skip_bind hkind (behaves_pure (.inr ⟨rfl, rfl, hasked, hkind⟩))
    · exact behaves_pure (.inl ⟨rfl, rfl⟩)
  refine haccept.bind fun o mid _ ho => ?_
  rcases ho with ⟨rfl, rfl⟩ | ⟨rfl, rfl, hasked, hkind⟩
  · exact hnone
  · exact hsome hasked hkind

/-- A token that has to be of a kind is consumed, or the parser gives up. -/
theorem behaves_expect (hts : Marked ts) {kind : TokenKind} (hmark : kind ≠ .endMark)
    (reason : Reason) :
    Behaves (expect kind reason) ts fun t rest => t.kind = kind ∧ rest.length < ts.length := by
  obtain ⟨u, us, rfl⟩ := hts.exists_cons
  refine behaves_acceptAny_bind (by simpa using Ne.symm hmark)
    (behaves_fail hts reason) fun hasked _ => ?_
  exact behaves_pure ⟨by simpa using hasked, by simp⟩

end Basic

/-! ## Recovery -/

theorem toBoundary_of_endMark {t : Token} (ht : t.kind = .endMark) (ts : List Token) :
    toBoundary (t :: ts) = (pure () : Parser Unit) (t :: ts) := by
  simp [toBoundary, ht, pure]

theorem toBoundary_cons_cons {t : Token} (ht : t.kind ≠ .endMark) (u : Token) (us : List Token) :
    toBoundary (t :: u :: us) =
      if u.kind = .endMark ∨ t.kind = .semicolon ∨ startsStatement u.kind then (pure () : Parser Unit) (u :: us)
      else toBoundary (u :: us) := by
  simp only [toBoundary, ht, if_false, pure]

/-- On the way to a boundary no end mark is gone past, and at least one other token. -/
theorem behaves_toBoundary {ts : List Token} (hts : Marked ts) : Behaves toBoundary ts fun _ rest =>
    ∀ t us, ts = t :: us → t.kind ≠ .endMark → rest.length < ts.length := by
  induction ts with
  | nil => exact absurd hts.length_pos (by simp)
  | cons t us ih =>
    by_cases ht : t.kind = .endMark
    · have hstay := toBoundary_of_endMark ht us
      refine .of_ok (congrArg Outcome.value hstay) (congrArg Outcome.rest hstay)
        (.refl _) fun t' us' heq ht' => ?_
      exact absurd ((List.cons.inj heq).1 ▸ ht) ht'
    · have hus := hts.tail ht
      obtain ⟨u, vs, rfl⟩ := hus.exists_cons
      have hstep := toBoundary_cons_cons ht u vs
      by_cases hstop : u.kind = .endMark ∨ t.kind = .semicolon ∨ startsStatement u.kind
      · rw [if_pos hstop] at hstep
        have hrest : (toBoundary (t :: u :: vs)).rest = u :: vs := congrArg Outcome.rest hstep
        exact .of_ok (congrArg Outcome.value hstep) hrest (.cons ht (.refl _)) fun _ _ _ _ => by simp
      · rw [if_neg hstop] at hstep
        obtain ⟨hleaves, hfault, -⟩ := ih hus
        refine ⟨by rw [hstep]; exact .cons ht hleaves, by rw [hstep]; exact hfault,
          fun _ _ _ _ _ _ => ?_⟩
        rw [hstep]
        exact Nat.lt_succ_of_le hleaves.length_le

/-- The way to a boundary does nothing but go past tokens. -/
theorem toBoundary_eq {ts : List Token} (hts : Marked ts) :
    toBoundary ts = (pure () : Parser Unit) (toBoundary ts).rest := by
  induction ts with
  | nil => exact absurd hts.length_pos (by simp)
  | cons t us ih =>
    by_cases ht : t.kind = .endMark
    · rw [toBoundary_of_endMark ht]
      rfl
    · have hus := hts.tail ht
      obtain ⟨u, vs, rfl⟩ := hus.exists_cons
      rw [toBoundary_cons_cons ht]
      split
      · rfl
      · exact ih hus

/-- Where a parser gives up, recovery goes past a token at least. -/
theorem Behaves.recover {p : Parser α} {ts : List Token} {K : α → Prop} {t : Token}
    {us : List Token} (hcons : ts = t :: us) (ht : t.kind ≠ .endMark) (hts : Marked ts)
    (hp : Behaves p ts fun a rest => K a ∧ rest.length < ts.length) :
    Behaves (recover p) ts fun o rest => (∀ a, o = some a → K a) ∧ rest.length < ts.length := by
  obtain ⟨hleaves, hfault, hvalue⟩ := hp
  rcases hend : p ts with ⟨(_ | fault) | a, mid, complaints, complained⟩
  · unfold Behaves Parser.recover
    rw [hend]
    rw [hend] at hleaves
    obtain ⟨hleaves', hfault', hvalue'⟩ := behaves_toBoundary (hleaves.marked hts)
    refine ⟨hleaves.trans hleaves', fun fault heq => ?_, fun o ho => ?_⟩
    · cases hboundary : (toBoundary mid).value with
      | error halt =>
        simp only [hboundary, Except.map, Except.error.injEq] at heq
        exact hfault' fault (by rw [hboundary, heq])
      | ok u => simp [hboundary, Except.map] at heq
    · cases hboundary : (toBoundary mid).value with
      | error halt => simp [hboundary, Except.map] at ho
      | ok u =>
        simp only [hboundary, Except.map, Except.ok.injEq] at ho
        refine ⟨fun a ha => by simp [← ho] at ha, ?_⟩
        -- either tokens were consumed before, or the boundary is sought from the first token on
        by_cases hshorter : mid.length < ts.length
        · exact Nat.lt_of_le_of_lt hleaves'.length_le hshorter
        · obtain rfl : mid = ts := hleaves.eq_of_length_le (by simpa using hshorter)
          exact hvalue' u hboundary t us hcons ht
  · rw [hend] at hfault
    exact absurd rfl (hfault fault)
  · rw [hend] at hleaves hvalue
    obtain ⟨ha, hlength⟩ := hvalue a rfl
    have hrecover : (Parser.recover p ts).value = .ok (some a) ∧ (Parser.recover p ts).rest = mid := by
      unfold Parser.recover
      rw [hend]
      exact ⟨rfl, rfl⟩
    refine .of_ok hrecover.1 hrecover.2 hleaves ⟨fun b hb => ?_, hlength⟩
    exact Option.some.inj hb ▸ ha

/-! ## Builders -/

/-- On at most `n` tokens the parser behaves, and if it has a value then it consumed some and the
value meets a condition. -/
def Builds (p : Parser α) (n : Nat) (K : α → Prop) : Prop :=
  ∀ ts, Marked ts → ts.length ≤ n → Behaves p ts fun a rest => K a ∧ rest.length < ts.length

theorem Builds.mono {p : Parser α} {n m : Nat} {K : α → Prop} (h : Builds p n K) (hm : m ≤ n) :
    Builds p m K :=
  fun ts hts hlength => h ts hts (Nat.le_trans hlength hm)

theorem builds_zero {p : Parser α} {K : α → Prop} : Builds p 0 K := fun ts hts hlength =>
  absurd hts.length_pos (by omega)

/-! ## Whole inputs -/

/-- A run of a parser that behaves does not fault, and its value meets the condition. -/
theorem Behaves.run {p : Parser α} {tokens : List Token} {Q : α → List Token → Prop}
    (h : Behaves p tokens Q) :
    (run p tokens).fault = none ∧ ∀ a, (run p tokens).result = some a → ∃ rest, Q a rest := by
  obtain ⟨-, hfault, hvalue⟩ := h
  unfold Parser.run
  split
  · exact ⟨rfl, nofun⟩
  · rcases hend : p tokens with ⟨(_ | fault) | a, rest, complaints, complained⟩
    · exact ⟨rfl, nofun⟩
    · rw [hend] at hfault
      exact absurd rfl (hfault fault)
    · rw [hend] at hvalue
      exact ⟨rfl, fun b hb => ⟨rest, by cases hb; exact hvalue a rfl⟩⟩

end Lox.Parser
