import Lox.Parser

/-!
Acceptance: a parser accepts tokens when it has a value for them and nothing to complain about.

* `Accepts p ts a rest`: the parser `p` makes `a` of the tokens `ts` without a complaint and leaves
  `rest`.

A chain of parsers accepts exactly when each of them does, one after the other (`accepts_bind_iff`).
With this and one equivalence for each basic parser, acceptance by any parser of the grammar unfolds
step by step, in both directions.
-/

namespace Lox.Parser

variable {α β : Type}

/-- The parser makes `a` of the tokens `ts`, leaves `rest` and does not complain. -/
def Accepts (p : Parser α) (ts : List Token) (a : α) (rest : List Token) : Prop :=
  p ts = (pure a : Parser α) rest

theorem accepts_iff {p : Parser α} {ts rest : List Token} {a : α} :
    Accepts p ts a rest ↔ p ts = { value := .ok a, rest := rest, complaints := [] } := Iff.rfl

/-! ## Chains -/

theorem bind_of_accepts {p : Parser α} {f : α → Parser β} {ts mid : List Token} {a : α}
    (h : Accepts p ts a mid) :
    (p >>= f) ts = f a mid := by
  simp only [bind, accepts_iff.1 h, List.nil_append]

theorem Accepts.bind {p : Parser α} {f : α → Parser β} {ts mid rest : List Token} {a : α} {b : β}
    (h : Accepts p ts a mid) (h' : Accepts (f a) mid b rest) : Accepts (p >>= f) ts b rest :=
  (bind_of_accepts h).trans h'

/-- A chain accepts what its first parser and then the next one accept. -/
theorem accepts_bind_iff {p : Parser α} {f : α → Parser β} {ts rest : List Token} {b : β} :
    Accepts (p >>= f) ts b rest ↔ ∃ a mid, Accepts p ts a mid ∧ Accepts (f a) mid b rest := by
  refine ⟨fun h => ?_, fun ⟨a, mid, h, h'⟩ => h.bind h'⟩
  rw [accepts_iff] at h
  rcases hp : p ts with ⟨halt | a, mid, complaints, complained⟩
  · simp only [bind, hp] at h
    cases h
  · simp only [bind, hp, Outcome.mk.injEq, List.append_eq_nil_iff] at h
    obtain ⟨hvalue, hrest, rfl, hnone⟩ := h
    exact ⟨a, mid, hp, Outcome.ext hvalue hrest hnone⟩

@[simp] theorem accepts_pure_iff {a b : α} {ts rest : List Token} :
    Accepts (pure a) ts b rest ↔ b = a ∧ rest = ts := by
  rw [accepts_iff]
  simp [pure, eq_comm]

theorem accepts_map_iff {f : α → β} {p : Parser α} {ts rest : List Token} {b : β} :
    Accepts (f <$> p) ts b rest ↔ ∃ a, Accepts p ts a rest ∧ b = f a := by
  have hmap : (f <$> p : Parser β) = p >>= fun a => pure (f a) := rfl
  rw [hmap, accepts_bind_iff]
  constructor
  · rintro ⟨a, mid, h, h'⟩
    obtain ⟨rfl, rfl⟩ := accepts_pure_iff.1 h'
    exact ⟨a, h, rfl⟩
  · rintro ⟨a, h, rfl⟩
    exact ⟨a, rest, h, accepts_pure_iff.2 ⟨rfl, rfl⟩⟩

/-! ## Basic parsers -/

@[simp] theorem accepts_peek_iff {ts rest : List Token} {t : Token} :
    Accepts peek ts t rest ↔ ∃ us, ts = t :: us ∧ rest = t :: us := by
  cases ts with
  | nil => simp [accepts_iff, peek, overrun]
  | cons u us =>
    simp only [accepts_iff, peek, Outcome.mk.injEq, Except.ok.injEq, and_true, List.cons.injEq]
    constructor
    · rintro ⟨rfl, rfl⟩
      exact ⟨us, ⟨rfl, rfl⟩, rfl⟩
    · rintro ⟨vs, ⟨rfl, rfl⟩, rfl⟩
      exact ⟨rfl, rfl⟩

theorem accepts_skip {t : Token} (h : t.kind ≠ .endMark) (ts : List Token) :
    Accepts skip (t :: ts) () ts := by
  simp [accepts_iff, skip, h]

/-- Going past a token that is no end mark leaves what follows it. -/
theorem accepts_skip_iff {t : Token} (h : t.kind ≠ .endMark) {ts rest : List Token} {u : Unit} :
    Accepts skip (t :: ts) u rest ↔ rest = ts := by
  simp [accepts_iff, skip, h, eq_comm]

theorem accepts_peek_bind_iff {f : Token → Parser β} {ts rest : List Token} {b : β} :
    Accepts (peek >>= f) ts b rest ↔ ∃ t us, ts = t :: us ∧ Accepts (f t) (t :: us) b rest := by
  rw [accepts_bind_iff]
  constructor
  · rintro ⟨t, mid, hpeek, h⟩
    obtain ⟨us, rfl, rfl⟩ := accepts_peek_iff.1 hpeek
    exact ⟨t, us, rfl, h⟩
  · rintro ⟨t, us, rfl, h⟩
    exact ⟨t, t :: us, accepts_peek_iff.2 ⟨us, rfl, rfl⟩, h⟩

theorem accepts_skip_bind_iff {f : Unit → Parser β} {t : Token} (h : t.kind ≠ .endMark)
    {ts rest : List Token} {b : β} :
    Accepts (skip >>= f) (t :: ts) b rest ↔ Accepts (f ()) ts b rest := by
  rw [accepts_bind_iff]
  constructor
  · rintro ⟨_, mid, hskip, h'⟩
    obtain rfl := (accepts_skip_iff h).1 hskip
    exact h'
  · intro h'
    exact ⟨(), ts, accepts_skip h ts, h'⟩

@[simp] theorem not_accepts_overrun {ts rest : List Token} {a : α} : ¬ Accepts overrun ts a rest := by
  simp [accepts_iff, overrun]

@[simp] theorem not_accepts_complain {reason : Reason} {t : Token} {ts rest : List Token} {u : Unit} :
    ¬ Accepts (complain reason t) ts u rest := by
  simp [accepts_iff, complain]

@[simp] theorem not_accepts_fail {reason : Reason} {ts rest : List Token} {a : α} :
    ¬ Accepts (fail reason) ts a rest := by
  cases ts <;> simp [accepts_iff, fail, overrun]

/-- The parser either consumes the next token, of a kind that was asked for, or leaves it. -/
theorem accepts_acceptAny_iff {asked : TokenKind → Bool} (hmark : asked .endMark = false)
    {ts rest : List Token} {o : Option Token} :
    Accepts (acceptAny asked) ts o rest ↔ ∃ t us, ts = t :: us ∧
      (asked t.kind = true ∧ o = some t ∧ rest = us ∨ asked t.kind = false ∧ o = none ∧
        rest = t :: us) := by
  have hkind : ∀ {t : Token}, asked t.kind = true → t.kind ≠ .endMark :=
    fun h hk => by simp [hk, hmark] at h
  unfold acceptAny
  rw [accepts_peek_bind_iff]
  refine exists_congr fun t => exists_congr fun us => and_congr_right fun _ => ?_
  by_cases hasked : asked t.kind = true
  · rw [if_pos hasked, accepts_skip_bind_iff (hkind hasked)]
    simp [hasked]
  · simp [hasked]

theorem accepts_acceptAny_some {asked : TokenKind → Bool} (hmark : asked .endMark = false) {t : Token}
    (h : asked t.kind = true) (ts : List Token) : Accepts (acceptAny asked) (t :: ts) (some t) ts :=
  (accepts_acceptAny_iff hmark).2 ⟨t, ts, rfl, .inl ⟨h, rfl, rfl⟩⟩

theorem accepts_acceptAny_none {asked : TokenKind → Bool} (hmark : asked .endMark = false) {t : Token}
    (h : asked t.kind = false) (ts : List Token) : Accepts (acceptAny asked) (t :: ts) none (t :: ts) :=
  (accepts_acceptAny_iff hmark).2 ⟨t, ts, rfl, .inr ⟨h, rfl, rfl⟩⟩

/-- A token that has to be of a kind is the next one, and of that kind. -/
theorem accepts_expect_iff {kind : TokenKind} (hmark : kind ≠ .endMark) {reason : Reason}
    {ts rest : List Token} {t : Token} :
    Accepts (expect kind reason) ts t rest ↔ ts = t :: rest ∧ t.kind = kind := by
  have hasked : (decide (TokenKind.endMark = kind)) = false := by simpa using Ne.symm hmark
  unfold expect accept
  rw [accepts_bind_iff]
  constructor
  · rintro ⟨o, mid, h, h'⟩
    obtain ⟨u, us, rfl, ⟨hu, rfl, rfl⟩ | ⟨-, rfl, rfl⟩⟩ := (accepts_acceptAny_iff hasked).1 h
    · obtain ⟨rfl, rfl⟩ := accepts_pure_iff.1 h'
      exact ⟨rfl, by simpa using hu⟩
    · exact absurd h' not_accepts_fail
  · rintro ⟨rfl, hkind⟩
    exact ⟨some t, rest, accepts_acceptAny_some hasked (by simpa using hkind) rest,
      accepts_pure_iff.2 ⟨rfl, rfl⟩⟩

theorem accepts_acceptAny_bind_iff {asked : TokenKind → Bool} (hmark : asked .endMark = false)
    {f : Option Token → Parser β} {ts rest : List Token} {b : β} :
    Accepts (acceptAny asked >>= f) ts b rest ↔ ∃ t us, ts = t :: us ∧
      (asked t.kind = true ∧ Accepts (f (some t)) us b rest ∨
        asked t.kind = false ∧ Accepts (f none) (t :: us) b rest) := by
  rw [accepts_bind_iff]
  constructor
  · rintro ⟨o, mid, h, h'⟩
    obtain ⟨t, us, rfl, ⟨hasked, rfl, rfl⟩ | ⟨hasked, rfl, rfl⟩⟩ := (accepts_acceptAny_iff hmark).1 h
    · exact ⟨t, _, rfl, .inl ⟨hasked, h'⟩⟩
    · exact ⟨t, us, rfl, .inr ⟨hasked, h'⟩⟩
  · rintro ⟨t, us, rfl, ⟨hasked, h⟩ | ⟨hasked, h⟩⟩
    · exact ⟨some t, us, accepts_acceptAny_some hmark hasked us, h⟩
    · exact ⟨none, t :: us, accepts_acceptAny_none hmark hasked us, h⟩

theorem accepts_expect_bind_iff {kind : TokenKind} (hmark : kind ≠ .endMark) {reason : Reason}
    {f : Token → Parser β} {ts rest : List Token} {b : β} :
    Accepts (expect kind reason >>= f) ts b rest ↔
      ∃ t us, ts = t :: us ∧ t.kind = kind ∧ Accepts (f t) us b rest := by
  rw [accepts_bind_iff]
  constructor
  · rintro ⟨t, us, h, h'⟩
    obtain ⟨rfl, hkind⟩ := (accepts_expect_iff hmark).1 h
    exact ⟨t, us, rfl, hkind, h'⟩
  · rintro ⟨t, us, rfl, hkind, h⟩
    exact ⟨t, us, (accepts_expect_iff hmark).2 ⟨rfl, hkind⟩, h⟩

theorem accepts_expect_bind {kind : TokenKind} (hmark : kind ≠ .endMark) {reason : Reason}
    {f : Token → Parser β} {t : Token} {ts rest : List Token} {b : β} (hkind : t.kind = kind)
    (h : Accepts (f t) ts b rest) :
    Accepts (expect kind reason >>= f) (t :: ts) b rest :=
  (accepts_expect_bind_iff hmark).2 ⟨t, ts, rfl, hkind, h⟩

/-- A parser under recovery accepts what it accepts by itself: where it gives up there is a
complaint. -/
theorem accepts_recover_iff {p : Parser α} {ts rest : List Token} {o : Option α} :
    Accepts (recover p) ts o rest ↔ ∃ a, o = some a ∧ Accepts p ts a rest := by
  simp only [accepts_iff, recover]
  rcases p ts with ⟨(_ | fault) | a, mid, complaints, complained⟩
  · constructor
    · intro h
      have hnone := congrArg Outcome.complaints h
      exact absurd (List.append_eq_nil_iff.1 hnone).1 (complained rfl)
    · rintro ⟨a, -, ⟨⟩⟩
  · constructor
    · rintro ⟨⟩
    · rintro ⟨a, -, ⟨⟩⟩
  · constructor
    · rintro ⟨⟩
      exact ⟨a, rfl, rfl⟩
    · rintro ⟨a', rfl, ⟨⟩⟩
      rfl

/-! ## Whole inputs -/

/-- Running a parser gives a value and no errors exactly when there are tokens and the parser
accepts them. -/
theorem run_eq_iff {p : Parser α} {tokens : List Token} {a : α} :
    run p tokens = ⟨some a, [], none⟩ ↔ tokens ≠ [] ∧ ∃ rest, Accepts p tokens a rest := by
  simp only [run, accepts_iff]
  by_cases hts : tokens = []
  · simp [hts]
  · rw [if_neg hts]
    rcases p tokens with ⟨(_ | fault) | a, rest, complaints, complained⟩ <;> simp [hts]

/-- A run on tokens without an error or a fault has a value: a parser that gives up has complained. -/
theorem exists_run_eq {p : Parser α} {tokens : List Token} (hts : tokens ≠ [])
    (herrors : (run p tokens).errors = []) (hfault : (run p tokens).fault = none) :
    ∃ a, run p tokens = ⟨some a, [], none⟩ := by
  unfold run at herrors hfault ⊢
  rw [if_neg hts] at herrors hfault ⊢
  revert herrors hfault
  rcases p tokens with ⟨(_ | fault) | a, rest, complaints, complained⟩ <;> intro herrors hfault
  · exact absurd (List.map_eq_nil_iff.1 herrors) (complained rfl)
  · cases hfault
  · obtain rfl := List.map_eq_nil_iff.1 herrors
    exact ⟨a, rfl⟩

/-- A parse without an error or a fault is its result. -/
theorem eq_of_errors_eq_nil {p : Parse α} (herrors : p.errors = []) (hfault : p.fault = none) :
    p = ⟨p.result, [], none⟩ := by
  obtain ⟨result, errors, fault⟩ := p
  obtain rfl : errors = [] := herrors
  obtain rfl : fault = none := hfault
  rfl

/-- Tokens with one end mark, in last position, are cut at an end mark in one way only. -/
theorem eq_of_append_endMark {ts us vs : List Token} {mark t : Token}
    (hts : ∀ u ∈ ts, u.kind ≠ .endMark) (ht : t.kind = .endMark) (h : ts ++ [mark] = us ++ t :: vs) :
    us = ts ∧ t = mark ∧ vs = [] := by
  rcases List.append_eq_append_iff.1 h with ⟨ws, rfl, hws⟩ | ⟨ws, rfl, hws⟩
  · cases ws with
    | nil => simpa using hws.symm
    | cons w ws => simp at hws
  · cases ws with
    | nil => simpa using hws
    | cons w ws =>
      obtain ⟨rfl, -⟩ := List.cons.inj hws
      exact absurd ht (hts t (by simp))

end Lox.Parser
