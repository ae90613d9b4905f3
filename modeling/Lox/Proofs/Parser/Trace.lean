import Lox.Proofs.Parser.Accept
import Lox.Proofs.Parser.Behaviour

/-!
Traces: what happens to the cursor while a parser runs. The cursor stands in front of the tokens that are left.

* `Event`: the cursor stands somewhere, the token right behind it is looked at, or a parser under recovery is done.
* `Traces p ts events`: on the tokens the parser takes basic steps with these events, in order.
* `Event.Follows ts`: between the tokens and the cursor no end mark is gone past.
* `Event.Advances`: a parser under recovery that starts in front of a token other than an end mark goes past one.
* `Traced p`: on any tokens the parser has a trace, in which all recoveries advance.

* `Event.Within tokens`: the cursor has an index up to that of the first end mark, `firstMark tokens`.
* `StaysBefore p tokens`: both hold on the tokens.

In every trace the cursor stays in front of the first end mark (`Traces.follows`). That recoveries advance needs one
thing more: where a parser has a value, it consumed a token (`Consumes`).
-/

namespace Lox.Parser

variable {α β : Type}

/-! ## Events -/

/-- What happens to the cursor. -/
inductive Event where
  /-- The cursor stands in front of the tokens. -/
  | stands (rest : List Token)
  /-- The cursor stands in front of the tokens, and the token right behind it is looked at. -/
  | looksBack (t : Token) (rest : List Token)
  /-- A parser under recovery, started in front of the first tokens, is done in front of the second. -/
  | tries (start stop : List Token)

/-- the events on the way to a boundary -/
def boundaryEvents : List Token → List Event
  | [] => [.stands []]
  | t :: ts =>
    .stands (t :: ts) ::
      if t.kind = .endMark then []
      else
        match ts with
        | [] => [.stands []]
        | u :: us =>
          if u.kind = .endMark then [.stands (u :: us)]
          else
            .looksBack t (u :: us) ::
              if t.kind = .semicolon ∨ startsStatement u.kind then [] else boundaryEvents (u :: us)

/-- On the tokens the parser takes basic steps with these events. -/
inductive Traces : {α : Type} → Parser α → List Token → List Event → Prop
  | pure {α : Type} (a : α) (ts : List Token) : Traces (pure a) ts []
  | complain (reason : Reason) (t : Token) (ts : List Token) : Traces (complain reason t) ts []
  | overrun {α : Type} (ts : List Token) : Traces (overrun : Parser α) ts []
  | peek (ts : List Token) : Traces peek ts [.stands ts]
  | fail {α : Type} (reason : Reason) (ts : List Token) : Traces (fail reason : Parser α) ts [.stands ts]
  | skip (ts : List Token) : Traces skip ts [.stands ts, .stands (Parser.skip ts).rest]
  | bind {α β : Type} {p : Parser α} {f : α → Parser β} {ts : List Token} {a : α} {events events' : List Event} :
      Traces p ts events → (p ts).value = .ok a → Traces (f a) (p ts).rest events' →
      Traces (p >>= f) ts (events ++ events')
  | halt {α β : Type} {p : Parser α} {f : α → Parser β} {ts : List Token} {halt : Halt} {events : List Event} :
      Traces p ts events → (p ts).value = .error halt → Traces (p >>= f) ts events
  | recovered {α : Type} {p : Parser α} {ts : List Token} {a : α} {events : List Event} :
      Traces p ts events → (p ts).value = .ok a → Traces (recover p) ts (events ++ [.tries ts (p ts).rest])
  | dropped {α : Type} {p : Parser α} {ts : List Token} {events : List Event} :
      Traces p ts events → (p ts).value = .error .gaveUp →
      Traces (recover p) ts (events ++ boundaryEvents (p ts).rest ++ [.tries ts (toBoundary (p ts).rest).rest])
  | faulted {α : Type} {p : Parser α} {ts : List Token} {fault : Fault} {events : List Event} :
      Traces p ts events → (p ts).value = .error (.fault fault) → Traces (recover p) ts events

/-! ## What is left in recovery -/

section Recovery

variable {p : Parser α} {ts : List Token}

theorem rest_recover (h : (p ts).value ≠ .error .gaveUp) : (recover p ts).rest = (p ts).rest := by
  rcases hend : p ts with ⟨(_ | fault) | a, rest, complaints, complained⟩
  · rw [hend] at h
    exact absurd rfl h
  · simp only [recover, hend]
  · simp only [recover, hend]

theorem rest_recover_of_gaveUp (h : (p ts).value = .error .gaveUp) :
    (recover p ts).rest = (toBoundary (p ts).rest).rest := by
  rcases hend : p ts with ⟨value, rest, complaints, complained⟩
  rw [hend] at h
  subst h
  simp only [recover, hend]

end Recovery

/-! ## The cursor stays in front of the first end mark -/

/-- From the tokens on, no end mark is gone past. -/
def Event.Follows (ts : List Token) : Event → Prop
  | .stands rest => Leaves ts rest
  | .looksBack t rest => Leaves ts (t :: rest) ∧ t.kind ≠ .endMark
  | .tries start stop => Leaves ts start ∧ Leaves start stop

theorem Event.Follows.of_leaves {ts mid : List Token} (hmid : Leaves ts mid) {e : Event} (h : e.Follows mid) :
    e.Follows ts := by
  cases e with
  | stands rest => exact hmid.trans h
  | looksBack t rest => exact ⟨hmid.trans h.1, h.2⟩
  | tries start stop => exact ⟨hmid.trans h.1, h.2⟩

theorem leaves_skip (ts : List Token) : Leaves ts (skip ts).rest := by
  cases ts with
  | nil => exact .refl _
  | cons t ts =>
    by_cases ht : t.kind = .endMark
    · rw [show (skip (t :: ts)).rest = t :: ts from if_pos ht]
      exact .refl _
    · rw [show (skip (t :: ts)).rest = ts from if_neg ht]
      exact .cons ht (.refl _)

theorem boundaryEvents_of_endMark {t : Token} (ht : t.kind = .endMark) (ts : List Token) :
    boundaryEvents (t :: ts) = [.stands (t :: ts)] := by
  cases ts <;> simp [boundaryEvents, ht]

theorem boundaryEvents_cons_cons {t : Token} (ht : t.kind ≠ .endMark) (u : Token) (us : List Token) :
    boundaryEvents (t :: u :: us) = .stands (t :: u :: us) ::
      if u.kind = .endMark then [.stands (u :: us)]
      else .looksBack t (u :: us) ::
        if t.kind = .semicolon ∨ startsStatement u.kind then [] else boundaryEvents (u :: us) := by
  simp only [boundaryEvents, ht, if_false]

/-- A boundary comes before the first end mark or right in front of it. -/
theorem leaves_toBoundary (ts : List Token) : Leaves ts (toBoundary ts).rest := by
  induction ts with
  | nil => exact .refl _
  | cons t ts ih =>
    by_cases ht : t.kind = .endMark
    · rw [toBoundary_of_endMark ht]
      exact .refl _
    · have hnext : Leaves (t :: ts) ts := .cons ht (.refl ts)
      cases ts with
      | nil => simpa [toBoundary, ht, overrun] using hnext
      | cons u us =>
        rw [toBoundary_cons_cons ht]
        split
        · exact hnext
        · exact hnext.trans ih

/-- On the way to a boundary the cursor stands in front of tokens, and looks back at those it has gone past. -/
theorem cases_of_mem_boundaryEvents {ts : List Token} {e : Event} (he : e ∈ boundaryEvents ts) :
    (∃ rest, e = .stands rest ∧ Leaves ts rest) ∨
      ∃ t rest, e = .looksBack t rest ∧ Leaves ts (t :: rest) ∧ t.kind ≠ .endMark := by
  induction ts with
  | nil => exact .inl ⟨[], List.mem_singleton.1 he, .refl _⟩
  | cons t ts ih =>
    by_cases ht : t.kind = .endMark
    · rw [boundaryEvents_of_endMark ht, List.mem_singleton] at he
      exact .inl ⟨_, he, .refl _⟩
    · have hnext : Leaves (t :: ts) ts := .cons ht (.refl ts)
      cases ts with
      | nil =>
        have hcases : e = .stands [t] ∨ e = .stands [] := by simpa [boundaryEvents, ht] using he
        rcases hcases with rfl | rfl
        · exact .inl ⟨_, rfl, .refl _⟩
        · exact .inl ⟨_, rfl, hnext⟩
      | cons u us =>
        rw [boundaryEvents_cons_cons ht, List.mem_cons] at he
        rcases he with rfl | he
        · exact .inl ⟨_, rfl, .refl _⟩
        split at he
        · exact .inl ⟨_, List.mem_singleton.1 he, hnext⟩
        · rcases List.mem_cons.1 he with rfl | he
          · exact .inr ⟨t, u :: us, rfl, .refl _, ht⟩
          split at he
          · cases he
          · rcases ih he with ⟨rest, rfl, hrest⟩ | ⟨v, rest, rfl, hrest, hv⟩
            · exact .inl ⟨rest, rfl, hnext.trans hrest⟩
            · exact .inr ⟨v, rest, rfl, hnext.trans hrest, hv⟩

theorem follows_of_mem_boundaryEvents {ts : List Token} {e : Event} (he : e ∈ boundaryEvents ts) : e.Follows ts := by
  rcases cases_of_mem_boundaryEvents he with ⟨rest, rfl, hrest⟩ | ⟨t, rest, rfl, hrest, ht⟩
  · exact hrest
  · exact ⟨hrest, ht⟩

/-- In a trace no end mark is gone past. -/
theorem Traces.follows {p : Parser α} {ts : List Token} {events : List Event} (h : Traces p ts events) :
    Leaves ts (p ts).rest ∧ ∀ e ∈ events, e.Follows ts := by
  induction h with
  | pure a ts | complain reason t ts | overrun ts => exact ⟨.refl ts, by simp⟩
  | peek ts | fail reason ts =>
    refine ⟨by cases ts <;> exact .refl _, fun e he => ?_⟩
    obtain rfl := List.mem_singleton.1 he
    exact Leaves.refl ts
  | skip ts =>
    refine ⟨leaves_skip ts, ?_⟩
    simpa [Event.Follows] using ⟨Leaves.refl ts, leaves_skip ts⟩
  | @bind _ _ p f ts a _ _ _ hvalue _ ih ih' =>
    obtain ⟨-, hrest⟩ := bind_of_ok (f := f) hvalue
    refine ⟨by rw [hrest]; exact ih.1.trans ih'.1, fun e he => ?_⟩
    rcases List.mem_append.1 he with he | he
    · exact ih.2 e he
    · exact .of_leaves ih.1 (ih'.2 e he)
  | @halt _ _ p f _ _ _ _ hvalue ih =>
    obtain ⟨-, hrest⟩ := bind_of_error (f := f) hvalue
    exact ⟨by rw [hrest]; exact ih.1, ih.2⟩
  | recovered _ hvalue ih =>
    refine ⟨by rw [rest_recover (by simp [hvalue])]; exact ih.1, fun e he => ?_⟩
    rcases List.mem_append.1 he with he | he
    · exact ih.2 e he
    · obtain rfl := List.mem_singleton.1 he
      exact ⟨.refl _, ih.1⟩
  | @dropped _ p ts _ _ hvalue ih =>
    have hleaves := leaves_toBoundary (p ts).rest
    refine ⟨by rw [rest_recover_of_gaveUp hvalue]; exact ih.1.trans hleaves, fun e he => ?_⟩
    rcases List.mem_append.1 he with he | he
    · rcases List.mem_append.1 he with he | he
      · exact ih.2 e he
      · exact .of_leaves ih.1 (follows_of_mem_boundaryEvents he)
    · obtain rfl := List.mem_singleton.1 he
      exact ⟨.refl _, ih.1.trans hleaves⟩
  | faulted _ hvalue ih => exact ⟨by rw [rest_recover (by simp [hvalue])]; exact ih.1, ih.2⟩

/-! ## Parsers with traces -/

/-- A parser under recovery that does not start in front of an end mark goes past a token. -/
def Event.Advances : Event → Prop
  | .tries start stop => ∀ t us, start = t :: us → t.kind ≠ .endMark → stop.length < start.length
  | .stands _ | .looksBack _ _ => True

/-- On any tokens the parser has a trace, in which all recoveries advance. -/
def Traced (p : Parser α) : Prop := ∀ ts, ∃ events, Traces p ts events ∧ ∀ e ∈ events, e.Advances

/-- The parser has traces, and where it has a value it consumed a token. -/
structure Consumes (p : Parser α) : Prop where
  traced : Traced p
  length_lt : ∀ ts a, (p ts).value = .ok a → (p ts).rest.length < ts.length

section Rules

variable {p : Parser α} {f : α → Parser β}

theorem Traced.leaves (h : Traced p) (ts : List Token) : Leaves ts (p ts).rest := by
  obtain ⟨events, htraces, -⟩ := h ts
  exact htraces.follows.1

theorem pure_traced (a : α) : Traced (pure a) := fun ts => ⟨[], .pure a ts, by simp⟩

theorem complain_traced (reason : Reason) (t : Token) : Traced (complain reason t) := fun ts =>
  ⟨[], .complain reason t ts, by simp⟩

theorem overrun_traced : Traced (overrun : Parser α) := fun ts => ⟨[], .overrun ts, by simp⟩

theorem peek_traced : Traced peek := fun ts => ⟨_, .peek ts, by simp [Event.Advances]⟩

theorem fail_traced (reason : Reason) : Traced (fail reason : Parser α) := fun ts =>
  ⟨_, .fail reason ts, by simp [Event.Advances]⟩

theorem skip_traced : Traced skip := fun ts => ⟨_, .skip ts, by simp [Event.Advances]⟩

theorem Traced.bind (hp : Traced p) (hf : ∀ a, Traced (f a)) : Traced (p >>= f) := by
  intro ts
  obtain ⟨events, htraces, hadvances⟩ := hp ts
  cases hvalue : (p ts).value with
  | error halt => exact ⟨events, .halt htraces hvalue, hadvances⟩
  | ok a =>
    obtain ⟨events', htraces', hadvances'⟩ := hf a (p ts).rest
    refine ⟨events ++ events', .bind htraces hvalue htraces', fun e he => ?_⟩
    rcases List.mem_append.1 he with he | he
    · exact hadvances e he
    · exact hadvances' e he

theorem Traced.map (hp : Traced p) (f : α → β) : Traced (f <$> p) := hp.bind fun a => pure_traced (f a)

theorem acceptAny_traced (asked : TokenKind → Bool) : Traced (acceptAny asked) := by
  refine peek_traced.bind fun t => ?_
  split
  · exact skip_traced.bind fun _ => pure_traced _
  · exact pure_traced none

theorem expect_traced (kind : TokenKind) (reason : Reason) : Traced (expect kind reason) := by
  refine (acceptAny_traced _).bind fun o => ?_
  cases o with
  | none => exact fail_traced reason
  | some t => exact pure_traced t

theorem exists_of_bind_ok {ts : List Token} {b : β} (h : ((p >>= f) ts).value = .ok b) :
    ∃ a, (p ts).value = .ok a ∧ (f a (p ts).rest).value = .ok b ∧
      ((p >>= f) ts).rest = (f a (p ts).rest).rest := by
  cases hvalue : (p ts).value with
  | error halt =>
    rw [(bind_of_error hvalue).1] at h
    cases h
  | ok a =>
    obtain ⟨hnext, hrest⟩ := bind_of_ok (f := f) hvalue
    exact ⟨a, rfl, hnext ▸ h, hrest⟩

/-- A chain consumes a token if its first parser does. -/
theorem Consumes.bind (hp : Consumes p) (hf : ∀ a, Traced (f a)) : Consumes (p >>= f) := by
  refine ⟨hp.traced.bind hf, fun ts b hb => ?_⟩
  obtain ⟨a, ha, -, hrest⟩ := exists_of_bind_ok hb
  rw [hrest]
  exact Nat.lt_of_le_of_lt ((hf a).leaves _).length_le (hp.length_lt ts a ha)

/-- A chain consumes a token if its second parser does. -/
theorem Traced.bindConsumes (hp : Traced p) (hf : ∀ a, Consumes (f a)) : Consumes (p >>= f) := by
  refine ⟨hp.bind fun a => (hf a).traced, fun ts b hb => ?_⟩
  obtain ⟨a, -, hb, hrest⟩ := exists_of_bind_ok hb
  rw [hrest]
  exact Nat.lt_of_lt_of_le ((hf a).length_lt _ b hb) (hp.leaves ts).length_le

theorem overrun_consumes : Consumes (overrun : Parser α) := ⟨overrun_traced, fun ts a h => by cases h⟩

theorem expect_consumes {kind : TokenKind} (hmark : kind ≠ .endMark) (reason : Reason) :
    Consumes (expect kind reason) := by
  refine ⟨expect_traced kind reason, fun ts t ht => ?_⟩
  cases ts with
  | nil => cases ht
  | cons u us =>
    have hasked : decide (TokenKind.endMark = kind) = false := by simpa using Ne.symm hmark
    by_cases hu : u.kind = kind
    · have hmet : Accepts (expect kind reason) (u :: us) u us := (accepts_expect_iff hmark).2 ⟨rfl, hu⟩
      rw [accepts_iff.1 hmet]
      exact Nat.lt_succ_self _
    · have hmissed : expect kind reason (u :: us) = fail reason (u :: us) :=
        bind_of_accepts (accepts_acceptAny_none hasked (by simpa using hu) us)
      rw [hmissed] at ht
      cases ht

/-- On the way to a boundary at least one token is gone past, unless the first is an end mark. -/
theorem length_toBoundary_lt {t : Token} (ht : t.kind ≠ .endMark) (ts : List Token) :
    (toBoundary (t :: ts)).rest.length < (t :: ts).length := by
  have hle := (leaves_toBoundary ts).length_le
  cases ts with
  | nil => simp [toBoundary, ht, overrun]
  | cons u us =>
    rw [toBoundary_cons_cons ht]
    split
    · exact Nat.lt_succ_self _
    · exact Nat.lt_succ_of_le hle

theorem advances_of_mem_boundaryEvents {ts : List Token} {e : Event} (he : e ∈ boundaryEvents ts) : e.Advances := by
  rcases cases_of_mem_boundaryEvents he with ⟨rest, rfl, -⟩ | ⟨t, rest, rfl, -⟩ <;> trivial

/-- A parser that gave up has consumed tokens before, or its first token is gone past on the way to the boundary. -/
theorem length_toBoundary_of_leaves {ts mid : List Token} (hmid : Leaves ts mid) {t : Token} {us : List Token}
    (hts : ts = t :: us) (ht : t.kind ≠ .endMark) : (toBoundary mid).rest.length < ts.length := by
  by_cases hshorter : mid.length < ts.length
  · exact Nat.lt_of_le_of_lt (leaves_toBoundary mid).length_le hshorter
  · obtain rfl : mid = ts := hmid.eq_of_length_le (Nat.le_of_not_lt hshorter)
    rw [hts]
    exact length_toBoundary_lt ht us

theorem Consumes.recover (hp : Consumes p) : Traced (recover p) := by
  intro ts
  obtain ⟨events, htraces, hadvances⟩ := hp.traced ts
  rcases hvalue : (p ts).value with (_ | fault) | a
  · refine ⟨_, .dropped htraces hvalue, fun e he => ?_⟩
    simp only [List.mem_append, List.mem_singleton] at he
    rcases he with (he | he) | rfl
    · exact hadvances e he
    · exact advances_of_mem_boundaryEvents he
    · exact fun t us hts ht => length_toBoundary_of_leaves (hp.traced.leaves ts) hts ht
  · exact ⟨events, .faulted htraces hvalue, hadvances⟩
  · refine ⟨_, .recovered htraces hvalue, fun e he => ?_⟩
    rcases List.mem_append.1 he with he | he
    · exact hadvances e he
    · obtain rfl := List.mem_singleton.1 he
      exact fun _ _ _ _ => hp.length_lt ts a hvalue

end Rules

/-! ## Indices -/

/-- the index of the first end mark -/
def firstMark (tokens : List Token) : Nat := tokens.findIdx (·.kind = .endMark)

/-- The cursor has an index up to that of the first end mark, and there is a token to look back at. -/
def Event.Within (tokens : List Token) : Event → Prop
  | .stands rest => ∃ i ≤ firstMark tokens, rest = tokens.drop i
  | .looksBack t rest => ∃ i < firstMark tokens, tokens[i]? = some t ∧ rest = tokens.drop (i + 1)
  | .tries start stop => ∃ i j, i ≤ j ∧ j ≤ firstMark tokens ∧ start = tokens.drop i ∧ stop = tokens.drop j

/-- On the tokens the parser has a trace in which all recoveries advance, and in none of its traces does the cursor go
past the first end mark. -/
structure StaysBefore (p : Parser α) (tokens : List Token) : Prop where
  advances : ∃ events, Traces p tokens events ∧ ∀ e ∈ events, e.Advances
  within : ∀ events, Traces p tokens events → ∀ e ∈ events, e.Within tokens

section Indices

variable {tokens : List Token}

theorem firstMark_append {used : List Token} (hused : ∀ t ∈ used, t.kind ≠ .endMark) (rest : List Token) :
    firstMark (used ++ rest) = used.length + firstMark rest := by
  induction used with
  | nil => simp
  | cons t used ih =>
    simp only [List.forall_mem_cons] at hused
    have hrest := ih hused.2
    unfold firstMark at hrest ⊢
    rw [List.cons_append, List.findIdx_cons, hrest]
    simp only [hused.1, decide_false, cond_false, List.length_cons]
    omega

/-- Where no end mark is gone past, the cursor has an index up to that of the first. -/
theorem Leaves.exists_drop {rest : List Token} (h : Leaves tokens rest) :
    ∃ i, i + firstMark rest = firstMark tokens ∧ rest = tokens.drop i := by
  obtain ⟨used, rfl, hused⟩ := h
  exact ⟨used.length, (firstMark_append hused rest).symm, by simp⟩

theorem firstMark_pos {t : Token} (ht : t.kind ≠ .endMark) (ts : List Token) : 0 < firstMark (t :: ts) := by
  have hsingle : ∀ u ∈ [t], u.kind ≠ .endMark := by simpa using ht
  have happend := firstMark_append hsingle ts
  simp only [List.singleton_append, List.length_singleton] at happend
  omega

theorem Event.Follows.within {e : Event} (h : e.Follows tokens) : e.Within tokens := by
  cases e with
  | stands rest =>
    obtain ⟨i, hi, hrest⟩ := Leaves.exists_drop h
    exact ⟨i, by omega, hrest⟩
  | looksBack t rest =>
    obtain ⟨⟨i, hi, hrest⟩, ht⟩ := And.imp_left Leaves.exists_drop h
    have hpos := firstMark_pos ht rest
    refine ⟨i, by omega, ?_, ?_⟩
    · rw [← List.head?_drop, ← hrest, List.head?_cons]
    · rw [← List.tail_drop, ← hrest, List.tail_cons]
  | tries start stop =>
    obtain ⟨i, hi, hstart⟩ := h.1.exists_drop
    obtain ⟨j, hj, hstop⟩ := h.2.exists_drop
    exact ⟨i, i + j, by omega, by omega, hstart, by rw [hstop, hstart, List.drop_drop]⟩

theorem Traced.staysBefore {p : Parser α} (h : Traced p) (tokens : List Token) : StaysBefore p tokens :=
  ⟨h tokens, fun _ htraces e he => (htraces.follows.2 e he).within⟩

end Indices

end Lox.Parser
