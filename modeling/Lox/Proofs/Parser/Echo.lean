import Lox.Proofs.Parser.Ledger

/-!
Echoes: outcomes that differ in complaints made before and in values, and in nothing else.

* `Refuses p ts reason t rest`: the parser has nothing but a complaint about the token `t`, with `rest` behind it.
* `Echoes made o o'`: the outcome `o` is `o'` with the complaints `made` before, and maybe another value.
* `Blind f`: what follows does the same whatever the value before.

Where a parser refuses tokens, so does every chain that starts with it. Outcomes that echo each other go on to do so in
every blind chain, and under recovery.
-/

namespace Lox.Parser

variable {α β γ : Type}

/-! ## Refusals -/

/-- The parser goes on to the token `t`, with `rest` behind it, and gives up there, complaining about nothing else. -/
def Refuses (p : Parser α) (ts : List Token) (reason : Reason) (t : Token) (rest : List Token) : Prop :=
  p ts = (fail reason : Parser α) (t :: rest)

section Refusals

variable {p : Parser α} {f : α → Parser β} {ts mid rest : List Token} {reason : Reason} {t : Token}

theorem refuses_fail (reason : Reason) (t : Token) (rest : List Token) :
    Refuses (fail reason : Parser α) (t :: rest) reason t rest := rfl

theorem Refuses.bind (h : Refuses p ts reason t rest) : Refuses (p >>= f) ts reason t rest := by
  unfold Refuses at h ⊢
  simp only [Bind.bind, h, fail]

theorem Refuses.map (h : Refuses p ts reason t rest) (f : α → β) : Refuses (f <$> p) ts reason t rest := h.bind

/-- What comes first is accepted, and what follows refuses the rest. -/
theorem Accepts.bindRefuses {a : α} (h : Accepts p ts a mid) (h' : Refuses (f a) mid reason t rest) :
    Refuses (p >>= f) ts reason t rest :=
  (bind_of_accepts h).trans h'

theorem refuses_peek_bind {f : Token → Parser β} {u : Token} {us : List Token}
    (h : Refuses (f u) (u :: us) reason t rest) : Refuses (peek >>= f) (u :: us) reason t rest :=
  Accepts.bindRefuses (accepts_peek_iff.2 ⟨us, rfl, rfl⟩) h

theorem refuses_skip_bind {f : Unit → Parser β} {u : Token} (hu : u.kind ≠ .endMark) {us : List Token}
    (h : Refuses (f ()) us reason t rest) : Refuses (skip >>= f) (u :: us) reason t rest :=
  (accepts_skip hu us).bindRefuses h

/-- A token of another kind is refused. -/
theorem refuses_expect {kind : TokenKind} (hmark : kind ≠ .endMark) (ht : t.kind ≠ kind) (reason : Reason)
    (rest : List Token) : Refuses (expect kind reason) (t :: rest) reason t rest :=
  Accepts.bindRefuses (accepts_acceptAny_none (by simpa using Ne.symm hmark) (by simpa using ht) rest)
    (refuses_fail reason t rest)

end Refusals

/-! ## Echoes -/

/-- The first outcome is the second with complaints made before, and maybe another value. -/
structure Echoes (made : List Complaint) (o o' : Outcome α) : Prop where
  rest : o.rest = o'.rest
  complaints : o.complaints = made ++ o'.complaints
  value : (∃ a a', o.value = .ok a ∧ o'.value = .ok a') ∨ ∃ halt, o.value = .error halt ∧ o'.value = .error halt

theorem Echoes.refl (o : Outcome α) : Echoes [] o o := by
  refine ⟨rfl, rfl, ?_⟩
  cases h : o.value with
  | ok a => exact .inl ⟨a, a, rfl, rfl⟩
  | error halt => exact .inr ⟨halt, rfl, rfl⟩

/-- The parser that follows does the same for all values, but for its own value. -/
def Blind (f : α → Parser β) : Prop := ∀ a a' ts, Echoes [] (f a ts) (f a' ts)

section Rules

variable {made : List Complaint} {ts ts' : List Token} {p p' : Parser α} {f f' : α → Parser β}

theorem Echoes.bind (h : Echoes made (p ts) (p' ts'))
    (hf : ∀ a a' rest, (p ts).value = .ok a → (p' ts').value = .ok a' → Echoes [] (f a rest) (f' a' rest)) :
    Echoes made ((p >>= f) ts) ((p' >>= f') ts') := by
  obtain ⟨hrest, hcomplaints, ⟨a, a', ha, ha'⟩ | ⟨halt, hhalt, hhalt'⟩⟩ := h
  · obtain ⟨hvalue, hleft⟩ := bind_of_ok (f := f) ha
    obtain ⟨hvalue', hleft'⟩ := bind_of_ok (f := f') ha'
    have hnext := hf a a' (p ts).rest ha ha'
    rw [hrest] at hnext hvalue hleft
    refine ⟨by rw [hleft, hleft']; exact hnext.rest, ?_, by rw [hvalue, hvalue']; exact hnext.value⟩
    rw [complaints_bind_of_ok ha, complaints_bind_of_ok ha', hcomplaints, hrest, hnext.complaints, List.nil_append,
      List.append_assoc]
  · obtain ⟨hvalue, hleft⟩ := bind_of_error (f := f) hhalt
    obtain ⟨hvalue', hleft'⟩ := bind_of_error (f := f') hhalt'
    refine ⟨by rw [hleft, hleft', hrest], ?_, .inr ⟨halt, hvalue, hvalue'⟩⟩
    rw [complaints_bind_of_error hhalt, complaints_bind_of_error hhalt', hcomplaints]

/-- Outcomes go on to echo each other in a blind chain. -/
theorem Echoes.bindBlind (h : Echoes made (p ts) (p' ts')) (hf : Blind f) :
    Echoes made ((p >>= f) ts) ((p' >>= f) ts') :=
  h.bind fun a a' rest _ _ => hf a a' rest

theorem blind_pure (g : α → β) : Blind fun a => pure (g a) := fun a a' _ =>
  ⟨rfl, rfl, .inl ⟨g a, g a', rfl, rfl⟩⟩

/-- A parser in front, whose own value may be used. -/
theorem blind_bind {q : Parser γ} {g : γ → α → Parser β} (h : ∀ c, Blind (g c)) :
    Blind fun a => q >>= fun c => g c a := by
  intro a a' ts
  refine (Echoes.refl (q ts)).bind fun c c' rest hc hc' => ?_
  obtain rfl := Except.ok.inj (hc.symm.trans hc')
  exact h c a a' rest

theorem Blind.bind {g : β → Parser γ} (hf : Blind f) (hg : Blind g) : Blind fun a => f a >>= g := fun a a' ts =>
  (hf a a' ts).bindBlind hg

theorem bind_bind (p : Parser α) (f : α → Parser β) (g : β → Parser γ) (ts : List Token) :
    ((p >>= f) >>= g) ts = (p >>= fun a => f a >>= g) ts := by
  cases ha : (p ts).value with
  | error halt =>
    obtain ⟨hvalue, hrest⟩ := bind_of_error (f := f) ha
    obtain ⟨hleft, hleft'⟩ := bind_of_error (f := g) hvalue
    obtain ⟨hright, hright'⟩ := bind_of_error (f := fun a => f a >>= g) ha
    refine Outcome.ext (hleft.trans hright.symm) (by rw [hleft', hrest, hright']) ?_
    rw [complaints_bind_of_error hvalue, complaints_bind_of_error ha, complaints_bind_of_error ha]
  | ok a =>
    obtain ⟨hvalue, hrest⟩ := bind_of_ok (f := f) ha
    obtain ⟨hright, hright'⟩ := bind_of_ok (f := fun a => f a >>= g) ha
    cases hb : (f a (p ts).rest).value with
    | error halt =>
      obtain ⟨hleft, hleft'⟩ := bind_of_error (f := g) (hvalue.trans hb)
      obtain ⟨hend, hend'⟩ := bind_of_error (f := g) hb
      refine Outcome.ext ((hleft.trans hend.symm).trans hright.symm) (by rw [hleft', hrest, hright', hend']) ?_
      rw [complaints_bind_of_error (hvalue.trans hb), complaints_bind_of_ok ha, complaints_bind_of_ok ha,
        complaints_bind_of_error hb]
    | ok b =>
      obtain ⟨hleft, hleft'⟩ := bind_of_ok (f := g) (hvalue.trans hb)
      obtain ⟨hend, hend'⟩ := bind_of_ok (f := g) hb
      refine Outcome.ext (by rw [hleft, hrest, hright, hend]) (by rw [hleft', hrest, hright', hend']) ?_
      rw [complaints_bind_of_ok (hvalue.trans hb), complaints_bind_of_ok ha, complaints_bind_of_ok ha,
        complaints_bind_of_ok hb, hrest, List.append_assoc]

theorem bind_pure_eq (p : Parser α) (ts : List Token) : (p >>= pure) ts = p ts := by
  cases h : (p ts).value with
  | error halt =>
    obtain ⟨hvalue, hrest⟩ := bind_of_error (f := (pure : α → Parser α)) h
    exact Outcome.ext (hvalue.trans h.symm) hrest (complaints_bind_of_error h)
  | ok a =>
    obtain ⟨hvalue, hrest⟩ := bind_of_ok (f := (pure : α → Parser α)) h
    refine Outcome.ext (hvalue.trans h.symm) hrest ?_
    rw [complaints_bind_of_ok h]
    exact List.append_nil _

theorem bind_congr {q : Parser α} {us : List Token} (h : p ts = q us) (f : α → Parser β) :
    (p >>= f) ts = (q >>= f) us := by
  simp only [Bind.bind, h]

/-- Outcomes go on to echo each other under recovery, where both go on at one boundary. -/
theorem Echoes.recover (h : Echoes made (p ts) (p' ts')) : Echoes made (recover p ts) (Parser.recover p' ts') := by
  have hcomplaints : (Parser.recover p ts).complaints = made ++ (Parser.recover p' ts').complaints := by
    rw [complaints_recover, complaints_recover, h.complaints]
  obtain ⟨hrest, -, hvalue⟩ := h
  unfold Parser.recover at hcomplaints ⊢
  generalize p ts = o at *
  generalize p' ts' = o' at *
  obtain ⟨value, rest, complaints, complained⟩ := o
  obtain ⟨value', rest', complaints', complained'⟩ := o'
  obtain rfl : rest = rest' := hrest
  rcases hvalue with ⟨a, a', rfl, rfl⟩ | ⟨(_ | fault), rfl, rfl⟩
  · exact ⟨rfl, hcomplaints, .inl ⟨some a, some a', rfl, rfl⟩⟩
  · refine ⟨rfl, hcomplaints, ?_⟩
    cases hboundary : (toBoundary rest).value with
    | ok u => exact .inl ⟨none, none, by simp only [hboundary]; rfl, by simp only [hboundary]; rfl⟩
    | error halt => exact .inr ⟨halt, by simp only [hboundary]; rfl, by simp only [hboundary]; rfl⟩
  · exact ⟨rfl, hcomplaints, .inr ⟨.fault fault, rfl, rfl⟩⟩

end Rules

end Lox.Parser
