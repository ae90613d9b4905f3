import Lox.Proofs.Parser.Accept

/-!
Parsers that have a value and complain.

* `Yields p ts a rest complaints`: the parser makes `a` of the tokens, leaves `rest` and complains.

A parser that accepts yields without a complaint (`Accepts.yields`); chains yield the complaints of
both (`Yields.bind`), and under recovery every parser yields a value or none.
-/

namespace Lox

namespace Parser

variable {α β : Type}

/-- The parser makes `a` of the tokens `ts`, leaves `rest`, and makes the complaints. -/
structure Yields (p : Parser α) (ts : List Token) (a : α) (rest : List Token) (complaints : List Complaint) :
    Prop where
  value : (p ts).value = .ok a
  rest : (p ts).rest = rest
  complaints : (p ts).complaints = complaints

theorem Yields.recover {p : Parser α} {ts rest : List Token} {a : α} {complaints : List Complaint}
    (h : Yields p ts a rest complaints) : Yields (recover p) ts (some a) rest complaints := by
  obtain ⟨hvalue, rfl, rfl⟩ := h
  rcases hend : p ts with ⟨value, mid, made, complained⟩
  rw [hend] at hvalue
  subst hvalue
  refine ⟨?_, ?_, ?_⟩ <;> simp only [Parser.recover, hend]

/-- A parser that gives up has no value under recovery, and goes on at the next boundary. -/
theorem yields_recover_of_gaveUp {p : Parser α} {ts mid rest : List Token} {complaints : List Complaint}
    (hvalue : (p ts).value = .error .gaveUp) (hmid : (p ts).rest = mid) (hcomplaints : (p ts).complaints = complaints)
    (hboundary : toBoundary mid = (pure () : Parser Unit) rest) : Yields (recover p) ts none rest complaints := by
  rcases hend : p ts with ⟨value, left, made, complained⟩
  rw [hend] at hvalue hmid hcomplaints
  obtain rfl : value = .error .gaveUp := hvalue
  obtain rfl : left = mid := hmid
  obtain rfl : made = complaints := hcomplaints
  refine ⟨?_, ?_, ?_⟩
  · simp only [Parser.recover, hend, hboundary]
    rfl
  · simp only [Parser.recover, hend, hboundary]
    rfl
  · simp only [Parser.recover, hend, hboundary]
    exact List.append_nil made

theorem Accepts.yields {p : Parser α} {ts rest : List Token} {a : α} (h : Accepts p ts a rest) :
    Yields p ts a rest [] := by
  rw [accepts_iff] at h
  exact ⟨by rw [h], by rw [h], by rw [h]⟩

theorem Yields.bind {p : Parser α} {f : α → Parser β} {ts mid rest : List Token} {a : α} {b : β}
    {made more : List Complaint} (h : Yields p ts a mid made) (h' : Yields (f a) mid b rest more) :
    Yields (p >>= f) ts b rest (made ++ more) := by
  obtain ⟨hvalue, rfl, rfl⟩ := h
  obtain ⟨hvalue', rfl, rfl⟩ := h'
  rcases hend : p ts with ⟨value, mid, complaints, complained⟩
  rw [hend] at hvalue hvalue'
  subst hvalue
  exact ⟨by simpa only [Bind.bind, hend] using hvalue', by simp only [Bind.bind, hend], by simp only [Bind.bind, hend]⟩

/-- What comes first without a complaint leaves the rest to what follows. -/
theorem Accepts.bindYields {p : Parser α} {f : α → Parser β} {ts mid rest : List Token} {a : α} {b : β}
    {complaints : List Complaint} (h : Accepts p ts a mid) (h' : Yields (f a) mid b rest complaints) :
    Yields (p >>= f) ts b rest complaints :=
  h.yields.bind h'

theorem yields_peek_bind {f : Token → Parser β} {t : Token} {ts rest : List Token} {b : β}
    {complaints : List Complaint} (h : Yields (f t) (t :: ts) b rest complaints) :
    Yields (peek >>= f) (t :: ts) b rest complaints :=
  Accepts.bindYields (accepts_peek_iff.2 ⟨ts, rfl, rfl⟩) h

theorem Yields.bindAccepts {p : Parser α} {f : α → Parser β} {ts mid rest : List Token} {a : α} {b : β}
    {complaints : List Complaint} (h : Yields p ts a mid complaints) (h' : Accepts (f a) mid b rest) :
    Yields (p >>= f) ts b rest complaints := by
  have hchain := h.bind h'.yields
  rwa [List.append_nil] at hchain

end Parser

end Lox
