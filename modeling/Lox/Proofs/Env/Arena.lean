import Lox.Env

/-!
Well-formed environments. The scopes form a stack:

* `size_eq`: the innermost scope is in the last slot,
* `enclosing_eq`: the scope around the one in slot `i + 1` is in slot `i`, and around slot `0` there
  is none.

On a well-formed environment every operation stays inside the slots, every walk outward ends, and
all that is left by an operation is well-formed again. Only the global scope cannot be left.
-/

namespace Lox.Env

/-- the slot around a slot of a stack -/
def outer : Nat → Option Nat
  | 0 => none
  | i + 1 => some i

/-- The scopes form a stack with the innermost one on top. -/
structure WellFormed (env : Env) : Prop where
  size_eq : env.scopes.size = env.current + 1
  enclosing_eq : ∀ (i : Nat) (s : Scope), env.scopes[i]? = some s → s.enclosing = outer i

theorem initial_wellFormed : initial.WellFormed := by
  refine ⟨rfl, fun i s h => ?_⟩
  obtain ⟨rfl, rfl⟩ : i = 0 ∧ s = ⟨Frame.empty, none⟩ := by
    cases i with
    | zero => exact ⟨rfl, (Option.some.inj h).symm⟩
    | succ i => simp [initial] at h
  rfl

namespace WellFormed

variable {env : Env}

/-! ## Slots -/

/-- Every slot up to the current one has a scope, and the scope around it is in the slot before. -/
theorem scope_eq (h : env.WellFormed) {i : Nat} (hi : i ≤ env.current) :
    ∃ s, env.scopes[i]? = some s ∧ env.scope i = .ok s ∧ s.enclosing = outer i := by
  have hlt : i < env.scopes.size := by rw [h.size_eq]; omega
  have hs : env.scopes[i]? = some env.scopes[i] := Array.getElem?_eq_getElem hlt
  refine ⟨_, hs, ?_, h.enclosing_eq i _ hs⟩
  rw [scope, Range.item_of_getElem? hs]
  rfl

/-- Binding a name in a slot leaves the stack as it is. -/
theorem setIn_ok (h : env.WellFormed) {i : Nat} (hi : i ≤ env.current) (name : String) (value : Value) :
    ∃ env', env.setIn i name value = .ok env' ∧ env'.WellFormed ∧ env'.current = env.current := by
  obtain ⟨s, hs, hscope, henclosing⟩ := h.scope_eq hi
  let changed : Env :=
    { env with scopes := env.scopes.set! i { s with frame := s.frame.set name value } }
  have hset : env.setIn i name value = .ok changed := by
    rw [setIn, hscope]
    rfl
  refine ⟨changed, hset, ⟨by simp [changed, h.size_eq], fun j t ht => ?_⟩, rfl⟩
  simp only [changed] at ht
  rw [Array.set!_eq_setIfInBounds, Array.getElem?_setIfInBounds] at ht
  split at ht
  · rename_i hij
    split at ht
    · obtain rfl := Option.some.inj ht
      exact hij ▸ henclosing
    · cases ht
  · exact h.enclosing_eq j t ht

theorem define_ok (h : env.WellFormed) (name : String) (value : Value) :
    ∃ env', env.define name value = .ok env' ∧ env'.WellFormed ∧ env'.current = env.current :=
  h.setIn_ok (Nat.le_refl _) name value

/-! ## Walks outward -/

/-- A walk from a slot ends after as many steps as there are slots up to it. -/
theorem outward_ok (h : env.WellFormed) {n i : Nat} (hi : i ≤ env.current) (hn : i < n) :
    ∃ slots, env.outward n i = .ok slots ∧ slots.length = i + 1 := by
  induction n generalizing i with
  | zero => omega
  | succ n ih =>
    obtain ⟨s, -, hscope, henclosing⟩ := h.scope_eq hi
    cases i with
    | zero =>
      refine ⟨[0], ?_, rfl⟩
      rw [outward, hscope]
      simp only [bind, Except.bind, henclosing, outer]
      rfl
    | succ i =>
      obtain ⟨slots, hslots, hlength⟩ := ih (by omega : i ≤ env.current) (by omega)
      refine ⟨(i + 1) :: slots, ?_, by simp [hlength]⟩
      rw [outward, hscope]
      simp only [bind, Except.bind, henclosing, outer, hslots]
      rfl

theorem depth_eq (h : env.WellFormed) : env.depth = env.current + 1 := by
  obtain ⟨slots, hslots, hlength⟩ :=
    h.outward_ok (Nat.le_refl env.current) (n := env.scopes.size) (by rw [h.size_eq]; omega)
  rw [depth, chain, hslots]
  exact hlength

/-- A search from a slot ends, at a slot it passes or nowhere. -/
theorem findFrom_ok (h : env.WellFormed) (name : String) {n i : Nat} (hi : i ≤ env.current)
    (hn : i < n) :
    ∃ found, env.findFrom name n i = .ok found ∧ ∀ j, found = some j → j ≤ env.current := by
  induction n generalizing i with
  | zero => omega
  | succ n ih =>
    obtain ⟨s, -, hscope, henclosing⟩ := h.scope_eq hi
    rw [findFrom, hscope]
    simp only [bind, Except.bind, henclosing]
    split
    · exact ⟨some i, rfl, fun j hj => Option.some.inj hj ▸ hi⟩
    · cases i with
      | zero => exact ⟨none, rfl, nofun⟩
      | succ i => exact ih (by omega) (by omega)

theorem find_ok (h : env.WellFormed) (name : String) :
    ∃ found, env.find name = .ok found ∧ ∀ j, found = some j → j ≤ env.current :=
  h.findFrom_ok name (Nat.le_refl _) (by rw [h.size_eq]; omega)

/-- Looking a name up gives a value or an error. -/
theorem lookup_ok (h : env.WellFormed) (name : Token) : ∃ result, env.lookup name = .ok result := by
  obtain ⟨found, hfind, hslot⟩ := h.find_ok name.lexeme
  cases found with
  | none =>
    refine ⟨.error (.undefinedVariable name), ?_⟩
    simp only [lookup, get?, hfind, bind, Except.bind]
    rfl
  | some i =>
    obtain ⟨s, -, hscope, -⟩ := h.scope_eq (hslot i rfl)
    cases hvalue : s.frame.get? name.lexeme with
    | none =>
      refine ⟨.error (.undefinedVariable name), ?_⟩
      simp only [lookup, get?, hfind, hscope, bind, Except.bind, pure, Except.pure, hvalue]
    | some value =>
      refine ⟨.ok value, ?_⟩
      simp only [lookup, get?, hfind, hscope, bind, Except.bind, pure, Except.pure, hvalue]

/-- Rebinding a name gives an error, or leaves the stack as it is. -/
theorem assign_ok (h : env.WellFormed) (name : Token) (value : Value) :
    (∃ error, env.assign name value = .ok (.error error)) ∨
      ∃ env', env.assign name value = .ok (.ok env') ∧ env'.WellFormed ∧
        env'.current = env.current := by
  obtain ⟨found, hfind, hslot⟩ := h.find_ok name.lexeme
  cases found with
  | none =>
    refine .inl ⟨.undefinedVariable name, ?_⟩
    simp only [assign, assign?, hfind, bind, Except.bind]
    rfl
  | some i =>
    obtain ⟨env', hset, hwf, hcurrent⟩ := h.setIn_ok (hslot i rfl) name.lexeme value
    refine .inr ⟨env', ?_, hwf, hcurrent⟩
    simp only [assign, assign?, hfind, hset, bind, Except.bind]
    rfl

/-! ## Entering and leaving scopes -/

theorem push (h : env.WellFormed) : env.push.WellFormed ∧ env.push.current = env.current + 1 := by
  refine ⟨⟨by simp [Env.push], fun i s hs => ?_⟩, h.size_eq⟩
  rw [Env.push, Array.getElem?_push] at hs
  split at hs
  · rename_i hi
    obtain rfl := Option.some.inj hs
    rw [hi, h.size_eq]
    rfl
  · exact h.enclosing_eq i s hs

/-- A part of the slots from the first on is a stack. -/
theorem take (h : env.WellFormed) {i : Nat} (hi : i ≤ env.current) :
    WellFormed ⟨env.scopes.take (i + 1), i⟩ := by
  refine ⟨by simp [h.size_eq]; omega, fun j s hs => ?_⟩
  have hsame : env.scopes[j]? = some s := by
    simp only [Array.take_eq_extract, Array.getElem?_extract] at hs
    split at hs
    · simpa using hs
    · cases hs
  exact h.enclosing_eq j s hsame

/-- A scope inside another can be left. -/
theorem pop_ok (h : env.WellFormed) {i : Nat} (hi : env.current = i + 1) :
    ∃ env', env.pop = .ok env' ∧ env'.WellFormed ∧ env'.current = i := by
  obtain ⟨s, -, hscope, henclosing⟩ := h.scope_eq (Nat.le_refl env.current)
  refine ⟨⟨env.scopes.take env.current, i⟩, ?_, ?_, rfl⟩
  · rw [Env.pop, hscope]
    simp only [bind, Except.bind, henclosing]
    rw [hi]
    rfl
  · rw [hi]
    exact h.take (by omega)

theorem reset (h : env.WellFormed) : env.reset.WellFormed := h.take (Nat.zero_le _)

end WellFormed

end Lox.Env
