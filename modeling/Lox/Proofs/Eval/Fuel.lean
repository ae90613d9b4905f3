import Lox.Proofs.Eval.Safety

/-!
Fuel only bounds a run. Whatever returns with some fuel returns the same with more of it.

* `Eval.Returned r`: the end `r` is a result or a runtime error.
* `Eval.Extends x y`: where `x` returns, `y` gives the same.
* `Eval.Grows x`: with more fuel `x` extends what it is with less.
* `Eval.Ends x s r`: with enough fuel, `x` returns `r` on the state `s`.
* `Eval.Fuelless x`: the computation never runs out of fuel.

Statements grow (`Stmt.exec_grows`), so they have one end on a state (`Eval.Ends.unique`). Expressions
need no fuel at all (`Expr.eval_fuelless`).
-/

namespace Lox

namespace Eval

variable {α β : Type}

/-- The computation came to an end of its own: a result, or a runtime error. -/
def Returned : EStateM.Result Stop State α → Prop
  | .ok _ _ => True
  | .error (.error _) _ => True
  | .error (.fault _) _ => False
  | .error .outOfFuel _ => False

/-- Whether an error is returned does not depend on the state. -/
theorem returned_error_iff {stop : Stop} {s s' : State} :
    Returned (.error stop s : EStateM.Result Stop State α) ↔
      Returned (.error stop s' : EStateM.Result Stop State β) := by
  cases stop <;> rfl

theorem Returned.exists_error {stop : Stop} {s : State}
    (h : Returned (.error stop s : EStateM.Result Stop State α)) : ∃ e, stop = .error e := by
  cases stop with
  | error e => exact ⟨e, rfl⟩
  | fault f => exact absurd h id
  | outOfFuel => exact absurd h id

/-- The end of a chain is that of its first computation, if this stops, and else that of the next. -/
theorem bind_eq_iff {x : Eval α} {f : α → Eval β} {s : State} {r : EStateM.Result Stop State β} :
    (x >>= f) s = r ↔ (∃ a s₁, x s = .ok a s₁ ∧ f a s₁ = r) ∨
      ∃ stop s₁, x s = .error stop s₁ ∧ r = .error stop s₁ := by
  show EStateM.bind x f s = r ↔ _
  unfold EStateM.bind
  cases x s with
  | ok a s₁ =>
    constructor
    · intro h
      exact .inl ⟨a, s₁, rfl, h⟩
    · rintro (⟨a', s', ⟨⟩, h⟩ | ⟨stop, s', ⟨⟩, -⟩)
      exact h
  | error stop s₁ =>
    constructor
    · intro h
      exact .inr ⟨stop, s₁, rfl, h.symm⟩
    · rintro (⟨a, s', ⟨⟩, -⟩ | ⟨stop', s', ⟨⟩, h⟩)
      exact h.symm

/-- Where the first computation returns, the second gives the same. -/
def Extends (x y : Eval α) : Prop := ∀ s, Returned (x s) → y s = x s

theorem Extends.refl (x : Eval α) : Extends x x := fun _ _ => rfl

theorem Extends.bind {x y : Eval α} {f g : α → Eval β} (hx : Extends x y) (hf : ∀ a, Extends (f a) (g a)) :
    Extends (x >>= f) (y >>= g) := by
  intro s hs
  replace hs : Returned (EStateM.bind x f s) := hs
  show EStateM.bind y g s = EStateM.bind x f s
  unfold EStateM.bind at hs ⊢
  have hfirst := hx s
  cases hend : x s with
  | ok a s' =>
    rw [hend] at hs hfirst
    rw [hfirst trivial]
    exact hf a s' hs
  | error stop s' =>
    rw [hend] at hs hfirst
    rw [hfirst (returned_error_iff.1 hs)]

/-- Leaving a scope is a fault or no error at all. -/
theorem leave_cases (s : State) :
    (∃ s', leave s = .ok () s') ∨ ∃ fault s', leave s = .error (.fault fault) s' := by
  cases hpop : s.env.pop with
  | ok env => exact .inl ⟨_, leave_of_pop hpop⟩
  | error fault => exact .inr ⟨fault, _, leave_of_pop_error hpop⟩

/-- If a computation in a scope of its own returns, then so does what is inside. -/
theorem returned_of_inScope {x : Eval Unit} {s : State} (h : Returned (inScope x s)) :
    Returned (x { s with env := s.env.push }) := by
  rw [inScope_eq] at h
  cases hend : x { s with env := s.env.push } with
  | ok a s' => trivial
  | error stop s' =>
    rw [hend] at h
    simp only [EStateM.bind] at h
    rcases leave_cases s' with ⟨s'', hleave⟩ | ⟨fault, s'', hleave⟩
    · rw [hleave] at h
      exact returned_error_iff.1 h
    · rw [hleave] at h
      exact absurd h id

theorem Extends.inScope {x y : Eval Unit} (hx : Extends x y) : Extends (inScope x) (inScope y) := by
  intro s hs
  rw [inScope_eq, inScope_eq, hx _ (returned_of_inScope hs)]

theorem Extends.loop {condition : Eval Value} {x y : Eval Unit} (hx : Extends x y) {n m : Nat} (hm : n ≤ m) :
    Extends (loop condition x n) (loop condition y m) := by
  induction n generalizing m with
  | zero =>
    intro s hs
    exact absurd hs id
  | succ n ih =>
    obtain ⟨m, rfl⟩ : ∃ k, m = k + 1 := ⟨m - 1, by omega⟩
    refine (Extends.refl condition).bind fun value => ?_
    split
    · exact hx.bind fun _ => ih (by omega)
    · exact Extends.refl _

/-! ## Enough fuel -/

/-- With more fuel the computation extends what it is with less. -/
def Grows (x : Nat → Eval α) : Prop := ∀ n m, n ≤ m → Extends (x n) (x m)

/-- With enough fuel the computation returns `r` on a state. -/
def Ends (x : Nat → Eval α) (s : State) (r : EStateM.Result Stop State α) : Prop :=
  Returned r ∧ ∃ fuel, x fuel s = r

theorem Ends.eventually {x : Nat → Eval α} (hx : Grows x) {s : State} {r : EStateM.Result Stop State α}
    (h : Ends x s r) : ∃ fuel, ∀ m, fuel ≤ m → x m s = r := by
  obtain ⟨hr, fuel, rfl⟩ := h
  exact ⟨fuel, fun m hm => hx fuel m hm s hr⟩

/-- On a state there is one end. -/
theorem Ends.unique {x : Nat → Eval α} (hx : Grows x) {s : State} {r r' : EStateM.Result Stop State α}
    (h : Ends x s r) (h' : Ends x s r') : r = r' := by
  obtain ⟨n, hn⟩ := h.eventually hx
  obtain ⟨m, hm⟩ := h'.eventually hx
  rw [← hn (max n m) (Nat.le_max_left n m), hm (max n m) (Nat.le_max_right n m)]

/-- A chain ends where its first computation fails, or as the second does after the first. -/
theorem ends_bind_iff {x : Nat → Eval Unit} {y : Nat → Eval β} (hx : Grows x) (hy : Grows y) {s : State}
    {r : EStateM.Result Stop State β} : Ends (fun fuel => x fuel >>= fun _ => y fuel) s r ↔
      (∃ s₁, Ends x s (.ok () s₁) ∧ Ends y s₁ r) ∨
      ∃ e s₁, Ends x s (.error (.error e) s₁) ∧ r = .error (.error e) s₁ := by
  constructor
  · rintro ⟨hr, fuel, h⟩
    rcases bind_eq_iff.1 h with ⟨_, s₁, hfirst, hnext⟩ | ⟨stop, s₁, hfirst, rfl⟩
    · exact .inl ⟨s₁, ⟨trivial, fuel, hfirst⟩, hr, fuel, hnext⟩
    · obtain ⟨e, rfl⟩ := hr.exists_error
      exact .inr ⟨e, s₁, ⟨trivial, fuel, hfirst⟩, rfl⟩
  · rintro (⟨s₁, hfirst, hnext⟩ | ⟨e, s₁, ⟨-, fuel, hfirst⟩, rfl⟩)
    · obtain ⟨n, hn⟩ := hfirst.eventually hx
      obtain ⟨m, hm⟩ := hnext.eventually hy
      refine ⟨hnext.1, max n m, bind_eq_iff.2 (.inl ⟨(), s₁, ?_, ?_⟩)⟩
      · exact hn _ (Nat.le_max_left n m)
      · exact hm _ (Nat.le_max_right n m)
    · exact ⟨trivial, fuel, bind_eq_iff.2 (.inr ⟨_, s₁, hfirst, rfl⟩)⟩

end Eval

open Eval

namespace Stmt

variable {n m : Nat}

mutual

theorem exec_extends (hm : n ≤ m) : ∀ s : Stmt, Extends (s.exec n) (s.exec m)
  | .expression value => by
    rw [Stmt.exec, Stmt.exec]
    exact .refl _
  | .print value => by
    rw [Stmt.exec, Stmt.exec]
    exact .refl _
  | .declare name none => by
    rw [Stmt.exec, Stmt.exec]
    exact .refl _
  | .declare name (some value) => by
    rw [Stmt.exec, Stmt.exec]
    exact .refl _
  | .block body => by
    rw [Stmt.exec, Stmt.exec]
    exact (execAll_extends hm body).inScope
  | .branch condition yes no => by
    rw [Stmt.exec, Stmt.exec]
    refine (Extends.refl _).bind fun value => ?_
    split
    · exact exec_extends hm yes
    · exact execElse_extends hm no
  | .loop condition body => by
    rw [Stmt.exec, Stmt.exec]
    exact (exec_extends hm body).loop hm

theorem execElse_extends (hm : n ≤ m) : ∀ no : Option Stmt, Extends (execElse n no) (execElse m no)
  | none => by
    rw [execElse, execElse]
    exact .refl _
  | some s => by
    rw [execElse, execElse]
    exact exec_extends hm s

/-- Statements with more fuel extend those with less. -/
theorem execAll_extends (hm : n ≤ m) : ∀ ss : List Stmt, Extends (execAll n ss) (execAll m ss)
  | [] => by
    rw [execAll, execAll]
    exact .refl _
  | s :: rest => by
    rw [execAll, execAll]
    exact (exec_extends hm s).bind fun _ => execAll_extends hm rest

end

theorem execAll_append (fuel : Nat) (ss ts : List Stmt) :
    execAll fuel (ss ++ ts) = execAll fuel ss >>= fun _ => execAll fuel ts := by
  induction ss with
  | nil => rw [List.nil_append, execAll, pure_bind]
  | cons s ss ih => rw [List.cons_append, execAll, execAll, ih, bind_assoc]

theorem execAll_singleton (fuel : Nat) (s : Stmt) : execAll fuel [s] = s.exec fuel := by
  rw [execAll, execAll, bind_pure_unit]

theorem exec_grows (s : Stmt) : Grows fun fuel => s.exec fuel := fun _ _ hm => exec_extends hm s

theorem execAll_grows (ss : List Stmt) : Grows fun fuel => execAll fuel ss :=
  fun _ _ hm => execAll_extends hm ss

end Stmt

/-! ## Expressions -/

namespace Eval

variable {α β : Type}

/-- The computation needs no fuel. -/
def Fuelless (x : Eval α) : Prop := ∀ s s', x s ≠ .error .outOfFuel s'

theorem fuelless_pure (a : α) : Fuelless (pure a) := by
  intro s s' h
  cases h

theorem Fuelless.bind {x : Eval α} {f : α → Eval β} (hx : Fuelless x) (hf : ∀ a, Fuelless (f a)) :
    Fuelless (x >>= f) := by
  intro s s' h
  rcases bind_eq_iff.1 h with ⟨a, s₁, -, hnext⟩ | ⟨stop, s₁, hfirst, ⟨⟩⟩
  · exact hf a s₁ s' hnext
  · exact hx s s' hfirst

theorem fuelless_ofExcept {r : Except Stop α} (h : r ≠ .error .outOfFuel) : Fuelless (ofExcept r) := by
  intro s s' heq
  cases r with
  | ok a => cases heq
  | error stop =>
    cases heq
    exact h rfl

theorem fuelless_ofScopes (r : Except Fault (Except RuntimeError α)) : Fuelless (ofScopes r) := by
  intro s s' h
  rcases r with fault | (e | a) <;> cases h

theorem fuelless_lookup (name : Token) : Fuelless (lookup name) :=
  fun s => fuelless_ofScopes (s.env.lookup name) s

theorem fuelless_assign (name : Token) (value : Value) : Fuelless (assign name value) := by
  intro s
  refine (fuelless_ofScopes (s.env.assign name value)).bind (fun env => ?_) s
  intro s₁ s₂ h
  cases h

end Eval

theorem applyUnary_ne_outOfFuel (operator : Token) (a : Value) : applyUnary operator a ≠ .error .outOfFuel := by
  unfold applyUnary
  split
  · simp
  · split <;> simp
  · simp

theorem applyBinary_ne_outOfFuel (operator : Token) (a b : Value) :
    applyBinary operator a b ≠ .error .outOfFuel := by
  unfold applyBinary
  split
  · split <;> simp
  · split <;> simp

theorem decidedBy_ne_outOfFuel (operator : Token) (a : Value) : decidedBy operator a ≠ .error .outOfFuel := by
  unfold decidedBy
  split <;> simp

namespace Expr

/-- Expressions need no fuel. -/
theorem eval_fuelless (e : Expr) : Fuelless e.eval := by
  induction e with
  | literal value => exact fuelless_pure value
  | reference name => exact fuelless_lookup name
  | assign name value ih => exact ih.bind fun v => (fuelless_assign name v).bind fun _ => fuelless_pure v
  | unary operator operand ih =>
    exact ih.bind fun a => fuelless_ofExcept (applyUnary_ne_outOfFuel operator a)
  | binary left operator right ihleft ihright =>
    exact ihleft.bind fun a => ihright.bind fun b => fuelless_ofExcept (applyBinary_ne_outOfFuel operator a b)
  | logical left operator right ihleft ihright =>
    refine ihleft.bind fun a => ?_
    refine (fuelless_ofExcept (decidedBy_ne_outOfFuel operator a)).bind fun decided => ?_
    split
    · exact fuelless_pure a
    · exact ihright
  | group inner ih => exact ih

end Expr

end Lox
