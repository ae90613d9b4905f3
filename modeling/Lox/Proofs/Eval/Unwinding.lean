import Lox.Proofs.Eval.Frames

/-!
Where an error is raised. A program leaves the scopes around an error on its way out; here they stay.

* `Stmt.execOpen`: a statement is run as `Stmt.exec` runs it, but no scope is left when it stops, so that it stops in the
  state its error is raised in.
* `Eval.Unwound n r r'`: the ends are the same with `n` scopes, but for scopes that an error has left in the first only.
* `Eval.Unwinds x y`: on all stacks of scopes the end of `x` is that of `y`, unwound.

What runs without scopes of its own is the same in both (`Eval.Confined.unwinds`), and leaving a scope behind an error
adds it to those that are left (`Eval.Unwinds.inScope`).
-/

namespace Lox

namespace Eval

/-- Run a computation in a scope of its own, which is left only if the computation has a result. -/
def inOpenScope (x : Eval Unit) : Eval Unit := do
  enter
  x
  leave

end Eval

mutual

/-- Run a statement, without leaving a scope when it stops. -/
def Stmt.execOpen (fuel : Nat) : Stmt → Eval Unit
  | .expression value => do
    let _ ← value.eval
    pure ()
  | .print value => do
    let v ← value.eval
    Eval.print v
  | .declare name none => Eval.define name.lexeme .nil
  | .declare name (some value) => do
    let v ← value.eval
    Eval.define name.lexeme v
  | .block body => Eval.inOpenScope (Stmt.execAllOpen fuel body)
  | .branch condition yes no => do
    let value ← condition.eval
    if value.truthy then yes.execOpen fuel else Stmt.execElseOpen fuel no
  | .loop condition body => Eval.loop condition.eval (body.execOpen fuel) fuel

/-- Run the alternative of a conditional so, if it has one. -/
def Stmt.execElseOpen (fuel : Nat) : Option Stmt → Eval Unit
  | none => pure ()
  | some s => s.execOpen fuel

/-- Run statements so in order. -/
def Stmt.execAllOpen (fuel : Nat) : List Stmt → Eval Unit
  | [] => pure ()
  | s :: rest => do
    s.execOpen fuel
    Stmt.execAllOpen fuel rest

end

namespace Eval

variable {α β : Type}

/-! ## Ends -/

/-- The ends are the same with `n` scopes, but for scopes that an error has left in the first only. -/
inductive Unwound (n : Nat) : EStateM.Result Stop State α → EStateM.Result Stop State α → Prop
  | ok (a : α) {fs : List Frame} (printed : Array String) : fs.length = n →
      Unwound n (.ok a ⟨.ofStack fs, printed⟩) (.ok a ⟨.ofStack fs, printed⟩)
  | error (stop : Stop) (above : List Frame) {fs : List Frame} (printed : Array String) : fs.length = n →
      Unwound n (.error stop ⟨.ofStack fs, printed⟩) (.error stop ⟨.ofStack (above ++ fs), printed⟩)

/-- On all stacks of scopes the end of the first computation is that of the second, unwound. -/
def Unwinds (x y : Eval α) : Prop := ∀ (fs : List Frame) (printed : Array String), fs ≠ [] →
  Unwound fs.length (x ⟨.ofStack fs, printed⟩) (y ⟨.ofStack fs, printed⟩)

/-- What keeps the number of scopes however it ends is its own unwinding. -/
theorem Confined.unwinds {A D : List String} {x : Eval α} (h : Confined A D x) : Unwinds x x := by
  intro fs printed hfs
  obtain ⟨gs, hend, hchanged⟩ := h ⟨.ofStack fs, printed⟩ fs hfs rfl
  generalize x ⟨.ofStack fs, printed⟩ = r at hend ⊢
  cases r with
  | ok a s =>
    obtain ⟨env, printed⟩ := s
    obtain rfl : env = .ofStack gs := hend
    exact .ok a printed hchanged.length_eq
  | error stop s =>
    obtain ⟨env, printed⟩ := s
    obtain rfl : env = .ofStack gs := hend
    exact .error stop [] printed hchanged.length_eq

theorem unwinds_pure (a : α) : Unwinds (pure a) (pure a) :=
  (confined_pure a : Confined [] [] (pure a)).unwinds

theorem Unwinds.bind {x y : Eval α} {f g : α → Eval β} (hx : Unwinds x y) (hf : ∀ a, Unwinds (f a) (g a)) :
    Unwinds (x >>= f) (y >>= g) := by
  intro fs printed hfs
  show Unwound fs.length (EStateM.bind x f _) (EStateM.bind y g _)
  have hend := hx fs printed hfs
  unfold EStateM.bind
  generalize x ⟨.ofStack fs, printed⟩ = r at hend ⊢
  generalize y ⟨.ofStack fs, printed⟩ = r' at hend ⊢
  cases hend with
  | @ok a gs printed hgs =>
    have hnext := hf a gs printed (by rintro rfl; exact hfs (List.eq_nil_of_length_eq_zero hgs.symm))
    rw [hgs] at hnext
    exact hnext
  | error stop above printed hgs => exact .error stop above printed hgs

theorem Unwinds.loop {condition : Eval Value} {x y : Eval Unit} (hcondition : Unwinds condition condition)
    (hx : Unwinds x y) (n : Nat) : Unwinds (loop condition x n) (loop condition y n) := by
  induction n with
  | zero => exact (confined_throw .outOfFuel : Confined [] [] _).unwinds
  | succ n ih =>
    refine hcondition.bind fun value => ?_
    split
    · exact hx.bind fun _ => ih
    · exact unwinds_pure ()

/-- As many frames as a scope and those around it can be left by one scope. -/
theorem leave_ofStack {fs gs : List Frame} (hfs : fs ≠ []) (hgs : gs.length = fs.length + 1) :
    ∃ g outer, gs = g :: outer ∧ outer.length = fs.length ∧
      ∀ printed, leave ⟨.ofStack gs, printed⟩ = .ok () ⟨.ofStack outer, printed⟩ := by
  obtain ⟨g, outer, rfl⟩ := List.exists_cons_of_length_eq_add_one hgs
  have houter : outer.length = fs.length := Nat.succ.inj hgs
  have hne : outer ≠ [] := by
    rintro rfl
    exact hfs (List.eq_nil_of_length_eq_zero houter.symm)
  exact ⟨g, outer, rfl, houter, fun printed => leave_of_pop (Env.pop_ofStack hne)⟩

/-- A scope that an error has left is one more of those that stay. -/
theorem Unwinds.inScope {x y : Eval Unit} (hx : Unwinds x y) : Unwinds (inScope x) (inOpenScope y) := by
  intro fs printed hfs
  have hend := hx (.empty :: fs) printed (by simp)
  have hopen : inOpenScope y ⟨.ofStack fs, printed⟩ =
      EStateM.bind y (fun _ => leave) ⟨.ofStack (.empty :: fs), printed⟩ := by
    rw [← Env.push_ofStack hfs]
    rfl
  rw [inScope_eq, hopen]
  dsimp only
  rw [Env.push_ofStack hfs]
  unfold EStateM.bind
  generalize x ⟨.ofStack (.empty :: fs), printed⟩ = r at hend ⊢
  generalize y ⟨.ofStack (.empty :: fs), printed⟩ = r' at hend ⊢
  cases hend with
  | ok a printed hgs =>
    obtain ⟨g, outer, rfl, houter, hleave⟩ := leave_ofStack hfs hgs
    simp only [hleave]
    exact .ok () printed houter
  | error stop above printed hgs =>
    obtain ⟨g, outer, rfl, houter, hleave⟩ := leave_ofStack hfs hgs
    simp only [hleave]
    rw [List.append_cons]
    exact .error stop (above ++ [g]) printed houter

end Eval

open Eval

/-! ## Statements -/

theorem Expr.eval_unwinds (e : Expr) : Unwinds e.eval e.eval :=
  (Expr.eval_confined (fun _ h => h) : Confined e.assigned [] e.eval).unwinds

theorem Eval.define_unwinds (name : String) (value : Value) : Unwinds (define name value) (define name value) :=
  (confined_define List.mem_cons_self value : Confined [] [name] _).unwinds

mutual

theorem Stmt.exec_unwinds (fuel : Nat) : ∀ s : Stmt, Unwinds (s.exec fuel) (s.execOpen fuel)
  | .expression value => by
    rw [Stmt.exec, Stmt.execOpen]
    exact value.eval_unwinds.bind fun _ => unwinds_pure ()
  | .print value => by
    rw [Stmt.exec, Stmt.execOpen]
    exact value.eval_unwinds.bind fun v => (confined_print v : Confined [] [] _).unwinds
  | .declare name none => by
    rw [Stmt.exec, Stmt.execOpen]
    exact define_unwinds name.lexeme .nil
  | .declare name (some value) => by
    rw [Stmt.exec, Stmt.execOpen]
    exact value.eval_unwinds.bind (define_unwinds name.lexeme)
  | .block body => by
    rw [Stmt.exec, Stmt.execOpen]
    exact (Stmt.execAll_unwinds fuel body).inScope
  | .branch condition yes no => by
    rw [Stmt.exec, Stmt.execOpen]
    refine condition.eval_unwinds.bind fun value => ?_
    split
    · exact Stmt.exec_unwinds fuel yes
    · exact Stmt.execElse_unwinds fuel no
  | .loop condition body => by
    rw [Stmt.exec, Stmt.execOpen]
    exact condition.eval_unwinds.loop (Stmt.exec_unwinds fuel body) fuel

theorem Stmt.execElse_unwinds (fuel : Nat) : ∀ no : Option Stmt,
    Unwinds (Stmt.execElse fuel no) (Stmt.execElseOpen fuel no)
  | none => by
    rw [Stmt.execElse, Stmt.execElseOpen]
    exact unwinds_pure ()
  | some s => by
    rw [Stmt.execElse, Stmt.execElseOpen]
    exact Stmt.exec_unwinds fuel s

/-- Statements end as they do where no scope is left behind an error, unwound. -/
theorem Stmt.execAll_unwinds (fuel : Nat) : ∀ ss : List Stmt,
    Unwinds (Stmt.execAll fuel ss) (Stmt.execAllOpen fuel ss)
  | [] => by
    rw [Stmt.execAll, Stmt.execAllOpen]
    exact unwinds_pure ()
  | s :: rest => by
    rw [Stmt.execAll, Stmt.execAllOpen]
    exact (Stmt.exec_unwinds fuel s).bind fun _ => Stmt.execAll_unwinds fuel rest

end

end Lox
