import Lox.Proofs.Env.Maps
import Lox.Proofs.Eval.Contained
import Lox.Proofs.Eval.Fuel

/-!
What a statement can change in the frames it is run in.

* `Expr.assigned`, `Stmt.assigned`: the names that are assigned anywhere in a tree.
* `Stmt.declared`: the names that a statement declares in the scope it is run in.
* `Frame.Changed A D f g`, `Stack.Changed A D fs gs`: names of `A` are rebound, and those of `D` bound too, in the
  innermost frame only.
* `Eval.Confined A D x`: however the computation ends, it changed no more than that.

Statements are confined to what they assign and declare (`Stmt.exec_confined`). A scope of its own takes with it
what is declared in it, so that the scopes around a block only see the assignments.
-/

namespace Lox

/-! ## The names of a tree -/

/-- the names that an expression assigns -/
def Expr.assigned : Expr → List String
  | literal _ | reference _ => []
  | assign name value => name.lexeme :: value.assigned
  | unary _ operand => operand.assigned
  | binary left _ right | logical left _ right => left.assigned ++ right.assigned
  | group inner => inner.assigned

mutual

/-- the names that a statement assigns, in blocks inside it too -/
def Stmt.assigned : Stmt → List String
  | .expression value | .print value => value.assigned
  | .declare _ none => []
  | .declare _ (some value) => value.assigned
  | .block body => Stmt.allAssigned body
  | .branch condition yes no => condition.assigned ++ (yes.assigned ++ Stmt.elseAssigned no)
  | .loop condition body => condition.assigned ++ body.assigned

/-- the names that the alternative of a conditional assigns, if it has one -/
def Stmt.elseAssigned : Option Stmt → List String
  | none => []
  | some s => s.assigned

/-- the names that statements assign -/
def Stmt.allAssigned : List Stmt → List String
  | [] => []
  | s :: rest => s.assigned ++ Stmt.allAssigned rest

end

mutual

/-- the names that a statement declares in the scope it is run in: not those in blocks inside it -/
def Stmt.declared : Stmt → List String
  | .expression _ | .print _ | .block _ => []
  | .declare name _ => [name.lexeme]
  | .branch _ yes no => yes.declared ++ Stmt.elseDeclared no
  | .loop _ body => body.declared

/-- the names that the alternative of a conditional declares, if it has one -/
def Stmt.elseDeclared : Option Stmt → List String
  | none => []
  | some s => s.declared

end

/-- the names that statements declare in the scope they are run in -/
def Stmt.allDeclared : List Stmt → List String := List.flatMap Stmt.declared

/-! ## Changes of frames -/

/-- The second frame binds what the first does and some names of `D` more, and the values of names that are neither
in `A` nor in `D` are the same. -/
structure Frame.Changed (A D : List String) (f g : Frame) : Prop where
  keeps : ∀ name, f.binds name = true → g.binds name = true
  adds : ∀ name, g.binds name = true → f.binds name = true ∨ name ∈ D
  get?_eq : ∀ name, name ∉ A → name ∉ D → g.get? name = f.get? name

namespace Frame.Changed

variable {A D : List String} {f g h : Frame}

theorem refl (f : Frame) : Changed A D f f := ⟨fun _ => id, fun _ => .inl, fun _ _ _ => rfl⟩

theorem trans (hfg : Changed A D f g) (hgh : Changed A D g h) : Changed A D f h where
  keeps name hf := hgh.keeps name (hfg.keeps name hf)
  adds name hh := by
    rcases hgh.adds name hh with hg | hD
    · exact hfg.adds name hg
    · exact .inr hD
  get?_eq name hA hD := (hgh.get?_eq name hA hD).trans (hfg.get?_eq name hA hD)

theorem mono {A' D' : List String} (hfg : Changed A D f g) (hA : ∀ name ∈ A, name ∈ A') (hD : ∀ name ∈ D, name ∈ D') :
    Changed A' D' f g where
  keeps := hfg.keeps
  adds name hg := (hfg.adds name hg).imp_right (hD name)
  get?_eq name hA' hD' := hfg.get?_eq name (fun h => hA' (hA name h)) fun h => hD' (hD name h)

/-- Binding a name changes a frame at that name only. -/
theorem set {name : String} (h : name ∈ A ∧ f.binds name = true ∨ name ∈ D) (value : Value) :
    Changed A D f (f.set name value) where
  keeps key hf := by
    by_cases hkey : key = name
    · simp [Frame.binds, hkey]
    · simpa [Frame.binds, hkey] using hf
  adds key hg := by
    by_cases hkey : key = name
    · subst hkey
      exact h.imp_left And.right
    · exact .inl (by simpa [Frame.binds, hkey] using hg)
  get?_eq key hA hD := by
    have hkey : key ≠ name := by
      rintro rfl
      exact h.elim (fun h => hA h.1) hD
    rw [Frame.get?_set, if_neg hkey]

/-- Without names to bind, a changed frame binds the same names. -/
theorem binds_eq (h : Changed A [] f g) : g.binds = f.binds := by
  funext name
  refine Bool.eq_iff_iff.2 ⟨fun hg => ?_, h.keeps name⟩
  exact (h.adds name hg).resolve_right (by simp)

theorem mem_of_new (h : Changed A D f g) {name : String} (hnew : g.binds name = true) (hold : f.binds name = false) :
    name ∈ D :=
  (h.adds name hnew).resolve_left (by simp [hold])

theorem mem_of_get?_ne (h : Changed A D f g) {name : String} (hne : g.get? name ≠ f.get? name) :
    name ∈ A ∨ name ∈ D := by
  by_contra hno
  rw [not_or] at hno
  exact hne (h.get?_eq name hno.1 hno.2)

end Frame.Changed

/-- The frames are changed one by one, and names of `D` are bound in the innermost one only. -/
inductive Stack.Changed (A : List String) : List String → List Frame → List Frame → Prop
  | nil (D : List String) : Changed A D [] []
  | cons {D : List String} {f g : Frame} {fs gs : List Frame} : Frame.Changed A D f g → Changed A [] fs gs →
      Changed A D (f :: fs) (g :: gs)

namespace Stack.Changed

variable {A D : List String} {fs gs hs : List Frame}

theorem refl (fs : List Frame) : Changed A D fs fs := by
  induction fs generalizing D with
  | nil => exact .nil D
  | cons f fs ih => exact .cons (.refl f) ih

theorem trans (h : Changed A D fs gs) (h' : Changed A D gs hs) : Changed A D fs hs := by
  induction h generalizing hs with
  | nil D => exact h'
  | cons hf _ ih =>
    cases h' with
    | cons hg hgs => exact .cons (hf.trans hg) (ih hgs)

theorem mono {A' D' : List String} (h : Changed A D fs gs) (hA : ∀ name ∈ A, name ∈ A') (hD : ∀ name ∈ D, name ∈ D') :
    Changed A' D' fs gs := by
  induction h generalizing D' with
  | nil D => exact .nil D'
  | cons hf _ ih => exact .cons (hf.mono hA hD) (ih fun _ h => h)

theorem length_eq (h : Changed A D fs gs) : gs.length = fs.length := by
  induction h with
  | nil D => rfl
  | cons _ _ ih => rw [List.length_cons, List.length_cons, ih]

theorem ne_nil (h : Changed A D fs gs) (hfs : fs ≠ []) : gs ≠ [] := by
  rw [← List.length_pos_iff, h.length_eq, List.length_pos_iff]
  exact hfs

/-- A name is rebound in a frame that binds it. -/
theorem of_assign? {name : String} (hname : name ∈ A) {value : Value} (h : assign? name value fs = some gs) :
    Changed A D fs gs := by
  induction fs generalizing gs D with
  | nil => cases h
  | cons f fs ih =>
    unfold assign? at h
    split at h
    · rename_i hbinds
      obtain rfl := Option.some.inj h
      exact .cons (.set (.inl ⟨hname, hbinds⟩) value) (.refl fs)
    · obtain ⟨gs', hgs', rfl⟩ := Option.map_eq_some_iff.1 h
      exact .cons (.refl f) (ih hgs')

/-- What is changed in a slot: names are bound in the last one only. -/
theorem slot (h : Changed A D fs gs) {i : Nat} {scope : Scope} (hi : (Env.slots fs)[i]? = some scope) :
    ∃ scope', (Env.slots gs)[i]? = some scope' ∧
      Frame.Changed A (if i + 1 = fs.length then D else []) scope.frame scope'.frame := by
  induction h with
  | nil D => cases hi
  | @cons D f g fs gs hf hfs ih =>
    rw [Env.slots, Array.getElem?_push, Env.size_slots] at hi ⊢
    rw [hfs.length_eq, List.length_cons]
    by_cases hlast : i = fs.length
    · rw [if_pos hlast, Option.some.injEq] at hi
      subst hi hlast
      rw [if_pos rfl, if_pos rfl]
      exact ⟨_, rfl, hf⟩
    · rw [if_neg hlast] at hi ⊢
      obtain ⟨scope', hscope', hchanged⟩ := ih hi
      refine ⟨scope', hscope', ?_⟩
      rw [if_neg (by omega : i + 1 ≠ fs.length + 1)]
      split at hchanged <;> exact hchanged

/-- What is changed in a scope: names are bound in the current one only. -/
theorem scope (h : Changed A D fs gs) (hfs : fs ≠ []) {i : Nat} {scope : Scope}
    (hi : (Env.ofStack fs).scopes[i]? = some scope) :
    ∃ scope', (Env.ofStack gs).scopes[i]? = some scope' ∧
      Frame.Changed A (if i = (Env.ofStack fs).current then D else []) scope.frame scope'.frame := by
  have hpos := List.length_pos_iff.2 hfs
  have hcurrent : i + 1 = fs.length ↔ i = (Env.ofStack fs).current := by
    show i + 1 = fs.length ↔ i = fs.length - 1
    omega
  obtain ⟨scope', hscope', hchanged⟩ := h.slot hi
  simp only [hcurrent] at hchanged
  exact ⟨scope', hscope', hchanged⟩

end Stack.Changed

/-! ## Confined computations -/

namespace Eval

variable {α β : Type} {A D : List String}

/-- However the computation ends, it rebound names of `A` and bound those of `D` in the innermost scope, at most. -/
def Confined (A D : List String) (x : Eval α) : Prop :=
  ∀ (s : State) (fs : List Frame), fs ≠ [] → s.env = .ofStack fs →
    ∃ gs, (endState (x s)).env = .ofStack gs ∧ Stack.Changed A D fs gs

theorem confined_of_env_eq {x : Eval α} (h : ∀ s, (endState (x s)).env = s.env) : Confined A D x :=
  fun s fs _ hs => ⟨fs, (h s).trans hs, .refl fs⟩

theorem confined_pure (a : α) : Confined A D (pure a) := confined_of_env_eq fun _ => rfl

theorem confined_throw (stop : Stop) : Confined A D (throw stop : Eval α) := confined_of_env_eq fun _ => rfl

theorem confined_ofExcept (r : Except Stop α) : Confined A D (ofExcept r) := by
  cases r with
  | ok a => exact confined_pure a
  | error stop => exact confined_throw stop

theorem Confined.mono {A' D' : List String} {x : Eval α} (h : Confined A D x) (hA : ∀ name ∈ A, name ∈ A')
    (hD : ∀ name ∈ D, name ∈ D') : Confined A' D' x := by
  intro s fs hfs hs
  obtain ⟨gs, hend, hchanged⟩ := h s fs hfs hs
  exact ⟨gs, hend, hchanged.mono hA hD⟩

theorem Confined.bind {x : Eval α} {f : α → Eval β} (hx : Confined A D x) (hf : ∀ a, Confined A D (f a)) :
    Confined A D (x >>= f) := by
  intro s fs hfs hs
  obtain ⟨gs, hend, hchanged⟩ := hx s fs hfs hs
  show ∃ gs, (endState (EStateM.bind x f s)).env = .ofStack gs ∧ _
  unfold EStateM.bind
  cases hfirst : x s with
  | error stop s' =>
    rw [hfirst] at hend
    exact ⟨gs, hend, hchanged⟩
  | ok a s' =>
    rw [hfirst] at hend
    obtain ⟨hs, hend', hchanged'⟩ := hf a s' gs (hchanged.ne_nil hfs) hend
    exact ⟨hs, hend', hchanged.trans hchanged'⟩

/-! ### Names and texts -/

theorem confined_lookup (name : Token) : Confined A D (lookup name) := by
  refine confined_of_env_eq fun s => ?_
  show (endState (ofScopes (s.env.lookup name) s)).env = s.env
  rcases s.env.lookup name with fault | (error | value) <;> rfl

theorem confined_print (value : Value) : Confined A D (print value) := by
  refine confined_of_env_eq fun s => ?_
  obtain ⟨text, htext⟩ := value.format_ok
  unfold print
  rw [htext]
  rfl

theorem confined_assign {name : Token} (h : name.lexeme ∈ A) (value : Value) : Confined A D (assign name value) := by
  intro s fs hfs hs
  show ∃ gs, (endState (EStateM.bind (ofScopes (s.env.assign name value)) setEnv s)).env = .ofStack gs ∧ _
  unfold Env.assign
  rw [hs, Env.assign?_ofStack hfs]
  cases hassign : Stack.assign? name.lexeme value fs with
  | none => exact ⟨fs, hs, .refl fs⟩
  | some gs => exact ⟨gs, rfl, .of_assign? h hassign⟩

theorem confined_define {name : String} (h : name ∈ D) (value : Value) : Confined A D (define name value) := by
  intro s fs hfs hs
  show ∃ gs, (endState (EStateM.bind (ofExcept ((s.env.define name value).mapError Stop.fault)) setEnv s)).env =
    .ofStack gs ∧ _
  obtain ⟨f, fs, rfl⟩ := List.exists_cons_of_ne_nil hfs
  rw [hs, Env.define_ofStack]
  exact ⟨f.set name value :: fs, rfl, .cons (.set (.inr h) value) (.refl fs)⟩

/-! ### Scopes and loops -/

/-- What is bound in a scope goes with it. -/
theorem Confined.inScope {D' : List String} {x : Eval Unit} (hx : Confined A D' x) : Confined A D (inScope x) := by
  intro s fs hfs hs
  have hpush : s.env.push = .ofStack (.empty :: fs) := by rw [hs, Env.push_ofStack hfs]
  obtain ⟨gs, hend, hchanged⟩ := hx { s with env := s.env.push } (.empty :: fs) (by simp) hpush
  cases hchanged with
  | @cons _ _ g _ gs hg hgs =>
    have hchanged : Stack.Changed A D fs gs := hgs.mono (fun _ h => h) nofun
    have hpop : (endState (x { s with env := s.env.push })).env.pop = .ok (.ofStack gs) := by
      rw [hend, Env.pop_ofStack (hgs.ne_nil hfs)]
    rw [inScope_eq]
    cases hinside : x { s with env := s.env.push } with
    | ok a s' =>
      rw [hinside] at hpop
      have hleave : leave s' = .ok () { s' with env := .ofStack gs } := leave_of_pop hpop
      simp only [EStateM.bind, hleave]
      exact ⟨gs, rfl, hchanged⟩
    | error stop s' =>
      rw [hinside] at hpop
      have hleave : leave s' = .ok () { s' with env := .ofStack gs } := leave_of_pop hpop
      simp only [EStateM.bind, hleave]
      exact ⟨gs, rfl, hchanged⟩

theorem Confined.loop {condition : Eval Value} {body : Eval Unit} (hcondition : Confined A D condition)
    (hbody : Confined A D body) (n : Nat) : Confined A D (loop condition body n) := by
  induction n with
  | zero => exact confined_throw .outOfFuel
  | succ n ih =>
    refine hcondition.bind fun value => ?_
    split
    · exact hbody.bind fun _ => ih
    · exact confined_pure ()

end Eval

open Eval

/-! ## Expressions and statements -/

/-- An expression changes what it assigns. -/
theorem Expr.eval_confined {A D : List String} {e : Expr} (h : ∀ name ∈ e.assigned, name ∈ A) :
    Confined A D e.eval := by
  induction e with
  | literal value => exact confined_pure value
  | reference name => exact confined_lookup name
  | assign name value ih =>
    rw [assigned, List.forall_mem_cons] at h
    refine (ih h.2).bind fun v => ?_
    exact (confined_assign h.1 v).bind fun _ => confined_pure v
  | unary operator operand ih => exact (ih h).bind fun a => confined_ofExcept (applyUnary operator a)
  | binary left operator right ihleft ihright =>
    rw [assigned, List.forall_mem_append] at h
    exact (ihleft h.1).bind fun a => (ihright h.2).bind fun b => confined_ofExcept (applyBinary operator a b)
  | logical left operator right ihleft ihright =>
    rw [assigned, List.forall_mem_append] at h
    refine (ihleft h.1).bind fun a => (confined_ofExcept (decidedBy operator a)).bind fun decided => ?_
    split
    · exact confined_pure a
    · exact ihright h.2
  | group inner ih => exact ih h

mutual

/-- A statement changes what it assigns, and binds what it declares. -/
theorem Stmt.exec_confined (fuel : Nat) {A : List String} : ∀ {D : List String} (s : Stmt),
    (∀ name ∈ s.assigned, name ∈ A) → (∀ name ∈ s.declared, name ∈ D) → Confined A D (s.exec fuel)
  | D, .expression value, hA, _ => by
    rw [Stmt.exec]
    exact (Expr.eval_confined hA).bind fun _ => confined_pure ()
  | D, .print value, hA, _ => by
    rw [Stmt.exec]
    exact (Expr.eval_confined hA).bind confined_print
  | D, .declare name none, _, hD => by
    rw [Stmt.exec]
    exact confined_define (hD _ List.mem_cons_self) .nil
  | D, .declare name (some value), hA, hD => by
    rw [Stmt.exec]
    exact (Expr.eval_confined hA).bind (confined_define (hD _ List.mem_cons_self))
  | D, .block body, hA, _ => by
    rw [Stmt.exec]
    exact (Stmt.execAll_confined fuel body hA fun _ h => h).inScope
  | D, .branch condition yes no, hA, hD => by
    rw [Stmt.assigned, List.forall_mem_append, List.forall_mem_append] at hA
    rw [Stmt.declared, List.forall_mem_append] at hD
    rw [Stmt.exec]
    refine (Expr.eval_confined hA.1).bind fun value => ?_
    split
    · exact Stmt.exec_confined fuel yes hA.2.1 hD.1
    · exact Stmt.execElse_confined fuel no hA.2.2 hD.2
  | D, .loop condition body, hA, hD => by
    rw [Stmt.assigned, List.forall_mem_append] at hA
    rw [Stmt.exec]
    exact (Expr.eval_confined hA.1).loop (Stmt.exec_confined fuel body hA.2 hD) fuel

theorem Stmt.execElse_confined (fuel : Nat) {A : List String} : ∀ {D : List String} (no : Option Stmt),
    (∀ name ∈ Stmt.elseAssigned no, name ∈ A) → (∀ name ∈ Stmt.elseDeclared no, name ∈ D) →
      Confined A D (Stmt.execElse fuel no)
  | D, none, _, _ => by
    rw [Stmt.execElse]
    exact confined_pure ()
  | D, some s, hA, hD => by
    rw [Stmt.execElse]
    exact Stmt.exec_confined fuel s hA hD

theorem Stmt.execAll_confined (fuel : Nat) {A : List String} : ∀ {D : List String} (ss : List Stmt),
    (∀ name ∈ Stmt.allAssigned ss, name ∈ A) → (∀ name ∈ Stmt.allDeclared ss, name ∈ D) →
      Confined A D (Stmt.execAll fuel ss)
  | D, [], _, _ => by
    rw [Stmt.execAll]
    exact confined_pure ()
  | D, s :: rest, hA, hD => by
    rw [Stmt.allAssigned, List.forall_mem_append] at hA
    rw [Stmt.allDeclared, List.flatMap_cons, List.forall_mem_append] at hD
    rw [Stmt.execAll]
    refine (Stmt.exec_confined fuel s hA.1 hD.1).bind fun _ => ?_
    exact Stmt.execAll_confined fuel rest hA.2 hD.2

end

/-! ## The frames after a statement -/

/-- **Scopes are lexical.** Whenever a statement returns, with a result or with a runtime error, the chain of scopes
is as long as before. Every scope binds the names it did; only the innermost one may bind more, and these are names
that the statement declares outside its blocks. A value that is not what it was belongs to a name that the statement
assigns, or that it declares in the innermost scope. After a block every name is found where it was before. -/
theorem exec_changes_frames (stmt : Stmt) (s : State) (r : EStateM.Result Stop State Unit) (hs : s.env.WellFormed)
    (hr : Ends (fun fuel => stmt.exec fuel) s r) :
    let env := s.env
    let env' := (endState r).env
    env'.chain = env.chain ∧ env'.depth = env.depth ∧ env'.current = env.current ∧
    (∀ i scope, env.scopes[i]? = some scope → ∃ scope', env'.scopes[i]? = some scope' ∧
      (i ≠ env.current → scope'.frame.binds = scope.frame.binds) ∧
      (∀ name, scope.frame.binds name = true → scope'.frame.binds name = true) ∧
      (∀ name, scope'.frame.binds name = true → scope.frame.binds name = false →
        i = env.current ∧ name ∈ stmt.declared) ∧
      ∀ name, scope'.frame.get? name ≠ scope.frame.get? name →
        name ∈ stmt.assigned ∨ i = env.current ∧ name ∈ stmt.declared) ∧
    ∀ body, stmt = .block body → ∀ name, env'.find name = env.find name := by
  intro env env'
  obtain ⟨-, fuel, rfl⟩ := hr
  obtain ⟨fs, hfs, henv⟩ := hs.exists_ofStack
  obtain ⟨gs, hend, hchanged⟩ := Stmt.exec_confined fuel stmt (fun _ h => h) (fun _ h => h) s fs hfs henv
  replace hs : env.WellFormed := hs
  replace henv : env = .ofStack fs := henv
  replace hend : env' = .ofStack gs := hend
  have hwf : env'.WellFormed := by
    rw [hend]
    exact Env.ofStack_wellFormed (hchanged.ne_nil hfs)
  have hcurrent : env'.current = env.current := by
    rw [hend, henv]
    exact congrArg (· - 1) hchanged.length_eq
  have hsize : env'.scopes.size = env.scopes.size := by rw [hwf.size_eq, hs.size_eq, hcurrent]
  refine ⟨by rw [hwf.chain_eq, hs.chain_eq, hsize], by rw [hwf.depth_eq, hs.depth_eq, hcurrent], hcurrent, ?_, ?_⟩
  · rw [henv, hend]
    intro i scope hscope
    obtain ⟨scope', hscope', hchange⟩ := hchanged.scope hfs hscope
    refine ⟨scope', hscope', ?_⟩
    by_cases hi : i = (Env.ofStack fs).current
    · rw [if_pos hi] at hchange
      exact ⟨fun h => absurd hi h, hchange.keeps, fun name hnew hold => ⟨hi, hchange.mem_of_new hnew hold⟩,
        fun name hne => (hchange.mem_of_get?_ne hne).imp_right fun h => ⟨hi, h⟩⟩
    · rw [if_neg hi] at hchange
      exact ⟨fun _ => hchange.binds_eq, hchange.keeps,
        fun name hnew hold => absurd (hchange.mem_of_new hnew hold) (by simp),
        fun name hne => .inl ((hchange.mem_of_get?_ne hne).resolve_right (by simp))⟩
  · rintro body rfl name
    have hcontained : (Stmt.block body).Contained := by rw [Stmt.Contained]; trivial
    exact hcontained.find_eq fuel hs name

/-- In `{ var a = true; b = a; c; }` the name `c` has no value. The run ends there, with the new value of `b` and
without `a`. -/
theorem exec_changes_frames_failing_block :
    let t (lexeme : String) : Token := ⟨.identifier, lexeme, none, 1⟩
    let global : Frame := ⟨[("b", .nil)]⟩
    let body : List Stmt := [.declare (t "a") (some (.literal (.boolean true))),
      .expression (.assign (t "b") (.reference (t "a"))), .expression (.reference (t "c"))]
    let s : State := ⟨.ofStack [global], #[]⟩
    let s' : State := ⟨.ofStack [global.set "b" (.boolean true)], #[]⟩
    Ends (fun fuel => (Stmt.block body).exec fuel) s (.error (.error (.undefinedVariable (t "c"))) s') ∧
      s'.env.depth = s.env.depth ∧ s'.env.find "a" = s.env.find "a" := by
  intro t global body s s'
  have hrun : Ends (fun fuel => (Stmt.block body).exec fuel) s (.error (.error (.undefinedVariable (t "c"))) s') :=
    ⟨trivial, 0, rfl⟩
  have hs : s.env.WellFormed := Env.ofStack_wellFormed (by simp)
  obtain ⟨-, hdepth, -, -, hfind⟩ := exec_changes_frames (.block body) s _ hs hrun
  exact ⟨hrun, hdepth, hfind body rfl "a"⟩

end Lox
