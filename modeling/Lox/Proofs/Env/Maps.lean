import Lox.Proofs.Env.Stack

/-!
Environments behave as stacks of maps.

* `MapStack`: a stack of maps from names to values that is never empty, with the operations of an
  environment said on maps.
* `Env.Represents env m`: the scopes of the environment are the maps of the stack, slot by slot.
* `MapStack.after`, `Env.after`: what a sequence of operations leaves.

One operation gives the same on both sides and keeps them together (`Represents.apply`), and so does a
sequence (`Represents.replies_eq`, `Represents.after`).
-/

namespace Lox

/-! ## Stacks of maps -/

/-- Maps from names to values, one inside the other: the innermost one, and those around it from the inside
out. -/
structure MapStack where
  top : String → Option Value
  around : List (String → Option Value)

namespace MapStack

/-- one map, without bindings -/
def initial : MapStack := ⟨fun _ => none, []⟩

/-- a map with a name bound to a value -/
def bound (name : String) (value : Value) (map : String → Option Value) : String → Option Value :=
  fun key => if key = name then some value else map key

/-- the maps with a name rebound in the innermost that binds it -/
def rebound? (name : String) (value : Value) :
    List (String → Option Value) → Option (List (String → Option Value))
  | [] => none
  | map :: maps =>
    if (map name).isSome then some (bound name value map :: maps) else (rebound? name value maps).map (map :: ·)

/-- how many maps there are -/
def depth (m : MapStack) : Nat := m.around.length + 1

/-- the value of a name in the innermost map that binds it -/
def get? (m : MapStack) (name : String) : Option Value := (m.top :: m.around).findSome? (· name)

/-- the stack with a name rebound in the innermost map that binds it -/
def assign? (m : MapStack) (name : String) (value : Value) : Option MapStack :=
  if (m.top name).isSome then some ⟨bound name value m.top, m.around⟩
  else (rebound? name value m.around).map (⟨m.top, ·⟩)

/-- the outermost map -/
def bottom (m : MapStack) : String → Option Value := m.around.getLast?.getD m.top

/-- what an operation gives, and the stack after it -/
def apply (m : MapStack) : Env.Op → Env.Reply × MapStack
  | .push => (.done, ⟨fun _ => none, m.top :: m.around⟩)
  | .pop =>
    match m.around with
    | [] => (.fault .globalPop, m)
    | map :: maps => (.done, ⟨map, maps⟩)
  | .reset => (.done, ⟨m.bottom, []⟩)
  | .define name value => (.done, ⟨bound name value m.top, m.around⟩)
  | .assign name value =>
    match m.assign? name.lexeme value with
    | some m' => (.done, m')
    | none => (.error (.undefinedVariable name), m)
  | .get name =>
    match m.get? name.lexeme with
    | some value => (.value value, m)
    | none => (.error (.undefinedVariable name), m)

/-- what each operation of a sequence gives, with the depth after it -/
def replies (m : MapStack) : List Env.Op → List (Env.Reply × Nat)
  | [] => []
  | op :: ops => ((m.apply op).1, (m.apply op).2.depth) :: (m.apply op).2.replies ops

/-- the stack after a sequence of operations -/
def after (m : MapStack) (ops : List Env.Op) : MapStack := ops.foldl (fun m op => (m.apply op).2) m

end MapStack

namespace Env

/-- the environment after a sequence of operations -/
def after (env : Env) (ops : List Op) : Env := ops.foldl (fun env op => (env.apply op).2) env

/-! ## Slots of well-formed environments -/

/-- From a slot outward come all the slots before it, down to the global one. -/
theorem WellFormed.outward_eq {env : Env} (h : env.WellFormed) {n i : Nat} (hi : i ≤ env.current) (hn : i < n) :
    env.outward n i = .ok (List.range (i + 1)).reverse := by
  induction n generalizing i with
  | zero => omega
  | succ n ih =>
    obtain ⟨s, -, hscope, henclosing⟩ := h.scope_eq hi
    rw [outward, hscope]
    cases i with
    | zero =>
      simp only [bind, Except.bind, henclosing, outer]
      rfl
    | succ i =>
      simp only [bind, Except.bind, henclosing, outer, ih (by omega : i ≤ env.current) (by omega)]
      rw [List.range_succ (n := i + 1), List.reverse_concat]
      rfl

theorem WellFormed.chain_eq {env : Env} (h : env.WellFormed) :
    env.chain = .ok (List.range env.scopes.size).reverse := by
  rw [chain, h.outward_eq (Nat.le_refl _) (by rw [h.size_eq]; omega), h.size_eq]

/-! ## The maps of an environment -/

section Operations

variable {f : Frame} {fs : List Frame}

theorem depth_ofStack : (ofStack (f :: fs)).depth = fs.length + 1 := by
  rw [(ofStack_wellFormed (by simp)).depth_eq]
  simp [ofStack]

/-- Of all frames the outermost is kept. -/
theorem reset_ofStack : (ofStack (f :: fs)).reset = ofStack [fs.getLast?.getD f] := by
  have hslots : (slots (f :: fs)).take 1 = slots [fs.getLast?.getD f] := by
    refine Array.ext_getElem? fun i => ?_
    rw [Array.take_eq_extract, Array.getElem?_extract, size_slots, getElem?_slots, getElem?_slots]
    cases i with
    | zero =>
      have hhead : (f :: fs).reverse[0]? = some (fs.getLast?.getD f) := by
        rw [← List.head?_eq_getElem?, List.head?_reverse, List.getLast?_cons]
      rw [if_pos (by simp), Nat.zero_add, hhead]
      rfl
    | succ i => simp
  rw [reset, ofStack, ofStack, hslots]
  rfl

end Operations

/-- The frames of the environment, seen as maps, are those of the stack. -/
def Represents (env : Env) (m : MapStack) : Prop :=
  ∃ (f : Frame) (fs : List Frame), env = ofStack (f :: fs) ∧ m = ⟨f.get?, fs.map Frame.get?⟩

theorem represents_initial : Represents .initial .initial := ⟨.empty, [], rfl, rfl⟩

theorem get?_set_eq (f : Frame) (name : String) (value : Value) :
    (f.set name value).get? = MapStack.bound name value f.get? := by
  funext key
  rw [Frame.get?_set, MapStack.bound]

theorem map_get?_assign? (name : String) (value : Value) (fs : List Frame) :
    (Stack.assign? name value fs).map (List.map Frame.get?) = MapStack.rebound? name value (fs.map Frame.get?) := by
  induction fs with
  | nil => rfl
  | cons f fs ih =>
    rw [Stack.assign?, List.map_cons, MapStack.rebound?, ← ih, Frame.binds]
    split
    · simp [get?_set_eq]
    · cases Stack.assign? name value fs <;> rfl

namespace Represents

variable {env : Env} {m : MapStack}

theorem wellFormed (h : Represents env m) : env.WellFormed := by
  obtain ⟨f, fs, rfl, -⟩ := h
  exact ofStack_wellFormed (by simp)

theorem depth_eq (h : Represents env m) : env.depth = m.depth := by
  obtain ⟨f, fs, rfl, rfl⟩ := h
  rw [depth_ofStack, MapStack.depth, List.length_map]

theorem get?_eq (h : Represents env m) (name : String) : env.get? name = .ok (m.get? name) := by
  obtain ⟨f, fs, rfl, rfl⟩ := h
  rw [get?_ofStack (by simp), MapStack.get?, Stack.get?, List.findSome?_cons, List.findSome?_cons, List.findSome?_map]
  rfl

/-- Rebinding a name fails on both sides, or keeps them together. -/
theorem assign? (h : Represents env m) (name : String) (value : Value) :
    env.assign? name value = .ok none ∧ m.assign? name value = none ∨
      ∃ env' m', env.assign? name value = .ok (some env') ∧ m.assign? name value = some m' ∧ Represents env' m' := by
  obtain ⟨f, fs, rfl, rfl⟩ := h
  rw [assign?_ofStack (by simp), MapStack.assign?, ← map_get?_assign?, Stack.assign?, Frame.binds]
  by_cases hf : (f.get? name).isSome = true
  · rw [if_pos hf, if_pos hf]
    exact .inr ⟨_, _, rfl, rfl, _, _, rfl, by rw [get?_set_eq]⟩
  · rw [if_neg hf, if_neg hf]
    cases hrest : Stack.assign? name value fs with
    | none => exact .inl ⟨rfl, rfl⟩
    | some fs' => exact .inr ⟨_, _, rfl, rfl, f, fs', rfl, rfl⟩

/-- An operation gives the same on the environment and on the maps, and keeps them together. -/
theorem apply (h : Represents env m) (op : Op) :
    (env.apply op).1 = (m.apply op).1 ∧ Represents (env.apply op).2 (m.apply op).2 := by
  cases op with
  | push =>
    obtain ⟨f, fs, rfl, rfl⟩ := h
    exact ⟨rfl, .empty, f :: fs, push_ofStack (by simp), rfl⟩
  | pop =>
    obtain ⟨f, fs, rfl, rfl⟩ := h
    cases fs with
    | nil => exact ⟨rfl, f, [], rfl, rfl⟩
    | cons g gs =>
      simp only [Env.apply, settle, pop_ofStack (by simp : g :: gs ≠ [])]
      exact ⟨rfl, g, gs, rfl, rfl⟩
  | reset =>
    obtain ⟨f, fs, rfl, rfl⟩ := h
    refine ⟨rfl, fs.getLast?.getD f, [], reset_ofStack, ?_⟩
    simp only [MapStack.apply, MapStack.bottom, List.getLast?_map]
    cases fs.getLast? <;> rfl
  | define name value =>
    obtain ⟨f, fs, rfl, rfl⟩ := h
    simp only [Env.apply, settle, define_ofStack]
    exact ⟨rfl, f.set name value, fs, rfl, by rw [get?_set_eq]; rfl⟩
  | assign name value =>
    simp only [Env.apply, MapStack.apply, Env.assign]
    rcases h.assign? name.lexeme value with ⟨henv, hm⟩ | ⟨env', m', henv, hm, hrep⟩
    · rw [henv, hm]
      exact ⟨rfl, h⟩
    · rw [henv, hm]
      exact ⟨rfl, hrep⟩
  | get name =>
    simp only [Env.apply, MapStack.apply, Env.lookup, h.get?_eq]
    cases m.get? name.lexeme with
    | none => exact ⟨rfl, h⟩
    | some value => exact ⟨rfl, h⟩

theorem after (h : Represents env m) (ops : List Op) : Represents (env.after ops) (m.after ops) := by
  induction ops generalizing env m with
  | nil => exact h
  | cons op ops ih => exact ih (h.apply op).2

theorem replies_eq (h : Represents env m) (ops : List Op) : env.replies ops = m.replies ops := by
  induction ops generalizing env m with
  | nil => rfl
  | cons op ops ih =>
    obtain ⟨hreply, hnext⟩ := h.apply op
    show ((env.apply op).1, (env.apply op).2.depth) :: (env.apply op).2.replies ops = _
    rw [MapStack.replies, ih hnext, hnext.depth_eq, hreply]

end Represents

/-- **Scopes are a stack of maps.** After any sequence of operations on a new environment the innermost scope is
in the last slot, the scope around slot `i + 1` is in slot `i`, and around slot `0` there is none, so that the way
outward goes through all slots down to `0`. The operations give what they give on a stack of maps, and the depth is
the same at every point. A name that cannot be rebound leaves the environment as it was. -/
theorem replies_eq_maps (ops : List Op) :
    let env := initial.after ops
    env.scopes.size = env.current + 1 ∧
      (∀ s, env.scopes[0]? = some s → s.enclosing = none) ∧
      (∀ i s, env.scopes[i + 1]? = some s → s.enclosing = some i) ∧
      env.chain = .ok (List.range (env.current + 1)).reverse ∧
      initial.replies ops = MapStack.initial.replies ops ∧
      env.depth = (MapStack.initial.after ops).depth ∧
      ∀ name value error, (env.apply (.assign name value)).1 = .error error →
        (env.apply (.assign name value)).2 = env := by
  intro env
  have hrep : Represents env (MapStack.initial.after ops) := represents_initial.after ops
  have hwf := hrep.wellFormed
  refine ⟨hwf.size_eq, hwf.enclosing_eq 0, fun i => hwf.enclosing_eq (i + 1), ?_,
    represents_initial.replies_eq ops, hrep.depth_eq, ?_⟩
  · rw [hwf.chain_eq, hwf.size_eq]
  · intro name value error herror
    simp only [Env.apply] at herror ⊢
    split at herror
    · cases herror
    · rfl
    · cases herror

end Env

end Lox
