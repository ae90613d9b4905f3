import Lox.Env.Op
import Lox.Proofs.Env.Arena

/-!
Environments as stacks. A well-formed environment is a list of frames, the innermost first, laid out
in slots from the outermost on.

* `Stack.get?`, `Stack.assign?`: names on a list of frames, where the innermost binding counts.
* `Env.ofStack fs`: the environment with the frames `fs`.
* `Env.Unbound env name`: no scope binds the name.
* `Env.Built env`: the environment is made by operations.

There is one equation for each operation, so that what runs on well-formed scopes can be followed
frame by frame.
-/

namespace Lox

/-! ## Lists of frames -/

namespace Stack

/-- the value of a name in the innermost frame that binds it -/
def get? (name : String) (fs : List Frame) : Option Value := fs.findSome? (·.get? name)

/-- the frames with a name rebound in the innermost that binds it -/
def assign? (name : String) (value : Value) : List Frame → Option (List Frame)
  | [] => none
  | f :: fs => if f.binds name then some (f.set name value :: fs) else (assign? name value fs).map (f :: ·)

/-- how many frames are around the innermost one that binds a name -/
def slot? (name : String) : List Frame → Option Nat
  | [] => none
  | f :: fs => if f.binds name then some fs.length else slot? name fs

variable {name : String} {value : Value} {fs : List Frame}

theorem get?_cons (f : Frame) : get? name (f :: fs) = if f.binds name then f.get? name else get? name fs := by
  cases h : f.get? name <;> simp [get?, Frame.binds, h]

/-- A name without a slot is bound nowhere. -/
theorem of_slot?_eq_none (h : slot? name fs = none) (value : Value) :
    get? name fs = none ∧ assign? name value fs = none := by
  induction fs with
  | nil => exact ⟨rfl, rfl⟩
  | cons f fs ih =>
    by_cases hf : f.binds name = true
    · simp [slot?, hf] at h
    · simp only [slot?, hf, Bool.false_eq_true, if_false] at h
      obtain ⟨hget, hassign⟩ := ih h
      simp [get?_cons, assign?, hf, hget, hassign]

/-- The slot of a name is that of a frame which binds it, and counts for it. -/
theorem of_slot?_eq_some {i : Nat} (h : slot? name fs = some i) : ∃ above f below,
    fs = above ++ f :: below ∧ i = below.length ∧ f.binds name = true ∧ get? name fs = f.get? name ∧
      ∀ value, assign? name value fs = some (above ++ f.set name value :: below) := by
  induction fs with
  | nil => cases h
  | cons f fs ih =>
    by_cases hf : f.binds name = true
    · simp only [slot?, hf, if_true, Option.some.injEq] at h
      exact ⟨[], f, fs, rfl, h.symm, hf, by simp [get?_cons, hf], fun value => by simp [assign?, hf]⟩
    · simp only [slot?, hf, Bool.false_eq_true, if_false] at h
      obtain ⟨above, g, below, rfl, hi, hg, hget, hassign⟩ := ih h
      refine ⟨f :: above, g, below, rfl, hi, hg, by simp [get?_cons, hf, hget], fun value => ?_⟩
      simp [assign?, hf, hassign value]

theorem get?_append (above below : List Frame) :
    get? name (above ++ below) = (get? name above).or (get? name below) := by
  simp [get?, List.findSome?_append]

theorem get?_singleton (f : Frame) : get? name [f] = f.get? name := by simp [get?]

theorem get?_empty (below : List Frame) : get? name (.empty :: below) = get? name below := rfl

theorem assign?_append (above below : List Frame) : assign? name value (above ++ below) =
    ((assign? name value above).map (· ++ below)).or ((assign? name value below).map (above ++ ·)) := by
  induction above with
  | nil => simp [assign?]
  | cons f above ih =>
    by_cases hf : f.binds name = true
    · simp [assign?, hf]
    · simp only [List.cons_append, assign?, hf, Bool.false_eq_true, if_false, ih]
      cases assign? name value above <;> cases assign? name value below <;> simp

theorem assign?_singleton (f : Frame) :
    assign? name value [f] = if f.binds name then some [f.set name value] else none := rfl

theorem assign?_empty (below : List Frame) :
    assign? name value (.empty :: below) = (assign? name value below).map (.empty :: ·) := rfl

/-- Rebinding a name changes no frame but one, and binds nothing new there. -/
theorem length_of_assign? {fs fs' : List Frame} (h : assign? name value fs = some fs') :
    fs'.length = fs.length := by
  induction fs generalizing fs' with
  | nil => cases h
  | cons f fs ih =>
    unfold assign? at h
    split at h
    · obtain rfl := Option.some.inj h
      rfl
    · obtain ⟨gs, hgs, rfl⟩ := Option.map_eq_some_iff.1 h
      simp [ih hgs]

end Stack

/-! ## The environment of a stack -/

namespace Env

/-- the scopes of a list of frames, the outermost in slot `0` -/
def slots : List Frame → Array Scope
  | [] => #[]
  | f :: fs => (slots fs).push ⟨f, outer fs.length⟩

/-- the environment of a list of frames -/
def ofStack (fs : List Frame) : Env := ⟨slots fs, fs.length - 1⟩

@[simp] theorem size_slots (fs : List Frame) : (slots fs).size = fs.length := by
  induction fs with
  | nil => rfl
  | cons f fs ih => simp [slots, ih]

theorem getElem?_slots (fs : List Frame) (i : Nat) :
    (slots fs)[i]? = fs.reverse[i]?.map fun f => ⟨f, outer i⟩ := by
  induction fs with
  | nil => simp [slots]
  | cons f fs ih =>
    rw [slots, Array.getElem?_push, size_slots, List.reverse_cons, List.getElem?_append, List.length_reverse]
    by_cases hi : i = fs.length
    · simp [hi]
    · rw [if_neg hi, ih]
      by_cases hlt : i < fs.length
      · rw [if_pos hlt]
      · rw [if_neg hlt, List.getElem?_eq_none (by simp; omega), List.getElem?_eq_none (by simp; omega)]

theorem ofStack_wellFormed {fs : List Frame} (h : fs ≠ []) : (ofStack fs).WellFormed := by
  have hlength : 0 < fs.length := List.length_pos_iff.2 h
  refine ⟨by simp only [ofStack, size_slots]; omega, fun i s hs => ?_⟩
  simp only [ofStack, getElem?_slots] at hs
  obtain ⟨f, -, rfl⟩ := Option.map_eq_some_iff.1 hs
  rfl

/-- Every well-formed environment is that of its frames. -/
theorem WellFormed.exists_ofStack {env : Env} (h : env.WellFormed) : ∃ fs, fs ≠ [] ∧ env = ofStack fs := by
  let fs := (env.scopes.toList.map Scope.frame).reverse
  have hlength : fs.length = env.current + 1 := by simp [fs, h.size_eq]
  refine ⟨fs, fun hnil => by simp [hnil] at hlength, ?_⟩
  have hslots : slots fs = env.scopes := by
    refine Array.ext_getElem? fun i => ?_
    rw [getElem?_slots, List.reverse_reverse, List.getElem?_map, Array.getElem?_toList, Option.map_map]
    cases hs : env.scopes[i]? with
    | none => rfl
    | some s =>
      have henclosing := h.enclosing_eq i s hs
      simp [Function.comp, ← henclosing]
  rw [ofStack, hslots, hlength]
  rfl

section Operations

variable {f : Frame} {fs below : List Frame} {name : String} {value : Value} (above : List Frame)

/-- In the slot of a frame is its scope. -/
theorem scope_ofStack :
    (ofStack (above ++ f :: below)).scope below.length = .ok ⟨f, outer below.length⟩ := by
  have hslot : (slots (above ++ f :: below))[below.length]? = some ⟨f, outer below.length⟩ := by
    rw [getElem?_slots]
    simp
  rw [scope, ofStack, Range.item_of_getElem? hslot]
  rfl

theorem slots_set :
    (slots (above ++ f :: below)).set! below.length ⟨f.set name value, outer below.length⟩ =
      slots (above ++ f.set name value :: below) := by
  refine Array.ext_getElem? fun i => ?_
  rw [Array.set!_eq_setIfInBounds, Array.getElem?_setIfInBounds, getElem?_slots, getElem?_slots]
  by_cases hi : below.length = i
  · subst hi
    have hlt : below.length < above.length + (below.length + 1) := by omega
    simp [hlt]
  · rw [if_neg hi]
    simp only [List.reverse_append, List.reverse_cons, List.append_assoc, List.singleton_append]
    rcases Nat.lt_or_gt_of_ne hi with hlt | hgt
    · obtain ⟨j, rfl⟩ : ∃ j, i = below.length + (j + 1) := ⟨i - below.length - 1, by omega⟩
      simp [List.getElem?_append_right]
    · simp [List.getElem?_append_left, hgt]

/-- Binding a name in a slot changes the frame in it. -/
theorem setIn_ofStack : (ofStack (above ++ f :: below)).setIn below.length name value =
    .ok (ofStack (above ++ f.set name value :: below)) := by
  rw [setIn, scope_ofStack]
  simp only [bind, Except.bind, pure, Except.pure, ofStack, slots_set]
  simp

@[simp] theorem define_ofStack :
    (ofStack (f :: fs)).define name value = .ok (ofStack (f.set name value :: fs)) :=
  setIn_ofStack []

/-- A search from the slot of a frame on goes through this frame and those around it. -/
theorem findFrom_ofStack (hfs : fs ≠ []) {n : Nat} (hn : fs.length ≤ n) :
    (ofStack (above ++ fs)).findFrom name n (fs.length - 1) = .ok (Stack.slot? name fs) := by
  induction fs generalizing n above with
  | nil => exact absurd rfl hfs
  | cons f fs ih =>
    obtain ⟨n, rfl⟩ : ∃ m, n = m + 1 := ⟨n - 1, by simp at hn; omega⟩
    rw [List.length_cons, Nat.add_sub_cancel, findFrom, scope_ofStack]
    simp only [bind, Except.bind]
    by_cases hf : f.binds name = true
    · simp [Stack.slot?, hf, pure, Except.pure]
    · simp only [Stack.slot?, hf, Bool.false_eq_true, if_false]
      cases fs with
      | nil => rfl
      | cons g gs =>
        have hrest := ih (above ++ [f]) (by simp) (Nat.le_of_succ_le_succ hn)
        rw [List.append_assoc, List.singleton_append] at hrest
        exact hrest

theorem find_ofStack (hfs : fs ≠ []) : (ofStack fs).find name = .ok (Stack.slot? name fs) := by
  have hsize : (ofStack fs).scopes.size = fs.length := size_slots fs
  rw [find, hsize]
  exact findFrom_ofStack [] hfs (Nat.le_refl _)

theorem get?_ofStack (hfs : fs ≠ []) : (ofStack fs).get? name = .ok (Stack.get? name fs) := by
  rw [Env.get?, find_ofStack hfs]
  cases hslot : Stack.slot? name fs with
  | none =>
    obtain ⟨hget, -⟩ := Stack.of_slot?_eq_none hslot .nil
    rw [hget]
    rfl
  | some i =>
    obtain ⟨above, f, below, rfl, rfl, -, hget, -⟩ := Stack.of_slot?_eq_some hslot
    rw [hget]
    simp only [bind, Except.bind, scope_ofStack]
    rfl

theorem assign?_ofStack (hfs : fs ≠ []) :
    (ofStack fs).assign? name value = .ok ((Stack.assign? name value fs).map ofStack) := by
  rw [Env.assign?, find_ofStack hfs]
  cases hslot : Stack.slot? name fs with
  | none =>
    obtain ⟨-, hassign⟩ := Stack.of_slot?_eq_none hslot value
    rw [hassign]
    rfl
  | some i =>
    obtain ⟨above, f, below, rfl, rfl, -, -, hassign⟩ := Stack.of_slot?_eq_some hslot
    rw [hassign]
    simp only [bind, Except.bind, setIn_ofStack]
    rfl

@[simp] theorem push_ofStack (hfs : fs ≠ []) : (ofStack fs).push = ofStack (.empty :: fs) := by
  obtain ⟨g, gs, rfl⟩ := List.exists_cons_of_ne_nil hfs
  simp [push, ofStack, slots, outer]

@[simp] theorem pop_ofStack (hfs : fs ≠ []) : (ofStack (f :: fs)).pop = .ok (ofStack fs) := by
  obtain ⟨g, gs, rfl⟩ := List.exists_cons_of_ne_nil hfs
  have hscope : (ofStack (f :: g :: gs)).scope (gs.length + 1) = .ok ⟨f, some gs.length⟩ :=
    scope_ofStack []
  have htake : (slots (f :: g :: gs)).take (gs.length + 1) = slots (g :: gs) := by
    rw [slots]
    simp
  rw [pop, show (ofStack (f :: g :: gs)).current = gs.length + 1 from rfl, hscope]
  simp only [bind, Except.bind, ofStack, htake]
  rfl

end Operations

/-! ## Names without a binding -/

/-- A name that cannot be rebound has no value. -/
theorem get?_of_assign? {env : Env} {name : String} {value : Value} (h : env.assign? name value = .ok none) :
    env.get? name = .ok none := by
  unfold assign? at h
  unfold get?
  cases hfind : env.find name with
  | error fault => rw [hfind] at h; cases h
  | ok found =>
    rw [hfind] at h
    cases found with
    | none => rfl
    | some i =>
      simp only [bind, Except.bind] at h
      cases hset : env.setIn i name value <;> rw [hset] at h <;> cases h

/-- No scope binds the name. -/
def Unbound (env : Env) (name : String) : Prop := ∀ scope ∈ env.scopes, scope.frame.binds name = false

theorem unbound_ofStack {fs : List Frame} {name : String} (h : ∀ f ∈ fs, f.binds name = false) :
    (ofStack fs).Unbound name := by
  show ∀ scope ∈ slots fs, scope.frame.binds name = false
  induction fs with
  | nil => simp [slots]
  | cons f fs ih =>
    rw [List.forall_mem_cons] at h
    intro scope hscope
    rw [slots, Array.mem_push] at hscope
    rcases hscope with hscope | rfl
    · exact ih h.2 scope hscope
    · exact h.1

/-- A name without a value is bound in no frame. -/
theorem binds_eq_false_of_get? {fs : List Frame} {name : String} (hfs : fs ≠ [])
    (h : (ofStack fs).get? name = .ok none) : ∀ f ∈ fs, f.binds name = false := by
  rw [get?_ofStack hfs, Except.ok.injEq, Stack.get?, List.findSome?_eq_none_iff] at h
  intro f hf
  rw [Frame.binds, h f hf]
  rfl

/-! ## Environments made by operations -/

/-- The environment is made by operations from the one that only has the global scope. -/
inductive Built : Env → Prop
  | initial : Built .initial
  | apply {env : Env} (op : Op) : Built env → Built (env.apply op).2

theorem WellFormed.of_pop {env env' : Env} (h : env.WellFormed) (hpop : env.pop = .ok env') : env'.WellFormed := by
  obtain ⟨fs, hfs, rfl⟩ := h.exists_ofStack
  obtain ⟨f, fs, rfl⟩ := List.exists_cons_of_ne_nil hfs
  by_cases hrest : fs = []
  · subst hrest
    cases hpop
  · rw [pop_ofStack hrest] at hpop
    obtain rfl := Except.ok.inj hpop
    exact ofStack_wellFormed hrest

theorem WellFormed.apply {env : Env} (h : env.WellFormed) (op : Op) : (env.apply op).2.WellFormed := by
  cases op with
  | push => exact h.push.1
  | pop =>
    simp only [Env.apply, settle]
    cases hpop : env.pop with
    | ok env' => exact h.of_pop hpop
    | error fault => exact h
  | reset => exact h.reset
  | define name value =>
    obtain ⟨env', hdefine, hwf, -⟩ := h.define_ok name value
    simp only [Env.apply, settle, hdefine]
    exact hwf
  | assign name value =>
    simp only [Env.apply]
    rcases h.assign_ok name value with ⟨error, hassign⟩ | ⟨env', hassign, hwf, -⟩
    · simp only [hassign]
      exact h
    · simp only [hassign]
      exact hwf
  | get name =>
    simp only [Env.apply]
    split <;> exact h

/-- Operations make well-formed environments. -/
theorem Built.wellFormed {env : Env} (h : Built env) : env.WellFormed := by
  induction h with
  | initial => exact initial_wellFormed
  | apply op _ ih => exact ih.apply op

end Env

end Lox
