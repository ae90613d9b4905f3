import Lox.Proofs.Env.Stack
import Lox.Proofs.Eval.Lockstep

/-!
Statements that declare nothing in the scope they are run in.

* `Framed c`: the scopes are well-formed, with `c` of them around the innermost one. Every statement
  keeps this, scopes it entered apart.
* `Named names`: the scopes bind the names given for each. Contained statements keep this.
* `Spare`: one state has an empty frame more than the other.

A scope around contained statements makes no difference (`inScope_of_contained`): what runs with a
spare frame among its own runs in the same way without it.
-/

namespace Lox

open Eval

/-! ## The number of scopes -/

/-- The scopes are well-formed, with `c + d` of them around the innermost one. -/
def Framed (c d : Nat) (s : State) : Prop := ∃ fs : List Frame, fs.length = c + d + 1 ∧ s.env = .ofStack fs

theorem Framed.ne_nil {n : Nat} {fs : List Frame} (h : fs.length = n + 1) : fs ≠ [] := by
  rintro rfl
  cases h

theorem framed_of_wellFormed {s : State} (h : s.env.WellFormed) : ∃ c, Framed c 0 s := by
  obtain ⟨fs, hfs, henv⟩ := h.exists_ofStack
  have hpos := List.length_pos_iff.2 hfs
  exact ⟨fs.length - 1, fs, by omega, henv⟩

theorem Framed.wellFormed {c d : Nat} {s : State} (h : Framed c d s) : s.env.WellFormed := by
  obtain ⟨fs, hlength, henv⟩ := h
  rw [henv]
  exact Env.ofStack_wellFormed (Framed.ne_nil hlength)

/-- Every step keeps the number of scopes. -/
theorem invariant_framed (c : Nat) : Invariant (Framed c) fun _ => True where
  assign := by
    rintro d s name value env ⟨fs, hlength, henv⟩ hassign
    rw [henv, Env.assign?_ofStack (Framed.ne_nil hlength), Except.ok.injEq] at hassign
    obtain ⟨fs', hfs', rfl⟩ := Option.map_eq_some_iff.1 hassign
    exact ⟨fs', (Stack.length_of_assign? hfs').trans hlength, rfl⟩
  define := by
    rintro d s name value env - ⟨fs, hlength, henv⟩ hdefine
    obtain ⟨f, fs, rfl⟩ := List.exists_cons_of_ne_nil (Framed.ne_nil hlength)
    rw [henv, Env.define_ofStack, Except.ok.injEq] at hdefine
    exact ⟨f.set name value :: fs, hlength, hdefine.symm⟩
  print := by
    rintro d s text ⟨fs, hlength, henv⟩
    exact ⟨fs, hlength, henv⟩
  enter := by
    rintro d s ⟨fs, hlength, henv⟩
    refine ⟨.empty :: fs, by simp only [List.length_cons]; omega, ?_⟩
    rw [henv, Env.push_ofStack (Framed.ne_nil hlength)]
  leave := by
    rintro d s ⟨fs, hlength, henv⟩
    obtain ⟨f, fs, rfl⟩ := List.exists_cons_of_ne_nil (Framed.ne_nil hlength)
    simp only [List.length_cons] at hlength
    have hfs : fs.length = c + d + 1 := by omega
    exact ⟨.ofStack fs, by rw [henv, Env.pop_ofStack (Framed.ne_nil hfs)], fs, hfs, rfl⟩
  openInside _ := trivial

/-! ## The names that are bound -/

/-- Rebinding a name that a frame binds leaves the names it binds as they are. -/
theorem Frame.binds_set {f : Frame} {name : String} (h : f.binds name = true) (value : Value) :
    (f.set name value).binds = f.binds := by
  funext key
  by_cases hkey : key = name
  · subst hkey
    simpa [Frame.binds] using h.symm
  · simp [Frame.binds, hkey]

theorem Stack.map_binds_of_assign? {name : String} {value : Value} {fs fs' : List Frame}
    (h : assign? name value fs = some fs') : fs'.map Frame.binds = fs.map Frame.binds := by
  induction fs generalizing fs' with
  | nil => cases h
  | cons f fs ih =>
    unfold assign? at h
    split at h
    · rename_i hbinds
      obtain rfl := Option.some.inj h
      rw [List.map_cons, List.map_cons, Frame.binds_set hbinds]
    · obtain ⟨gs, hgs, rfl⟩ := Option.map_eq_some_iff.1 h
      rw [List.map_cons, List.map_cons, ih hgs]

/-- Frames that bind the same names have every name in the same slot. -/
theorem Stack.slot?_of_map_binds {fs gs : List Frame} (h : gs.map Frame.binds = fs.map Frame.binds)
    (name : String) : slot? name gs = slot? name fs := by
  induction fs generalizing gs with
  | nil => rw [List.map_eq_nil_iff.1 h]
  | cons f fs ih =>
    obtain ⟨g, gs, rfl, hbinds, hrest⟩ := List.map_eq_cons_iff.1 h
    have hlength : gs.length = fs.length := by simpa using congrArg List.length hrest
    rw [slot?, slot?, hbinds, hlength, ih hrest]

/-- All scopes but the innermost `d` ones bind the given names, one set for each. -/
def Named (names : List (String → Bool)) (d : Nat) (s : State) : Prop :=
  ∃ above below : List Frame, above.length = d ∧ s.env = .ofStack (above ++ below) ∧ below.map Frame.binds = names

theorem Named.below_ne_nil {names : List (String → Bool)} (hnames : names ≠ []) {below : List Frame}
    (h : below.map Frame.binds = names) : below ≠ [] := by
  rintro rfl
  exact hnames h.symm

/-- Every step keeps the names, as long as nothing is declared in the scopes they are in. -/
theorem invariant_named {names : List (String → Bool)} (hne : names ≠ []) : Invariant (Named names) (0 < ·) where
  assign := by
    rintro d s name value env ⟨above, below, hd, henv, hnames⟩ hassign
    have hbelow := Named.below_ne_nil hne hnames
    rw [henv, Env.assign?_ofStack (by simp [hbelow]), Stack.assign?_append, Except.ok.injEq] at hassign
    obtain ⟨fs', hfs', rfl⟩ := Option.map_eq_some_iff.1 hassign
    rcases Option.or_eq_some_iff.1 hfs' with habove | ⟨-, hbelow⟩
    · obtain ⟨above', habove', rfl⟩ := Option.map_eq_some_iff.1 habove
      exact ⟨above', below, (Stack.length_of_assign? habove').trans hd, rfl, hnames⟩
    · obtain ⟨below', hbelow', rfl⟩ := Option.map_eq_some_iff.1 hbelow
      exact ⟨above, below', hd, rfl, (Stack.map_binds_of_assign? hbelow').trans hnames⟩
  define := by
    rintro d s name value env hopen ⟨above, below, hd, henv, hnames⟩ hdefine
    obtain ⟨f, above, rfl⟩ : ∃ f above', above = f :: above' :=
      List.exists_cons_of_length_pos (by omega)
    rw [henv, List.cons_append, Env.define_ofStack, Except.ok.injEq] at hdefine
    exact ⟨f.set name value :: above, below, hd, hdefine.symm, hnames⟩
  print := by
    rintro d s text ⟨above, below, hd, henv, hnames⟩
    exact ⟨above, below, hd, henv, hnames⟩
  enter := by
    rintro d s ⟨above, below, hd, henv, hnames⟩
    have hbelow := Named.below_ne_nil hne hnames
    refine ⟨.empty :: above, below, by simp [hd], ?_, hnames⟩
    rw [henv, Env.push_ofStack (by simp [hbelow]), List.cons_append]
  leave := by
    rintro d s ⟨above, below, hd, henv, hnames⟩
    have hbelow := Named.below_ne_nil hne hnames
    obtain ⟨f, above, rfl⟩ : ∃ f above', above = f :: above' :=
      List.exists_cons_of_length_pos (by omega)
    refine ⟨.ofStack (above ++ below), ?_, above, below, Nat.succ.inj hd, rfl, hnames⟩
    rw [henv, List.cons_append, Env.pop_ofStack (by simp [hbelow])]
  openInside d := Nat.succ_pos d

/-- After a contained statement every name is found where it was. -/
theorem Stmt.Contained.find_eq {stmt : Stmt} (h : stmt.Contained) (fuel : Nat) {s : State}
    (hs : s.env.WellFormed) (name : String) :
    (endState (stmt.exec fuel s)).env.find name = s.env.find name := by
  obtain ⟨fs, hfs, henv⟩ := hs.exists_ofStack
  have hnamed : Named (fs.map Frame.binds) 0 s := ⟨[], fs, rfl, henv, rfl⟩
  have hne : fs.map Frame.binds ≠ [] := by simpa using hfs
  obtain ⟨above, below, habove, hend, hnames⟩ := (invariant_named hne).exec fuel (.inr h) hnamed
  obtain rfl := List.eq_nil_of_length_eq_zero habove
  rw [hend, henv, List.nil_append, Env.find_ofStack (Named.below_ne_nil hne hnames), Env.find_ofStack hfs,
    Stack.slot?_of_map_binds hnames]

/-! ## A spare frame -/

/-- The second state has an empty frame more than the first, `d` frames further out. -/
def Spare (d : Nat) (s t : State) : Prop :=
  ∃ above below : List Frame, above.length = d ∧ below ≠ [] ∧ s.env = .ofStack (above ++ below) ∧
    t.env = .ofStack (above ++ .empty :: below) ∧ t.printed = s.printed

/-- Runs with and without a spare frame are in lockstep, as long as nothing is declared in it. -/
theorem lockstep_spare : Lockstep .same (fun _ => True) Spare (0 < ·) where
  lookup _ hname := by
    obtain rfl := Likeness.same_iff.1 hname
    refine alike_lookup rfl fun s t hst => ?_
    obtain ⟨above, below, -, hbelow, hs, ht, -⟩ := hst
    have hne : above ++ below ≠ [] := by simp [hbelow]
    have hne' : above ++ .empty :: below ≠ [] := by simp
    rw [hs, ht, Env.get?_ofStack hne, Env.get?_ofStack hne', Stack.get?_append, Stack.get?_append,
      Stack.get?_empty]
  assign value _ hname := by
    obtain rfl := Likeness.same_iff.1 hname
    refine alike_assign rfl value fun s t hst => ?_
    obtain ⟨above, below, hd, hbelow, hs, ht, hprinted⟩ := hst
    have hne : above ++ below ≠ [] := by simp [hbelow]
    have hne' : above ++ .empty :: below ≠ [] := by simp
    rw [hs, ht, Env.assign?_ofStack hne, Env.assign?_ofStack hne', Stack.assign?_append, Stack.assign?_append,
      Stack.assign?_empty]
    cases habove : Stack.assign? _ value above with
    | some above' =>
      have hlength := Stack.length_of_assign? habove
      exact .ok (.some ⟨above', below, hlength.trans hd, hbelow, rfl, rfl, hprinted⟩)
    | none =>
      cases hfound : Stack.assign? _ value below with
      | none => exact .ok .none
      | some below' =>
        have hlength := Stack.length_of_assign? hfound
        have hbelow' : below' ≠ [] := by
          rintro rfl
          exact hbelow (List.eq_nil_of_length_eq_zero hlength.symm)
        exact .ok (.some ⟨above, below', hd, hbelow', rfl, rfl, hprinted⟩)
  define value hopen _ hname := by
    obtain rfl := Likeness.same_iff.1 hname
    refine alike_define value fun s t hst => ?_
    obtain ⟨above, below, hd, hbelow, hs, ht, hprinted⟩ := hst
    obtain ⟨f, above, rfl⟩ : ∃ f above', above = f :: above' :=
      List.exists_cons_of_length_pos (by omega)
    rw [hs, ht, List.cons_append, List.cons_append, Env.define_ofStack, Env.define_ofStack]
    exact .ok ⟨f.set _ value :: above, below, hd, hbelow, rfl, rfl, hprinted⟩
  print value := by
    refine alike_print value fun s t text hst => ?_
    obtain ⟨above, below, hd, hbelow, hs, ht, hprinted⟩ := hst
    exact ⟨above, below, hd, hbelow, hs, ht, by rw [hprinted]⟩
  enter := by
    rintro d s t ⟨above, below, rfl, hbelow, hs, ht, hprinted⟩
    refine ⟨.empty :: above, below, rfl, hbelow, ?_, ?_, hprinted⟩
    · rw [hs, Env.push_ofStack (by simp [hbelow]), List.cons_append]
    · rw [ht, Env.push_ofStack (by simp), List.cons_append]
  leave := by
    rintro d s t ⟨above, below, hd, hbelow, hs, ht, hprinted⟩
    obtain ⟨f, above, rfl⟩ : ∃ f above', above = f :: above' :=
      List.exists_cons_of_length_pos (by omega)
    have hpop : s.env.pop = .ok (.ofStack (above ++ below)) := by
      rw [hs, List.cons_append, Env.pop_ofStack (by simp [hbelow])]
    have hpop' : t.env.pop = .ok (.ofStack (above ++ .empty :: below)) := by
      rw [ht, List.cons_append, Env.pop_ofStack (by simp)]
    exact endsAlike_leave hpop hpop' ⟨above, below, Nat.succ.inj hd, hbelow, rfl, rfl, hprinted⟩
  openInside d := Nat.succ_pos d

/-- Leaving a spare frame gives the state without it. -/
theorem Spare.leave_eq {s t : State} (h : Spare 0 s t) : leave t = .ok () s := by
  obtain ⟨above, below, habove, hbelow, hs, ht, hprinted⟩ := h
  obtain rfl := List.eq_nil_of_length_eq_zero habove
  have hpop : t.env.pop = .ok s.env := by
    rw [ht, hs, List.nil_append, Env.pop_ofStack hbelow]
    rfl
  rw [leave_of_pop hpop, hprinted]

/-- A scope around statements that declare nothing in it makes no difference. -/
theorem inScope_of_contained (fuel : Nat) {ss : List Stmt} (hss : ∀ s ∈ ss, s.Contained) {s : State}
    (hs : s.env.WellFormed) :
    inScope (Stmt.execAll fuel ss) s = Stmt.execAll fuel ss s := by
  obtain ⟨fs, hfs, henv⟩ := hs.exists_ofStack
  have hspare : Spare 0 s { s with env := s.env.push } :=
    ⟨[], fs, rfl, hfs, henv, by rw [henv, Env.push_ofStack hfs]; rfl, rfl⟩
  have hend := lockstep_spare.execAll fuel (Stmt.AllAlike.refl ss) (Stmt.allMadeOf_true ss) (.inr hss) _ _ hspare
  rw [inScope_eq]
  generalize Stmt.execAll fuel ss s = r at hend ⊢
  generalize Stmt.execAll fuel ss { s with env := s.env.push } = r' at hend ⊢
  cases hend with
  | ok a hst =>
    simp only [EStateM.bind, hst.leave_eq]
    rfl
  | error hstop hst =>
    obtain rfl := Stop.alike_same_iff hstop
    simp only [EStateM.bind, hst.leave_eq]
    rfl

end Lox
