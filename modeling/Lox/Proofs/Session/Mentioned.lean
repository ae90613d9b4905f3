import Lox.Proofs.Env.Maps
import Lox.Proofs.Session.Layout

/-!
A run depends on the variables it mentions only.

* `mentioned source`: the names that the identifiers of a text are.
* `Frame.Agree names f g f' g'`: the frames `f'` and `g'` give the same for the names, and what `f` and `g` give
  for all others.
* `Agreeing names f g d s t`: the states are the same but for their outermost frames, which agree.
* `Run.AgreeOn names env env' run run'`: the runs do the same, and leave the environments as they were but for the names.

The trees of a text have all their names from it. A name that both runs look up is found in frames they share, or in
the outermost ones, which give the same for it; and what one run binds or rebinds the other does too.
-/

namespace Lox

open Eval

/-- the names that the identifiers of a text are -/
def mentioned (source : String) : List String :=
  ((scan source).tokens.filter (·.kind = .identifier)).map Token.lexeme

theorem serves_of_mem_scan {source : String} :
    ∀ t ∈ (scan source).tokens, t.Serves (fun name => name.lexeme ∈ mentioned source) fun _ => True := by
  refine fun t ht => ⟨fun hkind => ?_, trivial⟩
  exact List.mem_map_of_mem (List.mem_filter.2 ⟨ht, decide_eq_true hkind⟩)

/-! ## Frames -/

/-- The frames `f'` and `g'` give the same for the names, and what `f` and `g` give for all others. -/
structure Frame.Agree (names : List String) (f g f' g' : Frame) : Prop where
  agree : ∀ name ∈ names, g'.get? name = f'.get? name
  left : ∀ name, name ∉ names → f'.get? name = f.get? name
  right : ∀ name, name ∉ names → g'.get? name = g.get? name

namespace Frame.Agree

variable {names : List String} {f g f' g' : Frame}

theorem binds_eq (h : Agree names f g f' g') {name : String} (hname : name ∈ names) :
    g'.binds name = f'.binds name := by
  rw [binds, binds, h.agree name hname]

/-- Binding one of the names in both frames keeps the agreement. -/
theorem set (h : Agree names f g f' g') {name : String} (hname : name ∈ names) (value : Value) :
    Agree names f g (f'.set name value) (g'.set name value) where
  agree key hkey := by rw [get?_set, get?_set, h.agree key hkey]
  left key hkey := by rw [get?_set, if_neg (ne_of_mem_of_not_mem hname hkey).symm, h.left key hkey]
  right key hkey := by rw [get?_set, if_neg (ne_of_mem_of_not_mem hname hkey).symm, h.right key hkey]

end Frame.Agree

/-! ## States -/

/-- The states have printed the same, and have the same `d` frames above outermost ones that agree. -/
def Agreeing (names : List String) (f g : Frame) (d : Nat) (s t : State) : Prop :=
  ∃ (above : List Frame) (f' g' : Frame), above.length = d ∧ s.env = .ofStack (above ++ [f']) ∧
    t.env = .ofStack (above ++ [g']) ∧ t.printed = s.printed ∧ f.Agree names g f' g'

/-- Runs on states that agree on the names are in lockstep, as long as they use no others. -/
theorem lockstep_agreeing (names : List String) (f g : Frame) :
    Lockstep .same (·.lexeme ∈ names) (Agreeing names f g) fun _ => True where
  lookup hmem hname := by
    obtain rfl := Likeness.same_iff.1 hname
    refine alike_lookup rfl fun s t hst => ?_
    obtain ⟨above, f', g', -, hs, ht, -, hagree⟩ := hst
    rw [hs, ht, Env.get?_ofStack (by simp), Env.get?_ofStack (by simp), Stack.get?_append, Stack.get?_append,
      Stack.get?_singleton, Stack.get?_singleton, hagree.agree _ hmem]
  assign value hmem hname := by
    obtain rfl := Likeness.same_iff.1 hname
    refine alike_assign rfl value fun s t hst => ?_
    obtain ⟨above, f', g', hd, hs, ht, hprinted, hagree⟩ := hst
    rw [hs, ht, Env.assign?_ofStack (by simp), Env.assign?_ofStack (by simp), Stack.assign?_append,
      Stack.assign?_append, Stack.assign?_singleton, Stack.assign?_singleton, hagree.binds_eq hmem]
    cases habove : Stack.assign? _ value above with
    | some above' =>
      have hlength := Stack.length_of_assign? habove
      exact .ok (.some ⟨above', f', g', hlength.trans hd, rfl, rfl, hprinted, hagree⟩)
    | none =>
      -- the name is in none of the frames that are shared, so both runs have it in the outermost one, or neither has
      split
      · exact .ok (.some ⟨above, _, _, hd, rfl, rfl, hprinted, hagree.set hmem value⟩)
      · exact .ok .none
  define value _ hmem hname := by
    obtain rfl := Likeness.same_iff.1 hname
    refine alike_define value fun s t hst => ?_
    obtain ⟨above, f', g', hd, hs, ht, hprinted, hagree⟩ := hst
    rw [hs, ht]
    cases above with
    | nil =>
      rw [List.nil_append, List.nil_append, Env.define_ofStack, Env.define_ofStack]
      exact .ok ⟨[], _, _, hd, rfl, rfl, hprinted, hagree.set hmem value⟩
    | cons h above =>
      rw [List.cons_append, List.cons_append, Env.define_ofStack, Env.define_ofStack]
      exact .ok ⟨h.set _ value :: above, f', g', hd, rfl, rfl, hprinted, hagree⟩
  print value := by
    refine alike_print value fun s t text hst => ?_
    obtain ⟨above, f', g', hd, hs, ht, hprinted, hagree⟩ := hst
    exact ⟨above, f', g', hd, hs, ht, by rw [hprinted], hagree⟩
  enter := by
    rintro d s t ⟨above, f', g', rfl, hs, ht, hprinted, hagree⟩
    refine ⟨.empty :: above, f', g', rfl, ?_, ?_, hprinted, hagree⟩
    · rw [hs, Env.push_ofStack (by simp), List.cons_append]
    · rw [ht, Env.push_ofStack (by simp), List.cons_append]
  leave := by
    rintro d s t ⟨above, f', g', hd, hs, ht, hprinted, hagree⟩
    obtain ⟨h, above, rfl⟩ : ∃ h above', above = h :: above' := List.exists_cons_of_length_pos (by omega)
    have hpop : s.env.pop = .ok (.ofStack (above ++ [f'])) := by
      rw [hs, List.cons_append, Env.pop_ofStack (by simp)]
    have hpop' : t.env.pop = .ok (.ofStack (above ++ [g'])) := by
      rw [ht, List.cons_append, Env.pop_ofStack (by simp)]
    exact endsAlike_leave hpop hpop' ⟨above, f', g', Nat.succ.inj hd, rfl, rfl, hprinted, hagree⟩
  openInside _ := trivial

theorem Agreeing.exists_frames {names : List String} {f g : Frame} {s t : State} (h : Agreeing names f g 0 s t) :
    ∃ (f' g' : Frame) (printed : Array String), s = ⟨.ofStack [f'], printed⟩ ∧ t = ⟨.ofStack [g'], printed⟩ ∧
      f.Agree names g f' g' := by
  obtain ⟨above, f', g', habove, hs, ht, hprinted, hagree⟩ := h
  obtain rfl := List.eq_nil_of_length_eq_zero habove
  refine ⟨f', g', s.printed, ?_, ?_, hagree⟩
  · rw [← List.nil_append [f'], ← hs]
  · rw [← List.nil_append [g'], ← ht, ← hprinted]

/-! ## Runs -/

/-- The global scope alone is active in the environments that are left, which give the same for the names, and what the
environments gave before for all others. -/
structure Env.AgreeOn (names : List String) (env env' after after' : Env) : Prop where
  depth_eq : after.depth = 1
  depth_eq' : after'.depth = 1
  agree : ∀ name ∈ names, after'.get? name = after.get? name
  left : ∀ name, name ∉ names → after.get? name = env.get? name
  right : ∀ name, name ∉ names → after'.get? name = env'.get? name

section Global

variable {names : List String} {f g f' g' : Frame}

theorem Env.get?_global (f : Frame) (name : String) : (ofStack [f]).get? name = .ok (f.get? name) := by
  rw [Env.get?_ofStack (by simp), Stack.get?_singleton]

theorem Frame.Agree.agreeOn (h : Agree names f g f' g') :
    Env.AgreeOn names (.ofStack [f]) (.ofStack [g]) (.ofStack [f']) (.ofStack [g']) where
  depth_eq := Env.depth_ofStack
  depth_eq' := Env.depth_ofStack
  agree name hname := by rw [Env.get?_global, Env.get?_global, h.agree name hname]
  left name hname := by rw [Env.get?_global, Env.get?_global, h.left name hname]
  right name hname := by rw [Env.get?_global, Env.get?_global, h.right name hname]

end Global

namespace Run

variable {α : Type} {names : List String} {env env' : Env}

/-- The runs have the same results, print the same texts and report the same, and leave environments that agree. -/
structure AgreeOn (names : List String) (env env' : Env) (run run' : Run α) : Prop where
  result_eq : run'.result = run.result
  printed_eq : run'.printed = run.printed
  diagnostics_eq : run'.diagnostics = run.diagnostics
  envs : Env.AgreeOn names env env' run.env run'.env

theorem AgreeOn.goesOn_eq {run run' : Run α} (h : AgreeOn names env env' run run') :
    Call.goesOn run' = Call.goesOn run := by
  rw [Call.goesOn, Call.goesOn, h.result_eq]

/-- A computation that is in lockstep with itself on global scopes that agree has runs that agree. -/
theorem agreeOn_reported {x : Eval α} {f g : Frame} (h : Eval.Alike .same (Agreeing names f g 0) x x)
    (hagree : f.Agree names g f g) :
    AgreeOn names (.ofStack [f]) (.ofStack [g]) (ofEval x (.ofStack [f])).reported
      (ofEval x (.ofStack [g])).reported := by
  have hend := h ⟨.ofStack [f], #[]⟩ ⟨.ofStack [g], #[]⟩ ⟨[], f, g, rfl, rfl, rfl, rfl, hagree⟩
  unfold ofEval
  generalize x ⟨.ofStack [f], #[]⟩ = r at hend ⊢
  generalize x ⟨.ofStack [g], #[]⟩ = r' at hend ⊢
  cases hend with
  | ok a hst =>
    obtain ⟨f', g', printed, rfl, rfl, hafter⟩ := hst.exists_frames
    exact ⟨rfl, rfl, rfl, hafter.agreeOn⟩
  | @error stop _ _ _ hstop hst =>
    obtain ⟨f', g', printed, rfl, rfl, hafter⟩ := hst.exists_frames
    obtain rfl := Stop.alike_same_iff hstop
    cases stop with
    | error e =>
      -- leaving all scopes but the global one changes nothing
      refine ⟨rfl, rfl, rfl, ?_⟩
      show Env.AgreeOn names _ _ (Env.ofStack [f']).reset (Env.ofStack [g']).reset
      rw [Env.reset_ofStack, Env.reset_ofStack]
      exact hafter.agreeOn
    | fault fault => exact ⟨rfl, rfl, rfl, hafter.agreeOn⟩
    | outOfFuel => exact ⟨rfl, rfl, rfl, hafter.agreeOn⟩

theorem agreeOn_rejected {f g : Frame} (errors : List SyntaxError) (hagree : f.Agree names g f g) :
    AgreeOn names (.ofStack [f]) (.ofStack [g]) (rejected errors (.ofStack [f]) : Run α)
      (rejected errors (.ofStack [g])) :=
  ⟨rfl, rfl, rfl, hagree.agreeOn⟩

end Run

section Texts

variable {source : String} {f g : Frame} (hagree : f.Agree (mentioned source) g f g)

include hagree

theorem execute_agreeOn (fuel : Nat) : Run.AgreeOn (mentioned source) (.ofStack [f]) (.ofStack [g])
    (execute fuel source (.ofStack [f])) (execute fuel source (.ofStack [g])) := by
  by_cases herrors : (parseProgram source).errors = []
  · have hnames := (wholeProgram_of_errors_eq_nil herrors).madeOf serves_of_mem_scan
    rw [execute_of_errors_eq_nil fuel herrors, execute_of_errors_eq_nil fuel herrors]
    refine Run.agreeOn_reported ?_ hagree
    exact (lockstep_agreeing (mentioned source) f g).execAll fuel (.refl _) hnames (.inl trivial)
  · rw [execute_of_errors_ne_nil fuel herrors, execute_of_errors_ne_nil fuel herrors]
    exact Run.agreeOn_rejected _ hagree

theorem evaluate_agreeOn : Run.AgreeOn (mentioned source) (.ofStack [f]) (.ofStack [g])
    (evaluate source (.ofStack [f])) (evaluate source (.ofStack [g])) := by
  by_cases herrors : (parseExpression source).errors = []
  · obtain ⟨e, he, hwhole⟩ := wholeExpression_of_errors_eq_nil herrors
    rw [evaluate_of_errors_eq_nil herrors he, evaluate_of_errors_eq_nil herrors he]
    refine Run.agreeOn_reported ?_ hagree
    exact (lockstep_agreeing (mentioned source) f g).eval (Expr.alike_same_iff.2 rfl)
      (hwhole.madeOf serves_of_mem_scan) 0
  · rw [evaluate_of_errors_ne_nil herrors, evaluate_of_errors_ne_nil herrors]
    exact Run.agreeOn_rejected _ hagree

end Texts

/-- **A run depends on the variables it mentions only.** Let two environments with the global scope alone give the same
for every name that an identifier of a text is. As a program the text returns from one of them exactly if it does from
the other, and with all fuel its runs have the same result, print the same and report the same. Afterwards the
environments still give the same for these names, and each gives what it gave before for all others. The same holds of
the text as an expression, which always returns. -/
theorem run_depends_on_mentioned {source : String} {env env' : Env} (henv : env.Global) (henv' : env'.Global)
    (hagree : ∀ name ∈ mentioned source, env'.get? name = env.get? name) :
    ((∃ run, Executes source env run) ↔ ∃ run, Executes source env' run) ∧
    (∀ run run', Executes source env run → Executes source env' run' →
      Run.AgreeOn (mentioned source) env env' run run') ∧
    (∀ fuel, Run.AgreeOn (mentioned source) env env' (execute fuel source env) (execute fuel source env')) ∧
    Call.goesOn (evaluate source env) = true ∧ Call.goesOn (evaluate source env') = true ∧
    Run.AgreeOn (mentioned source) env env' (evaluate source env) (evaluate source env') := by
  have hevaluate := evaluate_goesOn henv source
  have hevaluate' := evaluate_goesOn henv' source
  obtain ⟨f, rfl⟩ := henv.exists_frame
  obtain ⟨g, rfl⟩ := henv'.exists_frame
  have hframes : f.Agree (mentioned source) g f g := by
    refine ⟨fun name hname => ?_, fun _ _ => rfl, fun _ _ => rfl⟩
    have hget := hagree name hname
    rw [Env.get?_global, Env.get?_global] at hget
    exact Except.ok.inj hget
  have hexecute := execute_agreeOn hframes
  refine ⟨⟨?_, ?_⟩, ?_, hexecute, hevaluate, hevaluate', evaluate_agreeOn hframes⟩
  · rintro ⟨_, hgoes, fuel, rfl⟩
    exact ⟨_, (hexecute fuel).goesOn_eq.trans hgoes, fuel, rfl⟩
  · rintro ⟨_, hgoes, fuel, rfl⟩
    exact ⟨_, (hexecute fuel).goesOn_eq.symm.trans hgoes, fuel, rfl⟩
  · rintro _ run' ⟨hgoes, fuel, rfl⟩ hrun'
    -- the run from the second environment does not depend on its fuel
    have hrun : Executes source (.ofStack [g]) (execute fuel source (.ofStack [g])) :=
      ⟨(hexecute fuel).goesOn_eq.trans hgoes, fuel, rfl⟩
    rw [hrun'.unique hrun]
    exact hexecute fuel

/-- A program that rebinds `a` and then reads `b`, which no scope binds, run where `c` has a value and where it has
none. -/
theorem run_depends_on_mentioned_unbound :
    let source := "\x7b var d = a; a = nil; \x7d print b;"
    let env : Env := .ofStack [⟨[("a", .boolean true)]⟩]
    let env' : Env := .ofStack [⟨[("c", .nil), ("a", .boolean true)]⟩]
    env.Global ∧ env'.Global ∧ (∀ name ∈ mentioned source, env'.get? name = env.get? name) ∧
    (execute 1 source env).result = .error (.runtime ⟨1, "b", "Undefined variable 'b'."⟩) ∧
    Run.AgreeOn (mentioned source) env env' (execute 1 source env) (execute 1 source env') ∧
    (execute 1 source env').env.get? "a" = .ok (some .nil) ∧
    (execute 1 source env').env.get? "c" = env'.get? "c" := by
  intro source env env'
  have henv : env.Global := ⟨Env.ofStack_wellFormed (by simp), rfl⟩
  have henv' : env'.Global := ⟨Env.ofStack_wellFormed (by simp), rfl⟩
  have hnames : mentioned source = ["d", "a", "a", "b"] := by decide +kernel
  have hagree : ∀ name ∈ mentioned source, env'.get? name = env.get? name := by
    rw [hnames]
    decide +kernel
  obtain ⟨-, -, hexecute, -⟩ := run_depends_on_mentioned henv henv' hagree
  refine ⟨henv, henv', hagree, by decide +kernel, hexecute 1, by decide +kernel, ?_⟩
  exact (hexecute 1).envs.right "c" (by rw [hnames]; decide)

end Lox
