import Lox.Proofs.Eval.Lockstep
import Lox.Proofs.Session.Outcome
import Lox.Proofs.Stmt.Pairing

/-!
A session is a batch. Two programs that are run one after the other do what the text of both does,
with a line end in between.

* `Executes source env run`: with enough fuel the program returns, and `run` is its run.
* `Run.below first second k`: what two runs are together, if the source of the second starts `k` lines
  below that of the first.

The tokens of the second program are `k` lines further down in the joined text, so it is parsed to
trees that are alike, and these run alike behind what the first program printed.
-/

namespace Lox

open Eval

/-! ## Programs further down -/

namespace Stmt

/-- A program further down is a program, with trees that are alike. -/
theorem Derives.lowered {program : List Stmt} {ts : List Token} (h : Derives (.declarations program) ts)
    (hts : ∀ t ∈ ts, t.kind ≠ .endMark) (k : Nat) : ∃ program', AllAlike (.lower k) program program' ∧
      Derives (.declarations program') (ts.map (Token.lowered k)) := by
  have hparse : parse (ts ++ [Token.endOn 0]) = ⟨program, [], none⟩ := h.parse_eq rfl
  have hrel : (Parser.Pairing.ofLikeness (.lower k)).Rel (ts ++ [Token.endOn 0])
      (ts.map (Token.lowered k) ++ [(Token.endOn 0).lowered k]) := by
    refine ⟨Parser.marked_concat ts rfl, List.rel_append ?_ (.cons rfl .nil)⟩
    exact List.forall₂_map_right_iff.2 (List.forall₂_same.2 fun _ _ => rfl)
  obtain ⟨halike, ⟨complaints, complaints', hcomplaints, herrors, herrors'⟩, hfault⟩ :=
    parse_alike (fun kind hkind => hkind) hrel
  rw [hparse] at halike hfault herrors
  -- as there are no complaints about the program, there are none about it further down
  obtain rfl : complaints = [] := List.map_eq_nil_iff.1 herrors.symm
  cases hcomplaints
  refine ⟨_, halike, derives_of_parse_eq (fun u hu => ?_) (Parser.eq_of_errors_eq_nil herrors' hfault)⟩
  obtain ⟨t, ht, rfl⟩ := List.mem_map.1 hu
  exact hts t ht

end Stmt

/-- Two whole programs with a line end in between are a whole program: the trees of the first, and
trees alike to those of the second. -/
theorem WholeProgram.joined {p q : String} {first second : List Stmt} (hp : WholeProgram p first)
    (hq : WholeProgram q second) : ∃ second',
      Stmt.AllAlike (.lower (p.toList.count '\n' + 1)) second second' ∧
      WholeProgram (p ++ "\n" ++ q) (first ++ second') := by
  obtain ⟨herrors, ts, line, hts, hfirst⟩ := hp
  obtain ⟨herrors', us, line', hus, hsecond⟩ := hq
  obtain ⟨hjoined, htokens⟩ := scan_joined herrors herrors'
  obtain rfl : ts = tokensOf p.toList := (List.append_inj' (hts.symm.trans (scan_tokens p)) rfl).1
  obtain rfl : us = tokensOf q.toList := (List.append_inj' (hus.symm.trans (scan_tokens q)) rfl).1
  obtain ⟨second', halike, hsecond'⟩ :=
    hsecond.lowered (fun t => kind_of_mem_tokensOf) (p.toList.count '\n' + 1)
  refine ⟨second', halike, hjoined, _, _, scan_tokens _, ?_⟩
  rw [htokens]
  exact hfirst.append hsecond'

/-! ## Runs further down -/

/-- The states have the same scopes, and the second has printed some texts before. -/
def Below (out : Array String) (s t : State) : Prop := t.env = s.env ∧ t.printed = out ++ s.printed

/-- Runs of trees that are alike are in lockstep, whatever one of them has printed before. -/
theorem lockstep_below (T : Likeness) (out : Array String) :
    Lockstep T (fun _ => True) (fun _ => Below out) fun _ => True where
  lookup _ hname := alike_lookup hname fun s t hst => by rw [hst.1]
  assign value _ hname := by
    refine alike_assign hname value fun s t hst => ?_
    rw [hst.1]
    cases s.env.assign? _ value with
    | error fault => exact .error fault
    | ok found =>
      cases found with
      | none => exact .ok .none
      | some env => exact .ok (.some ⟨rfl, hst.2⟩)
  define value _ _ hname := by
    rw [T.lexeme_eq hname]
    refine alike_define value fun s t hst => ?_
    rw [hst.1]
    cases s.env.define _ value with
    | error fault => exact .error fault
    | ok env => exact .ok ⟨rfl, hst.2⟩
  print value := by
    refine alike_print value fun s t text hst => ⟨hst.1, ?_⟩
    rw [hst.2, Array.append_push]
  enter hst := ⟨by rw [hst.1], hst.2⟩
  leave {d s t} hst := by
    cases hpop : s.env.pop with
    | ok env => exact endsAlike_leave hpop (by rw [hst.1, hpop]) ⟨rfl, hst.2⟩
    | error fault =>
      rw [leave_of_pop_error hpop, leave_of_pop_error (by rw [hst.1, hpop])]
      exact .error (.fault fault) hst
  openInside _ := trivial

/-- the runtime error some lines further down -/
def RuntimeError.lowered (k : Nat) (e : RuntimeError) : RuntimeError := { e with line := e.line + k }

/-- the failure some lines further down -/
def Failure.lowered (k : Nat) : Failure → Failure
  | runtime e => runtime (e.lowered k)
  | failure => failure

/-! ## Runs of programs -/

/-- With enough fuel the program returns, and this is its run. -/
def Executes (source : String) (env : Env) (run : Run Unit) : Prop :=
  Call.goesOn run = true ∧ ∃ fuel, execute fuel source env = run

namespace Run

/-- What two runs are together, if the source of the second starts `k` lines below that of the first: the
texts of both are printed, and the rest is as the second left it. -/
def below (first second : Run Unit) (k : Nat) : Run Unit where
  result := second.result.mapError (Failure.lowered k)
  env := second.env
  printed := first.printed ++ second.printed
  diagnostics := ⟨second.diagnostics.syntaxErrors, second.diagnostics.runtimeErrors.map (RuntimeError.lowered k)⟩

/-- the run of a program that ended so -/
def ofEnd (r : EStateM.Result Stop State Unit) : Run Unit := (ofEval (fun _ => r) .initial).reported

theorem goesOn_ofEnd_iff {r : EStateM.Result Stop State Unit} : Call.goesOn (ofEnd r) = true ↔ Returned r := by
  rcases r with ⟨a, s⟩ | ⟨e | f | _, s⟩ <;> simp [ofEnd, ofEval, reported, Call.goesOn, Returned]

/-- A program that ends alike after another. -/
theorem ofEnd_eq_below {k : Nat} {s₁ : State} {r r' : EStateM.Result Stop State Unit}
    (h : EndsAlike (.lower k) (Below s₁.printed) r r') (hr : Returned r) :
    ofEnd r' = (ofEnd (.ok () s₁)).below (ofEnd r) k := by
  cases h with
  | @ok a s t hst =>
    obtain ⟨env, printed⟩ := t
    obtain ⟨rfl, rfl⟩ := hst
    rfl
  | @error stop stop' s t hstop hst =>
    obtain ⟨env, printed⟩ := t
    obtain ⟨rfl, rfl⟩ := hst
    cases hstop with
    | error message htoken =>
      obtain rfl := htoken
      rfl
    | unaryOperator htoken => exact absurd hr id
    | fault f => exact absurd hr id
    | outOfFuel => exact absurd hr id

end Run

section Programs

variable {source : String} {program : List Stmt} {env : Env} {run run' : Run Unit}

/-- A whole program returns as its trees end. -/
theorem WholeProgram.executes_iff (h : WholeProgram source program) : Executes source env run ↔
    ∃ r, Ends (fun fuel => Stmt.execAll fuel program) ⟨env, #[]⟩ r ∧ run = Run.ofEnd r := by
  have hexecute : ∀ fuel, execute fuel source env = Run.ofEnd (Stmt.execAll fuel program ⟨env, #[]⟩) := by
    intro fuel
    rw [execute_of_errors_eq_nil fuel (by rw [h.parse_eq]), h.parse_eq]
    rfl
  constructor
  · rintro ⟨hgoes, fuel, rfl⟩
    rw [hexecute] at hgoes ⊢
    exact ⟨_, ⟨Run.goesOn_ofEnd_iff.1 hgoes, fuel, rfl⟩, rfl⟩
  · rintro ⟨r, ⟨hr, fuel, rfl⟩, rfl⟩
    exact ⟨Run.goesOn_ofEnd_iff.2 hr, fuel, hexecute fuel⟩

/-- A whole program has one run. -/
theorem WholeProgram.executes_unique (h : WholeProgram source program) (hrun : Executes source env run)
    (hrun' : Executes source env run') : run = run' := by
  obtain ⟨r, hr, rfl⟩ := h.executes_iff.1 hrun
  obtain ⟨r', hr', rfl⟩ := h.executes_iff.1 hrun'
  rw [hr.unique (Stmt.execAll_grows program) hr']

/-- A whole program has a result, or it has failed with a runtime error. -/
theorem WholeProgram.executes_cases (h : WholeProgram source program) (hrun : Executes source env run) :
    (∃ s, Ends (fun fuel => Stmt.execAll fuel program) ⟨env, #[]⟩ (.ok () s) ∧ run = Run.ofEnd (.ok () s)) ∨
    ∃ e s, Ends (fun fuel => Stmt.execAll fuel program) ⟨env, #[]⟩ (.error (.error e) s) ∧
      run = Run.ofEnd (.error (.error e) s) := by
  obtain ⟨r, hr, rfl⟩ := h.executes_iff.1 hrun
  cases r with
  | ok a s => exact .inl ⟨s, hr, rfl⟩
  | error stop s =>
    obtain ⟨e, rfl⟩ := hr.1.exists_error
    exact .inr ⟨e, s, hr, rfl⟩

end Programs

/-! ## Two programs -/

section Joined

variable {p q : String} {first second second' : List Stmt} {env : Env} {k : Nat}

/-- Trees that are alike end alike, further down and behind texts that were printed before. -/
theorem ends_below (halike : Stmt.AllAlike (.lower k) second second') (s : State) (fuel : Nat) :
    EndsAlike (.lower k) (Below s.printed) (Stmt.execAll fuel second ⟨s.env, #[]⟩)
      (Stmt.execAll fuel second' s) :=
  (lockstep_below (.lower k) s.printed).execAll (d := 0) fuel halike (Stmt.allMadeOf_true second) (.inl trivial)
    _ _ ⟨rfl, by simp⟩

theorem returned_iff_of_endsAlike {T : Likeness} {R : State → State → Prop}
    {r r' : EStateM.Result Stop State Unit} (h : EndsAlike T R r r') : Returned r ↔ Returned r' := by
  cases h with
  | ok => rfl
  | error hstop => cases hstop <;> rfl

/-- Statements one after the other end where the first of them fail, or as the others do after them. -/
theorem ends_execAll_append {s : State} {r : EStateM.Result Stop State Unit} :
    Ends (fun fuel => Stmt.execAll fuel (first ++ second)) s r ↔
      (∃ s₁, Ends (fun fuel => Stmt.execAll fuel first) s (.ok () s₁) ∧
        Ends (fun fuel => Stmt.execAll fuel second) s₁ r) ∨
      ∃ e s₁, Ends (fun fuel => Stmt.execAll fuel first) s (.error (.error e) s₁) ∧
        r = .error (.error e) s₁ := by
  simp only [Stmt.execAll_append]
  exact ends_bind_iff (Stmt.execAll_grows first) (Stmt.execAll_grows second)

/-- The runs of the joined text are those of the first program that fail, and those of both programs
one after the other. -/
theorem executes_joined_iff (hp : WholeProgram p first) (hq : WholeProgram q second) {run : Run Unit} :
    Executes (p ++ "\n" ++ q) env run ↔
      (∃ e, Executes p env run ∧ run.result = .error (.runtime e)) ∨
      ∃ run₁ run₂, Executes p env run₁ ∧ run₁.result = .ok () ∧ Executes q run₁.env run₂ ∧
        run = run₁.below run₂ (p.toList.count '\n' + 1) := by
  obtain ⟨second', halike, hjoined⟩ := hp.joined hq
  rw [hjoined.executes_iff]
  constructor
  · rintro ⟨r, hr, rfl⟩
    rcases ends_execAll_append.1 hr with ⟨s₁, hfirst, hr, fuel, rfl⟩ | ⟨e, s₁, hfirst, rfl⟩
    · have hend := ends_below halike s₁ fuel
      have hreturned := (returned_iff_of_endsAlike hend).2 hr
      refine .inr ⟨_, _, hp.executes_iff.2 ⟨_, hfirst, rfl⟩, rfl, ?_, Run.ofEnd_eq_below hend hreturned⟩
      exact hq.executes_iff.2 ⟨_, ⟨hreturned, fuel, rfl⟩, rfl⟩
    · exact .inl ⟨e, hp.executes_iff.2 ⟨_, hfirst, rfl⟩, rfl⟩
  · rintro (⟨e, hrun, herror⟩ | ⟨run₁, run₂, hrun₁, hok, hrun₂, rfl⟩)
    · rcases hp.executes_cases hrun with ⟨s, -, rfl⟩ | ⟨e', s, hends, rfl⟩
      · cases herror
      · exact ⟨_, ends_execAll_append.2 (.inr ⟨e', s, hends, rfl⟩), rfl⟩
    · rcases hp.executes_cases hrun₁ with ⟨s₁, hfirst, rfl⟩ | ⟨e, s₁, -, rfl⟩
      · obtain ⟨r, ⟨hr, fuel, rfl⟩, rfl⟩ := hq.executes_iff.1 hrun₂
        have hend := ends_below halike s₁ fuel
        refine ⟨_, ends_execAll_append.2 (.inl ⟨s₁, hfirst, ?_, fuel, rfl⟩), (Run.ofEnd_eq_below hend hr).symm⟩
        exact (returned_iff_of_endsAlike hend).1 hr
      · cases hok

end Joined

/-- **A session is a batch.** Let two texts be programs without any error. In every environment the
text of both, with a line end in between, returns exactly if the first program does and, after a
result of it, the second. If the first program fails, then the joined text has the same run. If it
has a result, then the joined text prints what both programs print, leaves the environment that the
second leaves, and has the result of the second, where the line of a runtime error is further down by
the lines of the first text. There are no other runs. -/
theorem execute_joined {p q : String} (hp : (parseProgram p).errors = []) (hq : (parseProgram q).errors = [])
    (env : Env) :
    ((∃ run, Executes (p ++ "\n" ++ q) env run) ↔
      ∃ first, Executes p env first ∧ (first.result = .ok () → ∃ second, Executes q first.env second)) ∧
    (∀ first, Executes p env first → first.result = .ok () ∨ ∃ e, first.result = .error (.runtime e)) ∧
    (∀ first e, Executes p env first → first.result = .error (.runtime e) →
      ∀ run, Executes (p ++ "\n" ++ q) env run ↔ run = first) ∧
    ∀ first second, Executes p env first → first.result = .ok () → Executes q first.env second →
      ∀ run, Executes (p ++ "\n" ++ q) env run ↔ run = first.below second (p.toList.count '\n' + 1) := by
  have hp := wholeProgram_of_errors_eq_nil hp
  have hq := wholeProgram_of_errors_eq_nil hq
  obtain ⟨_, -, hjoined⟩ := hp.joined hq
  have hcases : ∀ first, Executes p env first →
      first.result = .ok () ∨ ∃ e, first.result = .error (.runtime e) := by
    intro first hfirst
    rcases hp.executes_cases hfirst with ⟨s, -, rfl⟩ | ⟨e, s, -, rfl⟩
    · exact .inl rfl
    · exact .inr ⟨e, rfl⟩
  -- a run of the joined text is known once one is
  have hunique : ∀ known, Executes (p ++ "\n" ++ q) env known →
      ∀ run, Executes (p ++ "\n" ++ q) env run ↔ run = known := by
    intro known hknown run
    exact ⟨fun hrun => hjoined.executes_unique hrun hknown, fun heq => heq ▸ hknown⟩
  refine ⟨⟨?_, ?_⟩, hcases, ?_, ?_⟩
  · rintro ⟨run, hrun⟩
    rcases (executes_joined_iff hp hq).1 hrun with ⟨e, hfirst, herror⟩ | ⟨first, second, hfirst, -, hsecond, -⟩
    · refine ⟨run, hfirst, fun hok => ?_⟩
      rw [herror] at hok
      cases hok
    · exact ⟨first, hfirst, fun _ => ⟨second, hsecond⟩⟩
  · rintro ⟨first, hfirst, hnext⟩
    rcases hcases first hfirst with hok | ⟨e, herror⟩
    · obtain ⟨second, hsecond⟩ := hnext hok
      exact ⟨_, (executes_joined_iff hp hq).2 (.inr ⟨first, second, hfirst, hok, hsecond, rfl⟩)⟩
    · exact ⟨first, (executes_joined_iff hp hq).2 (.inl ⟨e, hfirst, herror⟩)⟩
  · intro first e hfirst herror
    exact hunique first ((executes_joined_iff hp hq).2 (.inl ⟨e, hfirst, herror⟩))
  · intro first second hfirst hok hsecond
    exact hunique _ ((executes_joined_iff hp hq).2 (.inr ⟨first, second, hfirst, hok, hsecond, rfl⟩))

/-- A program that declares a variable and ends in a comment, and one that prints the variable and
then fails on its second line, which is the fourth of the joined text. -/
theorem execute_joined_failing_below :
    let p := "var a =\nnil; // a"
    let q := "print a;\n-a;"
    let first := execute 1 p .initial
    let second := execute 1 q first.env
    (parseProgram p).errors = [] ∧ (parseProgram q).errors = [] ∧ Executes p .initial first ∧
    first.result = .ok () ∧ Executes q first.env second ∧
    second.result = .error (.runtime ⟨2, "-", "Operand must be a number."⟩) ∧
    (first.below second 2).result = .error (.runtime ⟨4, "-", "Operand must be a number."⟩) ∧
    (first.below second 2).printed = #["nil"] ∧
    ∀ run, Executes (p ++ "\n" ++ q) .initial run ↔ run = first.below second 2 := by
  intro p q first second
  have hp : (parseProgram p).errors = [] := by decide +kernel
  have hq : (parseProgram q).errors = [] := by decide +kernel
  have hok : first.result = .ok () := by decide +kernel
  have hfirst : Executes p .initial first := ⟨by decide +kernel, 1, rfl⟩
  have hsecond : Executes q first.env second := ⟨by decide +kernel, 1, rfl⟩
  have hlines : p.toList.count '\n' + 1 = 2 := by decide +kernel
  have hjoined := (execute_joined hp hq .initial).2.2.2 first second hfirst hok hsecond
  rw [hlines] at hjoined
  exact ⟨hp, hq, hfirst, hok, hsecond, by decide +kernel, by decide +kernel, by decide +kernel, hjoined⟩

end Lox
