import Lox.Proofs.Eval.Contained
import Lox.Proofs.Eval.Fuel
import Lox.Proofs.Stmt.Recognition

/-!
A `for` loop runs as it is written. The parser makes it a block with a loop inside, whose body is a
block again; run directly, it has one scope, in which the first clause, the condition, the body and
the step all stand.

* `ForLoop.Rounds`, `ForLoop.Inside`, `ForLoop.Direct`: the loop run directly.
* `ForLoop.Reads`: the tokens are a `for` loop with given parts.

A body is a statement and no declaration, so it is contained, and the scope that the parser puts
around body and step makes no difference. Both loops then go round together, however often.
-/

namespace Lox

open Eval

namespace ForLoop

/-! ## The loop run directly -/

/-- How a statement ends. -/
abbrev End : Type := EStateM.Result Stop State Unit

/-- the value of the condition, which is true where there is none -/
def test : Option Expr → Eval Value
  | none => pure (.boolean true)
  | some condition => condition.eval

/-- Evaluate the step, if there is one. -/
def advance : Option Expr → Eval Unit
  | none => pure ()
  | some step => do
    let _ ← step.eval
    pure ()

/-- The rounds of the loop that start in a state come to an end: the condition is not true, or the
condition, the body or the step fails. -/
inductive Rounds (condition step : Option Expr) (body : Stmt) : State → End → Prop
  | stop {s s₁ : State} {value : Value} : test condition s = .ok value s₁ → value.truthy = false →
      Rounds condition step body s (.ok () s₁)
  | testFails {s s₁ : State} {e : RuntimeError} : test condition s = .error (.error e) s₁ →
      Rounds condition step body s (.error (.error e) s₁)
  | bodyFails {s s₁ s₂ : State} {value : Value} {e : RuntimeError} : test condition s = .ok value s₁ →
      value.truthy = true → Ends (fun fuel => body.exec fuel) s₁ (.error (.error e) s₂) →
      Rounds condition step body s (.error (.error e) s₂)
  | stepFails {s s₁ s₂ s₃ : State} {value : Value} {e : RuntimeError} : test condition s = .ok value s₁ →
      value.truthy = true → Ends (fun fuel => body.exec fuel) s₁ (.ok () s₂) →
      advance step s₂ = .error (.error e) s₃ → Rounds condition step body s (.error (.error e) s₃)
  | round {s s₁ s₂ s₃ : State} {value : Value} {r : End} : test condition s = .ok value s₁ →
      value.truthy = true → Ends (fun fuel => body.exec fuel) s₁ (.ok () s₂) →
      advance step s₂ = .ok () s₃ → Rounds condition step body s₃ r → Rounds condition step body s r

/-- The first clause and the rounds, from a state inside the scope of the loop. -/
inductive Inside (initial : Option Stmt) (condition step : Option Expr) (body : Stmt) : State → End → Prop
  | initialFails {s s₁ : State} {e : RuntimeError} :
      Ends (fun fuel => Stmt.execAll fuel initial.toList) s (.error (.error e) s₁) →
      Inside initial condition step body s (.error (.error e) s₁)
  | loops {s s₁ : State} {r : End} : Ends (fun fuel => Stmt.execAll fuel initial.toList) s (.ok () s₁) →
      Rounds condition step body s₁ r → Inside initial condition step body s r

/-- The scope is closed, however what is inside ends. -/
inductive Closes : End → End → Prop
  | ok {s : State} {env : Env} : s.env.pop = .ok env → Closes (.ok () s) (.ok () { s with env := env })
  | error {s : State} {env : Env} {stop : Stop} : s.env.pop = .ok env →
      Closes (.error stop s) (.error stop { s with env := env })

/-- The loop run directly, in one scope. -/
def Direct (initial : Option Stmt) (condition step : Option Expr) (body : Stmt) (s : State) (r : End) : Prop :=
  ∃ inner, Inside initial condition step body { s with env := s.env.push } inner ∧ Closes inner r

/-! ## Rounds with fuel -/

section Fuel

variable {initial : Option Stmt} {condition step : Option Expr} {body : Stmt} {s : State} {r : End}

/-- one round behind the condition -/
def once (fuel : Nat) (step : Option Expr) (body : Stmt) : Eval Unit := do
  body.exec fuel
  advance step

/-- what is inside the scope, where loops go round at most `fuel` times -/
def inside (fuel : Nat) (initial : Option Stmt) (condition step : Option Expr) (body : Stmt) : Eval Unit := do
  Stmt.execAll fuel initial.toList
  loop (test condition) (once fuel step body) fuel

theorem rounds_of_loop {fuel n : Nat} (h : loop (test condition) (once fuel step body) n s = r)
    (hr : Returned r) : Rounds condition step body s r := by
  induction n generalizing s with
  | zero =>
    subst h
    exact absurd hr id
  | succ n ih =>
    rw [loop] at h
    rcases bind_eq_iff.1 h with ⟨value, s₁, htest, hrest⟩ | ⟨stop, s₁, htest, rfl⟩
    · cases htrue : value.truthy with
      | false =>
        rw [htrue, if_neg (by simp)] at hrest
        subst hrest
        exact .stop htest htrue
      | true =>
        rw [htrue, if_pos rfl] at hrest
        rcases bind_eq_iff.1 hrest with ⟨_, s₃, hround, hmore⟩ | ⟨stop, s₃, hround, rfl⟩
        · rcases bind_eq_iff.1 hround with ⟨_, s₂, hbody, hstep⟩ | ⟨stop, s₂, -, ⟨⟩⟩
          exact .round htest htrue ⟨trivial, fuel, hbody⟩ hstep (ih hmore)
        · obtain ⟨e, rfl⟩ := hr.exists_error
          rcases bind_eq_iff.1 hround with ⟨_, s₂, hbody, hstep⟩ | ⟨stop, s₂, hbody, ⟨⟩⟩
          · exact .stepFails htest htrue ⟨trivial, fuel, hbody⟩ hstep
          · exact .bodyFails htest htrue ⟨trivial, fuel, hbody⟩
    · obtain ⟨e, rfl⟩ := hr.exists_error
      exact .testFails htest

/-- Rounds that come to an end do so for every large enough fuel. -/
theorem Rounds.loop_eq (h : Rounds condition step body s r) : Returned r ∧ ∃ enough, ∀ fuel n, enough ≤ fuel →
    enough ≤ n → loop (test condition) (once fuel step body) n s = r := by
  -- a round is left to run where the condition is true
  have hgo : ∀ {s s₁ : State} {value : Value} {r : End} {fuel n : Nat}, test condition s = .ok value s₁ →
      value.truthy = true →
      (once fuel step body >>= fun _ => loop (test condition) (once fuel step body) n) s₁ = r →
      loop (test condition) (once fuel step body) (n + 1) s = r := by
    intro s s₁ value r fuel n htest htrue hround
    rw [loop]
    refine bind_eq_iff.2 (.inl ⟨value, s₁, htest, ?_⟩)
    rw [htrue, if_pos rfl]
    exact hround
  induction h with
  | @stop s s₁ value htest hfalse =>
    refine ⟨trivial, 1, fun fuel n _ hn => ?_⟩
    obtain ⟨n, rfl⟩ : ∃ i, n = i + 1 := ⟨n - 1, by omega⟩
    rw [loop]
    refine bind_eq_iff.2 (.inl ⟨value, s₁, htest, ?_⟩)
    rw [hfalse, if_neg (by simp)]
    rfl
  | @testFails s s₁ e htest =>
    refine ⟨trivial, 1, fun fuel n _ hn => ?_⟩
    obtain ⟨n, rfl⟩ : ∃ i, n = i + 1 := ⟨n - 1, by omega⟩
    rw [loop]
    exact bind_eq_iff.2 (.inr ⟨_, s₁, htest, rfl⟩)
  | @bodyFails s s₁ s₂ value e htest htrue hbody =>
    obtain ⟨enough, hbody⟩ := hbody.eventually body.exec_grows
    refine ⟨trivial, enough + 1, fun fuel n hfuel hn => ?_⟩
    obtain ⟨n, rfl⟩ : ∃ i, n = i + 1 := ⟨n - 1, by omega⟩
    refine hgo htest htrue (bind_eq_iff.2 (.inr ⟨_, s₂, ?_, rfl⟩))
    exact bind_eq_iff.2 (.inr ⟨_, s₂, hbody fuel (by omega), rfl⟩)
  | @stepFails s s₁ s₂ s₃ value e htest htrue hbody hstep =>
    obtain ⟨enough, hbody⟩ := hbody.eventually body.exec_grows
    refine ⟨trivial, enough + 1, fun fuel n hfuel hn => ?_⟩
    obtain ⟨n, rfl⟩ : ∃ i, n = i + 1 := ⟨n - 1, by omega⟩
    refine hgo htest htrue (bind_eq_iff.2 (.inr ⟨_, s₃, ?_, rfl⟩))
    exact bind_eq_iff.2 (.inl ⟨(), s₂, hbody fuel (by omega), hstep⟩)
  | @round s s₁ s₂ s₃ value r htest htrue hbody hstep _ ih =>
    obtain ⟨enough, hbody⟩ := hbody.eventually body.exec_grows
    obtain ⟨hr, enough', hmore⟩ := ih
    refine ⟨hr, enough + enough' + 1, fun fuel n hfuel hn => ?_⟩
    obtain ⟨n, rfl⟩ : ∃ i, n = i + 1 := ⟨n - 1, by omega⟩
    refine hgo htest htrue (bind_eq_iff.2 (.inl ⟨(), s₃, ?_, hmore fuel n (by omega) (by omega)⟩))
    exact bind_eq_iff.2 (.inl ⟨(), s₂, hbody fuel (by omega), hstep⟩)

/-- What is inside the scope ends as it does with some fuel. -/
theorem inside_iff : Inside initial condition step body s r ↔
    Ends (fun fuel => inside fuel initial condition step body) s r := by
  constructor
  · intro h
    cases h with
    | @initialFails s₁ e hinitial =>
      obtain ⟨-, fuel, hinitial⟩ := hinitial
      exact ⟨trivial, fuel, bind_eq_iff.2 (.inr ⟨_, s₁, hinitial, rfl⟩)⟩
    | @loops s₁ _ hinitial hrounds =>
      obtain ⟨enough, hinitial⟩ := hinitial.eventually (Stmt.execAll_grows _)
      obtain ⟨hr, enough', hloop⟩ := hrounds.loop_eq
      refine ⟨hr, enough + enough', bind_eq_iff.2 (.inl ⟨(), s₁, hinitial _ (by omega), ?_⟩)⟩
      exact hloop _ _ (by omega) (by omega)
  · rintro ⟨hr, fuel, h⟩
    rcases bind_eq_iff.1 h with ⟨_, s₁, hinitial, hloop⟩ | ⟨stop, s₁, hinitial, rfl⟩
    · exact .loops ⟨trivial, fuel, hinitial⟩ (rounds_of_loop hloop hr)
    · obtain ⟨e, rfl⟩ := hr.exists_error
      exact .initialFails ⟨trivial, fuel, hinitial⟩

/-! ## The scope -/

theorem Closes.inScope_eq {x : Eval Unit} (h : Closes (x { s with env := s.env.push }) r) : inScope x s = r := by
  rw [Eval.inScope_eq]
  generalize x { s with env := s.env.push } = inner at h ⊢
  cases h with
  | ok hpop =>
    simp only [EStateM.bind, leave_of_pop hpop]
    rfl
  | error hpop =>
    simp only [EStateM.bind, leave_of_pop hpop]
    rfl

theorem Closes.returned_iff {inner : End} (h : Closes inner r) : Returned r ↔ Returned inner := by
  cases h with
  | ok => rfl
  | error => exact returned_error_iff

theorem exists_closes {c : Nat} {inner : End} (h : Framed c 1 (endState inner)) : ∃ r, Closes inner r := by
  obtain ⟨env, hpop, -⟩ := (invariant_framed c).leave h
  cases inner with
  | ok a s => exact ⟨_, .ok hpop⟩
  | error stop s => exact ⟨_, .error hpop⟩

end Fuel

/-! ## The loop that is parsed -/

section Lowered

variable {initial : Option Stmt} {condition step : Option Expr} {body : Stmt}

theorem execAll_once (fuel : Nat) :
    Stmt.execAll fuel (body :: (step.map Stmt.expression).toList) = once fuel step body := by
  rw [Stmt.execAll]
  cases step with
  | none => rw [Option.map_none, Option.toList_none, Stmt.execAll]; rfl
  | some e => rw [Option.map_some, Option.toList_some, Stmt.execAll_singleton, Stmt.exec]; rfl

/-- In the scope of the loop its parts run as in the block that is parsed. -/
theorem inside_alike (initial : Option Stmt) (condition step : Option Expr) (hbody : body.Contained)
    (fuel c d : Nat) :
    Eval.Alike .same (fun s t => s = t ∧ Framed c d s)
      (Stmt.execAll fuel (initial.toList ++ [.loop (condition.getD (.literal (.boolean true)))
        (.block (body :: (step.map Stmt.expression).toList))]))
      (inside fuel initial condition step body) := by
  have hlock := (invariant_framed c).lockstep
  have htest : (condition.getD (.literal (.boolean true))).eval = test condition := by cases condition <;> rfl
  have hadvance : Eval.Alike .same (fun s t => s = t ∧ Framed c d s) (advance step) (advance step) := by
    cases step with
    | none => exact alike_pure ()
    | some e => exact (hlock.eval (Expr.alike_same_iff.2 rfl) e.madeOf_true d).bind fun _ => alike_pure ()
  have hcontained : ∀ s ∈ body :: (step.map Stmt.expression).toList, s.Contained := by
    intro s hs
    rcases List.mem_cons.1 hs with rfl | hs
    · exact hbody
    · obtain ⟨e, -, rfl⟩ := Option.map_eq_some_iff.1 (Option.mem_toList.1 hs)
      trivial
  rw [Stmt.execAll_append, Stmt.execAll_singleton, Stmt.exec, htest]
  refine (hlock.execAll fuel (.refl _) (Stmt.allMadeOf_true _) (.inl trivial)).bind fun _ => ?_
  refine Eval.Alike.loop ?_ ?_ fuel
  · rw [← htest]
    exact hlock.eval (Expr.alike_same_iff.2 rfl) (Expr.madeOf_true _) d
  · rintro s t ⟨rfl, hs⟩
    rw [Stmt.exec, inScope_of_contained fuel hcontained hs.wellFormed, execAll_once]
    exact ((hlock.exec fuel (.refl _) body.madeOf_true (.inl trivial)).bind fun _ => hadvance) s s ⟨rfl, hs⟩

/-- A loop whose body is contained ends as it does when it is run directly. -/
theorem ends_iff_direct (hbody : body.Contained) {s : State} (hs : s.env.WellFormed) {r : End} :
    Ends (fun fuel => (Stmt.forLoop initial condition step body).exec fuel) s r ↔
      Direct initial condition step body s r := by
  obtain ⟨c, hframed⟩ := framed_of_wellFormed hs
  have hpush := (invariant_framed c).enter hframed
  have hinside := fun fuel => Invariant.eq_of_alike (inside_alike initial condition step hbody fuel c 1) hpush
  have hexec : ∀ fuel, (Stmt.forLoop initial condition step body).exec fuel s =
      inScope (inside fuel initial condition step body) s := by
    intro fuel
    rw [Stmt.forLoop, Stmt.exec, Eval.inScope_eq, Eval.inScope_eq, (hinside fuel).1]
  constructor
  · rintro ⟨hr, fuel, h⟩
    replace h := (hexec fuel).symm.trans h
    obtain ⟨r', hcloses⟩ := exists_closes (hinside fuel).2
    obtain rfl : r' = r := hcloses.inScope_eq.symm.trans h
    exact ⟨_, inside_iff.2 ⟨hcloses.returned_iff.1 hr, fuel, rfl⟩, hcloses⟩
  · rintro ⟨inner, hinner, hcloses⟩
    obtain ⟨hr, fuel, rfl⟩ := inside_iff.1 hinner
    exact ⟨hcloses.returned_iff.2 hr, fuel, (hexec fuel).trans hcloses.inScope_eq⟩

end Lowered

/-! ## Reading -/

/-- The tokens are a `for` loop with the given parts. -/
inductive Reads : List Token → Option Stmt → Option Expr → Option Expr → Stmt → Prop
  | intro {word opening semicolon closing : Token} {ts us vs ws : List Token} {initial : Option Stmt}
      {condition step : Option Expr} {body : Stmt} {ending : Stmt.Ending} : word.kind = .kwFor →
      opening.kind = .leftParen → Stmt.Initial ts initial → Stmt.Clause us condition →
      semicolon.kind = .semicolon → Stmt.Clause vs step → closing.kind = .rightParen →
      Stmt.Derives (.statement body ending) ws →
      Reads (word :: opening :: (ts ++ (us ++ semicolon :: (vs ++ closing :: ws)))) initial condition step body

/-- A statement declares nothing in the scope around it: only a declaration does. -/
theorem contained_of_derives {p : Stmt.Phrase} {ts : List Token} (h : Stmt.Derives p ts) {s : Stmt}
    {ending : Stmt.Ending} (hp : p = .statement s ending) : s.Contained := by
  induction h generalizing s ending with
  | nil | cons | declares | statement => cases hp
  | ifThen _ _ _ _ _ ih =>
    cases hp
    exact ⟨ih rfl, trivial⟩
  | ifThenElse _ _ _ _ _ _ _ ih ih' =>
    cases hp
    exact ⟨ih rfl, ih' rfl⟩
  | whileLoop _ _ _ _ _ ih =>
    cases hp
    have hbody := ih rfl
    exact hbody
  | forLoop | print | block | expression =>
    cases hp
    trivial

/-- The body of a loop is contained. -/
theorem Reads.contained {ts : List Token} {initial : Option Stmt} {condition step : Option Expr} {body : Stmt}
    (h : Reads ts initial condition step body) : body.Contained := by
  cases h with
  | intro _ _ _ _ _ _ _ hbody => exact contained_of_derives hbody rfl

/-- A declaration whose first token is a `for` is a loop. -/
theorem reads_of_declaration {us vs ts : List Token} {s : Stmt} {word : Token}
    (h : Stmt.Derives (.declaration s) us) (hword : word.kind = .kwFor) (htokens : word :: ts = us ++ vs) :
    ∃ initial condition step body, Reads us initial condition step body ∧
      s = Stmt.forLoop initial condition step body := by
  cases h with
  | declares hvar =>
    obtain ⟨t, us, rfl, hkind⟩ := hvar.first
    obtain ⟨rfl, -⟩ := List.cons.inj htokens
    simp [hword] at hkind
  | statement hs =>
    cases hs with
    | forLoop hword hopening hinitial hcondition hsemicolon hstep hclosing hbody =>
      exact ⟨_, _, _, _, .intro hword hopening hinitial hcondition hsemicolon hstep hclosing hbody, rfl⟩
    | ifThen hkind | ifThenElse hkind | whileLoop hkind | print hkind | block hkind =>
      obtain ⟨rfl, -⟩ := List.cons.inj htokens
      simp [hword] at hkind
    | expression hvalue _ =>
      obtain ⟨t, us, rfl, hstarts, -⟩ := hvalue.first
      obtain ⟨rfl, -⟩ := List.cons.inj htokens
      simp [hword, Expr.starts] at hstarts

end ForLoop

/-- **A `for` loop runs as it is written.** The statement that is parsed from a `for` loop ends on a
state, with a result or an error, exactly as the loop run directly in one scope; and its body leaves
every name bound where it was, so that nothing it declares is seen behind it. This is so on all
well-formed environments, which those made by operations are. -/
theorem for_runs_as_written :
    (∀ env : Env, env.Built → env.WellFormed) ∧
    ∀ (word mark : Token) (ts : List Token) (s : Stmt) (ss : List Stmt), word.kind = .kwFor →
      (∀ t ∈ ts, t.kind ≠ .endMark) → Stmt.parse (word :: ts ++ [mark]) = ⟨s :: ss, [], none⟩ →
      ∃ (us vs : List Token) (initial : Option Stmt) (condition step : Option Expr) (body : Stmt),
        word :: ts = us ++ vs ∧ ForLoop.Reads us initial condition step body ∧
        Stmt.Derives (.declarations ss) vs ∧
        (∀ (state : State) (r : ForLoop.End), state.env.WellFormed →
          (Ends (fun fuel => s.exec fuel) state r ↔ ForLoop.Direct initial condition step body state r)) ∧
        ∀ (fuel : Nat) (state : State) (name : String), state.env.WellFormed →
          (endState (body.exec fuel state)).env.find name = state.env.find name := by
  refine ⟨fun env => Env.Built.wellFormed, ?_⟩
  intro word mark ts s ss hword hts hparse
  have hmark : ∀ t ∈ word :: ts, t.kind ≠ .endMark := by
    intro t ht
    rcases List.mem_cons.1 ht with rfl | ht
    · simp [hword]
    · exact hts t ht
  have hderives := Stmt.derives_of_parse_eq hmark hparse
  generalize htokens : word :: ts = tokens at hderives
  cases hderives with
  | @cons us vs _ _ hs hss =>
    obtain ⟨initial, condition, step, body, hreads, rfl⟩ := ForLoop.reads_of_declaration hs hword htokens
    have hbody := hreads.contained
    refine ⟨us, vs, initial, condition, step, body, rfl, hreads, hss, ?_, ?_⟩
    · intro state r hstate
      exact ForLoop.ends_iff_direct hbody hstate
    · intro fuel state name hstate
      exact hbody.find_eq fuel hstate name

/-- In `for (; ; b) { var b; }` the step does not see the variable of the body, parsed or run directly. -/
theorem for_runs_as_written_hidden_variable :
    let t (kind : TokenKind) (lexeme : String) : Token := ⟨kind, lexeme, none, 1⟩
    let b := t .identifier "b"
    let tokens := [t .leftParen "(", t .semicolon ";", t .semicolon ";", b, t .rightParen ")", t .leftBrace "\x7b",
      t .kwVar "var", b, t .semicolon ";", t .rightBrace "\x7d"]
    let failed : ForLoop.End := .error (.error (.undefinedVariable b)) ⟨.initial, #[]⟩
    Env.initial.WellFormed ∧ ∃ s, Stmt.parse (t .kwFor "for" :: tokens ++ [Token.endOn 1]) = ⟨[s], [], none⟩ ∧
      ∃ us vs initial condition step body, t .kwFor "for" :: tokens = us ++ vs ∧
        ForLoop.Reads us initial condition step body ∧
        ForLoop.Direct initial condition step body ⟨.initial, #[]⟩ failed := by
  intro t b tokens failed
  have hstep : Expr.Derives .assignment [b] (.reference b) := by
    iterate 8 apply Expr.Derives.tighter
    exact .name rfl
  have hbody : Stmt.Derives (.statement (.block [.declare b none]) .closed)
      [t .leftBrace "\x7b", t .kwVar "var", b, t .semicolon ";", t .rightBrace "\x7d"] :=
    .block rfl (.cons (.declares (.bare rfl rfl rfl)) .nil) rfl
  have hloop : Stmt.Derives (.statement (Stmt.forLoop none none (some (.reference b)) (.block [.declare b none])) .closed)
      (t .kwFor "for" :: tokens) :=
    .forLoop rfl rfl (.absent rfl) .absent rfl (.present hstep) rfl hbody
  have hprogram := Stmt.Derives.cons (.statement hloop) .nil
  rw [List.append_nil] at hprogram
  have hparse := hprogram.parse_eq (show (Token.endOn 1).kind = .endMark from rfl)
  have hwf := for_runs_as_written.1 .initial .initial
  obtain ⟨us, vs, initial, condition, step, body, htokens, hreads, -, hruns, -⟩ :=
    for_runs_as_written.2 _ _ tokens _ _ rfl (by decide) hparse
  refine ⟨hwf, _, hparse, us, vs, initial, condition, step, body, htokens, hreads, (hruns _ _ hwf).1 ?_⟩
  exact ⟨trivial, 1, rfl⟩

end Lox
