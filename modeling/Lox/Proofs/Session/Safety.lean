import Lox.Session.Call
import Lox.Proofs.Stmt.Behaviour
import Lox.Proofs.Token.Reader

/-!
Sessions never fault. Three facts come together: scanning stays inside the text and ends with an end
mark, parsing such tokens stays in front of the mark and builds known trees, and known trees run on
a stack of scopes that is as it was when they end.

* `Env.Global env`: the scopes are well-formed, and only the global one is active.
* `Run.Sound run`: the run did not fault, and leaves a global environment.
* `Call.FromText call`: the call is about source text, or trees that were parsed.
-/

namespace Lox

/-! ## Scanning -/

/-- The tokens of a text end with an end mark, and reading them does not fault. -/
theorem scan_marked (source : String) :
    (scan source).fault = none ∧ Parser.Marked (scan source).tokens := by
  rw [scan_eq]
  exact ⟨rfl, _, List.mem_append_right _ List.mem_cons_self, rfl⟩

theorem Span.line_of_token? {line : Nat} {s : Span} {t : Token} (h : s.token? line = some t) :
    t.line = line := by
  unfold Span.token? at h
  dsimp only at h
  split at h
  · obtain ⟨kind, -, rfl⟩ := Option.map_eq_some_iff.1 h
    rfl
  all_goals cases h
  all_goals rfl

/-- Spans start on a line up to the last of the text. -/
theorem Span.line_le_of_mem_place {line : Nat} {spans : List Span} {p : Nat × Span}
    (h : p ∈ place line spans) :
    p.1 ≤ line + (spans.flatMap Span.text).count '\n' := by
  induction spans generalizing line with
  | nil => cases h
  | cons s spans ih =>
    rw [List.flatMap_cons, List.count_append]
    rcases List.mem_cons.1 h with rfl | h
    · exact Nat.le_add_right _ _
    · have hle := ih h
      omega

/-- Tokens are on a line up to the last of the text. -/
theorem line_le_of_mem_scan {source : String} {t : Token} (h : t ∈ (scan source).tokens) :
    t.line ≤ 1 + source.toList.count '\n' := by
  rw [scan_eq] at h
  rcases List.mem_append.1 h with h | h
  · obtain ⟨p, hp, ht⟩ := List.mem_filterMap.1 h
    have hle := Span.line_le_of_mem_place hp
    rw [(Span.cuts_cut source.toList).flatMap_text] at hle
    rw [Span.line_of_token? ht]
    exact hle
  · rw [List.mem_singleton.1 h]
    exact Nat.le_refl _

/-! ## Parsing -/

theorem parseProgram_fault (source : String) : (parseProgram source).fault = none := by
  obtain ⟨hscan, hmarked⟩ := scan_marked source
  simp only [parseProgram, hscan, (Stmt.parse_safe hmarked).1]
  rfl

theorem parseExpression_fault (source : String) : (parseExpression source).fault = none := by
  obtain ⟨hscan, hmarked⟩ := scan_marked source
  simp only [parseExpression, hscan, (Expr.parse_safe hmarked).1]
  rfl

/-! ## Runs -/

/-- The scopes are well-formed, and only the global one is active. -/
def Env.Global (env : Env) : Prop := env.WellFormed ∧ env.current = 0

namespace Run

variable {α β : Type}

/-- The run did not fault, and leaves a global environment. -/
def Sound (run : Run α) : Prop := (∀ fault, run.result ≠ .error (.fault fault)) ∧ run.env.Global

variable {env : Env} (henv : env.Global)

include henv

theorem ofEval_sound {x : Eval α} (hx : Eval.Safe x) : (ofEval x env).Sound := by
  have hend := hx ⟨env, #[]⟩ henv.1
  unfold ofEval
  cases hresult : x ⟨env, #[]⟩ with
  | ok a s =>
    rw [hresult] at hend
    exact ⟨fun fault heq => (by cases heq), hend.1, hend.2.trans henv.2⟩
  | error stop s =>
    rw [hresult] at hend
    cases stop with
    | error e => exact ⟨fun fault heq => (by cases heq), hend.2.1.reset, rfl⟩
    | fault f => exact absurd rfl (hend.1 f)
    | outOfFuel => exact ⟨fun fault heq => (by cases heq), hend.2.1, hend.2.2.trans henv.2⟩

theorem rejected_sound (errors : List SyntaxError) :
    (rejected errors env : Run α).Sound := ⟨fun fault heq => (by cases heq), henv⟩

omit henv in
theorem Sound.reported {run : Run α} (h : run.Sound) : run.reported.Sound := by
  unfold Run.reported
  split
  · exact h
  · exact h

omit henv in
theorem Sound.map {run : Run α} (h : run.Sound) (f : α → β) :
    Sound { run with result := run.result.map f } := by
  refine ⟨fun fault heq => ?_, h.2⟩
  cases hresult : run.result with
  | ok a => simp [hresult, Except.map] at heq
  | error failure =>
    simp only [hresult, Except.map, Except.error.injEq] at heq
    exact h.1 fault (by rw [hresult, heq])

end Run

section Calls

variable {env : Env} (henv : env.Global)

include henv

theorem executeTree_sound (fuel : Nat) {program : List Stmt} (h : Stmt.AllKnown program) :
    (executeTree fuel program env).Sound :=
  (Run.ofEval_sound henv (Stmt.execAll_safe fuel program h)).reported

theorem execute_sound (fuel : Nat) (source : String) : (execute fuel source env).Sound := by
  obtain ⟨-, hknown⟩ := Stmt.parse_safe (scan_marked source).2
  unfold execute
  simp only [parseProgram_fault]
  split
  · exact executeTree_sound henv fuel hknown
  · exact Run.rejected_sound henv _

theorem evaluate_sound (source : String) : (evaluate source env).Sound := by
  obtain ⟨-, hknown⟩ := Expr.parse_safe (scan_marked source).2
  unfold evaluate
  simp only [parseExpression_fault]
  cases htree : (parseExpression source).result with
  | none => exact Run.rejected_sound henv _
  | some e =>
    dsimp only
    split
    · exact (Run.ofEval_sound henv (Expr.eval_safe (hknown e htree))).reported
    · exact Run.rejected_sound henv _

end Calls

/-! ## Sessions -/

namespace Call

/-- The call is about source text with fewer than `UInt32.size - 1` line ends, or about what was
parsed from tokens that end with an end mark. -/
def FromText : Call → Prop
  | execute source | evaluate source => source.toList.count '\n' < UInt32.size - 1
  | lookup _ => True
  | executeTree program =>
    ∃ (tokens : List Token) (mark : Token), mark.kind = .endMark ∧
      program = (Stmt.parse (tokens ++ [mark])).result
  | evaluateTree tree =>
    ∃ (tokens : List Token) (mark : Token), mark.kind = .endMark ∧
      (Expr.parse (tokens ++ [mark])).result = some tree

/-- One call of a session in a global environment. -/
theorem run_sound (fuel : Nat) {env : Env} (henv : env.Global) {call : Call} (h : call.FromText) :
    (call.run fuel env).Sound := by
  cases call with
  | execute source => exact (execute_sound henv fuel source).map _
  | evaluate source => exact (evaluate_sound henv source).map _
  | lookup name => exact (Run.ofEval_sound henv (Eval.safe_lookup name)).map _
  | executeTree program =>
    obtain ⟨tokens, mark, hmark, rfl⟩ := h
    exact (executeTree_sound henv fuel (Stmt.parse_safe (Parser.marked_concat tokens hmark)).2).map _
  | evaluateTree tree =>
    obtain ⟨tokens, mark, hmark, htree⟩ := h
    have hknown := (Expr.parse_safe (Parser.marked_concat tokens hmark)).2 tree htree
    exact (Run.ofEval_sound henv (Expr.eval_safe hknown)).map _

/-- All calls of a session that starts in a global environment. -/
theorem runs_sound (fuel : Nat) {calls : List Call} (h : ∀ call ∈ calls, call.FromText) {env : Env}
    (henv : env.Global) :
    ∀ r ∈ runs fuel env calls, r.Sound := by
  induction calls generalizing env with
  | nil => simp [runs]
  | cons call calls ih =>
    have hfirst := run_sound fuel henv (h call List.mem_cons_self)
    intro r hr
    rcases List.mem_cons.1 hr with rfl | hr
    · exact hfirst
    · split at hr
      · exact ih (fun c hc => h c (List.mem_cons_of_mem call hc)) hfirst.2 r hr
      · cases hr

/-- **Sessions never fault.** However often loops go round, no call of a session faults that is
about source text or what was parsed from tokens with an end mark at the end, whatever errors they
have. Scanning any text does not fault, and the lines it counts fit thirty-two bits if the text has
fewer than `UInt32.size - 1` line ends; parsing any tokens with an end mark at the end does not
fault; and every value has a text. -/
theorem runs_never_fault :
    (∀ (fuel : Nat) (calls : List Call), (∀ call ∈ calls, call.FromText) →
      ∀ r ∈ runs fuel .initial calls, ∀ fault, r.result ≠ .error (.fault fault)) ∧
    (∀ source : String, (scan source).fault = none) ∧
    (∀ source : String, source.toList.count '\n' < UInt32.size - 1 → ∀ t ∈ (scan source).tokens,
      t.line < UInt32.size) ∧
    (∀ (tokens : List Token) (mark : Token), mark.kind = .endMark →
      (Stmt.parse (tokens ++ [mark])).fault = none ∧ (Expr.parse (tokens ++ [mark])).fault = none) ∧
    ∀ value : Value, ∃ text, value.format = .ok text := by
  refine ⟨?_, fun source => (scan_marked source).1, ?_, ?_, Value.format_ok⟩
  · intro fuel calls hcalls r hr
    exact (runs_sound fuel hcalls ⟨Env.initial_wellFormed, rfl⟩ r hr).1
  · intro source hsource t ht
    have hle := line_le_of_mem_scan ht
    omega
  · intro tokens mark hmark
    have hmarked := Parser.marked_concat tokens hmark
    exact ⟨(Stmt.parse_safe hmarked).1, (Expr.parse_safe hmarked).1⟩

/-- A session that negates `nil` in a block, runs what is left of broken tokens, and evaluates a sum. -/
theorem runs_never_fault_sample :
    let broken : List Token := [⟨.plus, "+", none, 1⟩, ⟨.leftBrace, "\x7b", none, 1⟩]
    let calls := [execute "\x7b print -nil; \x7d",
      executeTree (Stmt.parse (broken ++ [Token.endOn 1])).result, evaluate "1 + 2"]
    (∀ r ∈ runs 10 .initial calls, ∀ fault, r.result ≠ .error (.fault fault)) ∧
    (∀ t ∈ (scan "1 + 2").tokens, t.line < UInt32.size) ∧
    (Stmt.parse (broken ++ [Token.endOn 1])).fault = none ∧
      (Expr.parse (broken ++ [Token.endOn 1])).fault = none := by
  intro broken calls
  obtain ⟨hruns, -, hlines, hparse, -⟩ := runs_never_fault
  refine ⟨hruns 10 calls fun call hcall => ?_, hlines "1 + 2" (by simp),
    hparse broken (Token.endOn 1) rfl⟩
  simp only [calls, List.mem_cons, List.not_mem_nil, or_false] at hcall
  rcases hcall with rfl | rfl | rfl
  · simp [FromText]
  · exact ⟨broken, Token.endOn 1, rfl, rfl⟩
  · simp [FromText]

end Call

end Lox
