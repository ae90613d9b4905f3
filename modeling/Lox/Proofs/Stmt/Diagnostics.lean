import Lox.Proofs.Parser.Ledger
import Lox.Proofs.Stmt.FirstError
import Mathlib.Data.List.Nodup

/-!
The diagnostics of a program: no token is blamed twice.

* `Expr.parser_neat`: the expression parser is tidy and leaves no complaint open.
* `Stmt.parser_tidy`, `Stmt.programParser_tidy`: the statement parser is tidy with slack for each brace that opens a
  block, the program parser with slack for one more.
* `SyntaxError.anchor tokens e`: the index of the token that the error is about.
-/

namespace Lox

open Lox.Parser

/-! ## Expressions -/

namespace Expr

/-- The parser is tidy, and leaves no complaint open unless it gives up. -/
def Neat {α : Type} (p : Parser α) : Prop := Tidy (fun _ => false) 0 p

theorem Neat.tidy {α : Type} {p : Parser α} (h : Neat p) (counts : Token → Bool) : Tidy counts 0 p :=
  h.mono (by simp) (Nat.le_refl 0)

theorem primary_neat {inside : Parser Expr} (h : Neat inside) : Neat (primary inside) := by
  refine peek_tidy.bind fun t => ?_
  split
  · exact skip_tidy.bind fun _ => pure_tidy _
  · split
    · exact skip_tidy.bind fun _ => pure_tidy _
    · refine skip_tidy.bind fun _ => h.bind fun inner => ?_
      exact (expect_tidy _ (by simp)).bind fun _ => pure_tidy _
    · exact fail_tidy (by simp)

theorem prefixed_neat {operand : Parser Expr} (h : Neat operand) (n : Nat) : Neat (prefixed operand n) := by
  induction n with
  | zero => exact overrun_tidy
  | succ n ih =>
    refine (acceptAny_tidy _).bind fun o => ?_
    cases o with
    | none => exact h
    | some operator => exact ih.bind fun e => pure_tidy _

theorem chainTail_neat (level : Level) {operand : Parser Expr} (h : Neat operand) (n : Nat) (left : Expr) :
    Neat (chainTail level operand n left) := by
  induction n generalizing left with
  | zero => exact overrun_tidy
  | succ n ih =>
    refine (acceptAny_tidy _).bind fun o => ?_
    cases o with
    | none => exact pure_tidy left
    | some operator => exact h.bind fun right => ih _

theorem climb_neat (n : Nat) (levels : List Level) {operand : Parser Expr} (h : Neat operand) :
    Neat (climb n levels operand) := by
  induction levels with
  | nil => exact h
  | cons level levels ih => exact ih.bind fun left => chainTail_neat level ih n left

/-- the complaint about a sign that has no name on its left -/
def blame (sign : Token) (right : Expr) : Parser Expr := do
  complain .assignmentTarget sign
  pure right

theorem blame_drops (sign : Token) (right : Expr) (ts : List Token) : Drops (blame sign right) ts (0 + 0) :=
  .bind (.complain sign ts) rfl (.pure right ts)

/-- A sign is complained about when everything on its right is settled. -/
theorem balanced_blame {value : Parser Expr} (hvalue : Neat value) {sign : Token} (hsign : sign.kind ≠ .endMark)
    (us : List Token) : ∃ used settled unsettled,
      Balanced (fun _ => false) 0 (sign :: us) ((value >>= blame sign) us) used settled unsettled := by
  obtain ⟨⟨used, settled, unsettled, hbalanced⟩, -⟩ := hvalue us
  cases hend : (value us).value with
  | error halt =>
    obtain ⟨hhalt, hrest⟩ := bind_of_error (f := blame sign) hend
    have hdefeats : ((value >>= blame sign) us).defeats = (value us).defeats := defeats_congr hend hhalt
    have hkept := hbalanced.keep hrest (complaints_bind_of_error hend) (fun hno => hdefeats ▸ hbalanced.single hno)
      (Nat.add_le_add_left (Nat.le_of_eq hdefeats.symm) 0)
    exact ⟨sign :: used, settled, unsettled, hkept.cons hsign (by simp)⟩
  | ok right =>
    obtain ⟨-, hrest⟩ := bind_of_ok (f := blame sign) hend
    have hcomplaints := complaints_bind_of_ok (f := blame sign) hend
    obtain rfl : unsettled = [] := by
      have hbounded := hbalanced.bounded
      simpa [defeats_of_ok hend] using hbounded
    have hcons : Balanced (fun _ => false) 0 (sign :: us) (value us) (sign :: used) settled [] :=
      hbalanced.cons hsign (by simp)
    refine ⟨sign :: used, settled ++ [⟨.assignmentTarget, sign⟩], [], ?_, hcons.unmarked, ?_, ?_, ?_, ?_, ?_, ?_⟩
    · rw [hrest]
      exact hcons.split
    · rw [hcomplaints, hbalanced.complaints, List.append_nil, List.append_nil]
      rfl
    · rw [List.map_append]
      exact List.perm_append_comm.subperm.trans ((List.subperm_cons sign).2 hbalanced.once)
    · rw [List.filter_append]
      simpa [Complaint.isHard] using hcons.inOrder
    · simp
    · exact fun _ => Nat.zero_le _
    · exact Nat.zero_le _

/-- What stands behind something that is no name, and the sign behind it, if there is one. -/
theorem blame_neat {value : Parser Expr} (hvalue : Neat value) {left : Expr} {f : Option Token → Parser Expr}
    (hnone : f none = pure left) (hsome : ∀ sign, f (some sign) = value >>= blame sign) :
    Neat (accept .equal >>= f) := by
  have haccept : Tidy (fun _ => false) 0 (accept .equal) := acceptAny_tidy _
  intro ts
  cases ts with
  | nil => exact (haccept []).bind nofun (Nat.le_refl 0)
  | cons sign us =>
    by_cases hsign : sign.kind = .equal
    · have hmet : Accepts (accept .equal) (sign :: us) (some sign) us :=
        accepts_acceptAny_some rfl (by simpa using hsign) us
      obtain ⟨-, d, hdrops⟩ := haccept (sign :: us)
      have hrest : ∃ d', Drops (value >>= blame sign) us d' := by
        obtain ⟨-, d', hdrops'⟩ := hvalue us
        cases hend : (value us).value with
        | error halt => exact ⟨d', .halt hdrops' hend⟩
        | ok right => exact ⟨_, .bind hdrops' hend (blame_drops sign right _)⟩
      obtain ⟨d', hdrops'⟩ := hrest
      rw [← hsome] at hdrops'
      refine ⟨?_, d + d', .bind hdrops (by rw [accepts_iff.1 hmet]) (by rw [accepts_iff.1 hmet]; exact hdrops')⟩
      rw [bind_of_accepts hmet, hsome]
      exact balanced_blame hvalue (by simp [hsign]) us
    · have hmissed : Accepts (accept .equal) (sign :: us) none (sign :: us) :=
        accepts_acceptAny_none rfl (by simpa using hsign) us
      refine (haccept _).bind (fun o ho => ?_) (Nat.le_refl 0)
      rw [accepts_iff.1 hmissed] at ho ⊢
      obtain rfl : none = o := Except.ok.inj ho
      exact ⟨0, Nat.le_refl 0, hnone ▸ pure_tidy left _, fun _ => Nat.le_refl 0⟩

theorem assignment_neat {value target : Parser Expr} (hvalue : Neat value) (htarget : Neat target) :
    Neat (assignment value target) := by
  refine htarget.bind fun left => ?_
  cases left with
  | reference name =>
    refine (acceptAny_tidy _).bind fun o => ?_
    cases o with
    | none => exact pure_tidy _
    | some sign => exact hvalue.bind fun right => pure_tidy _
  | _ => exact blame_neat hvalue rfl fun sign => rfl

/-- The expression parser is tidy and leaves no complaint open. -/
theorem parser_neat (n : Nat) : Neat (parser n) := by
  induction n with
  | zero => exact overrun_tidy
  | succ n ih => exact assignment_neat ih (climb_neat (n + 1) Level.ladder (prefixed_neat (primary_neat ih) (n + 1)))

end Expr

/-! ## Statements -/

namespace Stmt

/-- The token opens a block. -/
def opensBlock (t : Token) : Bool := t.kind = .leftBrace

section Constructs

variable {expr : Parser Expr} {body : Parser Stmt} (hexpr : Tidy opensBlock 0 expr) (hbody : Tidy opensBlock 0 body)

include hexpr

theorem initialValue_tidy : Tidy opensBlock 0 (initialValue expr) := by
  refine (acceptAny_tidy _).bind fun o => ?_
  cases o with
  | none => exact pure_tidy none
  | some sign => exact hexpr.map some

theorem declaration_tidy : Tidy opensBlock 0 (declaration expr) := by
  refine (expect_tidy _ (by simp)).bind fun name => (initialValue_tidy hexpr).bind fun initial => ?_
  exact (expect_tidy _ (by simp)).bind fun _ => pure_tidy _

/-- An expression with a semicolon behind it, made into a statement. -/
theorem beforeSemicolon_tidy (make : Expr → Stmt) {reason : Reason} (hreason : reason ≠ .assignmentTarget) :
    Tidy opensBlock 0 (do let value ← expr; let _ ← expect .semicolon reason; pure (make value)) :=
  hexpr.bind fun _ => (expect_tidy _ hreason).bind fun _ => pure_tidy _

theorem forInitial_tidy : Tidy opensBlock 0 (forInitial expr) := by
  refine peek_tidy.bind fun t => ?_
  split
  · exact skip_tidy.bind fun _ => pure_tidy none
  · exact skip_tidy.bind fun _ => (declaration_tidy hexpr).map some
  · exact (beforeSemicolon_tidy hexpr _ (by simp)).map some

theorem forClause_tidy (stop : TokenKind) {reason : Reason} (hreason : reason ≠ .assignmentTarget) :
    Tidy opensBlock 0 (forClause expr stop reason) := by
  have hoptional : Tidy opensBlock 0 (optionalExpr expr stop) := by
    refine peek_tidy.bind fun t => ?_
    split
    · exact pure_tidy none
    · exact hexpr.map some
  exact hoptional.bind fun clause => (expect_tidy _ hreason).bind fun _ => pure_tidy clause

/-- An expression in parentheses, and what comes behind it. -/
theorem inParens_tidy {f : Expr → Parser Stmt} (hf : ∀ e, Tidy opensBlock 0 (f e)) {before after : Reason}
    (hbefore : before ≠ .assignmentTarget) (hafter : after ≠ .assignmentTarget) :
    Tidy opensBlock 0 (do
      let _ ← expect .leftParen before
      let e ← expr
      let _ ← expect .rightParen after
      f e) :=
  (expect_tidy _ hbefore).bind fun _ => hexpr.bind fun e => (expect_tidy _ hafter).bind fun _ => hf e

include hbody

theorem conditional_tidy : Tidy opensBlock 0 (conditional expr body) := by
  refine inParens_tidy hexpr (fun condition => ?_) (by simp) (by simp)
  refine hbody.bind fun yes => (acceptAny_tidy _).bind fun o => ?_
  cases o with
  | none => exact pure_tidy _
  | some _ => exact hbody.bind fun no => pure_tidy _

theorem whileLoop_tidy : Tidy opensBlock 0 (whileLoop expr body) :=
  inParens_tidy hexpr (fun _ => hbody.bind fun _ => pure_tidy _) (by simp) (by simp)

theorem forStatement_tidy : Tidy opensBlock 0 (forStatement expr body) := by
  refine (expect_tidy _ (by simp)).bind fun _ => (forInitial_tidy hexpr).bind fun initial => ?_
  refine (forClause_tidy hexpr _ (by simp)).bind fun condition => ?_
  exact (forClause_tidy hexpr _ (by simp)).bind fun step => hbody.bind fun inner => pure_tidy _

theorem declarationOr_tidy : Tidy opensBlock 0 (declarationOr expr body) := by
  refine (acceptAny_tidy _).bind fun o => ?_
  cases o with
  | none => exact hbody
  | some _ => exact declaration_tidy hexpr

end Constructs

section Declarations

variable {closes : TokenKind → Bool} (hcloses : closes .endMark = true) {one : Parser Stmt}

include hcloses

/-- In front of an end mark there are no declarations, and so no complaints. -/
theorem declarations_tidyOn_mark {t : Token} (ht : t.kind = .endMark) (us : List Token) (n : Nat) :
    TidyOn opensBlock 0 (declarations closes one n) (t :: us) := by
  cases n with
  | zero => exact overrun_tidy _
  | succ n =>
    refine (peek_tidy _).bind (fun u hu => ⟨0, Nat.le_refl 0, ?_, fun _ => Nat.le_refl 0⟩) (Nat.le_refl 0)
    obtain rfl : t = u := Except.ok.inj hu
    rw [ht, if_pos hcloses]
    exact pure_tidy [] _

/-- Declarations leave one complaint open at most: behind one that is dropped in front of an end mark there are no
others. -/
theorem declarations_tidy (hone : Tidy opensBlock 0 one) (n : Nat) :
    Tidy opensBlock 1 (declarations closes one n) := by
  induction n with
  | zero => exact overrun_tidy
  | succ n ih =>
    refine peek_tidy.bind fun t => ?_
    split
    · exact pure_tidy []
    · intro ts
      refine (hone.recover ts).bind (fun head _ => ?_) (Nat.le_refl 1)
      by_cases hmark : ∃ u, (recover one ts).rest.head? = some u ∧ u.kind = .endMark
      · obtain ⟨u, hhead, hu⟩ := hmark
        obtain ⟨us, hus⟩ := List.head?_eq_some_iff.1 hhead
        refine ⟨0, Nat.zero_le 1, ?_, fun _ => Nat.le_refl 1⟩
        rw [hus]
        refine (declarations_tidyOn_mark hcloses hu us n).bind (fun tail _ => ?_) (Nat.le_refl 0)
        exact ⟨0, Nat.le_refl 0, pure_tidy _ _, fun _ => Nat.le_refl 0⟩
      · exact ⟨1, Nat.le_refl 1, ih.bindTidy (fun tail => pure_tidy _) _, fun h => absurd h hmark⟩

end Declarations

section Statements

variable {expr : Parser Expr} {body : Parser Stmt} (hexpr : Tidy opensBlock 0 expr) (hbody : Tidy opensBlock 0 body)

include hexpr hbody

theorem blockStatement_tidy (n : Nat) : Tidy opensBlock 1 (blockStatement n expr body) := by
  have hinner : Tidy opensBlock 1 (declarations closesBlock (declarationOr expr body) n) :=
    declarations_tidy rfl (declarationOr_tidy hexpr hbody) n
  exact hinner.bindTidy fun inner => (expect_tidy _ (by simp)).bind fun _ => pure_tidy _

theorem statement_tidy (n : Nat) : Tidy opensBlock 0 (statement n expr body) := by
  intro ts
  cases ts with
  | nil => exact (peek_tidy []).bind nofun (Nat.le_refl 0)
  | cons t us =>
    refine (peek_tidy (t :: us)).bind (fun u hu => ⟨0, Nat.le_refl 0, ?_, fun _ => Nat.le_refl 0⟩) (Nat.le_refl 0)
    obtain rfl : t = u := Except.ok.inj hu
    change TidyOn opensBlock 0 _ (t :: us)
    split
    · exact skip_tidy.bind (fun _ => forStatement_tidy hexpr hbody) _
    · exact skip_tidy.bind (fun _ => conditional_tidy hexpr hbody) _
    · exact skip_tidy.bind (fun _ => beforeSemicolon_tidy hexpr _ (by simp)) _
    · exact skip_tidy.bind (fun _ => whileLoop_tidy hexpr hbody) _
    · rename_i hbrace
      exact (blockStatement_tidy hexpr hbody n us).behind (by simp [hbrace]) (by simp [opensBlock, hbrace])
    · exact beforeSemicolon_tidy hexpr _ (by simp) _

end Statements

/-- The statement parser is tidy. -/
theorem parser_tidy (n : Nat) : Tidy opensBlock 0 (parser n) := by
  induction n with
  | zero => exact overrun_tidy
  | succ n ih => exact statement_tidy ((Expr.parser_neat (n + 1)).tidy opensBlock) ih n

/-- The program parser is tidy. -/
theorem programParser_tidy (n : Nat) : Tidy opensBlock 1 (programParser n) :=
  declarations_tidy (by simp) (declarationOr_tidy ((Expr.parser_neat n).tidy opensBlock) (parser_tidy n)) n

/-- Declarations that cannot be parsed are dropped: the loop over them never gives up. -/
theorem defeats_declarations (closes : TokenKind → Bool) (one : Parser Stmt) (n : Nat) (ts : List Token) :
    (declarations closes one n ts).defeats = 0 := by
  induction n generalizing ts with
  | zero => rfl
  | succ n ih =>
    refine defeats_bind (by cases ts <;> rfl) fun t us => ?_
    split
    · rfl
    · exact defeats_bind (defeats_recover one us) fun head vs => defeats_bind (ih vs) fun tail ws => rfl

end Stmt

/-! ## Anchors -/

/-- The index of the token that an error is about, on tokens with different lines. -/
def SyntaxError.anchor (tokens : List Token) (e : SyntaxError) : Nat := tokens.findIdx (·.line = e.line)

namespace Stmt

section Anchors

variable {tokens ts : List Token} {mark : Token}

/-- the index of the first token on the line of a token -/
def placeOf (tokens : List Token) (t : Token) : Nat := tokens.findIdx (·.line = t.line)

theorem anchor_toError (tokens : List Token) (c : Complaint) : c.toError.anchor tokens = placeOf tokens c.token := by
  rw [SyntaxError.anchor, line_toError, placeOf]

theorem placeOf_eq {i : Nat} {t : Token} (hlines : (tokens.map Token.line).Nodup) (hi : tokens[i]? = some t) :
    placeOf tokens t = i := by
  have hlt := List.findIdx_lt_length_of_exists (p := fun u : Token => decide (u.line = t.line))
    ⟨t, List.mem_of_getElem? hi, by simp⟩
  have hline := List.findIdx_getElem (w := hlt)
  exact index_eq_of_line_eq hlines hi (List.getElem?_eq_getElem hlt) (of_decide_eq_true hline)

/-- The complaints of the program parser: those that are settled, and then those about the end mark. -/
theorem exists_settled (hts : ∀ t ∈ ts, t.kind ≠ .endMark) (hmark : mark.kind = .endMark) (n : Nat) :
    ∃ settled unsettled, (programParser n (ts ++ [mark])).complaints = settled ++ unsettled ∧
      (settled.map Complaint.token).Subperm ts ∧
      ((settled.filter Complaint.isHard).map Complaint.token).Sublist ts ∧
      (∀ c ∈ unsettled, c.isHard = true ∧ c.token = mark) ∧ unsettled.length ≤ ts.countP opensBlock + 1 := by
  obtain ⟨used, settled, unsettled, h⟩ := (programParser_tidy n (ts ++ [mark])).balanced
  have hdefeats : (programParser n (ts ++ [mark])).defeats = 0 := defeats_declarations _ _ n _
  have hused : used.Sublist ts := by
    rcases List.prefix_concat_iff.1 ⟨_, h.split.symm⟩ with hall | hprefix
    · exact absurd hmark (h.unmarked mark (by simp [hall]))
    · exact hprefix.sublist
  refine ⟨settled, unsettled, h.complaints, h.once.trans hused.subperm, h.inOrder.trans hused, fun c hc => ?_, ?_⟩
  · obtain ⟨t, hhead, ht⟩ := h.atMark hdefeats (List.ne_nil_of_mem hc)
    obtain ⟨hhard, hhead'⟩ := h.next c hc
    obtain rfl : t = c.token := Option.some.inj (hhead.symm.trans hhead')
    obtain ⟨rest, hrest⟩ := List.head?_eq_some_iff.1 hhead
    have hsplit := h.split
    rw [hrest] at hsplit
    exact ⟨hhard, (eq_of_append_endMark hts ht hsplit).2.1⟩
  · have hbounded := h.bounded
    have hmono := hused.countP_le (p := opensBlock)
    omega

/-- The indices of tokens on different lines. -/
theorem map_placeOf (hlines : ((ts ++ [mark]).map Token.line).Nodup) :
    ts.map (placeOf (ts ++ [mark])) = List.range ts.length := by
  refine List.ext_getElem (by simp) fun i hi _ => ?_
  have hlt : i < ts.length := by simpa using hi
  rw [List.getElem_map, List.getElem_range]
  refine placeOf_eq hlines ?_
  rw [List.getElem?_append_left hlt, List.getElem?_eq_getElem hlt]

theorem map_anchor (tokens : List Token) (complaints : List Complaint) :
    (complaints.map Complaint.toError).map (·.anchor tokens) =
      (complaints.map Complaint.token).map (placeOf tokens) := by
  simp [anchor_toError]

theorem filter_toError (complaints : List Complaint) :
    (complaints.map Complaint.toError).filter SyntaxError.isHard =
      (complaints.filter Complaint.isHard).map Complaint.toError := by
  have hsame : SyntaxError.isHard ∘ Complaint.toError = Complaint.isHard := by
    funext c
    rw [Function.comp_apply, Bool.eq_iff_iff, isHard_toError_iff, Complaint.isHard, decide_eq_true_iff]
  rw [List.filter_map, hsame]

/-- The anchors of the errors, and of the hard ones among them: those before the end mark, then the end mark's. -/
theorem exists_anchors (hts : ∀ t ∈ ts, t.kind ≠ .endMark) (hmark : mark.kind = .endMark)
    (hlines : ((ts ++ [mark]).map Token.line).Nodup) : ∃ before inOrder k,
      (parse (ts ++ [mark])).errors.map (·.anchor (ts ++ [mark])) = before ++ List.replicate k ts.length ∧
      before.Subperm (List.range ts.length) ∧
      (parse (ts ++ [mark])).hardErrors.map (·.anchor (ts ++ [mark])) = inOrder ++ List.replicate k ts.length ∧
      inOrder.Sublist (List.range ts.length) ∧ k ≤ ts.countP opensBlock + 1 := by
  obtain ⟨settled, unsettled, hcomplaints, honce, hinOrder, hnext, hbounded⟩ :=
    exists_settled hts hmark (ts ++ [mark]).length
  have herrors := errors_parse hts hmark (Nat.le_refl _)
  have hrange := map_placeOf hlines
  have hlast : placeOf (ts ++ [mark]) mark = ts.length := placeOf_eq hlines (by simp)
  have hopen : (unsettled.map Complaint.token).map (placeOf (ts ++ [mark])) =
      List.replicate unsettled.length ts.length := by
    rw [List.eq_replicate_iff, List.length_map, List.length_map]
    refine ⟨rfl, fun i hi => ?_⟩
    obtain ⟨t, ht, rfl⟩ := List.mem_map.1 hi
    obtain ⟨c, hc, rfl⟩ := List.mem_map.1 ht
    rw [(hnext c hc).2, hlast]
  have hbefore : ((settled.map Complaint.token).map (placeOf (ts ++ [mark]))).Subperm (List.range ts.length) := by
    obtain ⟨sorted, hperm, hsublist⟩ := honce
    exact hrange ▸ ⟨_, hperm.map _, hsublist.map _⟩
  have hall : unsettled.filter Complaint.isHard = unsettled := List.filter_eq_self.2 fun c hc => (hnext c hc).1
  refine ⟨_, _, unsettled.length, ?_, hbefore, ?_, hrange ▸ hinOrder.map _, hbounded⟩
  · rw [herrors, hcomplaints, map_anchor, List.map_append, List.map_append, hopen]
  · rw [Parse.hardErrors, herrors, hcomplaints, filter_toError, map_anchor, List.filter_append, hall, List.map_append,
      List.map_append, hopen]

/-- Every error is about the token at its anchor. -/
theorem exists_atToken (hts : ∀ t ∈ ts, t.kind ≠ .endMark) (hmark : mark.kind = .endMark)
    (hlines : ((ts ++ [mark]).map Token.line).Nodup) {e : SyntaxError} (he : e ∈ (parse (ts ++ [mark])).errors) :
    ∃ t, (ts ++ [mark])[e.anchor (ts ++ [mark])]? = some t ∧ ∃ reason : Reason,
      e = SyntaxError.atToken t reason.message := by
  obtain ⟨settled, unsettled, hcomplaints, honce, -, hnext, -⟩ := exists_settled hts hmark (ts ++ [mark]).length
  rw [errors_parse hts hmark (Nat.le_refl _), hcomplaints] at he
  obtain ⟨c, hc, rfl⟩ := List.mem_map.1 he
  have hmem : c.token ∈ ts ++ [mark] := by
    rcases List.mem_append.1 hc with hc | hc
    · exact List.mem_append_left _ (honce.subset (List.mem_map_of_mem hc))
    · exact List.mem_append_right _ (by simp [(hnext c hc).2])
  obtain ⟨i, hi⟩ := List.getElem?_of_mem hmem
  refine ⟨c.token, ?_, c.reason, rfl⟩
  rw [anchor_toError, placeOf_eq hlines hi, hi]

/-- **No token is blamed twice.** On tokens with one end mark, in last position, on different lines, every error is
about one of the tokens. No other token than the end mark is that of two errors, and the end mark is that of at most one
more than there are braces that open a block. Those that are not about targets of assignments come in the order of their
tokens, which are different unless they are the end mark; and there are as many as declarations that are dropped, in
blocks or not. -/
theorem no_token_blamed_twice (hts : ∀ t ∈ ts, t.kind ≠ .endMark) (hmark : mark.kind = .endMark)
    (hlines : ((ts ++ [mark]).map Token.line).Nodup) :
    let tokens := ts ++ [mark]
    let errors := (parse tokens).errors
    let hard := (parse tokens).hardErrors
    (∀ e ∈ errors, ∃ t, tokens[e.anchor tokens]? = some t ∧ ∃ reason : Reason,
      e = SyntaxError.atToken t reason.message) ∧
    (∀ i < ts.length, (errors.map (·.anchor tokens)).count i ≤ 1) ∧
    (errors.map (·.anchor tokens)).count ts.length ≤ ts.countP opensBlock + 1 ∧
    (hard.map (·.anchor tokens)).Pairwise (fun i j => i ≤ j ∧ (i < ts.length → i < j)) ∧
    ∀ d, Drops (programParser tokens.length) tokens d ↔ d = hard.length := by
  intro tokens errors hard
  obtain ⟨before, inOrder, k, hbefore, honce, hhard, hsublist, hk⟩ := exists_anchors hts hmark hlines
  refine ⟨fun e he => exists_atToken hts hmark hlines he, fun i hi => ?_, ?_, ?_, fun d => ?_⟩
  · have hcount := honce.count_le i
    have hone := List.nodup_iff_count_le_one.1 (List.nodup_range (n := ts.length)) i
    rw [hbefore, List.count_append, List.count_replicate, if_neg (by simpa using Nat.ne_of_gt hi)]
    omega
  · have hnone : before.count ts.length = 0 := List.count_eq_zero.2 fun hmem => by simpa using honce.subset hmem
    rw [hbefore, List.count_append, hnone, List.count_replicate_self, Nat.zero_add]
    exact hk
  · rw [hhard]
    refine List.pairwise_append.2 ⟨?_, List.pairwise_replicate.2 (.inr ⟨Nat.le_refl _, id⟩), fun i hi j hj => ?_⟩
    · exact (List.pairwise_lt_range.sublist hsublist).imp fun h => ⟨Nat.le_of_lt h, fun _ => h⟩
    · have hlt : i < ts.length := by simpa using hsublist.subset hi
      obtain rfl := List.eq_of_mem_replicate hj
      exact ⟨Nat.le_of_lt hlt, fun _ => hlt⟩
  · have hlength : (programParser tokens.length tokens).complaints.countP Complaint.isHard = hard.length := by
      have herrors : hard = _ := congrArg (List.filter SyntaxError.isHard) (errors_parse hts hmark (Nat.le_refl _))
      rw [herrors, filter_toError, List.length_map, List.countP_eq_length_filter]
    have hdefeats : (programParser tokens.length tokens).defeats = 0 := defeats_declarations _ _ _ _
    have hcount : ∀ d, Drops (programParser tokens.length) tokens d → d = hard.length := fun d hdrops => by
      rw [← hlength, hdrops.countP_eq, hdefeats, Nat.add_zero]
    refine ⟨hcount d, ?_⟩
    rintro rfl
    obtain ⟨d, hdrops⟩ := (programParser_tidy tokens.length tokens).drops
    exact hcount d hdrops ▸ hdrops

/-- In `{ { 1 = 2; ) print` with each token on a line of its own, two declarations are dropped in the inner block, then
both blocks. The sign is complained about as well, and the end mark three times. -/
theorem no_token_blamed_twice_blocks :
    let t (kind : TokenKind) (lexeme : String) (line : Nat) : Token := ⟨kind, lexeme, none, line⟩
    let ts := [t .leftBrace "\x7b" 1, t .leftBrace "\x7b" 2, t .number "1" 3, t .equal "=" 4, t .number "2" 5,
      t .semicolon ";" 6, t .rightParen ")" 7, t .kwPrint "print" 8]
    let tokens := ts ++ [.endOn 9]
    (parse tokens).errors.map (·.anchor tokens) = [3, 6, 8, 8, 8] ∧
      (parse tokens).hardErrors.map (·.anchor tokens) = [6, 8, 8, 8] ∧
      ((parse tokens).errors.map (·.anchor tokens)).count 8 ≤ ts.countP opensBlock + 1 ∧
      Drops (programParser 9) tokens 4 := by
  intro t ts tokens
  have hts : ∀ t ∈ ts, t.kind ≠ .endMark := by decide
  have hlines : ((ts ++ [Token.endOn 9]).map Token.line).Nodup := by decide
  obtain ⟨-, -, hcount, -, hdrops⟩ := no_token_blamed_twice hts rfl hlines
  have hhard : (parse tokens).hardErrors.map (·.anchor tokens) = [6, 8, 8, 8] := by decide +kernel
  refine ⟨by decide +kernel, hhard, hcount, (hdrops 4).2 ?_⟩
  exact (congrArg List.length hhard).symm.trans (List.length_map _)

end Anchors

end Stmt

end Lox
