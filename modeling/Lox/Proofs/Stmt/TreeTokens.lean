import Lox.Proofs.Stmt.Grammar

/-!
The tokens in a tree.

* `Expr.MadeOf Name Operator e`, `Stmt.MadeOf Name Operator s`: every name in the tree is a token of the first kind, and
  every operator one of the second.

A tree has its names and operators from the tokens it is derived from, and its names are identifiers
(`Expr.Derives.madeOf`, `Stmt.Derives.madeOf`). That holds also where a loop is made into other statements.
-/

namespace Lox

/-! ## Trees -/

/-- The names and operators of an expression are tokens of the given kinds. -/
def Expr.MadeOf (Name Operator : Token → Prop) : Expr → Prop
  | literal _ => True
  | reference name => Name name
  | assign name value => Name name ∧ value.MadeOf Name Operator
  | unary operator operand => Operator operator ∧ operand.MadeOf Name Operator
  | binary left operator right | logical left operator right =>
    Operator operator ∧ left.MadeOf Name Operator ∧ right.MadeOf Name Operator
  | group inner => inner.MadeOf Name Operator

mutual

/-- The names and operators of a statement are tokens of the given kinds. -/
def Stmt.MadeOf (Name Operator : Token → Prop) : Stmt → Prop
  | .expression value | .print value => value.MadeOf Name Operator
  | .declare name none => Name name
  | .declare name (some value) => Name name ∧ value.MadeOf Name Operator
  | .block body => Stmt.AllMadeOf Name Operator body
  | .branch condition yes no =>
    condition.MadeOf Name Operator ∧ yes.MadeOf Name Operator ∧ Stmt.ElseMadeOf Name Operator no
  | .loop condition body => condition.MadeOf Name Operator ∧ body.MadeOf Name Operator

/-- So are those of the alternative of a conditional, if it has one. -/
def Stmt.ElseMadeOf (Name Operator : Token → Prop) : Option Stmt → Prop
  | none => True
  | some s => s.MadeOf Name Operator

/-- So are those of all the statements. -/
def Stmt.AllMadeOf (Name Operator : Token → Prop) : List Stmt → Prop
  | [] => True
  | s :: rest => s.MadeOf Name Operator ∧ Stmt.AllMadeOf Name Operator rest

end

variable {Name Operator : Token → Prop}

namespace Stmt

theorem allMadeOf_iff {ss : List Stmt} : AllMadeOf Name Operator ss ↔ ∀ s ∈ ss, s.MadeOf Name Operator := by
  induction ss with
  | nil => simp [AllMadeOf]
  | cons s ss ih => rw [AllMadeOf, ih, List.forall_mem_cons]

end Stmt

/-- Every expression is made of tokens. -/
theorem Expr.madeOf_true (e : Expr) : e.MadeOf (fun _ => True) fun _ => True := by
  induction e with
  | literal value => trivial
  | reference name => trivial
  | assign name value ih => exact ⟨trivial, ih⟩
  | unary operator operand ih => exact ⟨trivial, ih⟩
  | binary left operator right ihleft ihright => exact ⟨trivial, ihleft, ihright⟩
  | logical left operator right ihleft ihright => exact ⟨trivial, ihleft, ihright⟩
  | group inner ih => exact ih

mutual

theorem Stmt.madeOf_true : ∀ s : Stmt, s.MadeOf (fun _ => True) fun _ => True
  | .expression value | .print value => value.madeOf_true
  | .declare _ none => trivial
  | .declare _ (some value) => ⟨trivial, value.madeOf_true⟩
  | .block body => Stmt.allMadeOf_true body
  | .branch condition yes none => ⟨condition.madeOf_true, Stmt.madeOf_true yes, trivial⟩
  | .branch condition yes (some no) => ⟨condition.madeOf_true, Stmt.madeOf_true yes, Stmt.madeOf_true no⟩
  | .loop condition body => ⟨condition.madeOf_true, Stmt.madeOf_true body⟩

/-- All statements are made of tokens. -/
theorem Stmt.allMadeOf_true : ∀ ss : List Stmt, Stmt.AllMadeOf (fun _ => True) (fun _ => True) ss
  | [] => trivial
  | s :: rest => ⟨Stmt.madeOf_true s, Stmt.allMadeOf_true rest⟩

end

/-! ## Derivations -/

/-- The token can be a name if it is an identifier, and it can be an operator. -/
def Token.Serves (Name Operator : Token → Prop) (t : Token) : Prop :=
  (t.kind = .identifier → Name t) ∧ Operator t

theorem Expr.madeOf_node {r : Expr.Rung} {left right : Expr} {operator : Token} :
    (r.node left operator right).MadeOf Name Operator ↔
      Operator operator ∧ left.MadeOf Name Operator ∧ right.MadeOf Name Operator := by
  cases r <;> rfl

/-- An expression is made of the tokens it is derived from. -/
theorem Expr.Derives.madeOf {r : Expr.Rung} {ts : List Token} {e : Expr} (h : Expr.Derives r ts e)
    (hts : ∀ t ∈ ts, t.Serves Name Operator) : e.MadeOf Name Operator := by
  induction h with
  | tighter _ ih => exact ih hts
  | assign hname _ _ ih =>
    rw [List.forall_mem_cons, List.forall_mem_cons] at hts
    exact ⟨hts.1.1 hname, ih hts.2.2⟩
  | operator _ _ _ ihleft ihright =>
    rw [List.forall_mem_append, List.forall_mem_cons] at hts
    exact Expr.madeOf_node.2 ⟨hts.2.1.2, ihleft hts.1, ihright hts.2.2⟩
  | prefixed _ _ ih =>
    rw [List.forall_mem_cons] at hts
    exact ⟨hts.1.2, ih hts.2⟩
  | constant _ => trivial
  | name hkind => exact (hts _ List.mem_cons_self).1 hkind
  | group _ _ _ ih =>
    rw [List.forall_mem_cons, List.forall_mem_append] at hts
    exact ih hts.2.1

namespace Stmt

/-- The names and operators of a phrase are tokens of the given kinds. -/
def Phrase.MadeOf (Name Operator : Token → Prop) : Phrase → Prop
  | declarations ss => AllMadeOf Name Operator ss
  | declaration s | statement s _ => s.MadeOf Name Operator

theorem Declares.madeOf {ts : List Token} {s : Stmt} (h : Declares ts s)
    (hts : ∀ t ∈ ts, t.Serves Name Operator) : s.MadeOf Name Operator := by
  cases h with
  | bare _ hname _ => exact (hts _ (by simp)).1 hname
  | initialized _ hname _ hvalue _ =>
    simp only [List.forall_mem_cons, List.forall_mem_append] at hts
    exact ⟨hts.2.1.1 hname, hvalue.madeOf hts.2.2.2.1⟩

theorem Initial.madeOf {ts : List Token} {initial : Option Stmt} (h : Initial ts initial)
    (hts : ∀ t ∈ ts, t.Serves Name Operator) : ∀ s ∈ initial, s.MadeOf Name Operator := by
  rintro s rfl
  cases h with
  | declares hs => exact hs.madeOf hts
  | expression hvalue _ => exact hvalue.madeOf (List.forall_mem_append.1 hts).1

theorem Clause.madeOf {ts : List Token} {clause : Option Expr} (h : Clause ts clause)
    (hts : ∀ t ∈ ts, t.Serves Name Operator) : ∀ e ∈ clause, e.MadeOf Name Operator := by
  rintro e rfl
  cases h with
  | present he => exact he.madeOf hts

/-- The statements that a `for` loop is made into are made of what is in its parts. -/
theorem forLoop_madeOf {initial : Option Stmt} {condition step : Option Expr} {body : Stmt}
    (hinitial : ∀ s ∈ initial, s.MadeOf Name Operator) (hcondition : ∀ e ∈ condition, e.MadeOf Name Operator)
    (hstep : ∀ e ∈ step, e.MadeOf Name Operator) (hbody : body.MadeOf Name Operator) :
    (forLoop initial condition step body).MadeOf Name Operator := by
  have htest : (condition.getD (.literal (.boolean true))).MadeOf Name Operator := by
    cases condition with
    | none => trivial
    | some e => exact hcondition e rfl
  have hround : ∀ s ∈ body :: (step.map expression).toList, s.MadeOf Name Operator := by
    refine List.forall_mem_cons.2 ⟨hbody, fun s hs => ?_⟩
    obtain ⟨e, he, rfl⟩ := Option.map_eq_some_iff.1 (Option.mem_toList.1 hs)
    exact hstep e he
  refine allMadeOf_iff.2 (List.forall_mem_append.2 ⟨fun s hs => hinitial s (Option.mem_toList.1 hs), ?_⟩)
  exact List.forall_mem_singleton.2 ⟨htest, allMadeOf_iff.2 hround⟩

/-- A phrase is made of the tokens it is derived from. -/
theorem Derives.madeOf {p : Phrase} {ts : List Token} (h : Derives p ts) (hts : ∀ t ∈ ts, t.Serves Name Operator) :
    p.MadeOf Name Operator := by
  induction h with
  | nil => trivial
  | cons _ _ ihs ihss =>
    rw [List.forall_mem_append] at hts
    exact ⟨ihs hts.1, ihss hts.2⟩
  | declares hs => exact hs.madeOf hts
  | statement _ ih => exact ih hts
  | ifThen _ _ hcondition _ _ ih =>
    simp only [List.forall_mem_cons, List.forall_mem_append] at hts
    exact ⟨hcondition.madeOf hts.2.2.1, ih hts.2.2.2.2, trivial⟩
  | ifThenElse _ _ hcondition _ _ _ _ ihyes ihno =>
    simp only [List.forall_mem_cons, List.forall_mem_append] at hts
    exact ⟨hcondition.madeOf hts.2.2.1, ihyes hts.2.2.2.2.1, ihno hts.2.2.2.2.2.2⟩
  | whileLoop _ _ hcondition _ _ ih =>
    simp only [List.forall_mem_cons, List.forall_mem_append] at hts
    exact ⟨hcondition.madeOf hts.2.2.1, ih hts.2.2.2.2⟩
  | forLoop _ _ hinitial hcondition _ hstep _ _ ih =>
    simp only [List.forall_mem_cons, List.forall_mem_append] at hts
    obtain ⟨-, -, hts, hus, -, hvs, -, hws⟩ := hts
    exact forLoop_madeOf (hinitial.madeOf hts) (hcondition.madeOf hus) (hstep.madeOf hvs) (ih hws)
  | print _ hvalue _ =>
    simp only [List.forall_mem_cons, List.forall_mem_append] at hts
    exact hvalue.madeOf hts.2.1
  | block _ _ _ ih =>
    simp only [List.forall_mem_cons, List.forall_mem_append] at hts
    exact ih hts.2.1
  | expression hvalue _ => exact hvalue.madeOf (List.forall_mem_append.1 hts).1

end Stmt

end Lox
