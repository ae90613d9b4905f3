import Lox.Stmt

/-!
Trees that are alike: they differ in their tokens only, and these are alike.

* `Likeness`: a relation between tokens of the same kind, lexeme and literal.
* `Likeness.same`, `Likeness.lower k`, `Likeness.anywhere`: equal tokens, tokens that are `k` lines apart, and tokens on
  any two lines.
* `Expr.Alike`, `Stmt.Alike`, `Stmt.AllAlike`: trees with the same nodes and alike tokens.
-/

namespace Lox

/-! ## Tokens -/

/-- A relation between tokens that are the same but for their lines. -/
structure Likeness where
  Rel : Token → Token → Prop
  kind_eq : ∀ {t u : Token}, Rel t u → u.kind = t.kind
  lexeme_eq : ∀ {t u : Token}, Rel t u → u.lexeme = t.lexeme
  literal_eq : ∀ {t u : Token}, Rel t u → u.literal = t.literal

/-- the token some lines further down -/
def Token.lowered (k : Nat) (t : Token) : Token := { t with line := t.line + k }

namespace Likeness

/-- The tokens are equal. -/
def same : Likeness where
  Rel := Eq
  kind_eq h := by rw [h]
  lexeme_eq h := by rw [h]
  literal_eq h := by rw [h]

/-- The second token is the first, `k` lines further down. -/
def lower (k : Nat) : Likeness where
  Rel t u := u = t.lowered k
  kind_eq h := by rw [h]; rfl
  lexeme_eq h := by rw [h]; rfl
  literal_eq h := by rw [h]; rfl

/-- The tokens differ in their lines at most. -/
def anywhere : Likeness where
  Rel t u := u.kind = t.kind ∧ u.lexeme = t.lexeme ∧ u.literal = t.literal
  kind_eq h := h.1
  lexeme_eq h := h.2.1
  literal_eq h := h.2.2

theorem same_iff {t u : Token} : same.Rel t u ↔ t = u := Iff.rfl

end Likeness

/-! ## Trees -/

/-- The expressions have the same nodes, and their tokens are alike. -/
inductive Expr.Alike (T : Likeness) : Expr → Expr → Prop
  | literal (value : Value) : Alike T (.literal value) (.literal value)
  | reference {name name' : Token} : T.Rel name name' → Alike T (.reference name) (.reference name')
  | assign {name name' : Token} {value value' : Expr} : T.Rel name name' → Alike T value value' →
      Alike T (.assign name value) (.assign name' value')
  | unary {operator operator' : Token} {operand operand' : Expr} : T.Rel operator operator' →
      Alike T operand operand' → Alike T (.unary operator operand) (.unary operator' operand')
  | binary {operator operator' : Token} {left left' right right' : Expr} : Alike T left left' →
      T.Rel operator operator' → Alike T right right' →
      Alike T (.binary left operator right) (.binary left' operator' right')
  | logical {operator operator' : Token} {left left' right right' : Expr} : Alike T left left' →
      T.Rel operator operator' → Alike T right right' →
      Alike T (.logical left operator right) (.logical left' operator' right')
  | group {inner inner' : Expr} : Alike T inner inner' → Alike T (.group inner) (.group inner')

mutual

/-- The statements have the same nodes, and their tokens are alike. -/
inductive Stmt.Alike (T : Likeness) : Stmt → Stmt → Prop
  | expression {value value' : Expr} : Expr.Alike T value value' →
      Stmt.Alike T (.expression value) (.expression value')
  | print {value value' : Expr} : Expr.Alike T value value' → Stmt.Alike T (.print value) (.print value')
  | declare {name name' : Token} : T.Rel name name' →
      Stmt.Alike T (.declare name none) (.declare name' none)
  | initialized {name name' : Token} {value value' : Expr} : T.Rel name name' →
      Expr.Alike T value value' → Stmt.Alike T (.declare name (some value)) (.declare name' (some value'))
  | block {body body' : List Stmt} : Stmt.AllAlike T body body' → Stmt.Alike T (.block body) (.block body')
  | ifThen {condition condition' : Expr} {yes yes' : Stmt} : Expr.Alike T condition condition' →
      Stmt.Alike T yes yes' → Stmt.Alike T (.branch condition yes none) (.branch condition' yes' none)
  | ifThenElse {condition condition' : Expr} {yes yes' no no' : Stmt} :
      Expr.Alike T condition condition' → Stmt.Alike T yes yes' → Stmt.Alike T no no' →
      Stmt.Alike T (.branch condition yes (some no)) (.branch condition' yes' (some no'))
  | loop {condition condition' : Expr} {body body' : Stmt} : Expr.Alike T condition condition' →
      Stmt.Alike T body body' → Stmt.Alike T (.loop condition body) (.loop condition' body')

/-- The statements are alike one by one. -/
inductive Stmt.AllAlike (T : Likeness) : List Stmt → List Stmt → Prop
  | nil : Stmt.AllAlike T [] []
  | cons {s s' : Stmt} {rest rest' : List Stmt} : Stmt.Alike T s s' → Stmt.AllAlike T rest rest' →
      Stmt.AllAlike T (s :: rest) (s' :: rest')

end

namespace Expr

/-- An expression is alike to itself, and to no other by equal tokens. -/
theorem alike_same_iff {e e' : Expr} : Alike .same e e' ↔ e = e' := by
  constructor
  · intro h
    induction h with
    | literal value => rfl
    | reference hname => rw [Likeness.same_iff.1 hname]
    | assign hname _ ih => rw [Likeness.same_iff.1 hname, ih]
    | unary hoperator _ ih => rw [Likeness.same_iff.1 hoperator, ih]
    | binary _ hoperator _ ihleft ihright => rw [ihleft, Likeness.same_iff.1 hoperator, ihright]
    | logical _ hoperator _ ihleft ihright => rw [ihleft, Likeness.same_iff.1 hoperator, ihright]
    | group _ ih => rw [ih]
  · rintro rfl
    induction e with
    | literal value => exact .literal value
    | reference name => exact .reference rfl
    | assign name value ih => exact .assign rfl ih
    | unary operator operand ih => exact .unary rfl ih
    | binary left operator right ihleft ihright => exact .binary ihleft rfl ihright
    | logical left operator right ihleft ihright => exact .logical ihleft rfl ihright
    | group inner ih => exact .group ih

end Expr

namespace Stmt

mutual

theorem Alike.refl : ∀ s : Stmt, Alike .same s s
  | .expression _ => .expression (Expr.alike_same_iff.2 rfl)
  | .print _ => .print (Expr.alike_same_iff.2 rfl)
  | .declare _ none => .declare rfl
  | .declare _ (some _) => .initialized rfl (Expr.alike_same_iff.2 rfl)
  | .block body => .block (AllAlike.refl body)
  | .branch _ yes none => .ifThen (Expr.alike_same_iff.2 rfl) (Alike.refl yes)
  | .branch _ yes (some no) => .ifThenElse (Expr.alike_same_iff.2 rfl) (Alike.refl yes) (Alike.refl no)
  | .loop _ body => .loop (Expr.alike_same_iff.2 rfl) (Alike.refl body)

/-- Statements are alike to themselves. -/
theorem AllAlike.refl : ∀ ss : List Stmt, AllAlike .same ss ss
  | [] => .nil
  | s :: rest => .cons (Alike.refl s) (AllAlike.refl rest)

end

mutual

/-- A statement is alike to no other by equal tokens. -/
theorem Alike.eq : ∀ {s s' : Stmt}, Alike .same s s' → s = s'
  | _, _, .expression h => by rw [Expr.alike_same_iff.1 h]
  | _, _, .print h => by rw [Expr.alike_same_iff.1 h]
  | _, _, .declare hname => by rw [Likeness.same_iff.1 hname]
  | _, _, .initialized hname h => by rw [Likeness.same_iff.1 hname, Expr.alike_same_iff.1 h]
  | _, _, .block h => by rw [AllAlike.eq h]
  | _, _, .ifThen hcondition hyes => by rw [Expr.alike_same_iff.1 hcondition, Alike.eq hyes]
  | _, _, .ifThenElse hcondition hyes hno => by
    rw [Expr.alike_same_iff.1 hcondition, Alike.eq hyes, Alike.eq hno]
  | _, _, .loop hcondition hbody => by rw [Expr.alike_same_iff.1 hcondition, Alike.eq hbody]

theorem AllAlike.eq : ∀ {ss ss' : List Stmt}, AllAlike .same ss ss' → ss = ss'
  | _, _, .nil => rfl
  | _, _, .cons hs hrest => by rw [Alike.eq hs, AllAlike.eq hrest]

end

theorem AllAlike.append {T : Likeness} {ss ss' ts ts' : List Stmt} (h : AllAlike T ss ss')
    (h' : AllAlike T ts ts') : AllAlike T (ss ++ ts) (ss' ++ ts') := by
  induction ss generalizing ss' with
  | nil =>
    cases h
    exact h'
  | cons s ss ih =>
    cases h with
    | cons hs hrest => exact .cons hs (ih hrest)

end Stmt

end Lox
