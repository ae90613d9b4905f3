import Lox.Expr.Parse

/-!
The grammar of expressions, as a relation between tokens and trees.

* `Rung`: the nonterminals, the loosest first. Each has the next tighter one below it, and the infix
  ones have operators.
* `Derives r ts e`: the tokens `ts` are an expression of rung `r`, with the tree `e`.

Operators of one rung group to the left: the left operand is of the same rung, the right one of the
next tighter.
-/

namespace Lox.Expr

/-- The rungs of the grammar, the loosest first. -/
inductive Rung where
  | assignment
  | or | and | equality | comparison | additive | multiplicative
  | prefixed
  | primary
deriving DecidableEq

namespace Rung

/-- the next tighter rung -/
def tighter : Rung → Rung
  | assignment => or
  | or => and
  | and => equality
  | equality => comparison
  | comparison => additive
  | additive => multiplicative
  | multiplicative => prefixed
  | prefixed => primary
  | primary => primary

/-- the infix operators of a rung -/
def operators : Rung → List TokenKind
  | or => [.kwOr]
  | and => [.kwAnd]
  | equality => [.bangEqual, .equalEqual]
  | comparison => [.greater, .greaterEqual, .less, .lessEqual]
  | additive => [.minus, .plus]
  | multiplicative => [.slash, .star]
  | assignment | prefixed | primary => []

/-- the node of an operator of a rung between two operands -/
def node : Rung → Expr → Token → Expr → Expr
  | or | and => logical
  | _ => binary

end Rung

/-- The tokens are an expression of a rung, with a tree. -/
inductive Derives : Rung → List Token → Expr → Prop
  | tighter {r : Rung} {ts : List Token} {e : Expr} : Derives r.tighter ts e → Derives r ts e
  | assign {name sign : Token} {ts : List Token} {value : Expr} : name.kind = .identifier →
      sign.kind = .equal → Derives .assignment ts value → Derives .assignment (name :: sign :: ts) (.assign name value)
  | operator {r : Rung} {operator : Token} {ts us : List Token} {left right : Expr} :
      operator.kind ∈ r.operators → Derives r ts left → Derives r.tighter us right →
      Derives r (ts ++ operator :: us) (r.node left operator right)
  | prefixed {operator : Token} {ts : List Token} {operand : Expr} :
      operator.kind = .bang ∨ operator.kind = .minus → Derives .prefixed ts operand → Derives .prefixed (operator :: ts) (.unary operator operand)
  | constant {t : Token} {value : Value} : t.constant? = some value →
      Derives .primary [t] (.literal value)
  | name {t : Token} : t.kind = .identifier → Derives .primary [t] (.reference t)
  | group {opening closing : Token} {ts : List Token} {inner : Expr} : opening.kind = .leftParen →
      closing.kind = .rightParen → Derives .assignment ts inner →
      Derives .primary (opening :: (ts ++ [closing])) (.group inner)

/-! ## First tokens -/

/-- The kinds of tokens that an expression can start with. -/
def starts : TokenKind → Bool
  | .bang | .minus | .kwFalse | .kwTrue | .kwNil | .number | .string | .identifier | .leftParen => true
  | _ => false

theorem starts_of_constant? {t : Token} {value : Value} (h : t.constant? = some value) :
    starts t.kind = true ∧ isPrefixOperator t.kind = false := by
  unfold Token.constant? at h
  split at h <;> simp_all [starts, isPrefixOperator]

/-- An expression has a first token, of a kind that starts one; on the tightest rung it is no prefix
operator. -/
theorem Derives.first {r : Rung} {ts : List Token} {e : Expr} (h : Derives r ts e) :
    ∃ t us, ts = t :: us ∧ starts t.kind = true ∧ (r = .primary → isPrefixOperator t.kind = false) := by
  induction h with
  | @tighter r ts e _ ih =>
    obtain ⟨t, us, rfl, hstarts, hplain⟩ := ih
    exact ⟨t, us, rfl, hstarts, fun hr => hplain (by rw [hr]; rfl)⟩
  | @assign name sign ts value hname _ _ _ =>
    exact ⟨name, sign :: ts, rfl, by simp [starts, hname], nofun⟩
  | @operator r operator ts us left right hop _ _ ihleft _ =>
    obtain ⟨t, ts', rfl, hstarts, hplain⟩ := ihleft
    exact ⟨t, ts' ++ operator :: us, rfl, hstarts, hplain⟩
  | @prefixed operator ts operand hop _ _ =>
    exact ⟨operator, ts, rfl, by rcases hop with hop | hop <;> simp [starts, hop], nofun⟩
  | @constant t value h =>
    obtain ⟨hstarts, hplain⟩ := starts_of_constant? h
    exact ⟨t, [], rfl, hstarts, fun _ => hplain⟩
  | @name t h => exact ⟨t, [], rfl, by simp [starts, h], fun _ => by simp [isPrefixOperator, h]⟩
  | @group opening closing ts inner h _ _ _ =>
    exact ⟨opening, ts ++ [closing], rfl, by simp [starts, h], fun _ => by simp [isPrefixOperator, h]⟩

/-- The only tokens with the tree of a name are the name. -/
theorem Derives.eq_of_reference {r : Rung} {ts : List Token} {name : Token}
    (h : Derives r ts (.reference name)) :
    ts = [name] ∧ name.kind = .identifier := by
  generalize he : Expr.reference name = e at h
  induction h with
  | tighter _ ih => exact ih he
  | operator => rename_i r _ _ _ _ _ _ _ _ _ _; cases r <;> simp [Rung.node] at he
  | name hkind => cases he; exact ⟨rfl, hkind⟩
  | assign | prefixed | constant | group => simp at he

end Lox.Expr
