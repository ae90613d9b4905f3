import Lox.Stmt
import Lox.Proofs.Expr.Grammar

/-!
The grammar of statements and declarations, as a relation between tokens and trees.

* `Declares ts s`: the tokens are `var name;` or `var name = value;`.
* `Initial ts s`, `Clause ts e`: the tokens are the first clause of a `for` loop, with its
  semicolon, or one of the others.
* `Phrase`: what a piece of a program is, with its tree: declarations, one declaration, or a
  statement.
* `Derives p ts`: the tokens `ts` are the phrase `p`.

A statement dangles if it ends in an `if` that has no `else`, so that an `else` behind it would
belong to that `if`. The first branch of an `if` that has an `else` must not dangle: this is what it
means that an `else` belongs to the nearest `if` that has none yet.
-/

namespace Lox.Stmt

/-- How a statement ends: with an `if` that could take an `else`, or without one. -/
inductive Ending where
  | closed
  | dangling
deriving DecidableEq

/-- The tokens declare a variable. -/
inductive Declares : List Token → Stmt → Prop
  | bare {word name semicolon : Token} : word.kind = .kwVar → name.kind = .identifier →
      semicolon.kind = .semicolon → Declares [word, name, semicolon] (declare name none)
  | initialized {word name sign semicolon : Token} {ts : List Token} {value : Expr} :
      word.kind = .kwVar → name.kind = .identifier → sign.kind = .equal →
      Expr.Derives .assignment ts value → semicolon.kind = .semicolon →
      Declares (word :: name :: sign :: (ts ++ [semicolon])) (declare name (some value))

/-- The tokens are the first clause of a `for` loop. -/
inductive Initial : List Token → Option Stmt → Prop
  | absent {semicolon : Token} : semicolon.kind = .semicolon → Initial [semicolon] none
  | declares {ts : List Token} {s : Stmt} : Declares ts s → Initial ts (some s)
  | expression {semicolon : Token} {ts : List Token} {value : Expr} :
      Expr.Derives .assignment ts value → semicolon.kind = .semicolon →
      Initial (ts ++ [semicolon]) (some (expression value))

/-- The tokens are an expression, or there are none. -/
inductive Clause : List Token → Option Expr → Prop
  | absent : Clause [] none
  | present {ts : List Token} {e : Expr} : Expr.Derives .assignment ts e → Clause ts (some e)

/-- What a piece of a program is. -/
inductive Phrase where
  | declarations (ss : List Stmt)
  | declaration (s : Stmt)
  | statement (s : Stmt) (ending : Ending)

/-- The tokens are a phrase. -/
inductive Derives : Phrase → List Token → Prop
  | nil : Derives (.declarations []) []
  | cons {ts us : List Token} {s : Stmt} {ss : List Stmt} : Derives (.declaration s) ts →
      Derives (.declarations ss) us → Derives (.declarations (s :: ss)) (ts ++ us)
  | declares {ts : List Token} {s : Stmt} : Declares ts s → Derives (.declaration s) ts
  | statement {ts : List Token} {s : Stmt} {ending : Ending} : Derives (.statement s ending) ts →
      Derives (.declaration s) ts
  | ifThen {word opening closing : Token} {ts us : List Token} {condition : Expr} {yes : Stmt}
      {ending : Ending} : word.kind = .kwIf → opening.kind = .leftParen →
      Expr.Derives .assignment ts condition → closing.kind = .rightParen →
      Derives (.statement yes ending) us →
      Derives (.statement (branch condition yes none) .dangling)
        (word :: opening :: (ts ++ closing :: us))
  | ifThenElse {word opening closing otherwise : Token} {ts us vs : List Token}
      {condition : Expr} {yes no : Stmt} {ending : Ending} : word.kind = .kwIf →
      opening.kind = .leftParen → Expr.Derives .assignment ts condition →
      closing.kind = .rightParen → Derives (.statement yes .closed) us →
      otherwise.kind = .kwElse → Derives (.statement no ending) vs →
      Derives (.statement (branch condition yes (some no)) ending)
        (word :: opening :: (ts ++ closing :: (us ++ otherwise :: vs)))
  | whileLoop {word opening closing : Token} {ts us : List Token} {condition : Expr} {body : Stmt}
      {ending : Ending} : word.kind = .kwWhile → opening.kind = .leftParen →
      Expr.Derives .assignment ts condition → closing.kind = .rightParen →
      Derives (.statement body ending) us →
      Derives (.statement (loop condition body) ending) (word :: opening :: (ts ++ closing :: us))
  | forLoop {word opening semicolon closing : Token} {ts us vs ws : List Token}
      {initial : Option Stmt} {condition step : Option Expr} {body : Stmt} {ending : Ending} :
      word.kind = .kwFor → opening.kind = .leftParen → Initial ts initial → Clause us condition →
      semicolon.kind = .semicolon → Clause vs step → closing.kind = .rightParen →
      Derives (.statement body ending) ws →
      Derives (.statement (block (initial.toList ++ [loop (condition.getD (.literal (.boolean true)))
          (block (body :: (step.map expression).toList))])) ending)
        (word :: opening :: (ts ++ (us ++ semicolon :: (vs ++ closing :: ws))))
  | print {word semicolon : Token} {ts : List Token} {value : Expr} : word.kind = .kwPrint →
      Expr.Derives .assignment ts value → semicolon.kind = .semicolon →
      Derives (.statement (print value) .closed) (word :: (ts ++ [semicolon]))
  | block {opening closing : Token} {ts : List Token} {body : List Stmt} :
      opening.kind = .leftBrace → Derives (.declarations body) ts → closing.kind = .rightBrace →
      Derives (.statement (block body) .closed) (opening :: (ts ++ [closing]))
  | expression {semicolon : Token} {ts : List Token} {value : Expr} :
      Expr.Derives .assignment ts value → semicolon.kind = .semicolon →
      Derives (.statement (expression value) .closed) (ts ++ [semicolon])

theorem Derives.append {program program' : List Stmt} {ts us : List Token}
    (h : Derives (.declarations program) ts) (h' : Derives (.declarations program') us) :
    Derives (.declarations (program ++ program')) (ts ++ us) := by
  induction program generalizing ts with
  | nil =>
    cases h
    exact h'
  | cons s program ih =>
    cases h with
    | @cons ts₁ ts₂ _ _ hs hrest =>
      rw [List.append_assoc]
      exact .cons hs (ih hrest)

/-! ## First tokens -/

/-- The kinds of tokens that a statement can start with. -/
def starts (kind : TokenKind) : Bool :=
  kind = .kwIf || kind = .kwWhile || kind = .kwFor || kind = .kwPrint || kind = .leftBrace ||
    Expr.starts kind

theorem Declares.first {ts : List Token} {s : Stmt} (h : Declares ts s) :
    ∃ t us, ts = t :: us ∧ t.kind = .kwVar := by
  cases h with
  | @bare word name semicolon hword => exact ⟨word, [name, semicolon], rfl, hword⟩
  | @initialized word name sign semicolon ts value hword =>
    exact ⟨word, name :: sign :: (ts ++ [semicolon]), rfl, hword⟩

/-- A statement has a first token, of a kind that starts one. -/
theorem Derives.first_of_statement {ts : List Token} {s : Stmt} {ending : Ending}
    (h : Derives (.statement s ending) ts) : ∃ t us, ts = t :: us ∧ starts t.kind = true := by
  cases h with
  | ifThen hword | ifThenElse hword | whileLoop hword | forLoop hword | print hword | block hword =>
    exact ⟨_, _, rfl, by simp [starts, hword]⟩
  | expression hvalue _ =>
    obtain ⟨t, us, rfl, hstarts, -⟩ := hvalue.first
    exact ⟨t, _, rfl, by simp [starts, hstarts]⟩

/-- A declaration has a first token, which starts a variable declaration or a statement. -/
theorem Derives.first_of_declaration {ts : List Token} {s : Stmt} (h : Derives (.declaration s) ts) :
    ∃ t us, ts = t :: us ∧ (t.kind = .kwVar ∨ starts t.kind = true) := by
  cases h with
  | declares hvar =>
    obtain ⟨t, us, rfl, hkind⟩ := hvar.first
    exact ⟨t, us, rfl, .inl hkind⟩
  | statement hs =>
    obtain ⟨t, us, rfl, hstarts⟩ := hs.first_of_statement
    exact ⟨t, us, rfl, .inr hstarts⟩

end Lox.Stmt
