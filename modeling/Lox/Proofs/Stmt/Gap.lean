import Lox.Proofs.Parser.Echo
import Lox.Proofs.Stmt.Recognition

/-!
Gaps: places of semicolons that end statements.

* `Inside outer before inner after`: a statement that ends as `inner` stands between these tokens in a statement that ends
  as `outer`, in a branch of an `if` or as the body of a loop, but not in a block.
* `Declaring ts`: the tokens declare a variable, up to the semicolon.
* `Lacking inner after`: with a semicolon between them, the tokens are a declaration. The semicolon ends a simple statement
  that is not in a block inside this declaration.
* `Heading inner after`: the semicolon is in the header of a `for` loop and ends no statement.
* `Gap Place front inner after`: with a semicolon between the second and the third tokens, the tokens are declarations. The
  innermost declaration that it stands in starts behind the first tokens.
* `Derives.gap_lacking_or_heading`: every semicolon of a program ends a simple statement or is in such a header.
-/

namespace Lox.Stmt

open Lox.Parser

/-- With a statement that ends as `inner` between them, the tokens are a statement that ends as `outer`. -/
inductive Inside : Ending → List Token → Ending → List Token → Prop
  | here {ending : Ending} : Inside ending [] ending []
  | ifThen {word opening closing : Token} {ts before after : List Token} {condition : Expr} {outer inner : Ending} :
      word.kind = .kwIf → opening.kind = .leftParen → Expr.Derives .assignment ts condition →
      closing.kind = .rightParen → Inside outer before inner after →
      Inside .dangling (word :: opening :: (ts ++ closing :: before)) inner after
  | ifThenElse {word opening closing otherwise : Token} {ts vs before after : List Token} {condition : Expr} {no : Stmt}
      {outer inner : Ending} : word.kind = .kwIf → opening.kind = .leftParen → Expr.Derives .assignment ts condition →
      closing.kind = .rightParen → Inside .closed before inner after → otherwise.kind = .kwElse →
      Derives (.statement no outer) vs →
      Inside outer (word :: opening :: (ts ++ closing :: before)) inner (after ++ otherwise :: vs)
  | otherwise {word opening closing otherwise : Token} {ts us before after : List Token} {condition : Expr} {yes : Stmt}
      {outer inner : Ending} : word.kind = .kwIf → opening.kind = .leftParen → Expr.Derives .assignment ts condition →
      closing.kind = .rightParen → Derives (.statement yes .closed) us → otherwise.kind = .kwElse →
      Inside outer before inner after →
      Inside outer (word :: opening :: (ts ++ closing :: (us ++ otherwise :: before))) inner after
  | whileLoop {word opening closing : Token} {ts before after : List Token} {condition : Expr} {outer inner : Ending} :
      word.kind = .kwWhile → opening.kind = .leftParen → Expr.Derives .assignment ts condition →
      closing.kind = .rightParen → Inside outer before inner after →
      Inside outer (word :: opening :: (ts ++ closing :: before)) inner after
  | forLoop {word opening semicolon closing : Token} {ts us vs before after : List Token} {initial : Option Stmt}
      {condition step : Option Expr} {outer inner : Ending} : word.kind = .kwFor → opening.kind = .leftParen →
      Initial ts initial → Clause us condition → semicolon.kind = .semicolon → Clause vs step →
      closing.kind = .rightParen → Inside outer before inner after →
      Inside outer (word :: opening :: (ts ++ (us ++ semicolon :: (vs ++ closing :: before)))) inner after

/-- The tokens declare a variable, up to the semicolon. -/
inductive Declaring : List Token → Prop
  | bare {word name : Token} : word.kind = .kwVar → name.kind = .identifier → Declaring [word, name]
  | initialized {word name sign : Token} {ts : List Token} {value : Expr} : word.kind = .kwVar →
      name.kind = .identifier → sign.kind = .equal → Expr.Derives .assignment ts value →
      Declaring (word :: name :: sign :: ts)

/-- The tokens are the first clause of a `for` loop, up to its semicolon. -/
inductive Initializing : List Token → Prop
  | declares {ts : List Token} : Declaring ts → Initializing ts
  | expression {ts : List Token} {value : Expr} : Expr.Derives .assignment ts value → Initializing ts

/-- With a semicolon between them, the tokens are a declaration, and the semicolon ends a simple statement in it. -/
inductive Lacking : List Token → List Token → Prop
  | declares {ts : List Token} : Declaring ts → Lacking ts []
  | print {word : Token} {ts before after : List Token} {value : Expr} {outer : Ending} :
      Inside outer before .closed after → word.kind = .kwPrint → Expr.Derives .assignment ts value →
      Lacking (before ++ word :: ts) after
  | expression {ts before after : List Token} {value : Expr} {outer : Ending} :
      Inside outer before .closed after → Expr.Derives .assignment ts value → Lacking (before ++ ts) after
  | initial {word opening semicolon closing : Token} {ts us vs ws before after : List Token}
      {condition step : Option Expr} {body : Stmt} {outer inner : Ending} : Inside outer before inner after →
      word.kind = .kwFor → opening.kind = .leftParen → Initializing ts → Clause us condition →
      semicolon.kind = .semicolon → Clause vs step → closing.kind = .rightParen → Derives (.statement body inner) ws →
      Lacking (before ++ word :: opening :: ts) (us ++ semicolon :: (vs ++ closing :: (ws ++ after)))

/-- With a semicolon between them, the tokens are a loop, and the semicolon is in its header but ends no statement: it is the
first clause by itself, or it ends the second. -/
inductive Heading : List Token → List Token → Prop
  | initial {word opening semicolon closing : Token} {us vs ws before after : List Token}
      {condition step : Option Expr} {body : Stmt} {outer inner : Ending} : Inside outer before inner after →
      word.kind = .kwFor → opening.kind = .leftParen → Clause us condition → semicolon.kind = .semicolon →
      Clause vs step → closing.kind = .rightParen → Derives (.statement body inner) ws →
      Heading (before ++ [word, opening]) (us ++ semicolon :: (vs ++ closing :: (ws ++ after)))
  | condition {word opening closing : Token} {ts us vs ws before after : List Token} {initial : Option Stmt}
      {condition step : Option Expr} {body : Stmt} {outer inner : Ending} : Inside outer before inner after →
      word.kind = .kwFor → opening.kind = .leftParen → Initial ts initial → Clause us condition → Clause vs step →
      closing.kind = .rightParen → Derives (.statement body inner) ws →
      Heading (before ++ word :: opening :: (ts ++ us)) (vs ++ closing :: (ws ++ after))

/-- With a semicolon between the second and the third tokens, the tokens are declarations. The innermost declaration around
it starts behind the first tokens, and `Place` says where in this declaration it is. -/
inductive Gap (Place : List Token → List Token → Prop) : List Token → List Token → List Token → Prop
  | here {ts us inner after : List Token} {ss ss' : List Stmt} : Derives (.declarations ss) ts → Place inner after →
      Derives (.declarations ss') us → Gap Place ts inner (after ++ us)
  | block {ts us front inner after before behind : List Token} {opening closing : Token} {ss ss' : List Stmt}
      {outer : Ending} : Derives (.declarations ss) ts → Inside outer before .closed behind →
      opening.kind = .leftBrace → Gap Place front inner after → closing.kind = .rightBrace →
      Derives (.declarations ss') us →
      Gap Place (ts ++ (before ++ opening :: front)) inner (after ++ closing :: (behind ++ us))

/-! ## With the semicolon -/

section Filled

variable {inner after : List Token} {semicolon : Token}

/-- A statement stands inside of another. -/
theorem Inside.derives {outer ending : Ending} {before : List Token} (h : Inside outer before ending after)
    {ts : List Token} {s : Stmt} (hs : Derives (.statement s ending) ts) :
    ∃ s', Derives (.statement s' outer) (before ++ (ts ++ after)) := by
  induction h with
  | here => exact ⟨s, by simpa using hs⟩
  | ifThen hword hopening hcondition hclosing _ ih =>
    obtain ⟨yes, hyes⟩ := ih hs
    exact ⟨_, by simpa using Derives.ifThen hword hopening hcondition hclosing hyes⟩
  | ifThenElse hword hopening hcondition hclosing _ hotherwise hno ih =>
    obtain ⟨yes, hyes⟩ := ih hs
    exact ⟨_, by simpa using Derives.ifThenElse hword hopening hcondition hclosing hyes hotherwise hno⟩
  | otherwise hword hopening hcondition hclosing hyes hotherwise _ ih =>
    obtain ⟨no, hno⟩ := ih hs
    exact ⟨_, by simpa using Derives.ifThenElse hword hopening hcondition hclosing hyes hotherwise hno⟩
  | whileLoop hword hopening hcondition hclosing _ ih =>
    obtain ⟨body, hbody⟩ := ih hs
    exact ⟨_, by simpa using Derives.whileLoop hword hopening hcondition hclosing hbody⟩
  | forLoop hword hopening hinitial hcondition hsemicolon hstep hclosing _ ih =>
    obtain ⟨body, hbody⟩ := ih hs
    exact ⟨_, by simpa using Derives.forLoop hword hopening hinitial hcondition hsemicolon hstep hclosing hbody⟩

theorem Declaring.declares {ts : List Token} (h : Declaring ts) (hsemicolon : semicolon.kind = .semicolon) :
    ∃ s, Declares (ts ++ [semicolon]) s := by
  cases h with
  | bare hword hname => exact ⟨_, .bare hword hname hsemicolon⟩
  | initialized hword hname hsign hvalue => exact ⟨_, .initialized hword hname hsign hvalue hsemicolon⟩

theorem Initializing.initial {ts : List Token} (h : Initializing ts) (hsemicolon : semicolon.kind = .semicolon) :
    ∃ s, Initial (ts ++ [semicolon]) (some s) := by
  cases h with
  | declares h =>
    obtain ⟨s, hs⟩ := h.declares hsemicolon
    exact ⟨s, .declares hs⟩
  | expression hvalue => exact ⟨_, .expression hvalue hsemicolon⟩

theorem Lacking.derives (h : Lacking inner after) (hsemicolon : semicolon.kind = .semicolon) :
    ∃ s, Derives (.declaration s) (inner ++ semicolon :: after) := by
  cases h with
  | declares h =>
    obtain ⟨s, hs⟩ := h.declares hsemicolon
    exact ⟨s, .declares hs⟩
  | print hinside hword hvalue =>
    obtain ⟨s, hs⟩ := hinside.derives (.print hword hvalue hsemicolon)
    exact ⟨s, by simpa using Derives.statement hs⟩
  | expression hinside hvalue =>
    obtain ⟨s, hs⟩ := hinside.derives (.expression hvalue hsemicolon)
    exact ⟨s, by simpa using Derives.statement hs⟩
  | initial hinside hword hopening hinitial hcondition hsemicolon' hstep hclosing hbody =>
    obtain ⟨initial, hinitial⟩ := hinitial.initial hsemicolon
    obtain ⟨s, hs⟩ := hinside.derives (.forLoop hword hopening hinitial hcondition hsemicolon' hstep hclosing hbody)
    exact ⟨s, by simpa using Derives.statement hs⟩

/-- Declarations stay declarations with others around them, and in a block. -/
theorem Inside.derives_block {outer : Ending} {before behind : List Token} (h : Inside outer before .closed behind)
    {opening closing : Token} (hopening : opening.kind = .leftBrace) (hclosing : closing.kind = .rightBrace)
    {ts us ws : List Token} {ss ss' body : List Stmt} (hts : Derives (.declarations ss) ts)
    (hbody : Derives (.declarations body) ws) (hus : Derives (.declarations ss') us) :
    ∃ ss, Derives (.declarations ss) (ts ++ (before ++ opening :: (ws ++ closing :: (behind ++ us)))) := by
  obtain ⟨s, hs⟩ := h.derives (.block hopening hbody hclosing)
  exact ⟨_, by simpa using hts.append (.cons (.statement hs) hus)⟩

theorem Gap.derives {front : List Token} (h : Gap Lacking front inner after)
    (hsemicolon : semicolon.kind = .semicolon) : ∃ ss, Derives (.declarations ss) (front ++ (inner ++ semicolon :: after)) := by
  induction h with
  | here hts hlacking hus =>
    obtain ⟨s, hs⟩ := hlacking.derives hsemicolon
    exact ⟨_, by simpa using hts.append (.cons hs hus)⟩
  | block hts hinside hopening _ hclosing hus ih =>
    obtain ⟨body, hbody⟩ := ih
    obtain ⟨ss, hss⟩ := hinside.derives_block hopening hclosing hts hbody hus
    exact ⟨ss, by simpa using hss⟩

end Filled

/-! ## Every semicolon -/

section Cuts

variable {before after : List Token} {semicolon : Token}

/-- The first semicolon comes behind tokens without one. -/
theorem exists_of_append_eq (ts : List Token) {us : List Token} (hts : ∀ t ∈ ts, t.kind ≠ .semicolon)
    (hsemicolon : semicolon.kind = .semicolon) (h : ts ++ us = before ++ semicolon :: after) :
    ∃ mid, before = ts ++ mid ∧ us = mid ++ semicolon :: after := by
  rcases List.append_eq_append_iff.1 h with ⟨mid, hbefore, hus⟩ | ⟨mid, rfl, hus⟩
  · exact ⟨mid, hbefore, hus⟩
  · cases mid with
    | nil => exact ⟨[], by simp, hus.symm⟩
    | cons t mid =>
      obtain ⟨rfl, -⟩ := List.cons.inj hus
      exact absurd hsemicolon (hts _ (by simp))

/-- A semicolon in one of two lists is in the first or in the second. -/
theorem cut_or_cut {ts us : List Token} (h : ts ++ us = before ++ semicolon :: after) :
    (∃ mid, ts = before ++ semicolon :: mid ∧ after = mid ++ us) ∨
      ∃ mid, before = ts ++ mid ∧ us = mid ++ semicolon :: after := by
  rcases List.append_eq_append_iff.1 h with ⟨mid, hbefore, hus⟩ | ⟨mid, rfl, hus⟩
  · exact .inr ⟨mid, hbefore, hus⟩
  · cases mid with
    | nil => exact .inr ⟨[], by simp, hus.symm⟩
    | cons t mid =>
      obtain ⟨rfl, rfl⟩ := List.cons.inj hus
      exact .inl ⟨mid, rfl, rfl⟩

end Cuts

end Lox.Stmt

namespace Lox.Expr

/-- An expression has no semicolon. -/
theorem Derives.kind_ne_semicolon {r : Rung} {ts : List Token} {e : Expr} (h : Derives r ts e) :
    ∀ t ∈ ts, t.kind ≠ .semicolon := by
  induction h with
  | tighter _ ih => exact ih
  | assign hname hsign _ ih => simpa [hname, hsign] using ih
  | @operator r _ _ _ _ _ hmem _ _ ih ih' =>
    have hkind : ∀ kind ∈ r.operators, kind ≠ .semicolon := by cases r <;> decide
    simp only [List.mem_append, List.mem_cons]
    rintro t (ht | rfl | ht)
    · exact ih t ht
    · exact hkind _ hmem
    · exact ih' t ht
  | prefixed hkind _ ih => rcases hkind with hkind | hkind <;> simpa [hkind] using ih
  | @constant t _ hvalue =>
    have hstarts := (starts_of_constant? hvalue).1
    simp only [List.mem_singleton, forall_eq]
    exact fun hkind => by simp [hkind, starts] at hstarts
  | name hkind => simp [hkind]
  | group hopening hclosing _ ih =>
    simp only [List.mem_cons, List.mem_append, List.not_mem_nil, or_false]
    rintro t (rfl | ht | rfl)
    · simp [hopening]
    · exact ih t ht
    · simp [hclosing]

end Lox.Expr

namespace Lox.Stmt

section Every

variable {before after ts : List Token} {semicolon : Token}

theorem Clause.kind_ne_semicolon {clause : Option Expr} (h : Clause ts clause) : ∀ t ∈ ts, t.kind ≠ .semicolon := by
  cases h with
  | absent => simp
  | present h => exact h.kind_ne_semicolon

/-- The semicolon behind tokens without one is the last. -/
theorem eq_of_concat_eq (ts : List Token) {closing : Token} (hts : ∀ t ∈ ts, t.kind ≠ .semicolon)
    (hsemicolon : semicolon.kind = .semicolon) (h : ts ++ [closing] = before ++ semicolon :: after) :
    before = ts ∧ after = [] := by
  obtain ⟨mid, rfl, hmid⟩ := exists_of_append_eq ts hts hsemicolon h
  cases mid with
  | nil => exact ⟨List.append_nil ts, (List.cons.inj hmid).2.symm⟩
  | cons t mid => simp at hmid

theorem Declares.cut {s : Stmt} (h : Declares ts s) (hsemicolon : semicolon.kind = .semicolon)
    (hts : ts = before ++ semicolon :: after) : Declaring before ∧ after = [] := by
  cases h with
  | @bare word name closing hword hname =>
    obtain ⟨rfl, rfl⟩ := eq_of_concat_eq [word, name] (by simp [hword, hname]) hsemicolon hts
    exact ⟨.bare hword hname, rfl⟩
  | @initialized word name sign closing us value hword hname hsign hvalue =>
    have hflat : ∀ t ∈ word :: name :: sign :: us, t.kind ≠ .semicolon := by
      simpa [hword, hname, hsign] using hvalue.kind_ne_semicolon
    obtain ⟨rfl, rfl⟩ := eq_of_concat_eq _ hflat hsemicolon hts
    exact ⟨.initialized hword hname hsign hvalue, rfl⟩

theorem Initial.cut {initial : Option Stmt} (h : Initial ts initial) (hsemicolon : semicolon.kind = .semicolon)
    (hts : ts = before ++ semicolon :: after) : (before = [] ∨ Initializing before) ∧ after = [] := by
  cases h with
  | absent =>
    obtain ⟨rfl, rfl⟩ := eq_of_concat_eq [] (by simp) hsemicolon hts
    exact ⟨.inl rfl, rfl⟩
  | declares h =>
    obtain ⟨hdeclaring, rfl⟩ := h.cut hsemicolon hts
    exact ⟨.inr (.declares hdeclaring), rfl⟩
  | expression hvalue =>
    obtain ⟨rfl, rfl⟩ := eq_of_concat_eq _ hvalue.kind_ne_semicolon hsemicolon hts
    exact ⟨.inr (.expression hvalue), rfl⟩

/-- A declaration more in front. -/
theorem Gap.behind {Place : List Token → List Token → Prop} {front inner : List Token} {s : Stmt}
    (hs : Derives (.declaration s) ts) (h : Gap Place front inner after) : Gap Place (ts ++ front) inner after := by
  cases h with
  | here hfront hplace hus => exact .here (.cons hs hfront) hplace hus
  | block hfront hinside hopening hgap hclosing hus =>
    rw [← List.append_assoc]
    exact .block (.cons hs hfront) hinside hopening hgap hclosing hus

/-- What stands inside of a statement inside of another stands inside of the other. -/
theorem Inside.trans {outer middle inner : Ending} {b b' a a' : List Token} (h : Inside outer b middle a)
    (h' : Inside middle b' inner a') : Inside outer (b ++ b') inner (a' ++ a) := by
  induction h with
  | here => simpa using h'
  | ifThen hword hopening hcondition hclosing _ ih => simpa using Inside.ifThen hword hopening hcondition hclosing (ih h')
  | ifThenElse hword hopening hcondition hclosing _ hotherwise hno ih =>
    simpa using Inside.ifThenElse hword hopening hcondition hclosing (ih h') hotherwise hno
  | otherwise hword hopening hcondition hclosing hyes hotherwise _ ih =>
    simpa using Inside.otherwise hword hopening hcondition hclosing hyes hotherwise (ih h')
  | whileLoop hword hopening hcondition hclosing _ ih =>
    simpa using Inside.whileLoop hword hopening hcondition hclosing (ih h')
  | forLoop hword hopening hinitial hcondition hsemicolon hstep hclosing _ ih =>
    simpa using Inside.forLoop hword hopening hinitial hcondition hsemicolon hstep hclosing (ih h')

/-- The place in a declaration where the semicolon is: in a block, or else at the end of a simple statement or in the header
of a loop. -/
inductive Cut : List Token → List Token → Prop
  | lacking {before after : List Token} : Lacking before after → Cut before after
  | heading {before after : List Token} : Heading before after → Cut before after
  | block {before behind front inner after : List Token} {opening closing : Token} {outer : Ending} :
      Inside outer before .closed behind → opening.kind = .leftBrace → Gap Lacking front inner after ∨
      Gap Heading front inner after → closing.kind = .rightBrace →
      Cut (before ++ opening :: (front ++ inner)) (after ++ closing :: behind)

/-- Every semicolon of the phrase has such a place, whatever the phrase is inside of. -/
def Covered : Phrase → List Token → Prop
  | .declarations _, ts => ∀ (before after : List Token) (semicolon : Token), semicolon.kind = .semicolon →
      ts = before ++ semicolon :: after →
      ∃ front inner, before = front ++ inner ∧ (Gap Lacking front inner after ∨ Gap Heading front inner after)
  | .declaration _, ts => ∀ (before after : List Token) (semicolon : Token), semicolon.kind = .semicolon →
      ts = before ++ semicolon :: after → Cut before after
  | .statement _ ending, ts => ∀ (before after : List Token) (semicolon : Token), semicolon.kind = .semicolon →
      ts = before ++ semicolon :: after → ∀ (outer : Ending) (b a : List Token), Inside outer b ending a →
      Cut (b ++ before) (after ++ a)

end Every

namespace Covered

variable {ts us vs ws : List Token} {word opening closing semicolon : Token} {condition : Expr} {yes no body s : Stmt}
  {ending : Ending}

theorem nil : Covered (.declarations []) [] := by
  intro before after semicolon _ hts
  simp at hts

theorem cons {ss : List Stmt} (hs : Derives (.declaration s) ts) (hss : Derives (.declarations ss) us)
    (h : Covered (.declaration s) ts) (h' : Covered (.declarations ss) us) :
    Covered (.declarations (s :: ss)) (ts ++ us) := by
  intro before after semicolon hsemicolon hts
  rcases cut_or_cut hts with ⟨mid, hfirst, rfl⟩ | ⟨mid, rfl, hmore⟩
  · cases h before mid semicolon hsemicolon hfirst with
    | lacking hlacking => exact ⟨[], before, rfl, .inl (.here .nil hlacking hss)⟩
    | heading hheading => exact ⟨[], before, rfl, .inr (.here .nil hheading hss)⟩
    | @block b behind front inner after opening closing outer hinside hopening hgap hclosing =>
      refine ⟨b ++ opening :: front, inner, by simp, ?_⟩
      rw [List.append_assoc, List.cons_append]
      exact hgap.imp (fun h => .block .nil hinside hopening h hclosing hss)
        fun h => .block .nil hinside hopening h hclosing hss
  · obtain ⟨front, inner, rfl, hgap⟩ := h' mid after semicolon hsemicolon hmore
    exact ⟨ts ++ front, inner, by simp, hgap.imp (Gap.behind hs) (Gap.behind hs)⟩

theorem declares (h : Declares ts s) : Covered (.declaration s) ts := by
  intro before after semicolon hsemicolon hts
  obtain ⟨hdeclaring, rfl⟩ := h.cut hsemicolon hts
  exact .lacking (.declares hdeclaring)

theorem statement (h : Covered (.statement s ending) ts) : Covered (.declaration s) ts := by
  intro before after semicolon hsemicolon hts
  simpa using h before after semicolon hsemicolon hts ending [] [] .here

/-- The header of a conditional or of a `while` loop has no semicolon. -/
theorem exists_behind_header {before after : List Token} (hword : word.kind ≠ .semicolon)
    (hopening : opening.kind = .leftParen) (hcondition : Expr.Derives .assignment ts condition)
    (hclosing : closing.kind = .rightParen) (hsemicolon : semicolon.kind = .semicolon)
    (h : word :: opening :: (ts ++ closing :: us) = before ++ semicolon :: after) :
    ∃ mid, before = word :: opening :: (ts ++ closing :: mid) ∧ us = mid ++ semicolon :: after := by
  have hflat : ∀ t ∈ word :: opening :: (ts ++ [closing]), t.kind ≠ .semicolon := by
    simp only [List.mem_cons, List.mem_append, List.not_mem_nil, or_false]
    rintro t (rfl | rfl | ht | rfl)
    · exact hword
    · simp [hopening]
    · exact hcondition.kind_ne_semicolon t ht
    · simp [hclosing]
  have hsplit : word :: opening :: (ts ++ [closing]) ++ us = before ++ semicolon :: after := by simpa using h
  obtain ⟨mid, rfl, hus⟩ := exists_of_append_eq _ hflat hsemicolon hsplit
  exact ⟨mid, by simp, hus⟩

theorem ifThen (hword : word.kind = .kwIf) (hopening : opening.kind = .leftParen)
    (hcondition : Expr.Derives .assignment ts condition) (hclosing : closing.kind = .rightParen)
    (h : Covered (.statement yes ending) us) :
    Covered (.statement (branch condition yes none) .dangling) (word :: opening :: (ts ++ closing :: us)) := by
  intro before after semicolon hsemicolon hts outer b a hinside
  obtain ⟨mid, rfl, hmid⟩ := exists_behind_header (by simp [hword]) hopening hcondition hclosing hsemicolon hts
  simpa using h mid after semicolon hsemicolon hmid outer _ _
    (hinside.trans (.ifThen hword hopening hcondition hclosing .here))

theorem ifThenElse {otherwise : Token} (hword : word.kind = .kwIf) (hopening : opening.kind = .leftParen)
    (hcondition : Expr.Derives .assignment ts condition) (hclosing : closing.kind = .rightParen)
    (hyes : Derives (.statement yes .closed) us) (hotherwise : otherwise.kind = .kwElse)
    (hno : Derives (.statement no ending) vs) (h : Covered (.statement yes .closed) us)
    (h' : Covered (.statement no ending) vs) :
    Covered (.statement (branch condition yes (some no)) ending)
      (word :: opening :: (ts ++ closing :: (us ++ otherwise :: vs))) := by
  intro before after semicolon hsemicolon hts outer b a hinside
  obtain ⟨mid, rfl, hmid⟩ := exists_behind_header (by simp [hword]) hopening hcondition hclosing hsemicolon hts
  rcases cut_or_cut hmid with ⟨m, hus, rfl⟩ | ⟨m, rfl, hm⟩
  · simpa using h mid m semicolon hsemicolon hus outer _ _
      (hinside.trans (.ifThenElse hword hopening hcondition hclosing .here hotherwise hno))
  · obtain ⟨m, rfl, hvs⟩ := exists_of_append_eq [otherwise] (by simp [hotherwise]) hsemicolon hm
    simpa using h' m after semicolon hsemicolon hvs outer _ _
      (hinside.trans (.otherwise hword hopening hcondition hclosing hyes hotherwise .here))

theorem whileLoop (hword : word.kind = .kwWhile) (hopening : opening.kind = .leftParen)
    (hcondition : Expr.Derives .assignment ts condition) (hclosing : closing.kind = .rightParen)
    (h : Covered (.statement body ending) us) :
    Covered (.statement (loop condition body) ending) (word :: opening :: (ts ++ closing :: us)) := by
  intro before after semicolon hsemicolon hts outer b a hinside
  obtain ⟨mid, rfl, hmid⟩ := exists_behind_header (by simp [hword]) hopening hcondition hclosing hsemicolon hts
  simpa using h mid after semicolon hsemicolon hmid outer _ _
    (hinside.trans (.whileLoop hword hopening hcondition hclosing .here))

theorem forLoop {initial : Option Stmt} {clause step : Option Expr} (hword : word.kind = .kwFor)
    (hopening : opening.kind = .leftParen) (hinitial : Initial ts initial) (hclause : Clause us clause)
    (hsecond : semicolon.kind = .semicolon) (hstep : Clause vs step) (hclosing : closing.kind = .rightParen)
    (hbody : Derives (.statement body ending) ws) (h : Covered (.statement body ending) ws) :
    Covered (.statement (Stmt.forLoop initial clause step body) ending)
      (word :: opening :: (ts ++ (us ++ semicolon :: (vs ++ closing :: ws)))) := by
  intro before after cut hcut hts outer b a hinside
  obtain ⟨mid, rfl, hmid⟩ := exists_of_append_eq [word, opening] (by simp [hword, hopening]) hcut hts
  rcases cut_or_cut hmid with ⟨m, hfirst, rfl⟩ | ⟨m, rfl, hm⟩
  · -- in the first clause, whose last token it is
    obtain ⟨rfl | hinitializing, rfl⟩ := hinitial.cut hcut hfirst
    · simpa using Cut.heading (.initial hinside hword hopening hclause hsecond hstep hclosing hbody)
    · simpa using Cut.lacking (.initial hinside hword hopening hinitializing hclause hsecond hstep hclosing hbody)
  obtain ⟨m, rfl, hsecond'⟩ := exists_of_append_eq _ hclause.kind_ne_semicolon hcut hm
  cases m with
  | nil =>
    obtain ⟨-, rfl⟩ := List.cons.inj hsecond'
    simpa using Cut.heading (.condition hinside hword hopening hinitial hclause hstep hclosing hbody)
  | cons t m =>
    obtain ⟨rfl, hthird⟩ := List.cons.inj hsecond'
    have hflat : ∀ t ∈ vs ++ [closing], t.kind ≠ .semicolon := by
      simp only [List.mem_append, List.mem_singleton]
      rintro t (ht | rfl)
      · exact hstep.kind_ne_semicolon t ht
      · simp [hclosing]
    have hsplit : vs ++ [closing] ++ ws = m ++ cut :: after := by simpa using hthird
    obtain ⟨m, rfl, hws⟩ := exists_of_append_eq _ hflat hcut hsplit
    simpa using h m after cut hcut hws outer _ _
      (hinside.trans (.forLoop hword hopening hinitial hclause hsecond hstep hclosing .here))

theorem print {value : Expr} (hword : word.kind = .kwPrint) (hvalue : Expr.Derives .assignment ts value) :
    Covered (.statement (print value) .closed) (word :: (ts ++ [semicolon])) := by
  intro before after cut hcut hts outer b a hinside
  have hflat : ∀ t ∈ word :: ts, t.kind ≠ .semicolon := by simpa [hword] using hvalue.kind_ne_semicolon
  obtain ⟨rfl, rfl⟩ := eq_of_concat_eq _ hflat hcut hts
  exact .lacking (.print hinside hword hvalue)

theorem expression {value : Expr} (hvalue : Expr.Derives .assignment ts value) :
    Covered (.statement (expression value) .closed) (ts ++ [semicolon]) := by
  intro before after cut hcut hts outer b a hinside
  obtain ⟨rfl, rfl⟩ := eq_of_concat_eq _ hvalue.kind_ne_semicolon hcut hts
  exact .lacking (.expression hinside hvalue)

theorem block {ss : List Stmt} (hopening : opening.kind = .leftBrace) (hclosing : closing.kind = .rightBrace)
    (h : Covered (.declarations ss) ts) : Covered (.statement (block ss) .closed) (opening :: (ts ++ [closing])) := by
  intro before after cut hcut hts outer b a hinside
  obtain ⟨mid, rfl, hmid⟩ := exists_of_append_eq [opening] (by simp [hopening]) hcut hts
  rcases cut_or_cut hmid with ⟨m, hinner, rfl⟩ | ⟨m, rfl, hm⟩
  · obtain ⟨front, inner, rfl, hgap⟩ := h mid m cut hcut hinner
    simpa using Cut.block hinside hopening hgap hclosing
  · obtain ⟨m, rfl, hm⟩ := exists_of_append_eq [closing] (by simp [hclosing]) hcut hm
    simp at hm

end Covered

theorem Derives.covered {p : Phrase} {ts : List Token} (h : Derives p ts) : Covered p ts := by
  induction h with
  | nil => exact .nil
  | cons hs hss ih ih' => exact .cons hs hss ih ih'
  | declares h => exact .declares h
  | statement _ ih => exact .statement ih
  | ifThen hword hopening hcondition hclosing _ ih => exact .ifThen hword hopening hcondition hclosing ih
  | ifThenElse hword hopening hcondition hclosing hyes hotherwise hno ih ih' =>
    exact .ifThenElse hword hopening hcondition hclosing hyes hotherwise hno ih ih'
  | whileLoop hword hopening hcondition hclosing _ ih => exact .whileLoop hword hopening hcondition hclosing ih
  | forLoop hword hopening hinitial hclause hsemicolon hstep hclosing hbody ih =>
    exact .forLoop hword hopening hinitial hclause hsemicolon hstep hclosing hbody ih
  | print hword hvalue _ => exact .print hword hvalue
  | block hopening _ hclosing ih => exact .block hopening hclosing ih
  | expression hvalue _ => exact .expression hvalue

/-- Every semicolon of a program ends a simple statement, or is in the header of a loop and ends none. -/
theorem Derives.gap_lacking_or_heading {ss : List Stmt} {before after : List Token} {semicolon : Token}
    (h : Derives (.declarations ss) (before ++ semicolon :: after)) (hsemicolon : semicolon.kind = .semicolon) :
    ∃ front inner, before = front ++ inner ∧ (Gap Lacking front inner after ∨ Gap Heading front inner after) :=
  h.covered before after semicolon hsemicolon rfl

end Lox.Stmt
