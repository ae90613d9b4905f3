import Lox.Proofs.Expr.Grammar
import Lox.Proofs.Parser.Accept

/-!
The expression parser accepts what the grammar of expressions derives, and builds the tree of the
derivation.

* `parserAt n m r`: the part of `Expr.parser n` that parses expressions of rung `r`.
* `parser_sound`: what the parser accepts is derived.
* `Derives.accepted`: what is derived is accepted, if the token behind it cannot continue an
  expression.

A derivation grows to the left where operators of one rung follow each other, and the parser goes
through them from left to right. In between stands `Chained`: behind the tokens of a derived left
operand the loop is where it would be had it started with the tree of that operand.
-/

namespace Lox.Expr

open Lox.Parser

/-! ## Rungs and levels -/

namespace Rung

/-- the level of an infix rung -/
def level? : Rung → Option Level
  | or => some .or
  | and => some .and
  | equality => some .equality
  | comparison => some .comparison
  | additive => some .additive
  | multiplicative => some .multiplicative
  | assignment | prefixed | primary => none

/-- the levels from a rung on -/
def levels : Rung → List Level
  | assignment | or => Level.ladder
  | and => [.and, .equality, .comparison, .additive, .multiplicative]
  | equality => [.equality, .comparison, .additive, .multiplicative]
  | comparison => [.comparison, .additive, .multiplicative]
  | additive => [.additive, .multiplicative]
  | multiplicative => [.multiplicative]
  | prefixed | primary => []

theorem levels_eq {r : Rung} {l : Level} (h : r.level? = some l) :
    r.levels = l :: r.tighter.levels := by
  cases r <;> simp_all [level?, levels, tighter, Level.ladder]

theorem node_eq {r : Rung} {l : Level} (h : r.level? = some l) : r.node = l.node := by
  cases r <;> simp only [level?, Option.some.injEq, reduceCtorEq] at h <;> subst h <;> rfl

theorem level_notMem_tighter {r : Rung} {l : Level} (h : r.level? = some l) : l ∉ r.tighter.levels := by
  cases r <;> simp only [level?, Option.some.injEq, reduceCtorEq] at h <;> subst h <;> decide

theorem mem_levels_of_tighter {r : Rung} {l : Level} (h : l ∈ r.tighter.levels) : l ∈ r.levels := by
  revert h
  cases r <;> cases l <;> decide

/-- An operator belongs to a rung by the table of levels. -/
theorem mem_operators_iff {r : Rung} {k : TokenKind} :
    k ∈ r.operators ↔ ∃ l, r.level? = some l ∧ Level.of? k = some l := by
  cases r <;> simp only [operators, level?, List.mem_cons, List.not_mem_nil, or_false,
    reduceCtorEq, false_and, exists_false, Option.some.injEq, exists_eq_left'] <;>
    cases k <;> simp [Level.of?]

/-- A token of kind `k` cannot continue an expression of the rung. -/
def Stops (r : Rung) (k : TokenKind) : Prop :=
  (r = assignment → k ≠ .equal) ∧ ∀ l ∈ r.levels, Level.of? k ≠ some l

theorem Stops.tighter {r : Rung} {k : TokenKind} (h : r.Stops k) : r.tighter.Stops k := by
  refine ⟨fun hr => ?_, fun l hl => h.2 l (mem_levels_of_tighter hl)⟩
  cases r <;> simp [Rung.tighter] at hr

end Rung

/-- the part of the expression parser for a rung, with room for `m` prefix operators -/
def parserAt (n m : Nat) : Rung → Parser Expr
  | .assignment => parser n
  | .primary => primary (parser (n - 1))
  | r => climb n r.levels (prefixed (primary (parser (n - 1))) m)

theorem parserAt_of_level {r : Rung} {l : Level} (h : r.level? = some l) (n m : Nat) :
    parserAt n m r = chain n l (parserAt n m r.tighter) := by
  cases r <;> simp only [Rung.level?, Option.some.injEq, reduceCtorEq] at h <;> subst h <;> rfl

/-! ## What is accepted is derived -/

/-- What the parser accepts is an expression of the rung. -/
def Sound (p : Parser Expr) (r : Rung) : Prop :=
  ∀ (ts rest : List Token) (e : Expr), Accepts p ts e rest → ∃ us, ts = us ++ rest ∧ Derives r us e

theorem of?_endMark (l : Level) : decide (Level.of? .endMark = some l) = false := by simp [Level.of?]

theorem isPrefixOperator_iff {k : TokenKind} : isPrefixOperator k = true ↔ k = .bang ∨ k = .minus := by
  cases k <;> simp [isPrefixOperator]

theorem primary_sound {inside : Parser Expr} (h : Sound inside .assignment) :
    Sound (primary inside) .primary := by
  intro ts rest e hp
  obtain ⟨t, us, rfl, hprimary⟩ := accepts_peek_bind_iff.1 hp
  split at hprimary
  · rename_i value hvalue
    have hkind : t.kind ≠ .endMark := fun hk => by simp [Token.constant?, hk] at hvalue
    have hpure := (accepts_skip_bind_iff hkind).1 hprimary
    obtain ⟨rfl, rfl⟩ := accepts_pure_iff.1 hpure
    exact ⟨[t], rfl, .constant hvalue⟩
  · split at hprimary
    · rename_i hkind
      have hpure := (accepts_skip_bind_iff (by simp [hkind])).1 hprimary
      obtain ⟨rfl, rfl⟩ := accepts_pure_iff.1 hpure
      exact ⟨[t], rfl, .name hkind⟩
    · rename_i hkind
      have hgroup := (accepts_skip_bind_iff (by simp [hkind])).1 hprimary
      obtain ⟨inner, mid, hinside, hclose⟩ := accepts_bind_iff.1 hgroup
      obtain ⟨vs, rfl, hderives⟩ := h _ _ _ hinside
      obtain ⟨closing, ws, rfl, hkind', hpure⟩ := (accepts_expect_bind_iff (by simp)).1 hclose
      obtain ⟨rfl, rfl⟩ := accepts_pure_iff.1 hpure
      exact ⟨t :: (vs ++ [closing]), by simp, .group hkind hkind' hderives⟩
    · exact absurd hprimary not_accepts_fail

theorem prefixed_sound {operand : Parser Expr} (h : Sound operand .primary) (n : Nat) :
    Sound (prefixed operand n) .prefixed := by
  induction n with
  | zero =>
    intro ts rest e hp
    exact absurd hp not_accepts_overrun
  | succ n ih =>
    intro ts rest e hp
    obtain ⟨t, us, rfl, ⟨hkind, hmore⟩ | ⟨-, hmore⟩⟩ := (accepts_acceptAny_bind_iff rfl).1 hp
    · obtain ⟨e', mid, hoperand, hpure⟩ := accepts_bind_iff.1 hmore
      obtain ⟨vs, rfl, hderives⟩ := ih _ _ _ hoperand
      obtain ⟨rfl, rfl⟩ := accepts_pure_iff.1 hpure
      exact ⟨t :: vs, rfl, .prefixed (isPrefixOperator_iff.1 hkind) hderives⟩
    · obtain ⟨vs, hvs, hderives⟩ := h _ _ _ hmore
      exact ⟨vs, hvs, .tighter hderives⟩

/-- The loop over the operators of a rung extends what is derived already to the left of it. -/
theorem chainTail_sound {r : Rung} {l : Level} (hl : r.level? = some l) {operand : Parser Expr}
    (h : Sound operand r.tighter) (n : Nat) {ts us rest : List Token} {left e : Expr}
    (hleft : Derives r us left) (hp : Accepts (chainTail l operand n left) ts e rest) :
    ∃ vs, ts = vs ++ rest ∧ Derives r (us ++ vs) e := by
  induction n generalizing ts us left with
  | zero => exact absurd hp not_accepts_overrun
  | succ n ih =>
    obtain ⟨t, ws, rfl, ⟨hkind, hmore⟩ | ⟨-, hmore⟩⟩ :=
      (accepts_acceptAny_bind_iff (of?_endMark l)).1 hp
    · obtain ⟨right, mid, hoperand, htail⟩ := accepts_bind_iff.1 hmore
      obtain ⟨vs, rfl, hright⟩ := h _ _ _ hoperand
      have hmem : t.kind ∈ r.operators := Rung.mem_operators_iff.2 ⟨l, hl, by simpa using hkind⟩
      have hnode := Derives.operator hmem hleft hright
      rw [Rung.node_eq hl] at hnode
      obtain ⟨ws, rfl, hderives⟩ := ih hnode htail
      exact ⟨t :: (vs ++ ws), by simp, by simpa using hderives⟩
    · obtain ⟨rfl, rfl⟩ := accepts_pure_iff.1 hmore
      exact ⟨[], rfl, by simpa using hleft⟩

theorem chain_sound {r : Rung} {l : Level} (hl : r.level? = some l) {operand : Parser Expr}
    (h : Sound operand r.tighter) (n : Nat) : Sound (chain n l operand) r := by
  intro ts rest e hp
  obtain ⟨left, mid, hoperand, htail⟩ := accepts_bind_iff.1 hp
  obtain ⟨us, rfl, hleft⟩ := h _ _ _ hoperand
  obtain ⟨vs, rfl, hderives⟩ := chainTail_sound hl h n (.tighter hleft) htail
  exact ⟨us ++ vs, by simp, hderives⟩

theorem assignment_sound {value target : Parser Expr} (hvalue : Sound value .assignment)
    (htarget : Sound target .or) :
    Sound (assignment value target) .assignment := by
  intro ts rest e hp
  obtain ⟨left, mid, hleft, hmore⟩ := accepts_bind_iff.1 hp
  obtain ⟨us, rfl, hus⟩ := htarget _ _ _ hleft
  obtain ⟨sign, vs, rfl, ⟨hkind, hright⟩ | ⟨-, hpure⟩⟩ := (accepts_acceptAny_bind_iff rfl).1 hmore
  · obtain ⟨right, mid, hright, hbuild⟩ := accepts_bind_iff.1 hright
    obtain ⟨ws, rfl, hws⟩ := hvalue _ _ _ hright
    split at hbuild
    · rename_i name
      obtain ⟨rfl, rfl⟩ := accepts_pure_iff.1 hbuild
      obtain ⟨rfl, hname⟩ := hus.eq_of_reference
      exact ⟨name :: sign :: ws, by simp, .assign hname (by simpa using hkind) hws⟩
    · obtain ⟨_, mid, hcomplain, -⟩ := accepts_bind_iff.1 hbuild
      exact absurd hcomplain not_accepts_complain
  · obtain ⟨rfl, rfl⟩ := accepts_pure_iff.1 hpure
    exact ⟨us, rfl, .tighter hus⟩

/-- What the parser of the loosest infix rung accepts is derived, if this holds inside parentheses. -/
theorem parserAt_or_sound {n m : Nat} (h : Sound (parser (n - 1)) .assignment) :
    Sound (parserAt n m .or) .or := by
  have hstep : ∀ (r : Rung) (l : Level), r.level? = some l → Sound (parserAt n m r.tighter) r.tighter →
      Sound (parserAt n m r) r := by
    intro r l hl htighter
    rw [parserAt_of_level hl]
    exact chain_sound hl htighter n
  have hprefixed : Sound (parserAt n m .prefixed) .prefixed := prefixed_sound (primary_sound h) m
  have hmultiplicative := hstep .multiplicative _ rfl hprefixed
  have hadditive := hstep .additive _ rfl hmultiplicative
  have hcomparison := hstep .comparison _ rfl hadditive
  have hequality := hstep .equality _ rfl hcomparison
  have hand := hstep .and _ rfl hequality
  exact hstep .or _ rfl hand

/-- What the expression parser accepts is an expression. -/
theorem parser_sound (n : Nat) : Sound (parser n) .assignment := by
  induction n with
  | zero =>
    intro ts rest e hp
    exact absurd hp not_accepts_overrun
  | succ n ih => exact assignment_sound ih (parserAt_or_sound ih)

/-! ## What is derived is accepted -/

/-- The parser of the rung makes `e` of the tokens `ts`, whatever comes behind them that cannot
continue them. -/
def Accepted (r : Rung) (ts : List Token) (e : Expr) : Prop :=
  ∀ (n m : Nat) (t : Token) (rest : List Token), ts.length + rest.length < n →
    ts.length + rest.length < m → r.Stops t.kind →
    Accepts (parserAt n m r) (ts ++ t :: rest) e (t :: rest)

/-- On an infix rung, the loop comes to the end of the tokens `ts` with `e` as its left operand,
whatever comes behind them that cannot continue their last operand. -/
def Chained (r : Rung) (ts : List Token) (e : Expr) : Prop :=
  ∀ (l : Level), r.level? = some l → ∀ (n m : Nat) (t : Token) (rest : List Token),
    ts.length + rest.length < n → ts.length + rest.length < m → r.tighter.Stops t.kind →
    ∃ k, rest.length < k ∧
      chain n l (parserAt n m r.tighter) (ts ++ t :: rest) =
        chainTail l (parserAt n m r.tighter) k e (t :: rest)

theorem Chained.of_tighter {r : Rung} {ts : List Token} {e : Expr} (h : Accepted r.tighter ts e) :
    Chained r ts e := by
  intro l _ n m t rest hn hm hstops
  exact ⟨n, by omega, bind_of_accepts (h n m t rest hn hm hstops)⟩

theorem Chained.operator {r : Rung} {operator : Token} {ts us : List Token} {left right : Expr}
    (hop : operator.kind ∈ r.operators) (hleft : Chained r ts left)
    (hright : Accepted r.tighter us right) :
    Chained r (ts ++ operator :: us) (r.node left operator right) := by
  intro l hl n m t rest hn hm hstops
  obtain ⟨l', hl', hkind⟩ := Rung.mem_operators_iff.1 hop
  obtain rfl : l' = l := Option.some.inj (hl'.symm.trans hl)
  have hopstops : r.tighter.Stops operator.kind := by
    refine ⟨fun hr => ?_, fun l'' hl'' h => ?_⟩
    · cases r <;> simp [Rung.tighter] at hr
    · rw [hkind, Option.some.injEq] at h
      exact Rung.level_notMem_tighter hl (h ▸ hl'')
  simp only [List.length_append, List.length_cons] at hn hm
  obtain ⟨k, hk, hchain⟩ :=
    hleft l' hl n m operator (us ++ t :: rest) (by simp; omega) (by simp; omega) hopstops
  simp only [List.length_append, List.length_cons] at hk
  obtain ⟨k, rfl⟩ : ∃ i, k = i + 1 := ⟨k - 1, by omega⟩
  refine ⟨k, by omega, ?_⟩
  have hfound : Accepts (acceptAny (Level.of? · = some l')) (operator :: (us ++ t :: rest))
      (some operator) (us ++ t :: rest) :=
    accepts_acceptAny_some (of?_endMark l') (by simpa using hkind) _
  have hoperand := hright n m t rest (by omega) (by omega) hstops
  rw [List.append_assoc, List.cons_append, hchain, Rung.node_eq hl]
  exact (bind_of_accepts hfound).trans (bind_of_accepts hoperand)

theorem Chained.accepted {r : Rung} {l : Level} (hl : r.level? = some l) {ts : List Token} {e : Expr}
    (h : Chained r ts e) : Accepted r ts e := by
  intro n m t rest hn hm hstops
  obtain ⟨k, hk, hchain⟩ := h l hl n m t rest hn hm hstops.tighter
  obtain ⟨k, rfl⟩ : ∃ i, k = i + 1 := ⟨k - 1, by omega⟩
  have hl' : l ∈ r.levels := by rw [Rung.levels_eq hl]; exact List.mem_cons_self
  have hnone : Accepts (acceptAny (Level.of? · = some l)) (t :: rest) none (t :: rest) :=
    accepts_acceptAny_none (of?_endMark l) (by simpa using hstops.2 l hl') rest
  rw [parserAt_of_level hl]
  exact hchain.trans (bind_of_accepts hnone)

theorem Accepted.assignment {ts : List Token} {e : Expr} (h : Accepted .or ts e) :
    Accepted .assignment ts e := by
  intro n m t rest hn hm hstops
  obtain ⟨n, rfl⟩ : ∃ k, n = k + 1 := ⟨n - 1, by omega⟩
  have hleft := h (n + 1) (n + 1) t rest hn hn hstops.tighter
  have hnone : Accepts (accept .equal) (t :: rest) none (t :: rest) :=
    accepts_acceptAny_none rfl (by simpa using hstops.1 rfl) rest
  exact hleft.bind (hnone.bind (accepts_pure_iff.2 ⟨rfl, rfl⟩))

theorem Accepted.bare {ts : List Token} {e : Expr} (hts : Derives .primary ts e)
    (h : Accepted .primary ts e) :
    Accepted .prefixed ts e := by
  intro n m t rest hn hm hstops
  obtain ⟨m, rfl⟩ : ∃ k, m = k + 1 := ⟨m - 1, by omega⟩
  obtain ⟨u, us, rfl, -, hplain⟩ := hts.first
  have hnone : Accepts (acceptAny isPrefixOperator) (u :: us ++ t :: rest) none
      (u :: us ++ t :: rest) :=
    accepts_acceptAny_none rfl (hplain rfl) _
  exact hnone.bind (h n (m + 1) t rest hn hm hstops.tighter)

theorem Accepted.prefixed {operator : Token} {ts : List Token} {operand : Expr}
    (hop : operator.kind = .bang ∨ operator.kind = .minus) (h : Accepted .prefixed ts operand) :
    Accepted .prefixed (operator :: ts) (.unary operator operand) := by
  intro n m t rest hn hm hstops
  simp only [List.length_cons] at hn hm
  obtain ⟨m, rfl⟩ : ∃ k, m = k + 1 := ⟨m - 1, by omega⟩
  have hfound : Accepts (acceptAny isPrefixOperator) (operator :: (ts ++ t :: rest))
      (some operator) (ts ++ t :: rest) :=
    accepts_acceptAny_some rfl (isPrefixOperator_iff.2 hop) _
  have hoperand := h n m t rest (by omega) (by omega) hstops
  exact hfound.bind (hoperand.bind (accepts_pure_iff.2 ⟨rfl, rfl⟩))

/-- An expression of a tighter rung is accepted as one of the next looser. -/
theorem Accepted.of_tighter {r : Rung} {ts : List Token} {e : Expr} (hts : Derives r.tighter ts e)
    (h : Accepted r.tighter ts e) : Accepted r ts e := by
  cases hl : r.level? with
  | some l => exact (Chained.of_tighter h).accepted hl
  | none =>
    cases r with
    | assignment => exact h.assignment
    | prefixed => exact Accepted.bare hts h
    | primary => exact h
    | _ => cases hl

theorem Accepted.constant {t : Token} {value : Value} (h : t.constant? = some value) :
    Accepted .primary [t] (.literal value) := by
  intro n m u rest hn hm hstops
  have hkind : t.kind ≠ .endMark := fun hk => by simp [Token.constant?, hk] at h
  refine accepts_peek_bind_iff.2 ⟨t, u :: rest, rfl, ?_⟩
  simp only [h]
  exact (accepts_skip_bind_iff hkind).2 (accepts_pure_iff.2 ⟨rfl, rfl⟩)

theorem Accepted.name {t : Token} (h : t.kind = .identifier) :
    Accepted .primary [t] (.reference t) := by
  intro n m u rest hn hm hstops
  have hconstant : t.constant? = none := by simp [Token.constant?, h]
  refine accepts_peek_bind_iff.2 ⟨t, u :: rest, rfl, ?_⟩
  simp only [hconstant, h]
  exact (accepts_skip_bind_iff (by simp [h])).2 (accepts_pure_iff.2 ⟨rfl, rfl⟩)

theorem Rung.stops_rightParen (r : Rung) : r.Stops .rightParen := by simp [Rung.Stops, Level.of?]

theorem Rung.stops_semicolon (r : Rung) : r.Stops .semicolon := by simp [Rung.Stops, Level.of?]

theorem Rung.stops_endMark (r : Rung) : r.Stops .endMark := by simp [Rung.Stops, Level.of?]

theorem Accepted.group {opening closing : Token} {ts : List Token} {inner : Expr}
    (hopening : opening.kind = .leftParen) (hclosing : closing.kind = .rightParen)
    (h : Accepted .assignment ts inner) :
    Accepted .primary (opening :: (ts ++ [closing])) (.group inner) := by
  intro n m t rest hn hm hstops
  simp only [List.length_cons, List.length_append, List.length_nil] at hn
  have hconstant : opening.constant? = none := by simp [Token.constant?, hopening]
  have hinside := h (n - 1) (n - 1) closing (t :: rest) (by simp; omega) (by simp; omega)
    (hclosing ▸ Rung.stops_rightParen _)
  refine accepts_peek_bind_iff.2 ⟨opening, ts ++ closing :: t :: rest, by simp, ?_⟩
  simp only [hconstant, hopening]
  exact (accepts_skip_bind_iff (by simp [hopening])).2
    (hinside.bind (accepts_expect_bind (by simp) hclosing (accepts_pure_iff.2 ⟨rfl, rfl⟩)))

/-- A name alone is accepted as the left side of an assignment. -/
theorem Accepted.target {name : Token} (h : name.kind = .identifier) :
    Accepted .or [name] (.reference name) := by
  have hstep : ∀ r : Rung,
      Derives r.tighter [name] (.reference name) ∧ Accepted r.tighter [name] (.reference name) →
      Derives r [name] (.reference name) ∧ Accepted r [name] (.reference name) := fun r hr =>
    ⟨.tighter hr.1, .of_tighter hr.1 hr.2⟩
  have hprefixed := hstep .prefixed ⟨.name h, .name h⟩
  have hcomparison := hstep .comparison (hstep .additive (hstep .multiplicative hprefixed))
  exact (hstep .or (hstep .and (hstep .equality hcomparison))).2

theorem Accepted.assign {name sign : Token} {ts : List Token} {value : Expr}
    (hname : name.kind = .identifier) (hsign : sign.kind = .equal)
    (h : Accepted .assignment ts value) :
    Accepted .assignment (name :: sign :: ts) (.assign name value) := by
  intro n m t rest hn hm hstops
  simp only [List.length_cons] at hn
  obtain ⟨n, rfl⟩ : ∃ k, n = k + 1 := ⟨n - 1, by omega⟩
  have hsigns : Rung.Stops .or sign.kind := by simp [Rung.Stops, hsign, Level.of?]
  have hleft := Accepted.target hname (n + 1) (n + 1) sign (ts ++ t :: rest) (by simp; omega)
    (by simp; omega) hsigns
  have hfound : Accepts (accept .equal) (sign :: (ts ++ t :: rest)) (some sign) (ts ++ t :: rest) :=
    accepts_acceptAny_some rfl (by simpa using hsign) _
  have hvalue := h n n t rest (by omega) (by omega) hstops
  exact hleft.bind (hfound.bind (hvalue.bind (accepts_pure_iff.2 ⟨rfl, rfl⟩)))

/-- What is derived on a rung is accepted there, and on an infix rung it can also start a chain. -/
theorem Derives.accepted_and_chained {r : Rung} {ts : List Token} {e : Expr} (h : Derives r ts e) :
    Accepted r ts e ∧ Chained r ts e := by
  induction h with
  | tighter hts ih => exact ⟨.of_tighter hts ih.1, .of_tighter ih.1⟩
  | assign hname hsign _ ih => exact ⟨.assign hname hsign ih.1, nofun⟩
  | operator hop _ _ ihleft ihright =>
    have hchained := Chained.operator hop ihleft.2 ihright.1
    obtain ⟨l, hl, -⟩ := Rung.mem_operators_iff.1 hop
    exact ⟨hchained.accepted hl, hchained⟩
  | prefixed hop _ ih => exact ⟨.prefixed hop ih.1, nofun⟩
  | constant h => exact ⟨.constant h, nofun⟩
  | name h => exact ⟨.name h, nofun⟩
  | group hopening hclosing _ ih => exact ⟨.group hopening hclosing ih.1, nofun⟩

/-- What is derived is accepted, if the token behind it cannot continue an expression. -/
theorem Derives.accepted {ts : List Token} {e : Expr} (h : Derives .assignment ts e) {n : Nat}
    {t : Token} {rest : List Token} (hn : ts.length + rest.length < n)
    (ht : Rung.Stops .assignment t.kind) :
    Accepts (parser n) (ts ++ t :: rest) e (t :: rest) :=
  h.accepted_and_chained.1 n n t rest hn hn ht

/-! ## Whole expressions -/

/-- Tokens that are an expression are parsed to its tree without an error. -/
theorem Derives.parse_eq {ts : List Token} {e : Expr} (h : Derives .assignment ts e) {mark : Token}
    (hmark : mark.kind = .endMark) : parse (ts ++ [mark]) = ⟨some e, [], none⟩ := by
  refine run_eq_iff.2 ⟨by simp, [mark], ?_⟩
  have hparser : Accepts (parser (ts ++ [mark]).length) (ts ++ [mark]) e [mark] :=
    h.accepted (by simp) (hmark ▸ Rung.stops_endMark _)
  refine hparser.bind (accepts_peek_bind_iff.2 ⟨mark, [], rfl, ?_⟩)
  rw [if_pos hmark]
  exact accepts_pure_iff.2 ⟨rfl, rfl⟩

/-- Tokens with one end mark, in last position, that are parsed without an error are an expression
with the resulting tree. -/
theorem derives_of_parse_eq {ts : List Token} {mark : Token} (hts : ∀ t ∈ ts, t.kind ≠ .endMark)
    {e : Expr} (h : parse (ts ++ [mark]) = ⟨some e, [], none⟩) : Derives .assignment ts e := by
  obtain ⟨-, rest, hwhole⟩ := run_eq_iff.1 h
  obtain ⟨e', mid, hparser, hend⟩ := accepts_bind_iff.1 hwhole
  obtain ⟨us, hus, hderives⟩ := parser_sound _ _ _ _ hparser
  obtain ⟨t, vs, rfl, hpure⟩ := accepts_peek_bind_iff.1 hend
  split at hpure
  · rename_i ht
    obtain ⟨rfl, -⟩ := accepts_pure_iff.1 hpure
    obtain ⟨rfl, -, -⟩ := eq_of_append_endMark hts ht hus
    exact hderives
  · exact absurd hpure not_accepts_fail

end Lox.Expr
