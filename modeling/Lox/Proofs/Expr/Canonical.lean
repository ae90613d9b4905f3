import Lox.Proofs.Expr.Recognition
import Mathlib.Data.List.Forall2

/-!
Canonical trees: those that need no parentheses beyond the ones they have.

* `rank e`: how tightly the root of `e` binds, from `0` for an assignment to `8` for what stands by
  itself.
* `Canonical e`: every operand of `e` binds tightly enough for its place, and operators and names
  are tokens of the right kind.
* `flat e`, `Spells e ts`: what stands in the tokens of `e` from left to right, and that the tokens
  `ts` are just this.

The grammar derives exactly the canonical trees from the tokens that spell them (`derives_iff`), so
the parser of whole expressions gives a canonical tree for exactly these tokens.
-/

namespace Lox.Expr

open Lox.Parser

/-! ## Definitions -/

/-- how tightly an infix operator binds; `0` for what is none -/
def operatorRank : TokenKind → Nat
  | .kwOr => 1
  | .kwAnd => 2
  | .bangEqual | .equalEqual => 3
  | .greater | .greaterEqual | .less | .lessEqual => 4
  | .minus | .plus => 5
  | .slash | .star => 6
  | _ => 0

/-- how tightly the root of a tree binds -/
def rank : Expr → Nat
  | assign _ _ => 0
  | logical _ operator _ => operatorRank operator.kind
  | binary _ operator _ => operatorRank operator.kind
  | unary _ _ => 7
  | literal _ | reference _ | group _ => 8

/-- Every operand binds as tightly as its operator, a right one more tightly, and the tokens are of
the kinds their places ask for. An assignment, which binds least, is then the whole, in parentheses,
or the value of another. -/
def Canonical : Expr → Prop
  | literal _ => True
  | reference name => name.kind = .identifier
  | assign name value => name.kind = .identifier ∧ Canonical value
  | unary operator operand => (operator.kind = .bang ∨ operator.kind = .minus) ∧ 7 ≤ operand.rank ∧
      Canonical operand
  | binary left operator right => 3 ≤ operatorRank operator.kind ∧
      operatorRank operator.kind ≤ left.rank ∧ operatorRank operator.kind < right.rank ∧
      Canonical left ∧ Canonical right
  | logical left operator right => (operator.kind = .kwOr ∨ operator.kind = .kwAnd) ∧
      operatorRank operator.kind ≤ left.rank ∧ operatorRank operator.kind < right.rank ∧
      Canonical left ∧ Canonical right
  | group inner => Canonical inner

/-- What a tree says about one of its tokens: which one it is, its kind, or the value it stands for. -/
inductive Piece where
  | token (t : Token)
  | kind (k : TokenKind)
  | constant (value : Value)
deriving DecidableEq

/-- The token is what the piece says. -/
def Piece.Fits : Piece → Token → Prop
  | token t, u => t = u
  | kind k, u => u.kind = k
  | constant value, u => u.constant? = some value

/-- the pieces of a tree from left to right -/
def flat : Expr → List Piece
  | literal value => [.constant value]
  | reference name => [.token name]
  | assign name value => .token name :: .kind .equal :: flat value
  | unary operator operand => .token operator :: flat operand
  | binary left operator right => flat left ++ .token operator :: flat right
  | logical left operator right => flat left ++ .token operator :: flat right
  | group inner => .kind .leftParen :: (flat inner ++ [.kind .rightParen])

/-- The tokens are those of the tree, one for each piece and in the same order. -/
def Spells (e : Expr) (ts : List Token) : Prop := List.Forall₂ Piece.Fits e.flat ts

instance decidableCanonical : (e : Expr) → Decidable e.Canonical
  | literal _ => isTrue trivial
  | reference name => inferInstanceAs (Decidable (name.kind = _))
  | assign _ value =>
    have := decidableCanonical value
    inferInstanceAs (Decidable (_ ∧ _))
  | unary _ operand =>
    have := decidableCanonical operand
    inferInstanceAs (Decidable (_ ∧ _))
  | binary left _ right =>
    have := decidableCanonical left
    have := decidableCanonical right
    inferInstanceAs (Decidable (_ ∧ _))
  | logical left _ right =>
    have := decidableCanonical left
    have := decidableCanonical right
    inferInstanceAs (Decidable (_ ∧ _))
  | group inner => decidableCanonical inner

/-! ## Ranks and rungs -/

/-- how tightly the expressions of a rung bind at least -/
def Rung.rank : Rung → Nat
  | assignment => 0
  | or => 1
  | and => 2
  | equality => 3
  | comparison => 4
  | additive => 5
  | multiplicative => 6
  | prefixed => 7
  | primary => 8

theorem Rung.rank_le_tighter (r : Rung) : r.rank ≤ r.tighter.rank := by cases r <;> decide

theorem Rung.rank_lt_tighter {r : Rung} {k : TokenKind} (h : k ∈ r.operators) :
    r.rank < r.tighter.rank := by
  cases r <;> simp [operators] at h <;> decide

theorem Rung.operatorRank_eq {r : Rung} {k : TokenKind} (h : k ∈ r.operators) :
    operatorRank k = r.rank := by
  cases r <;> simp only [operators, List.mem_cons, List.not_mem_nil, or_false] at h <;>
    rcases h with rfl | rfl | rfl | rfl <;> rfl

/-- the rung of an infix operator -/
def Rung.of : TokenKind → Rung
  | .kwOr => or
  | .kwAnd => and
  | .bangEqual | .equalEqual => equality
  | .greater | .greaterEqual | .less | .lessEqual => comparison
  | .minus | .plus => additive
  | .slash | .star => multiplicative
  | _ => primary

theorem Rung.mem_operators_of {k : TokenKind} (h : 0 < operatorRank k) : k ∈ (of k).operators := by
  cases k <;> first | simp [operatorRank] at h; done | simp [of, operators]

theorem Rung.node_of_binary {k : TokenKind} (h : 3 ≤ operatorRank k) : (of k).node = binary := by
  cases k <;> first | simp [operatorRank] at h; done | rfl

theorem Rung.node_of_logical {k : TokenKind} (h : k = .kwOr ∨ k = .kwAnd) : (of k).node = logical := by
  rcases h with rfl | rfl <;> rfl

theorem Rung.rank_tighter {r : Rung} (h : r.rank < 8) : r.tighter.rank = r.rank + 1 := by
  cases r <;> first | rfl | simp [rank] at h

theorem Rung.rank_le_eight (r : Rung) : r.rank ≤ 8 := by cases r <;> decide

theorem Rung.rank_inj {r r' : Rung} (h : r.rank = r'.rank) : r = r' := by
  cases r <;> cases r' <;> first | rfl | simp [rank] at h

/-- An expression of a rung is one of every looser rung. -/
theorem Derives.mono {r r' : Rung} {ts : List Token} {e : Expr} (h : Derives r ts e)
    (hr : r'.rank ≤ r.rank) :
    Derives r' ts e := by
  obtain ⟨k, hk⟩ := Nat.exists_eq_add_of_le hr
  induction k generalizing r' with
  | zero =>
    obtain rfl := Rung.rank_inj hk
    exact h
  | succ k ih =>
    have hle := r.rank_le_eight
    have htighter : r'.tighter.rank = r'.rank + 1 := Rung.rank_tighter (by omega)
    exact .tighter (ih (by omega) (by omega))

/-! ## Derivations are spellings -/

theorem rank_node {r : Rung} {left right : Expr} {operator : Token} :
    (r.node left operator right).rank = operatorRank operator.kind := by
  cases r <;> rfl

theorem flat_node {r : Rung} {left right : Expr} {operator : Token} :
    (r.node left operator right).flat = left.flat ++ .token operator :: right.flat := by
  cases r <;> rfl

theorem canonical_node {r : Rung} {left right : Expr} {operator : Token}
    (hop : operator.kind ∈ r.operators) (hleft : left.Canonical) (hright : right.Canonical)
    (hl : r.rank ≤ left.rank) (hr : r.rank < right.rank) :
    (r.node left operator right).Canonical := by
  have hrank := Rung.operatorRank_eq hop
  rw [← hrank] at hl hr
  cases r <;> simp only [Rung.operators, List.not_mem_nil] at hop
  · exact ⟨.inl (by simpa using hop), hl, hr, hleft, hright⟩
  · exact ⟨.inr (by simpa using hop), hl, hr, hleft, hright⟩
  all_goals exact ⟨by simp [hrank, Rung.rank], hl, hr, hleft, hright⟩

/-- A derived tree is canonical, binds as tightly as its rung asks, and its tokens spell it. -/
theorem Derives.canonical {r : Rung} {ts : List Token} {e : Expr} (h : Derives r ts e) :
    e.Canonical ∧ r.rank ≤ e.rank ∧ e.Spells ts := by
  induction h with
  | @tighter r _ _ _ ih => exact ⟨ih.1, Nat.le_trans r.rank_le_tighter ih.2.1, ih.2.2⟩
  | assign hname hsign _ ih => exact ⟨⟨hname, ih.1⟩, Nat.zero_le _, .cons rfl (.cons hsign ih.2.2)⟩
  | @operator r operator ts us left right hop _ _ ihleft ihright =>
    obtain ⟨hleft, hl, hts⟩ := ihleft
    obtain ⟨hright, hr, hus⟩ := ihright
    refine ⟨canonical_node hop hleft hright hl (Nat.lt_of_lt_of_le (Rung.rank_lt_tighter hop) hr),
      ?_, ?_⟩
    · exact Nat.le_of_eq (by rw [rank_node, Rung.operatorRank_eq hop])
    · rw [Spells, flat_node]
      exact List.rel_append hts (.cons rfl hus)
  | prefixed hop _ ih => exact ⟨⟨hop, ih.2.1, ih.1⟩, Nat.le_refl _, .cons rfl ih.2.2⟩
  | constant h => exact ⟨trivial, Nat.le_refl _, .cons h .nil⟩
  | name h => exact ⟨h, Nat.le_refl _, .cons rfl .nil⟩
  | group hopening hclosing _ ih =>
    exact ⟨ih.1, Nat.le_refl _, .cons hopening (List.rel_append ih.2.2 (.cons hclosing .nil))⟩

/-! ## Spellings are derivations -/

theorem spells_append_iff {ps qs : List Piece} {ts : List Token} :
    List.Forall₂ Piece.Fits (ps ++ qs) ts ↔
      ∃ us vs, ts = us ++ vs ∧ List.Forall₂ Piece.Fits ps us ∧ List.Forall₂ Piece.Fits qs vs := by
  constructor
  · intro h
    induction ps generalizing ts with
    | nil => exact ⟨[], ts, rfl, .nil, h⟩
    | cons p ps ih =>
      obtain ⟨t, ts, hp, hts, rfl⟩ := List.forall₂_cons_left_iff.1 h
      obtain ⟨us, vs, rfl, hus, hvs⟩ := ih hts
      exact ⟨t :: us, vs, rfl, .cons hp hus, hvs⟩
  · rintro ⟨us, vs, rfl, hus, hvs⟩
    exact List.rel_append hus hvs

/-- An operator between the tokens of two operands that bind tightly enough makes the node of its
rung. -/
theorem derives_node {left right : Expr} {operator : Token} {ts : List Token}
    (hop : 0 < operatorRank operator.kind) (hl : operatorRank operator.kind ≤ left.rank)
    (hr : operatorRank operator.kind < right.rank)
    (hleft : ∀ {r : Rung} {ts : List Token}, r.rank ≤ left.rank → left.Spells ts → Derives r ts left)
    (hright : ∀ {r : Rung} {ts : List Token}, r.rank ≤ right.rank → right.Spells ts →
      Derives r ts right)
    (h : List.Forall₂ Piece.Fits (left.flat ++ .token operator :: right.flat) ts) :
    Derives (.of operator.kind) ts ((Rung.of operator.kind).node left operator right) := by
  have hmem := Rung.mem_operators_of hop
  rw [Rung.operatorRank_eq hmem] at hl hr
  obtain ⟨us, vs, rfl, hus, hright'⟩ := spells_append_iff.1 h
  obtain ⟨_, vs, rfl, hvs, rfl⟩ := List.forall₂_cons_left_iff.1 hright'
  have htighter : (Rung.of operator.kind).tighter.rank ≤ right.rank := by
    by_cases h8 : (Rung.of operator.kind).rank < 8
    · rw [Rung.rank_tighter h8]
      exact hr
    · have := (Rung.of operator.kind).tighter.rank_le_eight
      omega
  exact .operator hmem (hleft hl hus) (hright htighter hvs)

/-- Tokens that spell a canonical tree are an expression with this tree, on every rung that it binds
tightly enough for. -/
theorem Canonical.derives {e : Expr} (he : e.Canonical) {r : Rung} {ts : List Token}
    (hr : r.rank ≤ e.rank) (h : e.Spells ts) : Derives r ts e := by
  induction e generalizing r ts with
  | literal value =>
    obtain ⟨t, ts, ht, hts, rfl⟩ := List.forall₂_cons_left_iff.1 h
    obtain rfl := List.forall₂_nil_left_iff.1 hts
    exact (Derives.constant ht).mono hr
  | reference name =>
    obtain ⟨t, ts, rfl, hts, rfl⟩ := List.forall₂_cons_left_iff.1 h
    obtain rfl := List.forall₂_nil_left_iff.1 hts
    exact (Derives.name he).mono hr
  | assign name value ih =>
    obtain ⟨t, ts, rfl, hrest, rfl⟩ := List.forall₂_cons_left_iff.1 h
    obtain ⟨sign, ts, hsign, hts, rfl⟩ := List.forall₂_cons_left_iff.1 hrest
    exact (Derives.assign he.1 hsign (ih he.2 (Nat.zero_le _) hts)).mono hr
  | unary operator operand ih =>
    obtain ⟨t, ts, rfl, hts, rfl⟩ := List.forall₂_cons_left_iff.1 h
    exact (Derives.prefixed he.1 (ih he.2.2 he.2.1 hts)).mono hr
  | binary left operator right ihleft ihright =>
    obtain ⟨hop, hl, hr', hleft, hright⟩ := he
    have hnode := derives_node (by omega) hl hr' (ihleft hleft) (ihright hright) h
    rw [Rung.node_of_binary hop] at hnode
    have hrank : operatorRank operator.kind = _ :=
      Rung.operatorRank_eq (Rung.mem_operators_of (by omega))
    exact hnode.mono (Nat.le_trans hr (Nat.le_of_eq hrank))
  | logical left operator right ihleft ihright =>
    obtain ⟨hop, hl, hr', hleft, hright⟩ := he
    have hpos : 0 < operatorRank operator.kind := by rcases hop with h | h <;> simp [h, operatorRank]
    have hnode := derives_node hpos hl hr' (ihleft hleft) (ihright hright) h
    rw [Rung.node_of_logical hop] at hnode
    have hrank : operatorRank operator.kind = _ := Rung.operatorRank_eq (Rung.mem_operators_of hpos)
    exact hnode.mono (Nat.le_trans hr (Nat.le_of_eq hrank))
  | group inner ih =>
    obtain ⟨opening, ts, hopening, hrest, rfl⟩ := List.forall₂_cons_left_iff.1 h
    obtain ⟨us, vs, rfl, hus, hlast⟩ := spells_append_iff.1 hrest
    obtain ⟨closing, vs, hclosing, hnone, rfl⟩ := List.forall₂_cons_left_iff.1 hlast
    obtain rfl := List.forall₂_nil_left_iff.1 hnone
    exact (Derives.group hopening hclosing (ih he (Nat.zero_le _) hus)).mono hr

/-- The grammar derives the canonical trees from the tokens that spell them. -/
theorem derives_iff {ts : List Token} {e : Expr} :
    Derives .assignment ts e ↔ e.Canonical ∧ e.Spells ts :=
  ⟨fun h => ⟨h.canonical.1, h.canonical.2.2⟩, fun h => h.1.derives (Nat.zero_le _) h.2⟩

/-! ## The parser of whole expressions -/

/-- a token that fits a piece, if the piece is no more than it says -/
def Piece.sample : Piece → Token
  | token t => t
  | kind k => ⟨k, "", none, 1⟩
  | constant value => ⟨.number, "", some value, 1⟩

theorem Piece.fits_sample (p : Piece) : p.Fits p.sample := by cases p <;> rfl

/-- Every tree has tokens that spell it. -/
theorem exists_spells (e : Expr) : ∃ ts, e.Spells ts :=
  ⟨e.flat.map Piece.sample, List.forall₂_map_right_iff.2 (List.forall₂_same.2 fun p _ => p.fits_sample)⟩

/-- **Parsing inverts spelling.** Tokens that spell a canonical tree are parsed to this tree without
an error. Where tokens with one end mark, in last position, are parsed to a tree without an error,
the tree is canonical and they spell it. Every tree has tokens that spell it, and no tokens spell
two canonical trees. -/
theorem parse_inverts_spelling :
    (∀ (e : Expr) (ts : List Token) (mark : Token), e.Canonical → e.Spells ts → mark.kind = .endMark →
      parse (ts ++ [mark]) = ⟨some e, [], none⟩) ∧
    (∀ (e : Expr) (ts : List Token) (mark : Token), (∀ t ∈ ts, t.kind ≠ .endMark) →
      mark.kind = .endMark →
      parse (ts ++ [mark]) = ⟨some e, [], none⟩ → e.Canonical ∧ e.Spells ts) ∧
    (∀ e : Expr, ∃ ts, e.Spells ts) ∧
    ∀ (e e' : Expr) (ts : List Token), e.Canonical → e'.Canonical → e.Spells ts → e'.Spells ts →
      e = e' := by
  refine ⟨?_, ?_, exists_spells, ?_⟩
  · intro e ts mark he hts hmark
    exact (derives_iff.2 ⟨he, hts⟩).parse_eq hmark
  · intro e ts mark hts _ h
    exact derives_iff.1 (derives_of_parse_eq hts h)
  · intro e e' ts he he' hts hts'
    have hparse : parse (ts ++ [Token.endOn 1]) = ⟨some e, [], none⟩ :=
      (derives_iff.2 ⟨he, hts⟩).parse_eq rfl
    have hparse' : parse (ts ++ [Token.endOn 1]) = ⟨some e', [], none⟩ :=
      (derives_iff.2 ⟨he', hts'⟩).parse_eq rfl
    simpa using hparse.symm.trans hparse'

/-- The tokens `a = - nil < true * ( b )` are parsed to the tree they spell. -/
theorem parse_inverts_spelling_sample :
    let t (kind : TokenKind) (lexeme : String) : Token := ⟨kind, lexeme, none, 1⟩
    let product := binary (literal (.boolean true)) (t .star "*")
      (group (reference (t .identifier "b")))
    let e := assign (t .identifier "a")
      (binary (unary (t .minus "-") (literal .nil)) (t .less "<") product)
    let ts := [t .identifier "a", t .equal "=", t .minus "-", t .kwNil "nil", t .less "<",
      t .kwTrue "true", t .star "*", t .leftParen "(", t .identifier "b", t .rightParen ")"]
    e.Canonical ∧ e.Spells ts ∧ parse (ts ++ [Token.endOn 1]) = ⟨some e, [], none⟩ := by
  intro t product e ts
  have hcanonical : e.Canonical := by decide
  have hspells : e.Spells ts := by repeat constructor
  have hparse := parse_inverts_spelling.1 e ts (Token.endOn 1) hcanonical hspells rfl
  obtain ⟨hcanonical', hspells'⟩ :=
    parse_inverts_spelling.2.1 e ts (Token.endOn 1) (by decide) rfl hparse
  exact ⟨hcanonical', hspells', hparse⟩

end Lox.Expr
