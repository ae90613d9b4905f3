import Lox.Proofs.Expr.Recognition
import Lox.Proofs.Parser.Trial

/-!
The relaxed grammar of expressions: anything of rung `or` may stand on the left of an assignment.

* `Relaxed r ts`: the tokens `ts` are an expression of rung `r` of the relaxed grammar.
* `Relaxed.passed`: the parser passes over such an expression, with mild complaints at most, if the token behind it
  cannot continue it.
* `parser_exact`: on any tokens the parser passes over such an expression or blames a token behind the beginning of
  one.
-/

namespace Lox.Expr

open Lox.Parser

/-- The tokens are an expression of a rung, where assignments may have other targets than names. -/
inductive Relaxed : Rung → List Token → Prop
  | tighter {r : Rung} {ts : List Token} : Relaxed r.tighter ts → Relaxed r ts
  | assign {sign : Token} {ts us : List Token} : Relaxed .or ts → sign.kind = .equal → Relaxed .assignment us →
      Relaxed .assignment (ts ++ sign :: us)
  | operator {r : Rung} {operator : Token} {ts us : List Token} : operator.kind ∈ r.operators → Relaxed r ts →
      Relaxed r.tighter us → Relaxed r (ts ++ operator :: us)
  | prefixed {operator : Token} {ts : List Token} : operator.kind = .bang ∨ operator.kind = .minus →
      Relaxed .prefixed ts → Relaxed .prefixed (operator :: ts)
  | constant {t : Token} {value : Value} : t.constant? = some value → Relaxed .primary [t]
  | name {t : Token} : t.kind = .identifier → Relaxed .primary [t]
  | group {opening closing : Token} {ts : List Token} : opening.kind = .leftParen → closing.kind = .rightParen →
      Relaxed .assignment ts → Relaxed .primary (opening :: (ts ++ [closing]))

/-- A name is an expression of every rung. -/
theorem relaxed_name {name : Token} (hname : name.kind = .identifier) (r : Rung) : Relaxed r [name] := by
  have hprimary : Relaxed .primary [name] := .name hname
  have hmultiplicative : Relaxed .multiplicative [name] := .tighter (.tighter hprimary)
  have hequality : Relaxed .equality [name] := .tighter (.tighter (.tighter hmultiplicative))
  cases r with
  | primary => exact hprimary
  | prefixed => exact .tighter hprimary
  | multiplicative => exact hmultiplicative
  | additive => exact .tighter hmultiplicative
  | comparison => exact .tighter (.tighter hmultiplicative)
  | equality => exact hequality
  | and => exact .tighter hequality
  | or => exact .tighter (.tighter hequality)
  | assignment => exact .tighter (.tighter (.tighter hequality))

/-- What is derived is derived in the relaxed grammar. -/
theorem Derives.relaxed {r : Rung} {ts : List Token} {e : Expr} (h : Derives r ts e) : Relaxed r ts := by
  induction h with
  | tighter _ ih => exact .tighter ih
  | assign hname hsign _ ih => exact .assign (relaxed_name hname .or) hsign ih
  | operator hop _ _ ihleft ihright => exact .operator hop ihleft ihright
  | prefixed hop _ ih => exact .prefixed hop ih
  | constant h => exact .constant h
  | name h => exact .name h
  | group hopening hclosing _ ih => exact .group hopening hclosing ih

/-- An expression has a first token, of a kind that starts one; on the tightest rung it is no prefix operator. -/
theorem Relaxed.first {r : Rung} {ts : List Token} (h : Relaxed r ts) :
    ∃ t us, ts = t :: us ∧ starts t.kind = true ∧ (r = .primary → isPrefixOperator t.kind = false) := by
  induction h with
  | @tighter r ts _ ih =>
    obtain ⟨t, us, rfl, hstarts, hplain⟩ := ih
    exact ⟨t, us, rfl, hstarts, fun hr => hplain (by rw [hr]; rfl)⟩
  | @assign sign ts us _ _ _ ihleft _ =>
    obtain ⟨t, ts', rfl, hstarts, -⟩ := ihleft
    exact ⟨t, ts' ++ sign :: us, rfl, hstarts, nofun⟩
  | @operator r operator ts us hop _ _ ihleft _ =>
    obtain ⟨t, ts', rfl, hstarts, hplain⟩ := ihleft
    exact ⟨t, ts' ++ operator :: us, rfl, hstarts, hplain⟩
  | @prefixed operator ts hop _ _ =>
    exact ⟨operator, ts, rfl, by rcases hop with hop | hop <;> simp [starts, hop], nofun⟩
  | @constant t value h =>
    obtain ⟨hstarts, hplain⟩ := starts_of_constant? h
    exact ⟨t, [], rfl, hstarts, fun _ => hplain⟩
  | @name t h => exact ⟨t, [], rfl, by simp [starts, h], fun _ => by simp [isPrefixOperator, h]⟩
  | @group opening closing ts h _ _ _ =>
    exact ⟨opening, ts ++ [closing], rfl, by simp [starts, h], fun _ => by simp [isPrefixOperator, h]⟩

/-! ## What is derived is passed over -/

/-- The parser of the rung passes over the tokens, whatever comes behind them that cannot continue them. -/
def Passed (r : Rung) (ts : List Token) : Prop :=
  ∀ (n m : Nat) (t : Token) (rest : List Token), ts.length + rest.length < n → ts.length + rest.length < m →
    r.Stops t.kind → Passes (parserAt n m r) (ts ++ t :: rest) (t :: rest)

/-- On an infix rung, the loop comes to the end of the tokens, whatever comes behind them that cannot continue their
last operand: where it passes on from there, it passes. -/
def PassedOn (r : Rung) (ts : List Token) : Prop :=
  ∀ (l : Level), r.level? = some l → ∀ (n m : Nat) (t : Token) (rest rest' : List Token),
    ts.length + rest.length < n → ts.length + rest.length < m → r.tighter.Stops t.kind →
    (∀ k left, rest.length < k → Passes (chainTail l (parserAt n m r.tighter) k left) (t :: rest) rest') →
    Passes (chain n l (parserAt n m r.tighter)) (ts ++ t :: rest) rest'

section Passed

variable {r : Rung} {ts us : List Token}

theorem PassedOn.of_tighter (h : Passed r.tighter ts) : PassedOn r ts := by
  intro l _ n m t rest rest' hn hm hstops hon
  exact (h n m t rest hn hm hstops).bind fun left => hon n left (by omega)

theorem stops_of_mem_operators {k : TokenKind} (h : k ∈ r.operators) : r.tighter.Stops k := by
  obtain ⟨l, hl, hkind⟩ := Rung.mem_operators_iff.1 h
  refine ⟨fun hr => ?_, fun l' hl' h' => ?_⟩
  · cases r <;> simp [Rung.tighter] at hr
  · rw [hkind, Option.some.injEq] at h'
    exact Rung.level_notMem_tighter hl (h' ▸ hl')

theorem PassedOn.operator {operator : Token} (hop : operator.kind ∈ r.operators) (hleft : PassedOn r ts)
    (hright : Passed r.tighter us) : PassedOn r (ts ++ operator :: us) := by
  intro l hl n m t rest rest' hn hm hstops hon
  obtain ⟨l', hl', hkind⟩ := Rung.mem_operators_iff.1 hop
  obtain rfl : l' = l := Option.some.inj (hl'.symm.trans hl)
  simp only [List.length_append, List.length_cons] at hn hm
  rw [List.append_assoc, List.cons_append]
  refine hleft l' hl n m operator (us ++ t :: rest) rest' (by simp; omega) (by simp; omega)
    (stops_of_mem_operators hop) fun k left hk => ?_
  simp only [List.length_append, List.length_cons] at hk
  obtain ⟨k, rfl⟩ : ∃ i, k = i + 1 := ⟨k - 1, by omega⟩
  have hfound : Accepts (acceptAny (Level.of? · = some l')) (operator :: (us ++ t :: rest)) (some operator)
      (us ++ t :: rest) :=
    accepts_acceptAny_some (of?_endMark l') (by simpa using hkind) _
  refine hfound.bindPasses ((hright n m t rest (by omega) (by omega) hstops).bind fun right => ?_)
  exact hon k _ (by omega)

theorem PassedOn.passed {l : Level} (hl : r.level? = some l) (h : PassedOn r ts) : Passed r ts := by
  intro n m t rest hn hm hstops
  rw [parserAt_of_level hl]
  refine h l hl n m t rest _ hn hm hstops.tighter fun k left hk => ?_
  obtain ⟨k, rfl⟩ : ∃ i, k = i + 1 := ⟨k - 1, by omega⟩
  have hl' : l ∈ r.levels := by rw [Rung.levels_eq hl]; exact List.mem_cons_self
  have hnone : Accepts (acceptAny (Level.of? · = some l)) (t :: rest) none (t :: rest) :=
    accepts_acceptAny_none (of?_endMark l) (by simpa using hstops.2 l hl') rest
  exact hnone.bindPasses (passes_pure left _)

theorem Passed.assignment (h : Passed .or ts) : Passed .assignment ts := by
  intro n m t rest hn hm hstops
  obtain ⟨n, rfl⟩ : ∃ k, n = k + 1 := ⟨n - 1, by omega⟩
  refine (h (n + 1) (n + 1) t rest hn hn hstops.tighter).bind fun left => ?_
  have hnone : Accepts (accept .equal) (t :: rest) none (t :: rest) :=
    accepts_acceptAny_none rfl (by simpa using hstops.1 rfl) rest
  exact hnone.bindPasses (passes_pure left _)

theorem Passed.bare (hts : Relaxed .primary ts) (h : Passed .primary ts) : Passed .prefixed ts := by
  intro n m t rest hn hm hstops
  obtain ⟨m, rfl⟩ : ∃ k, m = k + 1 := ⟨m - 1, by omega⟩
  obtain ⟨u, us, rfl, -, hplain⟩ := hts.first
  have hnone : Accepts (acceptAny isPrefixOperator) (u :: us ++ t :: rest) none (u :: us ++ t :: rest) :=
    accepts_acceptAny_none rfl (hplain rfl) _
  exact hnone.bindPasses (h n (m + 1) t rest hn hm hstops.tighter)

theorem Passed.of_tighter (hts : Relaxed r.tighter ts) (h : Passed r.tighter ts) : Passed r ts := by
  cases hl : r.level? with
  | some l => exact (PassedOn.of_tighter h).passed hl
  | none =>
    cases r with
    | assignment => exact h.assignment
    | prefixed => exact Passed.bare hts h
    | primary => exact h
    | _ => cases hl

theorem Passed.prefixed {operator : Token} (hop : operator.kind = .bang ∨ operator.kind = .minus)
    (h : Passed .prefixed ts) : Passed .prefixed (operator :: ts) := by
  intro n m t rest hn hm hstops
  simp only [List.length_cons] at hn hm
  obtain ⟨m, rfl⟩ : ∃ k, m = k + 1 := ⟨m - 1, by omega⟩
  have hfound : Accepts (acceptAny isPrefixOperator) (operator :: (ts ++ t :: rest)) (some operator)
      (ts ++ t :: rest) :=
    accepts_acceptAny_some rfl (isPrefixOperator_iff.2 hop) _
  exact hfound.bindPasses ((h n m t rest (by omega) (by omega) hstops).bind fun e => passes_pure _ _)

theorem Passed.group {opening closing : Token} (hopening : opening.kind = .leftParen)
    (hclosing : closing.kind = .rightParen) (h : Passed .assignment ts) :
    Passed .primary (opening :: (ts ++ [closing])) := by
  intro n m t rest hn hm hstops
  simp only [List.length_cons, List.length_append, List.length_nil] at hn
  have hconstant : opening.constant? = none := by simp [Token.constant?, hopening]
  have hinside := h (n - 1) (n - 1) closing (t :: rest) (by simp; omega) (by simp; omega)
    (hclosing ▸ Rung.stops_rightParen _)
  rw [List.cons_append, List.append_assoc]
  refine passes_peek_bind ?_
  simp only [hconstant, hopening]
  refine passes_skip_bind (by simp [hopening]) (hinside.bind fun inner => ?_)
  exact passes_expect_bind (by simp) hclosing (passes_pure _ _)

theorem Passed.assign {sign : Token} (hleft : Passed .or ts) (hsign : sign.kind = .equal) (h : Passed .assignment us) :
    Passed .assignment (ts ++ sign :: us) := by
  intro n m t rest hn hm hstops
  simp only [List.length_append, List.length_cons] at hn
  obtain ⟨n, rfl⟩ : ∃ k, n = k + 1 := ⟨n - 1, by omega⟩
  have hsigns : Rung.Stops .or sign.kind := by simp [Rung.Stops, hsign, Level.of?]
  rw [List.append_assoc, List.cons_append]
  refine (hleft (n + 1) (n + 1) sign (us ++ t :: rest) (by simp; omega) (by simp; omega) hsigns).bind fun left => ?_
  have hfound : Accepts (accept .equal) (sign :: (us ++ t :: rest)) (some sign) (us ++ t :: rest) :=
    accepts_acceptAny_some rfl (by simpa using hsign) _
  refine hfound.bindPasses ((h n n t rest (by omega) (by omega) hstops).bind fun right => ?_)
  split
  · exact passes_pure _ _
  · exact (passes_complain sign _).bind fun _ => passes_pure right _

/-- What is derived on a rung is passed over there, and on an infix rung the loop can go on behind it. -/
theorem Relaxed.passed_and_passedOn (h : Relaxed r ts) : Passed r ts ∧ PassedOn r ts := by
  induction h with
  | tighter hts ih => exact ⟨.of_tighter hts ih.1, .of_tighter ih.1⟩
  | assign _ hsign _ ihleft ih => exact ⟨.assign ihleft.1 hsign ih.1, nofun⟩
  | operator hop _ _ ihleft ihright =>
    have hon := PassedOn.operator hop ihleft.2 ihright.1
    obtain ⟨l, hl, -⟩ := Rung.mem_operators_iff.1 hop
    exact ⟨hon.passed hl, hon⟩
  | prefixed hop _ ih => exact ⟨.prefixed hop ih.1, nofun⟩
  | constant h =>
    refine ⟨fun n m t rest hn hm hstops => ?_, nofun⟩
    exact (Accepted.constant h n m t rest hn hm hstops).passes
  | name h =>
    refine ⟨fun n m t rest hn hm hstops => ?_, nofun⟩
    exact (Accepted.name h n m t rest hn hm hstops).passes
  | group hopening hclosing _ ih => exact ⟨.group hopening hclosing ih.1, nofun⟩

end Passed

/-- An expression is passed over, if the token behind it cannot continue it. -/
theorem Relaxed.passed {ts : List Token} (h : Relaxed .assignment ts) {n : Nat} {t : Token} {rest : List Token}
    (hn : ts.length + rest.length < n) (ht : Rung.Stops .assignment t.kind) :
    Passes (parser n) (ts ++ t :: rest) (t :: rest) :=
  h.passed_and_passedOn.1 n n t rest hn hn ht

/-! ## What is passed over is derived -/

/-- On at most `n` tokens the parser passes over an expression of the rung, or blames a token behind the beginning of
one. -/
def ExactAt (r : Rung) (n : Nat) (p : Parser Expr) : Prop := Exact (fun w _ => Relaxed r w) n p

section Exact

variable {n : Nat} {operand : Parser Expr}

theorem primary_exact {inside : Parser Expr} (h : ExactAt .assignment n inside) :
    ExactAt .primary (n + 1) (primary inside) := by
  intro ts hts hlength
  obtain ⟨t, us, rfl⟩ := hts.exists_cons
  simp only [List.length_cons] at hlength
  have hsingle : Relaxed .primary [t] → t.kind ≠ .endMark → ∀ e : Expr,
      Trial (fun w _ => Relaxed .primary w) (n + 1) (do skip; pure e) (t :: us) := by
    intro ht hkind e
    have hus := hts.tail hkind
    obtain ⟨u, vs, rfl⟩ := hus.exists_cons
    exact trial_skip_bind hkind (trial_pure hus ht e)
  refine trial_peek_bind ?_
  split
  · rename_i value hvalue
    exact hsingle (.constant hvalue) (fun hk => by simp [Token.constant?, hk] at hvalue) _
  · split
    · rename_i hkind
      exact hsingle (.name hkind) (by simp [hkind]) _
    · rename_i hkind
      have hmark : t.kind ≠ .endMark := by simp [hkind]
      have hroom : us.length ≤ n := by omega
      exact trial_skip_bind hmark ((h us (hts.tail hmark) hroom).closing hroom (by simp) (by simp) _
        fun w _ closing _ hw hclosing => .group hkind hclosing hw)
    · have hname : (Token.filler .identifier).kind = .identifier := rfl
      exact trial_fail (by simp) (u := t) (relaxed_name hname .primary)

theorem prefixed_exact (h : ExactAt .primary n operand) {k : Nat} (hk : k ≤ n) :
    ExactAt .prefixed k (prefixed operand k) := by
  induction k with
  | zero => exact exact_zero
  | succ k ih =>
    intro ts hts hlength
    obtain ⟨t, us, rfl⟩ := hts.exists_cons
    refine trial_acceptAny_bind rfl (fun hasked => ?_) fun _ => ?_
    · have hmark : t.kind ≠ .endMark := fun hk => by simp [hk, isPrefixOperator] at hasked
      have hop := isPrefixOperator_iff.1 hasked
      have hoperand := ih (by omega) us (hts.tail hmark) (by simpa using hlength)
      exact hoperand.map (unary t) fun w u hw => .prefixed hop hw
    · exact (h _ hts (Nat.le_trans hlength hk)).mono (fun w u hw => .tighter hw) hk

/-- Behind the first operand `w` of a chain, the loop passes over the others or blames a token among them. -/
theorem chainTail_trial {r : Rung} {l : Level} (hl : r.level? = some l) (h : ExactAt r.tighter n operand) {k m : Nat}
    (hk : m ≤ k) (hn : m ≤ n) {w ts : List Token} (hw : Relaxed r w) (hts : Marked ts) (hlength : ts.length ≤ m)
    (left : Expr) : Trial (fun v _ => Relaxed r (w ++ v)) m (chainTail l operand k left) ts := by
  induction k generalizing m w ts left with
  | zero => exact absurd hts.length_pos (by omega)
  | succ k ih =>
    obtain ⟨t, us, rfl⟩ := hts.exists_cons
    simp only [List.length_cons] at hlength
    refine trial_acceptAny_bind (of?_endMark l) (fun hasked => ?_) fun _ => ?_
    · have hmark : t.kind ≠ .endMark := fun hk => by simp [hk, Level.of?] at hasked
      have hop : t.kind ∈ r.operators := Rung.mem_operators_iff.2 ⟨l, hl, by simpa using hasked⟩
      have hroom : us.length ≤ m - 1 := by omega
      refine (h.trial (hts.tail hmark) hroom (by omega)).bind hroom (fun v u hv => ⟨[], u, ?_⟩) ?_
      · rw [List.append_nil]
        exact .operator hop hw hv
      · intro right v u rest hmarked hroom' hv
        have hmore := ih (m := m - 1 - v.length) (by omega) (by omega) (.operator hop hw hv) hmarked hroom'
          (l.node left t right)
        exact hmore.mono (fun v' u' hv' => by simpa using hv') (Nat.le_refl _)
    · exact trial_pure hts (by simpa using hw) left

theorem chain_exact {r : Rung} {l : Level} (hl : r.level? = some l) (h : ExactAt r.tighter n operand) :
    ExactAt r n (chain n l operand) := by
  intro ts hts hlength
  refine (h ts hts hlength).bind hlength (fun w u hw => ⟨[], u, ?_⟩) fun left w u rest hmarked hroom hw => ?_
  · rw [List.append_nil]
    exact .tighter hw
  · exact chainTail_trial hl h (Nat.sub_le _ _) (Nat.sub_le _ _) (.tighter hw) hmarked hroom left

theorem assignment_exact {value target : Parser Expr} (hvalue : ExactAt .assignment n value)
    (htarget : ExactAt .or (n + 1) target) : ExactAt .assignment (n + 1) (assignment value target) := by
  intro ts hts hlength
  refine (htarget ts hts hlength).bind hlength (fun w u hw => ⟨[], u, ?_⟩) fun left w t us hmarked hroom hw => ?_
  · rw [List.append_nil]
    exact .tighter hw
  simp only [List.length_cons] at hroom
  refine trial_acceptAny_bind rfl (fun hasked => ?_) fun _ => ?_
  · have hsign : t.kind = .equal := by simpa using hasked
    have hroom' : us.length ≤ n + 1 - w.length - 1 := by omega
    have hright := hvalue.trial (hmarked.tail (by simp [hsign])) hroom' (by omega)
    refine hright.bind hroom' (fun v u hv => ⟨[], u, ?_⟩) fun right v u rest hrest hroom'' hv => ?_
    · rw [List.append_nil]
      exact .assign hw hsign hv
    · have hwhole : Relaxed .assignment (w ++ t :: (v ++ [])) := by
        rw [List.append_nil]
        exact .assign hw hsign hv
      split
      · exact trial_pure hrest hwhole _
      · -- the target is no name: the complaint is mild
        refine (trial_complain hrest t).bind hroom'' (fun _ u' hnil => ⟨[], u', ?_⟩)
          fun _ v' u' rest' hrest' _ hnil => ?_
        · rw [hnil]
          exact hwhole
        · rw [hnil]
          exact trial_pure hrest' hwhole right
  · exact trial_pure hmarked (by simpa using .tighter hw) left

/-- The parser of the loosest infix rung is exact, if the one inside parentheses is. -/
theorem parserAt_or_exact (h : ExactAt .assignment n (parser n)) :
    ExactAt .or (n + 1) (parserAt (n + 1) (n + 1) .or) := by
  have hstep : ∀ (r : Rung) (l : Level), r.level? = some l →
      ExactAt r.tighter (n + 1) (parserAt (n + 1) (n + 1) r.tighter) →
      ExactAt r (n + 1) (parserAt (n + 1) (n + 1) r) := by
    intro r l hl htighter
    rw [parserAt_of_level hl]
    exact chain_exact hl htighter
  have hprefixed : ExactAt .prefixed (n + 1) (parserAt (n + 1) (n + 1) .prefixed) :=
    prefixed_exact (primary_exact h) (Nat.le_refl _)
  have hmultiplicative := hstep .multiplicative _ rfl hprefixed
  have hadditive := hstep .additive _ rfl hmultiplicative
  have hcomparison := hstep .comparison _ rfl hadditive
  have hequality := hstep .equality _ rfl hcomparison
  have hand := hstep .and _ rfl hequality
  exact hstep .or _ rfl hand

/-- The expression parser is exact. -/
theorem parser_exact (n : Nat) : ExactAt .assignment n (parser n) := by
  induction n with
  | zero => exact exact_zero
  | succ n ih => exact assignment_exact ih (parserAt_or_exact ih)

end Exact

end Lox.Expr
