import Lox.Proofs.Expr.Canonical

/-!
Expressions that go on: infix operators and operands behind an expression make a longer one.

* `Sequel ts`: the tokens are infix operators, each with an operand behind it.

An expression that starts with `-` is a sequel itself, as the sign is an infix operator too. So of two expressions, one
right behind the other, the first goes on with the second if that starts with `-` (`Derives.append_minus`).
-/

namespace Lox.Expr

/-- The tokens are infix operators, each with an operand behind it. -/
inductive Sequel : List Token → Prop
  | nil : Sequel []
  | cons {operator : Token} {ts us : List Token} {operand : Expr} : 0 < operatorRank operator.kind →
      Derives .prefixed ts operand → Sequel us → Sequel (operator :: (ts ++ us))

theorem Sequel.append {ts us : List Token} (h : Sequel ts) (h' : Sequel us) : Sequel (ts ++ us) := by
  induction h with
  | nil => exact h'
  | cons hoperator hoperand _ ih =>
    rw [List.cons_append, List.append_assoc]
    exact .cons hoperator hoperand ih

/-- An operator of the rung binds as tightly as the rung, any other more tightly than the rung if not less. -/
theorem Rung.mem_operators_or {r : Rung} {k : TokenKind} (hk : 0 < operatorRank k) (hr : r.rank ≤ operatorRank k) :
    k ∈ r.operators ∨ r.tighter.rank ≤ operatorRank k ∧ r.rank < 8 := by
  have hle : operatorRank k ≤ 6 := by cases k <;> decide
  have hmem := mem_operators_of hk
  rcases Nat.eq_or_lt_of_le hr with heq | hlt
  · exact .inl (rank_inj (heq.trans (operatorRank_eq hmem)) ▸ hmem)
  · have htighter := rank_tighter (by omega : r.rank < 8)
    exact .inr ⟨by omega, by omega⟩

/-- One more operator and operand behind an expression: they go to its end, or as deep into its last operand as the
operator binds. -/
theorem Derives.extend {r : Rung} {ts us : List Token} {left right : Expr} {operator : Token}
    (h : Derives r ts left) (hoperator : 0 < operatorRank operator.kind) (hr : r.rank ≤ operatorRank operator.kind)
    (hright : Derives .prefixed us right) : ∃ e, Derives r (ts ++ operator :: us) e := by
  have hle : operatorRank operator.kind ≤ 6 := by cases operator.kind <;> decide
  -- an operand by itself is one of every infix rung
  have hoperand : ∀ {r : Rung}, operator.kind ∈ r.operators → Derives r.tighter us right := by
    intro r hmem
    have hrank := Rung.operatorRank_eq hmem
    have htighter := Rung.rank_tighter (by omega : r.rank < 8)
    exact hright.mono (by rw [htighter]; exact Nat.succ_le_succ (hrank ▸ hle))
  induction h with
  | @tighter r ts e h ih =>
    rcases Rung.mem_operators_or hoperator hr with hmem | ⟨htighter, -⟩
    · exact ⟨_, .operator hmem (.tighter h) (hoperand hmem)⟩
    · obtain ⟨e', he'⟩ := ih htighter
      exact ⟨e', .tighter he'⟩
  | assign hname hsign _ ih =>
    obtain ⟨e', he'⟩ := ih (Nat.zero_le _)
    exact ⟨_, .assign hname hsign he'⟩
  | @operator r operator' ts vs left' right' hmem' hleft hvs _ ih =>
    rcases Rung.mem_operators_or hoperator hr with hmem | ⟨htighter, -⟩
    · exact ⟨_, .operator hmem (.operator hmem' hleft hvs) (hoperand hmem)⟩
    · obtain ⟨e', he'⟩ := ih htighter
      rw [List.append_assoc, List.cons_append]
      exact ⟨_, .operator hmem' hleft he'⟩
  | prefixed => simp [Rung.rank] at hr; omega
  | constant | name | group => simp [Rung.rank] at hr; omega

/-- An expression goes on with a sequel. -/
theorem Derives.append_sequel {ts us : List Token} {e : Expr} (h : Derives .assignment ts e) (hus : Sequel us) :
    ∃ e', Derives .assignment (ts ++ us) e' := by
  induction hus generalizing ts e with
  | nil => exact ⟨e, by rwa [List.append_nil]⟩
  | cons hoperator hoperand _ ih =>
    obtain ⟨e', he'⟩ := h.extend hoperator (Nat.zero_le _) hoperand
    rw [← List.cons_append, ← List.append_assoc]
    exact ih he'

/-- An expression that is no assignment is an operand with a sequel. -/
theorem Derives.exists_operand {r : Rung} {ts : List Token} {e : Expr} (h : Derives r ts e) (hr : 1 ≤ r.rank) :
    ∃ us vs operand, ts = us ++ vs ∧ Derives .prefixed us operand ∧ Sequel vs := by
  induction h with
  | @tighter r _ _ _ ih => exact ih (Nat.le_trans hr r.rank_le_tighter)
  | assign => cases hr
  | @operator r operator _ _ _ _ hmem _ _ ihleft ihright =>
    obtain ⟨us, vs, left, rfl, hleft, hvs⟩ := ihleft hr
    obtain ⟨us', vs', right, rfl, hright, hvs'⟩ := ihright (Nat.le_trans hr r.rank_le_tighter)
    have hoperator : 0 < operatorRank operator.kind := Rung.operatorRank_eq hmem ▸ hr
    exact ⟨us, vs ++ operator :: (us' ++ vs'), left, by simp, hleft, hvs.append (.cons hoperator hright hvs')⟩
  | prefixed hoperator hoperand => exact ⟨_, [], _, (List.append_nil _).symm, .prefixed hoperator hoperand, .nil⟩
  | constant h => exact ⟨_, [], _, rfl, .tighter (.constant h), .nil⟩
  | name h => exact ⟨_, [], _, rfl, .tighter (.name h), .nil⟩
  | group hopening hclosing hinner =>
    exact ⟨_, [], _, (List.append_nil _).symm, .tighter (.group hopening hclosing hinner), .nil⟩

/-- An operand that starts with `-` is that sign and another operand. -/
theorem Derives.operand_of_minus {sign : Token} {ts : List Token} {e : Expr} (h : Derives .prefixed (sign :: ts) e)
    (hsign : sign.kind = .minus) : ∃ e', Derives .prefixed ts e' := by
  generalize hts : sign :: ts = us at h
  cases h with
  | operator hmem => cases hmem
  | prefixed _ hoperand =>
    obtain ⟨rfl, rfl⟩ := List.cons.inj hts
    exact ⟨_, hoperand⟩
  | tighter hprimary =>
    obtain ⟨t, us, rfl, -, hplain⟩ := hprimary.first
    obtain ⟨rfl, rfl⟩ := List.cons.inj hts
    have hnone := hplain rfl
    simp [hsign, isPrefixOperator] at hnone

/-- An expression that starts with `-` is a sequel. -/
theorem Derives.sequel {sign : Token} {ts : List Token} {e : Expr} (h : Derives .assignment (sign :: ts) e)
    (hsign : sign.kind = .minus) : Sequel (sign :: ts) := by
  generalize hts : sign :: ts = us at h
  cases h with
  | assign hname =>
    obtain ⟨rfl, -⟩ := List.cons.inj hts
    simp [hsign] at hname
  | operator hmem => cases hmem
  | tighter h =>
    obtain ⟨us, vs, operand, rfl, hus, hvs⟩ := h.exists_operand (Nat.le_refl 1)
    obtain ⟨t, us, rfl, -⟩ := hus.first
    obtain ⟨rfl, rfl⟩ := List.cons.inj hts
    obtain ⟨operand', hoperand⟩ := hus.operand_of_minus hsign
    exact .cons (by rw [hsign]; decide) hoperand hvs

/-- Of two expressions the first goes on with the second if that starts with `-`. -/
theorem Derives.append_minus {sign : Token} {ts us : List Token} {e e' : Expr} (h : Derives .assignment ts e)
    (h' : Derives .assignment (sign :: us) e') (hsign : sign.kind = .minus) :
    ∃ e'', Derives .assignment (ts ++ sign :: us) e'' :=
  h.append_sequel (h'.sequel hsign)

end Lox.Expr
