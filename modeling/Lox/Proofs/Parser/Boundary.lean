import Mathlib.Order.Bounds.Defs
import Lox.Proofs.Parser.Behaviour

/-!
Where recovery goes on.

* `kindAt? tokens i`: the kind of the token at a position.
* `BoundaryAt tokens j`: a boundary is at a position.

From a token that is no end mark, recovery goes to the first boundary behind it (`toBoundary_first`). The boundaries behind
the first token but one are those of the tokens behind the first, so the walk is followed token by token.
-/

namespace Lox.Parser

/-! ## Boundaries -/

/-- the kind of the token at a position, if there is one -/
def kindAt? (tokens : List Token) (i : Nat) : Option TokenKind := (tokens[i]?).map Token.kind

/-- the words that start a statement -/
def starters : List TokenKind := [.kwClass, .kwFun, .kwVar, .kwFor, .kwIf, .kwWhile, .kwPrint, .kwReturn]

/-- A boundary is at a position: an end mark or a word that starts a statement stands there, or a semicolon right before. -/
def BoundaryAt (tokens : List Token) (j : Nat) : Prop :=
  kindAt? tokens j = some .endMark ∨ kindAt? tokens (j - 1) = some .semicolon ∨
    ∃ kind ∈ starters, kindAt? tokens j = some kind

theorem startsStatement_iff {kind : TokenKind} : startsStatement kind = true ↔ kind ∈ starters := by
  cases kind <;> decide

section Positions

variable {t u : Token} {us : List Token}

theorem boundaryAt_one : BoundaryAt (t :: u :: us) 1 ↔
    u.kind = .endMark ∨ t.kind = .semicolon ∨ startsStatement u.kind = true := by
  simp [BoundaryAt, kindAt?, startsStatement_iff]

theorem boundaryAt_cons (t : Token) (us : List Token) (k : Nat) :
    BoundaryAt (t :: us) (k + 2) ↔ BoundaryAt us (k + 1) := by
  simp [BoundaryAt, kindAt?]

/-- The boundaries behind a position are those of the tokens from there on. -/
theorem boundaryAt_drop (tokens : List Token) (i k : Nat) :
    BoundaryAt (tokens.drop i) (k + 1) ↔ BoundaryAt tokens (i + (k + 1)) := by
  simp [BoundaryAt, kindAt?, ← Nat.add_assoc]

end Positions

/-! ## The walk to a boundary -/

/-- From a token that is no end mark, the way goes to the first boundary behind it. -/
theorem toBoundary_first {ts : List Token} (hts : Marked ts) {t : Token} (ht : t.kind ≠ .endMark) :
    ∃ n, toBoundary (t :: ts) = (pure () : Parser Unit) (ts.drop n) ∧ n < ts.length ∧
      IsLeast {k | BoundaryAt (t :: ts) (k + 1)} n := by
  induction ts generalizing t with
  | nil => exact absurd hts.length_pos (by simp)
  | cons u us ih =>
    rw [toBoundary_cons_cons ht]
    by_cases hstop : u.kind = .endMark ∨ t.kind = .semicolon ∨ startsStatement u.kind = true
    · rw [if_pos hstop]
      exact ⟨0, rfl, hts.length_pos, boundaryAt_one.2 hstop, fun k _ => Nat.zero_le k⟩
    · have hu : u.kind ≠ .endMark := fun hu => hstop (.inl hu)
      obtain ⟨n, hwalk, hn, hboundary, hfirst⟩ := ih (hts.tail hu) hu
      rw [if_neg hstop]
      refine ⟨n + 1, hwalk, Nat.succ_lt_succ hn, (boundaryAt_cons t _ n).2 hboundary, fun k hk => ?_⟩
      -- the first position was passed because there is no boundary, the others are those of the tokens behind
      cases k with
      | zero => exact absurd (boundaryAt_one.1 hk) hstop
      | succ k => exact Nat.succ_le_succ (hfirst ((boundaryAt_cons t _ k).1 hk))

/-- **Recovery stops at the first boundary.** Let the last of the tokens be an end mark. From an end mark recovery goes
nowhere. From any other token it goes to the first boundary strictly behind that token. It has no complaint. -/
theorem recovery_stops_at_first_boundary {tokens : List Token} {mark : Token} (hlast : tokens.getLast? = some mark)
    (hmark : mark.kind = .endMark) {i : Nat} (hi : i < tokens.length) :
    ∃ j, (toBoundary (tokens.drop i)).value = .ok () ∧ (toBoundary (tokens.drop i)).complaints = [] ∧
      (toBoundary (tokens.drop i)).rest = tokens.drop j ∧ j < tokens.length ∧
      (kindAt? tokens i = some .endMark → j = i) ∧
      (kindAt? tokens i ≠ some .endMark → IsLeast {k | i < k ∧ BoundaryAt tokens k} j) := by
  have hdrop : tokens.drop i = tokens[i] :: tokens.drop (i + 1) := List.drop_eq_getElem_cons hi
  have hkind : kindAt? tokens i = some tokens[i].kind := by rw [kindAt?, List.getElem?_eq_getElem hi, Option.map_some]
  have hmarked : Marked (tokens.drop i) := by
    refine ⟨mark, List.mem_of_getLast? ?_, hmark⟩
    rw [List.getLast?_drop, if_neg (Nat.not_le.2 hi), hlast]
  by_cases ht : tokens[i].kind = .endMark
  · have hwalk := toBoundary_of_endMark ht (tokens.drop (i + 1))
    rw [← hdrop] at hwalk
    rw [hwalk, hkind, ht]
    exact ⟨i, rfl, rfl, rfl, hi, fun _ => rfl, fun hne => absurd rfl hne⟩
  · rw [hdrop] at hmarked
    obtain ⟨n, hwalk, hn, hboundary, hfirst⟩ := toBoundary_first (hmarked.tail ht) ht
    rw [← hdrop] at hwalk hboundary hfirst
    rw [List.drop_drop] at hwalk
    rw [List.length_drop] at hn
    rw [hwalk]
    refine ⟨i + (n + 1), rfl, rfl, ?_, by omega, fun heq => ?_, fun _ => ⟨⟨by omega, ?_⟩, fun k hk => ?_⟩⟩
    · exact congrArg (tokens.drop ·) (by omega : i + 1 + n = i + (n + 1))
    · exact absurd (Option.some.inj (hkind.symm.trans heq)) ht
    · exact (boundaryAt_drop tokens i n).1 hboundary
    · obtain ⟨hbehind, hk⟩ := hk
      obtain ⟨m, rfl⟩ := Nat.exists_eq_add_of_lt hbehind
      have hm : n ≤ m := hfirst ((boundaryAt_drop tokens i m).2 hk)
      omega

/-- Behind a declaration without a name, recovery goes past a semicolon and stops in front of an `else`. -/
theorem recovery_stops_at_first_boundary_else :
    let t (kind : TokenKind) (lexeme : String) : Token := ⟨kind, lexeme, none, 1⟩
    let tokens := [t .kwVar "var", t .equal "=", t .identifier "a", t .semicolon ";", t .kwElse "else", Token.endOn 1]
    tokens.getLast? = some (Token.endOn 1) ∧ (Token.endOn 1).kind = .endMark ∧ 1 < tokens.length ∧
      (toBoundary (tokens.drop 1)).rest = tokens.drop 4 ∧ IsLeast {k | 1 < k ∧ BoundaryAt tokens k} 4 := by
  intro t tokens
  have hi : 1 < tokens.length := by decide
  have hrest : (toBoundary (tokens.drop 1)).rest = tokens.drop 4 := rfl
  obtain ⟨j, -, -, hj, hlt, -, hfirst⟩ := @recovery_stops_at_first_boundary tokens _ rfl rfl _ hi
  have hlength : 2 = 6 - j := by simpa [tokens] using congrArg List.length (hrest.symm.trans hj)
  obtain rfl : j = 4 := by omega
  exact ⟨rfl, rfl, hi, hrest, hfirst (by decide)⟩

end Lox.Parser
