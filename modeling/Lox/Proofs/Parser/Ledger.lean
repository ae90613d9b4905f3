import Lox.Proofs.Parser.Trace
import Mathlib.Data.List.Perm.Subperm

/-!
Ledgers: which tokens the complaints of a run are about, and how many declarations it drops.

* `Drops p ts d`: on the tokens the parser drops `d` declarations.
* `Balanced counts slack ts o used settled unsettled`: the outcome `o` on the tokens `ts` consumed the tokens `used`. Its
  complaints are those that are settled, about tokens among them, and those that are not, about the next token.
* `Tidy counts slack p`: on any tokens the parser drops some number of declarations, and its outcome is balanced.

A parser that gives up complains about the next token, and recovery goes past it, which settles the complaint. Only at an
end mark recovery stays where it is, and complaints stay open. There may be as many as `slack` tells, and one more for
each token consumed that `counts`.
-/

namespace Lox

/-- The complaint is not about the target of an assignment. -/
def Complaint.isHard (c : Complaint) : Bool := c.reason ≠ .assignmentTarget

/-- `1` if the parser gave up, `0` if not. -/
def Outcome.defeats {α : Type} (o : Outcome α) : Nat :=
  match o.value with
  | .error .gaveUp => 1
  | _ => 0

namespace Parser

variable {α β : Type}

/-! ## Defeats -/

theorem defeats_of_ok {o : Outcome α} {a : α} (h : o.value = .ok a) : o.defeats = 0 := by
  rw [Outcome.defeats, h]

theorem defeats_of_gaveUp {o : Outcome α} (h : o.value = .error .gaveUp) : o.defeats = 1 := by
  rw [Outcome.defeats, h]

theorem defeats_of_fault {o : Outcome α} {fault : Fault} (h : o.value = .error (.fault fault)) : o.defeats = 0 := by
  rw [Outcome.defeats, h]

theorem defeats_congr {o : Outcome α} {o' : Outcome β} {halt : Halt} (h : o.value = .error halt)
    (h' : o'.value = .error halt) : o'.defeats = o.defeats := by
  cases halt with
  | gaveUp => rw [defeats_of_gaveUp h, defeats_of_gaveUp h']
  | fault => rw [defeats_of_fault h, defeats_of_fault h']

section Outcomes

variable {p : Parser α} {f : α → Parser β} {ts : List Token}

theorem complaints_bind_of_error {halt : Halt} (h : (p ts).value = .error halt) :
    ((p >>= f) ts).complaints = (p ts).complaints := by
  simp only [bind]
  rcases hend : p ts with ⟨value, mid, complaints, complained⟩
  rw [hend] at h
  subst h
  rfl

theorem complaints_bind_of_ok {a : α} (h : (p ts).value = .ok a) :
    ((p >>= f) ts).complaints = (p ts).complaints ++ (f a (p ts).rest).complaints := by
  simp only [bind]
  rcases hend : p ts with ⟨value, mid, complaints, complained⟩
  rw [hend] at h
  subst h
  rfl

theorem defeats_bind (hp : (p ts).defeats = 0) (hf : ∀ a us, (f a us).defeats = 0) : ((p >>= f) ts).defeats = 0 := by
  rcases hvalue : (p ts).value with (_ | fault) | a
  · rw [defeats_of_gaveUp hvalue] at hp
    cases hp
  · exact defeats_of_fault (bind_of_error hvalue).1
  · rw [Outcome.defeats, (bind_of_ok hvalue).1]
    exact hf a _

/-- On the way to a boundary nothing is complained about and no parser gives up. -/
theorem quiet_toBoundary (ts : List Token) : (toBoundary ts).complaints = [] ∧ (toBoundary ts).defeats = 0 := by
  induction ts with
  | nil => exact ⟨rfl, rfl⟩
  | cons t ts ih =>
    by_cases ht : t.kind = .endMark
    · rw [toBoundary_of_endMark ht]
      exact ⟨rfl, rfl⟩
    · cases ts with
      | nil =>
        rw [show toBoundary [t] = overrun [] by simp [toBoundary, ht]]
        exact ⟨rfl, rfl⟩
      | cons u us =>
        rw [toBoundary_cons_cons ht]
        split
        · exact ⟨rfl, rfl⟩
        · exact ih

theorem complaints_recover (p : Parser α) (ts : List Token) : (recover p ts).complaints = (p ts).complaints := by
  unfold recover
  rcases p ts with ⟨(_ | fault) | a, rest, complaints, complained⟩
  · simp [(quiet_toBoundary rest).1]
  · rfl
  · rfl

/-- Under recovery no parser gives up. -/
theorem defeats_recover (p : Parser α) (ts : List Token) : (recover p ts).defeats = 0 := by
  unfold recover
  rcases p ts with ⟨(_ | fault) | a, rest, complaints, complained⟩
  · have hquiet := (quiet_toBoundary rest).2
    unfold Outcome.defeats at hquiet ⊢
    rcases hvalue : (toBoundary rest).value with (_ | fault) | u <;> simp_all [Except.map]
  · rfl
  · rfl

end Outcomes

/-! ## Declarations that are dropped -/

/-- On the tokens the parser drops `d` declarations: where one gives up, recovery drops it, with whatever is inside it. A
parser that complains without giving up does so about the target of an assignment, and one that gives up about
something else. -/
inductive Drops : {α : Type} → Parser α → List Token → Nat → Prop
  | pure {α : Type} (a : α) (ts : List Token) : Drops (pure a) ts 0
  | overrun {α : Type} (ts : List Token) : Drops (overrun : Parser α) ts 0
  | peek (ts : List Token) : Drops peek ts 0
  | skip (ts : List Token) : Drops skip ts 0
  | complain (t : Token) (ts : List Token) : Drops (complain .assignmentTarget t) ts 0
  | fail {α : Type} {reason : Reason} (hreason : reason ≠ .assignmentTarget) (ts : List Token) :
      Drops (fail reason : Parser α) ts 0
  | bind {α β : Type} {p : Parser α} {f : α → Parser β} {ts : List Token} {a : α} {d d' : Nat} :
      Drops p ts d → (p ts).value = .ok a → Drops (f a) (p ts).rest d' → Drops (p >>= f) ts (d + d')
  | halt {α β : Type} {p : Parser α} {f : α → Parser β} {ts : List Token} {halt : Halt} {d : Nat} :
      Drops p ts d → (p ts).value = .error halt → Drops (p >>= f) ts d
  | recovered {α : Type} {p : Parser α} {ts : List Token} {a : α} {d : Nat} :
      Drops p ts d → (p ts).value = .ok a → Drops (recover p) ts d
  | dropped {α : Type} {p : Parser α} {ts : List Token} {d : Nat} :
      Drops p ts d → (p ts).value = .error .gaveUp → Drops (recover p) ts (d + 1)
  | faulted {α : Type} {p : Parser α} {ts : List Token} {fault : Fault} {d : Nat} :
      Drops p ts d → (p ts).value = .error (.fault fault) → Drops (recover p) ts d

/-- There is a hard complaint for each declaration that is dropped, and one more where the parser gave up. -/
theorem Drops.countP_eq {p : Parser α} {ts : List Token} {d : Nat} (h : Drops p ts d) :
    (p ts).complaints.countP Complaint.isHard = d + (p ts).defeats := by
  induction h with
  | pure | overrun | complain => rfl
  | peek ts => cases ts <;> rfl
  | skip ts => cases ts <;> rfl
  | fail hreason ts => cases ts <;> simp [Parser.fail, Parser.overrun, Complaint.isHard, Outcome.defeats, hreason]
  | @bind _ _ p f ts a d d' _ hvalue _ ih ih' =>
    have hdefeats : ((p >>= f) ts).defeats = (f a (p ts).rest).defeats := by
      simp only [Outcome.defeats, (bind_of_ok (f := f) hvalue).1]
    rw [complaints_bind_of_ok hvalue, List.countP_append, ih, ih', defeats_of_ok hvalue, hdefeats]
    omega
  | @halt _ _ p f ts halt d _ hvalue ih =>
    rw [complaints_bind_of_error hvalue, ih, defeats_congr hvalue (bind_of_error (f := f) hvalue).1]
  | recovered _ hvalue ih => rw [complaints_recover, ih, defeats_recover, defeats_of_ok hvalue]
  | dropped _ hvalue ih => rw [complaints_recover, ih, defeats_recover, defeats_of_gaveUp hvalue]
  | faulted _ hvalue ih => rw [complaints_recover, ih, defeats_recover, defeats_of_fault hvalue]

/-! ## Balance -/

/-- The tokens `ts` are those that were consumed and those that are left. The complaints that are settled are about
different tokens that were consumed, the hard ones in their order. Those that are not are hard ones about the next
token. Unless it is an end mark, there is at most one, and none if the parser did not give up. -/
structure Balanced (counts : Token → Bool) (slack : Nat) (ts : List Token) (o : Outcome α) (used : List Token)
    (settled unsettled : List Complaint) : Prop where
  split : ts = used ++ o.rest
  unmarked : ∀ t ∈ used, t.kind ≠ .endMark
  complaints : o.complaints = settled ++ unsettled
  once : (settled.map Complaint.token).Subperm used
  inOrder : ((settled.filter Complaint.isHard).map Complaint.token).Sublist used
  next : ∀ c ∈ unsettled, c.isHard = true ∧ o.rest.head? = some c.token
  single : (∀ t ∈ o.rest.head?, t.kind ≠ .endMark) → unsettled.length ≤ o.defeats
  bounded : unsettled.length ≤ used.countP counts + slack + o.defeats

section Balance

variable {counts : Token → Bool} {slack : Nat} {ts used : List Token} {o : Outcome α}
  {settled unsettled : List Complaint}

theorem Balanced.mono {counts' : Token → Bool} {slack' : Nat} (h : Balanced counts slack ts o used settled unsettled)
    (hcounts : ∀ t, counts t = true → counts' t = true) (hslack : slack ≤ slack') :
    Balanced counts' slack' ts o used settled unsettled := by
  have hmono : used.countP counts ≤ used.countP counts' := List.countP_mono_left fun t _ => hcounts t
  have hbounded := h.bounded
  exact { h with bounded := by omega }

/-- What leaves all tokens and does not complain is balanced. -/
theorem balanced_of_idle (hrest : o.rest = ts) (hcomplaints : o.complaints = []) :
    Balanced counts slack ts o [] [] [] where
  split := hrest.symm
  unmarked := by simp
  complaints := hcomplaints
  once := .refl []
  inOrder := .refl []
  next := by simp
  single _ := Nat.zero_le _
  bounded := Nat.zero_le _

/-- Complaints are open in front of an end mark, if the parser did not give up. -/
theorem Balanced.atMark (h : Balanced counts slack ts o used settled unsettled) (hdefeats : o.defeats = 0)
    (hopen : unsettled ≠ []) : ∃ t, o.rest.head? = some t ∧ t.kind = .endMark := by
  obtain ⟨c, more, rfl⟩ := List.exists_cons_of_ne_nil hopen
  obtain ⟨-, hhead⟩ := h.next c List.mem_cons_self
  refine ⟨c.token, hhead, ?_⟩
  by_contra hmark
  have hsingle := h.single (by simpa [hhead] using hmark)
  simp [hdefeats] at hsingle

/-- In front of an end mark no token is consumed and no complaint settled. -/
theorem Balanced.eq_nil_of_atMark (h : Balanced counts slack ts o used settled unsettled) {t : Token}
    (hhead : ts.head? = some t) (ht : t.kind = .endMark) : used = [] ∧ settled = [] := by
  have hused : used = [] := by
    cases used with
    | nil => rfl
    | cons u used =>
      have hsplit := h.split
      subst hsplit
      obtain rfl : u = t := by simpa using hhead
      exact absurd ht (h.unmarked u List.mem_cons_self)
  subst hused
  exact ⟨rfl, List.map_eq_nil_iff.1 (List.subperm_nil.1 h.once)⟩

/-- A token in front is consumed too. -/
theorem Balanced.cons {slack' : Nat} {t : Token} (h : Balanced counts slack ts o used settled unsettled)
    (ht : t.kind ≠ .endMark) (hslack : used.countP counts + slack ≤ (t :: used).countP counts + slack') :
    Balanced counts slack' (t :: ts) o (t :: used) settled unsettled where
  split := by rw [List.cons_append, ← h.split]
  unmarked := by simpa [ht] using h.unmarked
  complaints := h.complaints
  once := h.once.trans (List.sublist_cons_self t used).subperm
  inOrder := h.inOrder.trans (List.sublist_cons_self t used)
  next := h.next
  single := h.single
  bounded := by have hbounded := h.bounded; omega

/-- **Balance of a chain.** Behind a parser that does not give up another goes on. The complaints that the first left
open, in front of an end mark, stay open, so that there has to be slack for both. -/
theorem Balanced.append {slack' total : Nat} {o' : Outcome β} {used' : List Token}
    {settled' unsettled' : List Complaint} (h : Balanced counts slack ts o used settled unsettled) (hdefeats : o.defeats = 0)
    (h' : Balanced counts slack' o.rest o' used' settled' unsettled') (hslack : slack' ≤ total)
    (hmark : (∃ t, o.rest.head? = some t ∧ t.kind = .endMark) → slack + slack' ≤ total) {q : Outcome β}
    (hrest : q.rest = o'.rest) (hcomplaints : q.complaints = o.complaints ++ o'.complaints)
    (hsame : q.defeats = o'.defeats) :
    ∃ settled unsettled, Balanced counts total ts q (used ++ used') settled unsettled := by
  have hsplit : ts = used ++ used' ++ q.rest := by rw [hrest, List.append_assoc, ← h'.split]; exact h.split
  have hunmarked : ∀ t ∈ used ++ used', t.kind ≠ .endMark := fun t ht =>
    (List.mem_append.1 ht).elim (h.unmarked t) (h'.unmarked t)
  have hbounded := h.bounded
  have hbounded' := h'.bounded
  by_cases hopen : unsettled = []
  · subst hopen
    refine ⟨settled ++ settled', unsettled', hsplit, hunmarked, ?_, ?_, ?_, ?_, ?_, ?_⟩
    · rw [hcomplaints, h.complaints, h'.complaints, List.append_nil, List.append_assoc]
    · rw [List.map_append]
      exact h.once.append h'.once
    · rw [List.filter_append, List.map_append]
      exact h.inOrder.append h'.inOrder
    · rw [hrest]
      exact h'.next
    · rw [hrest, hsame]
      exact h'.single
    · rw [List.countP_append, hsame]
      omega
  · obtain ⟨t, hhead, ht⟩ := h.atMark hdefeats hopen
    obtain ⟨rfl, rfl⟩ := h'.eq_nil_of_atMark hhead ht
    obtain hleft : o.rest = o'.rest := h'.split
    refine ⟨settled, unsettled ++ unsettled', hsplit, hunmarked, ?_, ?_, ?_, ?_, ?_, ?_⟩
    · rw [hcomplaints, h.complaints, h'.complaints, List.nil_append, List.append_assoc]
    · rw [List.append_nil]
      exact h.once
    · rw [List.append_nil]
      exact h.inOrder
    · rw [hrest]
      intro c hc
      rcases List.mem_append.1 hc with hc | hc
      · exact hleft ▸ h.next c hc
      · exact h'.next c hc
    · intro hno
      rw [hrest, ← hleft] at hno
      exact absurd ht (hno t hhead)
    · have htotal := hmark ⟨t, hhead, ht⟩
      rw [List.length_append, List.append_nil, hsame]
      rw [List.countP_nil] at hbounded'
      omega

/-- In front of a token other than an end mark at most one complaint is open, about that token. -/
theorem Balanced.sublist_of_next (h : Balanced counts slack ts o used settled unsettled) {t : Token}
    (hhead : o.rest.head? = some t) (ht : t.kind ≠ .endMark) : (unsettled.map Complaint.token).Sublist [t] := by
  have hsingle := h.single (by simpa [hhead] using ht)
  have hle : o.defeats ≤ 1 := by unfold Outcome.defeats; split <;> omega
  have hall : ∀ u ∈ unsettled.map Complaint.token, u = t := by
    intro u hu
    obtain ⟨c, hc, rfl⟩ := List.mem_map.1 hu
    have hsame := (h.next c hc).2
    rw [hhead] at hsame
    exact (Option.some.inj hsame).symm
  rw [List.eq_replicate_of_mem hall, List.length_map]
  exact List.replicate_sublist_replicate t |>.2 (by omega : unsettled.length ≤ 1)

theorem Balanced.eq_nil_of_rest (h : Balanced counts slack ts o used settled unsettled) (hrest : o.rest = []) :
    unsettled = [] := by
  refine List.eq_nil_iff_forall_not_mem.2 fun c hc => ?_
  have hhead := (h.next c hc).2
  simp [hrest] at hhead

/-- Where the rest is the same and nobody gave up, the balance is the same with more slack. -/
theorem Balanced.keep {o' : Outcome β} {slack' : Nat} (h : Balanced counts slack ts o used settled unsettled)
    (hrest : o'.rest = o.rest) (hcomplaints : o'.complaints = o.complaints)
    (hsingle : (∀ t ∈ o.rest.head?, t.kind ≠ .endMark) → unsettled.length ≤ o'.defeats)
    (hslack : slack + o.defeats ≤ slack' + o'.defeats) : Balanced counts slack' ts o' used settled unsettled where
  split := hrest ▸ h.split
  unmarked := h.unmarked
  complaints := hcomplaints.trans h.complaints
  once := h.once
  inOrder := h.inOrder
  next := hrest ▸ h.next
  single := hrest ▸ hsingle
  bounded := by have hbounded := h.bounded; omega

/-- Going past the next token settles the complaint about it. -/
theorem Balanced.pass {o' : Outcome β} {slack' : Nat} {t : Token} {passed : List Token}
    (h : Balanced counts slack ts o used settled unsettled) (hrest : o.rest = t :: passed ++ o'.rest)
    (hpassed : ∀ u ∈ t :: passed, u.kind ≠ .endMark) (hcomplaints : o'.complaints = o.complaints) :
    Balanced counts slack' ts o' (used ++ t :: passed) (settled ++ unsettled) [] where
  split := by rw [List.append_assoc, ← hrest]; exact h.split
  unmarked u hu := (List.mem_append.1 hu).elim (h.unmarked u) (hpassed u)
  complaints := by rw [List.append_nil]; exact hcomplaints.trans h.complaints
  once := by
    have hnext := h.sublist_of_next (by rw [hrest]; rfl) (hpassed t List.mem_cons_self)
    rw [List.map_append]
    exact h.once.append (hnext.trans (by simp)).subperm
  inOrder := by
    have hnext := h.sublist_of_next (by rw [hrest]; rfl) (hpassed t List.mem_cons_self)
    rw [List.filter_append, List.map_append]
    exact h.inOrder.append (((List.filter_sublist.map _).trans hnext).trans (by simp))
  next := by simp
  single _ := Nat.zero_le _
  bounded := Nat.zero_le _

/-- **Balance of recovery.** Where a parser gave up, the token it complained about is gone past, or the complaint stays
open in front of an end mark. -/
theorem Balanced.recover {p : Parser α} (h : Balanced counts slack ts (p ts) used settled unsettled) :
    ∃ used settled unsettled, Balanced counts (slack + 1) ts (recover p ts) used settled unsettled := by
  have hcomplaints := complaints_recover p ts
  have hdefeats := defeats_recover p ts
  by_cases hgave : (p ts).value = .error .gaveUp
  · have hrest := rest_recover_of_gaveUp hgave
    obtain ⟨passed, hpassed, hunmarked⟩ := leaves_toBoundary (p ts).rest
    rw [← hrest] at hpassed
    cases passed with
    | nil =>
      refine ⟨used, settled, unsettled, h.keep hpassed.symm hcomplaints (fun hno => ?_) ?_⟩
      · -- no boundary is right in front of a token that is no end mark
        cases hnext : (p ts).rest with
        | nil => simp [h.eq_nil_of_rest hnext]
        | cons t us =>
          have hlt := length_toBoundary_lt (hno t (by simp [hnext])) us
          rw [← hnext, ← hrest, hpassed, List.nil_append] at hlt
          exact absurd hlt (Nat.lt_irrefl _)
      · have hdefeat := defeats_of_gaveUp hgave
        omega
    | cons t passed => exact ⟨_, _, _, h.pass hpassed hunmarked hcomplaints⟩
  · have hsame : (p ts).defeats = 0 := by
      rcases hvalue : (p ts).value with (_ | fault) | a
      · exact absurd hvalue hgave
      · exact defeats_of_fault hvalue
      · exact defeats_of_ok hvalue
    refine ⟨used, settled, unsettled, h.keep (rest_recover hgave) hcomplaints (fun hno => ?_) (by omega)⟩
    rw [hdefeats, ← hsame]
    exact h.single hno

end Balance

/-! ## Tidy parsers -/

/-- The outcome on the tokens is balanced, and some number of declarations is dropped. -/
structure TidyOn (counts : Token → Bool) (slack : Nat) (p : Parser α) (ts : List Token) : Prop where
  balanced : ∃ used settled unsettled, Balanced counts slack ts (p ts) used settled unsettled
  drops : ∃ d, Drops p ts d

/-- The parser is tidy on any tokens. -/
def Tidy (counts : Token → Bool) (slack : Nat) (p : Parser α) : Prop := ∀ ts, TidyOn counts slack p ts

section Rules

variable {counts : Token → Bool} {slack slack' total : Nat} {p : Parser α} {f : α → Parser β} {ts : List Token}

theorem Tidy.mono {counts' : Token → Bool} (h : Tidy counts slack p)
    (hcounts : ∀ t, counts t = true → counts' t = true) (hslack : slack ≤ slack') : Tidy counts' slack' p := by
  intro ts
  obtain ⟨⟨used, settled, unsettled, hbalanced⟩, hdrops⟩ := h ts
  exact ⟨⟨used, settled, unsettled, hbalanced.mono hcounts hslack⟩, hdrops⟩

theorem pure_tidy (a : α) : Tidy counts slack (pure a) := fun ts =>
  ⟨⟨[], [], [], balanced_of_idle rfl rfl⟩, 0, .pure a ts⟩

theorem overrun_tidy : Tidy counts slack (overrun : Parser α) := fun ts =>
  ⟨⟨[], [], [], balanced_of_idle rfl rfl⟩, 0, .overrun ts⟩

theorem peek_tidy : Tidy counts slack peek := fun ts =>
  ⟨⟨[], [], [], balanced_of_idle (by cases ts <;> rfl) (by cases ts <;> rfl)⟩, 0, .peek ts⟩

theorem fail_tidy {reason : Reason} (hreason : reason ≠ .assignmentTarget) :
    Tidy counts slack (fail reason : Parser α) := by
  intro ts
  refine ⟨?_, 0, .fail hreason ts⟩
  cases ts with
  | nil => exact ⟨[], [], [], balanced_of_idle rfl rfl⟩
  | cons t ts =>
    refine ⟨[], [], [⟨reason, t⟩], rfl, by simp, rfl, .refl [], .refl [], ?_, fun _ => Nat.le_refl 1, ?_⟩
    · simpa [Complaint.isHard, fail] using hreason
    · exact Nat.le_add_left 1 _

/-- A token that is no end mark is consumed, and nothing else. -/
theorem balanced_of_passes {o : Outcome α} {t : Token} (ht : t.kind ≠ .endMark) (hrest : o.rest = ts)
    (hcomplaints : o.complaints = []) : Balanced counts slack (t :: ts) o [t] [] [] where
  split := by rw [hrest]; rfl
  unmarked := by simpa using ht
  complaints := hcomplaints
  once := List.nil_subperm
  inOrder := List.nil_sublist _
  next := by simp
  single _ := Nat.zero_le _
  bounded := Nat.zero_le _

theorem skip_tidy : Tidy counts slack skip := by
  intro ts
  refine ⟨?_, 0, .skip ts⟩
  cases ts with
  | nil => exact ⟨[], [], [], balanced_of_idle rfl rfl⟩
  | cons t ts =>
    by_cases ht : t.kind = .endMark
    · exact ⟨[], [], [], balanced_of_idle (if_pos ht) rfl⟩
    · exact ⟨[t], [], [], balanced_of_passes ht (if_neg ht) rfl⟩

/-- A chain that goes on, on one list of tokens. In front of an end mark there has to be slack for both parsers. -/
theorem TidyOn.bind (hp : TidyOn counts slack p ts)
    (hf : ∀ a, (p ts).value = .ok a → ∃ slack' ≤ total, TidyOn counts slack' (f a) (p ts).rest ∧
      ((∃ t, (p ts).rest.head? = some t ∧ t.kind = .endMark) → slack + slack' ≤ total))
    (hslack : slack ≤ total) : TidyOn counts total (p >>= f) ts := by
  obtain ⟨⟨used, settled, unsettled, hbalanced⟩, d, hdrops⟩ := hp
  cases hvalue : (p ts).value with
  | error halt =>
    obtain ⟨hhalt, hrest⟩ := bind_of_error (f := f) hvalue
    have hdefeats : ((p >>= f) ts).defeats = (p ts).defeats := defeats_congr hvalue hhalt
    refine ⟨⟨used, settled, unsettled, ?_⟩, d, .halt hdrops hvalue⟩
    refine hbalanced.keep hrest (complaints_bind_of_error hvalue) (fun hno => ?_) (by omega)
    rw [hdefeats]
    exact hbalanced.single hno
  | ok a =>
    obtain ⟨slack', hslack', ⟨⟨used', settled', unsettled', hbalanced'⟩, d', hdrops'⟩, hmark⟩ := hf a hvalue
    obtain ⟨hnext, hrest⟩ := bind_of_ok (f := f) hvalue
    refine ⟨⟨used ++ used', ?_⟩, d + d', .bind hdrops hvalue hdrops'⟩
    refine hbalanced.append (defeats_of_ok hvalue) hbalanced' hslack' hmark hrest (complaints_bind_of_ok hvalue) ?_
    rw [Outcome.defeats, Outcome.defeats, hnext]

theorem Tidy.bind (hp : Tidy counts 0 p) (hf : ∀ a, Tidy counts slack (f a)) : Tidy counts slack (p >>= f) :=
  fun ts => (hp ts).bind (fun a _ => ⟨slack, Nat.le_refl _, hf a _, fun _ => by omega⟩) (Nat.zero_le _)

/-- What leaves complaints open can go on without slack. -/
theorem Tidy.bindTidy (hp : Tidy counts slack p) (hf : ∀ a, Tidy counts 0 (f a)) : Tidy counts slack (p >>= f) :=
  fun ts => (hp ts).bind (fun a _ => ⟨0, Nat.zero_le _, hf a _, fun _ => Nat.le_refl _⟩) (Nat.le_refl _)

theorem Tidy.map (hp : Tidy counts 0 p) (f : α → β) : Tidy counts 0 (f <$> p) := hp.bind fun a => pure_tidy (f a)

theorem Tidy.recover (hp : Tidy counts slack p) : Tidy counts (slack + 1) (recover p) := by
  intro ts
  obtain ⟨⟨used, settled, unsettled, hbalanced⟩, d, hdrops⟩ := hp ts
  refine ⟨hbalanced.recover, ?_⟩
  rcases hvalue : (p ts).value with (_ | fault) | a
  · exact ⟨d + 1, .dropped hdrops hvalue⟩
  · exact ⟨d, .faulted hdrops hvalue⟩
  · exact ⟨d, .recovered hdrops hvalue⟩

theorem acceptAny_tidy (asked : TokenKind → Bool) : Tidy counts 0 (acceptAny asked) := by
  refine peek_tidy.bind fun t => ?_
  split
  · exact skip_tidy.bind fun _ => pure_tidy _
  · exact pure_tidy none

theorem expect_tidy (kind : TokenKind) {reason : Reason} (hreason : reason ≠ .assignmentTarget) :
    Tidy counts 0 (expect kind reason) := by
  refine (acceptAny_tidy _).bind fun o => ?_
  cases o with
  | none => exact fail_tidy hreason
  | some t => exact pure_tidy t

/-- Behind a token that counts there is slack for one more complaint. -/
theorem TidyOn.behind {t : Token} (ht : t.kind ≠ .endMark) (hcounts : counts t = true)
    (h : TidyOn counts (slack + 1) p ts) : TidyOn counts slack (do skip; p) (t :: ts) := by
  obtain ⟨⟨used, settled, unsettled, hbalanced⟩, d, hdrops⟩ := h
  have hskip := accepts_skip ht ts
  refine ⟨⟨t :: used, settled, unsettled, ?_⟩, 0 + d, .bind (.skip _) (by rw [accepts_iff.1 hskip]) ?_⟩
  · rw [bind_of_accepts hskip]
    exact hbalanced.cons ht (by simp [hcounts]; omega)
  · rw [accepts_iff.1 hskip]
    exact hdrops

end Rules

end Parser

end Lox
