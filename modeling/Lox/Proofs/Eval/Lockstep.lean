import Lox.Proofs.Eval.Safety
import Lox.Proofs.Stmt.Likeness
import Lox.Proofs.Stmt.TreeTokens

/-!
Two runs in lockstep. Trees that are alike run alike, on states that are related, as long as the
basic steps on names, texts and scopes keep the relation.

* `Stop.Alike T`: the runs stop for the same reason, at tokens that are alike.
* `Eval.Alike T R x y`: from states in the relation `R` the computations end alike, and in states
  that are in it again.
* `Lockstep T Name R Open`: the basic steps are alike, where `R d` relates states `d` scopes further in,
  all names are tokens of the kind `Name`, and names are declared only where `Open d`.
* `Stmt.Contained s`: the statement declares nothing in the scope it is run in.

Everything else follows by induction on the trees (`Lockstep.eval`, `Lockstep.exec`).
-/

namespace Lox

/-- The runs stop for the same reason, at tokens that are alike. -/
inductive Stop.Alike (T : Likeness) : Stop → Stop → Prop
  | error {t u : Token} (message : String) : T.Rel t u →
      Alike T (.error (.atToken t message)) (.error (.atToken u message))
  | unaryOperator {t u : Token} : T.Rel t u →
      Alike T (.fault (.unaryOperator t)) (.fault (.unaryOperator u))
  | fault (fault : Fault) : Alike T (.fault fault) (.fault fault)
  | outOfFuel : Alike T .outOfFuel .outOfFuel

theorem Stop.alike_same_iff {stop stop' : Stop} (h : Stop.Alike .same stop stop') : stop = stop' := by
  cases h with
  | error message ht => rw [Likeness.same_iff.1 ht]
  | unaryOperator ht => rw [Likeness.same_iff.1 ht]
  | fault f => rfl
  | outOfFuel => rfl

theorem Stop.alike_undefinedVariable {T : Likeness} {name name' : Token} (h : T.Rel name name') :
    Stop.Alike T (.error (.undefinedVariable name)) (.error (.undefinedVariable name')) := by
  unfold RuntimeError.undefinedVariable
  rw [T.lexeme_eq h]
  exact .error _ h

namespace Eval

variable {α β : Type} {T : Likeness} {R : State → State → Prop}

/-! ## Ends -/

/-- The ends are the same up to tokens that are alike, in related states. -/
inductive EndsAlike (T : Likeness) (R : State → State → Prop) :
    EStateM.Result Stop State α → EStateM.Result Stop State α → Prop
  | ok (a : α) {s t : State} : R s t → EndsAlike T R (.ok a s) (.ok a t)
  | error {stop stop' : Stop} {s t : State} : Stop.Alike T stop stop' → R s t →
      EndsAlike T R (.error stop s) (.error stop' t)

/-- From related states the computations end alike. -/
def Alike (T : Likeness) (R : State → State → Prop) (x y : Eval α) : Prop :=
  ∀ s t, R s t → EndsAlike T R (x s) (y t)

theorem alike_pure (a : α) : Alike T R (pure a) (pure a) := fun _ _ h => .ok a h

theorem alike_throw {stop stop' : Stop} (h : Stop.Alike T stop stop') :
    Alike T R (throw stop : Eval α) (throw stop') :=
  fun _ _ hst => .error h hst

theorem Alike.bind {x y : Eval α} {f g : α → Eval β} (hx : Alike T R x y)
    (hf : ∀ a, Alike T R (f a) (g a)) : Alike T R (x >>= f) (y >>= g) := by
  intro s t hst
  show EndsAlike T R (EStateM.bind x f s) (EStateM.bind y g t)
  have hend := hx s t hst
  unfold EStateM.bind
  generalize x s = r at hend ⊢
  generalize y t = r' at hend ⊢
  cases hend with
  | ok a hst' => exact hf a _ _ hst'
  | error hstop hst' => exact .error hstop hst'

/-- The results of operations on values are the same, or fail alike. -/
inductive ValuesAlike (T : Likeness) : Except Stop α → Except Stop α → Prop
  | ok (a : α) : ValuesAlike T (.ok a) (.ok a)
  | error {stop stop' : Stop} : Stop.Alike T stop stop' → ValuesAlike T (.error stop) (.error stop')

theorem alike_ofExcept {r r' : Except Stop α} (h : ValuesAlike T r r') :
    Alike T R (ofExcept r) (ofExcept r') := by
  cases h with
  | ok a => exact alike_pure a
  | error hstop => exact alike_throw hstop

theorem Alike.loop {condition condition' : Eval Value} {body body' : Eval Unit}
    (hcondition : Alike T R condition condition') (hbody : Alike T R body body') (n : Nat) :
    Alike T R (loop condition body n) (loop condition' body' n) := by
  induction n with
  | zero => exact alike_throw .outOfFuel
  | succ n ih =>
    refine hcondition.bind fun value => ?_
    split
    · exact hbody.bind fun _ => ih
    · exact alike_pure ()

/-- What runs alike in a scope of its own runs alike with it. -/
theorem alike_inScope {R' : State → State → Prop} {x y : Eval Unit}
    (henter : ∀ s t, R s t → R' { s with env := s.env.push } { t with env := t.env.push })
    (hleave : ∀ s t, R' s t → EndsAlike T R (leave s) (leave t)) (hx : Alike T R' x y) :
    Alike T R (inScope x) (inScope y) := by
  intro s t hst
  rw [inScope_eq, inScope_eq]
  have hend := hx _ _ (henter s t hst)
  generalize x { s with env := s.env.push } = r at hend ⊢
  generalize y { t with env := t.env.push } = r' at hend ⊢
  cases hend with
  | @ok a s' t' hst' =>
    have hleft := hleave s' t' hst'
    simp only [EStateM.bind]
    generalize leave s' = l at hleft ⊢
    generalize leave t' = l' at hleft ⊢
    cases hleft with
    | ok _ hst'' => exact .ok a hst''
    | error hstop hst'' => exact .error hstop hst''
  | @error stop stop' s' t' hstop hst' =>
    have hleft := hleave s' t' hst'
    simp only [EStateM.bind]
    generalize leave s' = l at hleft ⊢
    generalize leave t' = l' at hleft ⊢
    cases hleft with
    | ok _ hst'' => exact .error hstop hst''
    | error hstop' hst'' => exact .error hstop' hst''

/-! ## Basic steps -/

/-- Names that have the same value are looked up alike. -/
theorem alike_lookup {name name' : Token} (hname : T.Rel name name')
    (h : ∀ s t, R s t → t.env.get? name.lexeme = s.env.get? name.lexeme) :
    Alike T R (lookup name) (lookup name') := by
  intro s t hst
  show EndsAlike T R (ofScopes (s.env.lookup name) s) (ofScopes (t.env.lookup name') t)
  unfold Env.lookup
  rw [T.lexeme_eq hname, h s t hst]
  cases s.env.get? name.lexeme with
  | error fault => exact .error (.fault fault) hst
  | ok found =>
    cases found with
    | none => exact .error (Stop.alike_undefinedVariable hname) hst
    | some value => exact .ok value hst

/-- Operations on scopes give related environments, or the same fault. -/
inductive ScopesAlike (A : α → β → Prop) : Except Fault α → Except Fault β → Prop
  | ok {a : α} {b : β} : A a b → ScopesAlike A (.ok a) (.ok b)
  | error (fault : Fault) : ScopesAlike A (.error fault) (.error fault)

/-- The states with new environments are related. -/
def Becomes (R : State → State → Prop) (s t : State) (env env' : Env) : Prop :=
  R { s with env := env } { t with env := env' }

theorem alike_assign {name name' : Token} (hname : T.Rel name name') (value : Value)
    (h : ∀ s t, R s t → ScopesAlike (Option.Rel (Becomes R s t)) (s.env.assign? name.lexeme value)
      (t.env.assign? name.lexeme value)) :
    Alike T R (assign name value) (assign name' value) := by
  intro s t hst
  show EndsAlike T R (EStateM.bind (ofScopes (s.env.assign name value)) setEnv s)
    (EStateM.bind (ofScopes (t.env.assign name' value)) setEnv t)
  unfold Env.assign
  rw [T.lexeme_eq hname]
  have hassign := h s t hst
  generalize s.env.assign? name.lexeme value = r at hassign ⊢
  generalize t.env.assign? name.lexeme value = r' at hassign ⊢
  cases hassign with
  | error fault => exact .error (.fault fault) hst
  | ok hfound =>
    cases hfound with
    | none => exact .error (Stop.alike_undefinedVariable hname) hst
    | some hbecomes => exact .ok () hbecomes

theorem alike_define {name : String} (value : Value)
    (h : ∀ s t, R s t → ScopesAlike (Becomes R s t) (s.env.define name value) (t.env.define name value)) :
    Alike T R (define name value) (define name value) := by
  intro s t hst
  show EndsAlike T R (EStateM.bind (ofExcept ((s.env.define name value).mapError Stop.fault)) setEnv s)
    (EStateM.bind (ofExcept ((t.env.define name value).mapError Stop.fault)) setEnv t)
  have hdefine := h s t hst
  generalize s.env.define name value = r at hdefine ⊢
  generalize t.env.define name value = r' at hdefine ⊢
  cases hdefine with
  | error fault => exact .error (.fault fault) hst
  | ok hbecomes => exact .ok () hbecomes

theorem endsAlike_leave {s t : State} {env env' : Env} (hs : s.env.pop = .ok env)
    (ht : t.env.pop = .ok env') (h : Becomes R s t env env') : EndsAlike T R (leave s) (leave t) := by
  rw [leave_of_pop hs, leave_of_pop ht]
  exact .ok () h

theorem alike_print (value : Value)
    (h : ∀ s t text, R s t → R { s with printed := s.printed.push text } { t with printed := t.printed.push text }) :
    Alike T R (print value) (print value) := by
  intro s t hst
  obtain ⟨text, htext⟩ := value.format_ok
  unfold print
  rw [htext]
  exact .ok () (h s t text hst)

end Eval

open Eval

/-! ## Operators -/

section Operators

variable {T : Likeness} {operator operator' : Token} (h : T.Rel operator operator')

include h

theorem applyUnary_alike (a : Value) : ValuesAlike T (applyUnary operator a) (applyUnary operator' a) := by
  unfold applyUnary
  rw [T.kind_eq h]
  split
  · exact .ok _
  · split
    · exact .ok _
    · exact .error (.error _ h)
  · exact .error (.unaryOperator h)

theorem applyBinary_alike (a b : Value) :
    ValuesAlike T (applyBinary operator a b) (applyBinary operator' a b) := by
  unfold applyBinary
  rw [T.kind_eq h]
  split
  · split
    · exact .ok _
    · exact .error (.error _ h)
  · split
    · exact .ok _
    · exact .ok _
    · exact .error (.fault _)

theorem decidedBy_alike (a : Value) : ValuesAlike T (decidedBy operator a) (decidedBy operator' a) := by
  unfold decidedBy
  rw [T.kind_eq h]
  split
  · exact .ok _
  · exact .ok _
  · exact .error (.fault _)

end Operators

/-! ## Statements that declare nothing around them -/

mutual

/-- The statement declares nothing in the scope it is run in, but only in blocks of its own. -/
def Stmt.Contained : Stmt → Prop
  | .expression _ | .print _ | .block _ => True
  | .declare _ _ => False
  | .branch _ yes no => yes.Contained ∧ Stmt.ElseContained no
  | .loop _ body => body.Contained

/-- The alternative of a conditional is contained, if it has one. -/
def Stmt.ElseContained : Option Stmt → Prop
  | none => True
  | some s => s.Contained

end

/-! ## Trees -/

/-- The basic steps on names, texts and scopes are alike. The relation `R d` is between states `d`
scopes further in. It is kept by steps on names that are tokens of the kind `Name`, and `Open d` says that
names may be declared there. -/
structure Lockstep (T : Likeness) (Name : Token → Prop) (R : Nat → State → State → Prop) (Open : Nat → Prop) :
    Prop where
  lookup : ∀ {d : Nat} {name name' : Token}, Name name → T.Rel name name' →
    Eval.Alike T (R d) (Eval.lookup name) (Eval.lookup name')
  assign : ∀ {d : Nat} {name name' : Token} (value : Value), Name name → T.Rel name name' →
    Eval.Alike T (R d) (Eval.assign name value) (Eval.assign name' value)
  define : ∀ {d : Nat} {name name' : Token} (value : Value), Open d → Name name → T.Rel name name' →
    Eval.Alike T (R d) (Eval.define name.lexeme value) (Eval.define name'.lexeme value)
  print : ∀ {d : Nat} (value : Value), Eval.Alike T (R d) (Eval.print value) (Eval.print value)
  enter : ∀ {d : Nat} {s t : State}, R d s t →
    R (d + 1) { s with env := s.env.push } { t with env := t.env.push }
  leave : ∀ {d : Nat} {s t : State}, R (d + 1) s t →
    EndsAlike T (R d) (Eval.leave s) (Eval.leave t)
  openInside : ∀ d : Nat, Open (d + 1)

namespace Lockstep

variable {T : Likeness} {Name : Token → Prop} {R : Nat → State → State → Prop} {Open : Nat → Prop}

/-- Expressions that are alike are evaluated alike. -/
theorem eval (h : Lockstep T Name R Open) {e e' : Expr} (he : Expr.Alike T e e')
    (hnames : e.MadeOf Name fun _ => True) (d : Nat) : Eval.Alike T (R d) e.eval e'.eval := by
  induction he with
  | literal value => exact alike_pure value
  | reference hname => exact h.lookup hnames hname
  | assign hname _ ih => exact (ih hnames.2).bind fun v => (h.assign v hnames.1 hname).bind fun _ => alike_pure v
  | unary hoperator _ ih => exact (ih hnames.2).bind fun a => alike_ofExcept (applyUnary_alike hoperator a)
  | binary _ hoperator _ ihleft ihright =>
    refine (ihleft hnames.2.1).bind fun a => (ihright hnames.2.2).bind fun b => ?_
    exact alike_ofExcept (applyBinary_alike hoperator a b)
  | logical _ hoperator _ ihleft ihright =>
    refine (ihleft hnames.2.1).bind fun a => (alike_ofExcept (decidedBy_alike hoperator a)).bind fun decided => ?_
    split
    · exact alike_pure a
    · exact ihright hnames.2.2
  | group _ ih => exact ih hnames

mutual

/-- Statements that are alike are run alike, if they may declare names or declare none. -/
theorem exec (h : Lockstep T Name R Open) (fuel : Nat) : ∀ {s s' : Stmt} {d : Nat}, Stmt.Alike T s s' →
    s.MadeOf Name (fun _ => True) → Open d ∨ s.Contained → Eval.Alike T (R d) (s.exec fuel) (s'.exec fuel)
  | _, _, d, .expression hvalue, hnames, _ => by
    rw [Stmt.exec, Stmt.exec]
    exact (h.eval hvalue hnames d).bind fun _ => alike_pure ()
  | _, _, d, .print hvalue, hnames, _ => by
    rw [Stmt.exec, Stmt.exec]
    exact (h.eval hvalue hnames d).bind fun v => h.print v
  | _, _, d, .declare hname, hnames, hopen => by
    rw [Stmt.exec, Stmt.exec]
    exact h.define .nil (hopen.resolve_right id) hnames hname
  | _, _, d, .initialized hname hvalue, hnames, hopen => by
    rw [Stmt.exec, Stmt.exec]
    exact (h.eval hvalue hnames.2 d).bind fun v => h.define v (hopen.resolve_right id) hnames.1 hname
  | _, _, d, .block hbody, hnames, _ => by
    rw [Stmt.exec, Stmt.exec]
    refine alike_inScope (fun _ _ => h.enter) (fun _ _ => h.leave) ?_
    exact execAll h fuel hbody hnames (.inl (h.openInside d))
  | _, _, d, .ifThen hcondition hyes, hnames, hopen => by
    rw [Stmt.exec, Stmt.exec]
    refine (h.eval hcondition hnames.1 d).bind fun value => ?_
    split
    · exact exec h fuel hyes hnames.2.1 (hopen.imp_right fun hc => hc.1)
    · rw [Stmt.execElse]
      exact alike_pure ()
  | _, _, d, .ifThenElse hcondition hyes hno, hnames, hopen => by
    rw [Stmt.exec, Stmt.exec]
    refine (h.eval hcondition hnames.1 d).bind fun value => ?_
    split
    · exact exec h fuel hyes hnames.2.1 (hopen.imp_right fun hc => hc.1)
    · rw [Stmt.execElse, Stmt.execElse]
      exact exec h fuel hno hnames.2.2 (hopen.imp_right fun hc => hc.2)
  | _, _, d, .loop hcondition hbody, hnames, hopen => by
    rw [Stmt.exec, Stmt.exec]
    exact (h.eval hcondition hnames.1 d).loop (exec h fuel hbody hnames.2 (hopen.imp_right fun hc => hc)) fuel

theorem execAll (h : Lockstep T Name R Open) (fuel : Nat) : ∀ {ss ss' : List Stmt} {d : Nat},
    Stmt.AllAlike T ss ss' → Stmt.AllMadeOf Name (fun _ => True) ss → Open d ∨ (∀ s ∈ ss, s.Contained) →
      Eval.Alike T (R d) (Stmt.execAll fuel ss) (Stmt.execAll fuel ss')
  | _, _, d, .nil, _, _ => by
    rw [Stmt.execAll]
    exact alike_pure ()
  | _, _, d, .cons hs hrest, hnames, hopen => by
    rw [Stmt.execAll, Stmt.execAll]
    refine (exec h fuel hs hnames.1 (hopen.imp_right fun hc => hc _ List.mem_cons_self)).bind fun _ => ?_
    exact execAll h fuel hrest hnames.2 (hopen.imp_right fun hc s hs => hc s (List.mem_cons_of_mem _ hs))

end

end Lockstep

/-! ## Invariants of one run -/

namespace Eval

variable {α : Type}

/-- the state a computation ends in -/
def endState : EStateM.Result Stop State α → State
  | .ok _ s => s
  | .error _ s => s

end Eval

/-- The basic steps keep a property of states, where `I d` is about states `d` scopes further in. -/
structure Invariant (I : Nat → State → Prop) (Open : Nat → Prop) : Prop where
  assign : ∀ {d : Nat} {s : State} {name : String} {value : Value} {env : Env}, I d s →
    s.env.assign? name value = .ok (some env) → I d { s with env := env }
  define : ∀ {d : Nat} {s : State} {name : String} {value : Value} {env : Env}, Open d → I d s →
    s.env.define name value = .ok env → I d { s with env := env }
  print : ∀ {d : Nat} {s : State} (text : String), I d s → I d { s with printed := s.printed.push text }
  enter : ∀ {d : Nat} {s : State}, I d s → I (d + 1) { s with env := s.env.push }
  leave : ∀ {d : Nat} {s : State}, I (d + 1) s → ∃ env, s.env.pop = .ok env ∧ I d { s with env := env }
  openInside : ∀ d : Nat, Open (d + 1)

namespace Invariant

variable {I : Nat → State → Prop} {Open : Nat → Prop}

/-- A run is in lockstep with itself. -/
theorem lockstep (h : Invariant I Open) :
    Lockstep .same (fun _ => True) (fun d s t => s = t ∧ I d s) Open where
  lookup _ hname := by
    obtain rfl := Likeness.same_iff.1 hname
    exact alike_lookup rfl fun s t hst => by rw [hst.1]
  assign value _ hname := by
    obtain rfl := Likeness.same_iff.1 hname
    refine alike_assign rfl value fun s t hst => ?_
    obtain ⟨rfl, hI⟩ := hst
    cases hassign : s.env.assign? _ value with
    | error fault => exact .error fault
    | ok found =>
      cases found with
      | none => exact .ok .none
      | some env => exact .ok (.some ⟨rfl, h.assign hI hassign⟩)
  define value hopen _ hname := by
    obtain rfl := Likeness.same_iff.1 hname
    refine alike_define value fun s t hst => ?_
    obtain ⟨rfl, hI⟩ := hst
    cases hdefine : s.env.define _ value with
    | error fault => exact .error fault
    | ok env => exact .ok ⟨rfl, h.define hopen hI hdefine⟩
  print value := by
    refine alike_print value fun s t text hst => ?_
    obtain ⟨rfl, hI⟩ := hst
    exact ⟨rfl, h.print text hI⟩
  enter hst := by
    obtain ⟨rfl, hI⟩ := hst
    exact ⟨rfl, h.enter hI⟩
  leave hst := by
    obtain ⟨rfl, hI⟩ := hst
    obtain ⟨env, hpop, hI'⟩ := h.leave hI
    exact endsAlike_leave hpop hpop ⟨rfl, hI'⟩
  openInside := h.openInside

/-- Computations that are in lockstep on equal states are equal on them, and keep the property. -/
theorem eq_of_alike {α : Type} {d : Nat} {x y : Eval α} (h : Eval.Alike .same (fun s t => s = t ∧ I d s) x y)
    {s : State} (hs : I d s) : x s = y s ∧ I d (endState (y s)) := by
  have hend := h s s ⟨rfl, hs⟩
  generalize x s = r at hend ⊢
  generalize y s = r' at hend ⊢
  cases hend with
  | ok a hst =>
    obtain ⟨rfl, hI⟩ := hst
    exact ⟨rfl, hI⟩
  | error hstop hst =>
    obtain ⟨rfl, hI⟩ := hst
    obtain rfl := Stop.alike_same_iff hstop
    exact ⟨rfl, hI⟩

/-- A statement keeps the property, if it may declare names or declares none. -/
theorem exec (h : Invariant I Open) (fuel : Nat) {stmt : Stmt} {d : Nat} (hopen : Open d ∨ stmt.Contained)
    {s : State} (hs : I d s) : I d (endState (stmt.exec fuel s)) :=
  (eq_of_alike (h.lockstep.exec fuel (Stmt.Alike.refl stmt) stmt.madeOf_true hopen) hs).2

end Invariant

end Lox
