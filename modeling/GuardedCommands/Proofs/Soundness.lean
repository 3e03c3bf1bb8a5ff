import GuardedCommands.Proofs.Preconditions
import GuardedCommands.Verification.Verifier

/-!
# The obligations of a program suffice

If every recorded obligation is valid, every run of the program keeps to its
assertions and ends, if it does, in its postcondition; and if nothing has been
left unchecked and numbers are read as integers, every run ends.

The obligations of a piece of a program are recorded in a ledger that only grows.
So a computation is judged by what it yields when the final ledger is discharged:
the ledger it started from was discharged as well, and the result is as wanted.
-/

namespace GuardedCommands

universe u

variable {V : Type u}

/-- All obligations are valid and, if everything is to be checked, nothing was left out. -/
structure Ledger.Discharged (I : Interpretation V) (total : Prop) (l : Ledger) : Prop where
  valid : ∀ ob ∈ l.obligations, I.Valid ob.pre.expr ob.post.expr
  checked : total → l.warnings = []

/-! ## What a computation yields -/

/-- If the ledger at the end is discharged, it was at the beginning, and the result is as
wanted. -/
def Yields (I : Interpretation V) (total : Prop) {α : Type} (m : VerificationM α)
    (Q : α → Prop) : Prop :=
  ∀ l a l', m l = .ok a l' → l'.Discharged I total → l.Discharged I total ∧ Q a

namespace Yields

variable {I : Interpretation V} {total : Prop} {α β : Type}

theorem mono {m : VerificationM α} {P Q : α → Prop} (h : Yields I total m P)
    (hPQ : ∀ a, P a → Q a) : Yields I total m Q :=
  fun l a l' hm hl' => (h l a l' hm hl').imp_right (hPQ a)

theorem bind {m : VerificationM α} {f : α → VerificationM β} {P : α → Prop} {Q : α → β → Prop}
    (hm : Yields I total m P) (hf : ∀ a, Yields I total (f a) (Q a)) :
    Yields I total (m >>= f) fun b => ∃ a, P a ∧ Q a b := by
  intro l b l' h hl'
  obtain ⟨a, l₁, hml, hfl⟩ := EStateM.ok_of_bind h
  obtain ⟨hl₁, hQ⟩ := hf a l₁ b l' hfl hl'
  obtain ⟨hl, hP⟩ := hm l a l₁ hml hl₁
  exact ⟨hl, a, hP, hQ⟩

theorem pure (a : α) : Yields I total (Pure.pure a : VerificationM α) (· = a) := by
  intro l b l' h hl'
  cases h
  exact ⟨hl', rfl⟩

theorem ofExcept (x : Except VerificationError α) :
    Yields I total (MonadExcept.ofExcept x : VerificationM α) fun a => x = .ok a := by
  intro l a l' h hl'
  obtain ⟨hx, rfl⟩ := EStateM.ok_of_ofExcept h
  exact ⟨hl', hx⟩

theorem forM {γ : Type} {f : γ → VerificationM Unit} {Q : γ → Prop}
    (h : ∀ c, Yields I total (f c) fun _ => Q c) (cs : List γ) :
    Yields I total (cs.forM f) fun _ => ∀ c ∈ cs, Q c := by
  induction cs with
  | nil => exact (pure _).mono fun _ _ => by simp
  | cons c cs ih =>
    refine ((h c).bind fun _ => ih).mono fun _ ⟨_, hc, hcs⟩ => ?_
    exact List.forall_mem_cons.2 ⟨hc, hcs⟩

theorem obligate {o : Options} (hdedupe : o.dedupe = false) (pre post : Pred) (origin : Origin)
    (label : Option String) :
    Yields I total (Structure.obligate o pre post origin label) fun _ =>
      I.Valid pre.expr post.expr := by
  intro l a l' h hl'
  have hl'' : l' = l.obligate o pre post origin label := by
    cases h
    rfl
  subst hl''
  unfold Ledger.obligate at hl'
  split at hl'
  · next hsame =>
    refine ⟨hl', fun σ hσ => ?_⟩
    rwa [Interpretation.Holds, ← TypedExpr.eval_same I _ _ hsame]
  · simp only [hdedupe, Bool.and_false, Bool.false_eq_true, if_false] at hl'
    refine ⟨⟨fun ob hob => ?_, hl'.checked⟩, ?_⟩
    · exact hl'.valid ob (List.mem_append_left _ hob)
    · exact hl'.valid _ (List.mem_append_right _ (List.mem_singleton_self _))

theorem recordHole (pre post : Pred) (env : TypeEnv) (loc : Loc) :
    Yields I total (Structure.recordHole pre post env loc) fun _ => True := by
  intro l a l' h hl'
  cases h
  exact ⟨⟨hl'.valid, hl'.checked⟩, trivial⟩

theorem warn (w : Warning) : Yields I total (Structure.warn w) fun _ => ¬ total := by
  intro l a l' h hl'
  cases h
  have hpartial : ¬ total := by
    intro htotal
    have hnone := hl'.checked htotal
    simp [Ledger.warn] at hnone
  exact ⟨⟨hl'.valid, fun htotal => absurd htotal hpartial⟩, hpartial⟩

end Yields

/-! ## Segments -/

namespace Segment

def predOf? : TypedStmt → Option Pred
  | .assert e loc => some (.assertion e loc)
  | .invariant inv bound loc => some (.invariant inv bound loc)
  | _ => none

theorem assertion?_of_predOf? {s : TypedStmt} {p : Pred} (h : predOf? s = some p) :
    s.assertion? = some p.expr := by
  cases s <;> cases h <;> rfl

theorem bound_within {Γ : Set String} {s : TypedStmt} {p : Pred} (h : predOf? s = some p)
    (hs : s.Scoped Γ) : ∀ bound ∈ p.bound, bound.Within Γ := by
  cases s <;> cases h
  · simp [Pred.bound]
  · exact hs.2

/-- Whether a list is cut at the statement. -/
def cuts : TypedStmt → Bool
  | .assert .. | .invariant .. | .hole .. => true
  | _ => false

theorem cuts_of_predOf? {s : TypedStmt} {p : Pred} (h : predOf? s = some p) : cuts s = true := by
  cases s <;> cases h <;> rfl

theorem plain_of_ne {s : TypedStmt} (hassert : ∀ e loc, s = .assert e loc → False)
    (hinvariant : ∀ e bound loc, s = .invariant e bound loc → False)
    (hhole : ∀ text env loc, s = .hole text env loc → False) : cuts s = false := by
  cases s with
  | assert => exact (hassert _ _ rfl).elim
  | invariant => exact (hinvariant _ _ _ rfl).elim
  | hole => exact (hhole _ _ _ rfl).elim
  | _ => rfl

/-- The segments hold the statements in order, assertions and holes only where they belong. -/
inductive Covers : List Segment → List TypedStmt → Prop
  | nil : Covers [] []
  | run {ss segs us} (hss : ∀ s ∈ ss, cuts s = false) (rest : Covers segs us) :
      Covers (.run ss :: segs) (ss ++ us)
  | assertion {p s segs us} (hs : predOf? s = some p) (rest : Covers segs us) :
      Covers (.assertion p :: segs) (s :: us)
  | loop {p s cmds loc segs us} (hs : predOf? s = some p) (rest : Covers segs us) :
      Covers (.loop p cmds loc :: segs) (s :: .loop cmds loc :: us)
  | hole {text env loc segs us} (rest : Covers segs us) :
      Covers (.hole env loc :: segs) (.hole text env loc :: us)

theorem Covers.consRun {s : TypedStmt} {segs : List Segment} {us : List TypedStmt}
    (hs : cuts s = false) (h : Covers segs us) :
    Covers (Segment.consRun s segs) (s :: us) := by
  unfold Segment.consRun
  split
  · cases h with
    | run hss rest => exact .run (List.forall_mem_cons.2 ⟨hs, hss⟩) rest
  · have hsingle : Covers (.run [s] :: segs) ([s] ++ us) := .run (by simpa using hs) h
    exact hsingle

theorem covers_ofStmts (ss : List TypedStmt) : Covers (ofStmts ss) ss := by
  fun_induction ofStmts ss with
  | case1 => exact .nil
  | case2 e loc cmds l rest ih => exact .loop rfl ih
  | case3 e loc rest _ ih => exact .assertion rfl ih
  | case4 inv bound loc cmds l rest ih => exact .loop rfl ih
  | case5 inv bound loc rest _ ih => exact .assertion rfl ih
  | case6 text env loc rest ih => exact .hole ih
  | case7 s rest _ hassert _ hinvariant hhole ih =>
    exact ih.consRun (plain_of_ne hassert hinvariant hhole)

end Segment

/-! ## Bounds -/

/-- Numbers are read as integers, and comparisons as those of integers and of values. -/
structure Interpretation.Arithmetic (I : Interpretation V) where
  int : ℤ → V
  injective : Function.Injective int
  num : ∀ n, I.lit (.num n) = int n.toInt
  isTrue_lt : ∀ a b, I.IsTrue (I.chain a [(.lt, b)]) ↔ ∃ m n, a = int m ∧ b = int n ∧ m < n
  isTrue_gte : ∀ a b, I.IsTrue (I.chain a [(.gte, b)]) ↔ ∃ m n, a = int m ∧ b = int n ∧ m ≥ n
  isTrue_eq : ∀ a b, I.IsTrue (I.chain a [(.eq, b)]) ↔ a = b

abbrev unfrozen : String → Option V := fun _ => none

theorem Interpretation.Ensures.holds_of_agree {I : Interpretation V} {Γ : Set String}
    {e : TypedExpr} {σ τ : Valuation V} (h : I.Ensures unfrozen Γ e σ)
    (hτ : ∀ x ∈ Γ, τ x = σ x) : I.Holds τ e :=
  h τ hτ (by simp)

theorem Wp.heapVar_not_mem (o : Options) (scopes : Scopes) (avoid : NameSet) :
    (heapVar o scopes avoid).name.text ∉ avoid :=
  Fresh.inScopes_not_mem List.mem_cons_self

namespace Structure

open Execution

variable {I : Interpretation V} {total : Prop} {o : Options} {scopes : Scopes} {Γ : Set String}
  {inv bound : TypedExpr} {c : TypedCmd} {loc : Loc}

abbrev snapshotOf (o : Options) (scopes : Scopes) (inv bound : TypedExpr) (c : TypedCmd) : String :=
  scopes.freshName o.boundStem (inv.freeVars ∪ bound.freeVars ∪ c.guard.freeVars)

theorem snapshotOf_not_taken : Fresh.taken scopes (snapshotOf o scopes inv bound c) = false := by
  have hfree : Fresh.taken ((inv.freeVars ∪ bound.freeVars ∪ c.guard.freeVars) :: scopes)
      (snapshotOf o scopes inv bound c) = false := Fresh.inScopes_not_taken ..
  rw [← Bool.not_eq_true] at hfree ⊢
  exact fun htaken => hfree (Fresh.taken_cons.2 (.inr htaken))

def Decreases (I : Interpretation V) (o : Options) (scopes : Scopes) (inv bound : TypedExpr)
    (c : TypedCmd) : Prop :=
  let old := TypedExpr.ofConst (.bare (snapshotOf o scopes inv bound c)) .int
  ∃ post, Wp.list o ({snapshotOf o scopes inv bound c} :: scopes) (.compare bound .lt old) c.body =
      .ok post ∧
    I.Valid (.conjunction [inv, c.guard, .compare bound .eq old]) post

theorem yields_checkDecrease (hdedupe : o.dedupe = false) (inv bound : TypedExpr) (loc : Loc)
    (c : TypedCmd) :
    Yields I total (checkDecrease o scopes inv bound loc c) fun _ =>
      total → Decreases I o scopes inv bound c := by
  unfold checkDecrease
  split
  · exact (Yields.warn _).mono fun _ hpartial htotal => absurd htotal hpartial
  · refine ((Yields.ofExcept _).bind fun post => Yields.obligate hdedupe _ _ _ _).mono ?_
    rintro _ ⟨post, hpost, hvalid⟩ -
    exact ⟨post, hpost, hvalid⟩

theorem upholds_decreases (A : I.Arithmetic) (hF : Frame (unfrozen : String → Option V) Γ scopes)
    (hguard : c.guard.Within Γ) (hbody : Stmt.ListScoped Γ c.body) (hbound : bound.Within Γ)
    (h : Decreases I o scopes inv bound c) {σ : Valuation V} (hinv : I.Ensures unfrozen Γ inv σ)
    (hσ : I.Holds σ c.guard) :
    Upholds I True
      (fun τ => ∃ m n, bound.eval I τ = A.int m ∧ bound.eval I σ = A.int n ∧ m < n)
      (.running (Task.ofStmts none c.body) σ) := by
  obtain ⟨post, hpost, hvalid⟩ := h
  generalize hk : snapshotOf o scopes inv bound c = k at hpost hvalid
  have hfresh : Fresh.taken scopes k = false := hk ▸ snapshotOf_not_taken
  -- The constant is frozen at the value that the bound has now.
  let θ : String → Option V := fun x => if x = k then some (bound.eval I σ) else none
  have hθ : Frame θ Γ ({k} :: scopes) := by
    refine ⟨fun x hx => Fresh.taken_cons.2 (.inr (hF.visible x hx)), fun x v hv => ?_⟩
    have hx : x = k := by
      by_contra hne
      simp [θ, hne] at hv
    subst hx
    refine ⟨Fresh.taken_cons.2 (.inl (by simp)), fun hmem => ?_⟩
    have htaken := hF.visible x hmem
    rw [hfresh] at htaken
    cases htaken
  have hpre : I.Ensures θ Γ post σ := by
    intro τ hτ hτθ
    refine hvalid τ ?_
    have hsame : ∀ x ∈ bound.freeVars, τ x = σ x := fun x hx => hτ x (hbound x hx)
    have hcompare : I.Holds τ (.compare bound .eq (.ofConst (.bare k) .int)) := by
      refine (A.isTrue_eq _ _).2 ?_
      rw [bound.eval_congr I hsame]
      exact (hτθ k _ (if_pos rfl)).symm
    have hτguard := ((Interpretation.ensures_iff_holds hF hguard).2 hσ).holds_of_agree hτ
    simp only [Interpretation.holds_conjunction, List.forall_mem_cons]
    exact ⟨hinv.holds_of_agree hτ, hτguard, hcompare, by simp⟩
  have hrun : Establishes I False True θ Γ post c.body _ :=
    Wp.establishes_list o _ _ _ post hpost θ Γ hθ hbody
  refine (hrun none σ hpre).toUpholds.mono fun τ hτ => ?_
  have hless := hτ.holds_freeze hθ
  obtain ⟨m, n, hm, hn, hmn⟩ := (A.isTrue_lt _ _).1 hless
  refine ⟨m, n, ?_, ?_, hmn⟩
  · rw [← hm]
    exact bound.eval_congr I fun x hx => (Interpretation.freeze_visible hθ (hbound x hx)).symm
  · rw [← hn]
    simp [TypedExpr.ofConst, TypedExpr.eval, Interpretation.freeze, θ, Name.bare]

/-! ## Loops -/

structure LoopChecked (I : Interpretation V) (total : Prop) (o : Options) (scopes : Scopes)
    (inv : Pred) (cmds : List TypedCmd) (exit : Target) : Prop where
  leads : I.Valid (.conj inv.expr (.neg (.disjunction (cmds.map (·.guard))))) exit.pred.expr
  bounded : total → ∃ bound, inv.bound = some bound ∧
    I.Valid (.conj inv.expr (.disjunction (cmds.map (·.guard)))) (.compare bound .gte (.ofNum 0)) ∧
    ∀ c ∈ cmds, Decreases I o scopes inv.expr bound c

theorem yields_checkLoop (hdedupe : o.dedupe = false) (inv : Pred) (cmds : List TypedCmd)
    (loc : Loc) (exit : Target) :
    Yields I total (checkLoop o scopes inv cmds loc exit) fun _ =>
      LoopChecked I total o scopes inv cmds exit := by
  unfold checkLoop
  cases hbound : inv.bound with
  | none =>
    refine ((Yields.obligate hdedupe _ _ _ _).bind fun _ => Yields.warn _).mono ?_
    rintro _ ⟨_, hleads, hpartial⟩
    exact ⟨hleads, fun htotal => absurd htotal hpartial⟩
  | some bound =>
    refine ((Yields.obligate hdedupe _ _ _ _).bind fun _ =>
      (Yields.obligate hdedupe _ _ _ _).bind fun _ =>
        Yields.forM (yields_checkDecrease hdedupe inv.expr bound loc) cmds).mono ?_
    rintro _ ⟨_, hleads, _, hnonneg, hless⟩
    exact ⟨hleads, fun htotal => ⟨bound, hbound, hnonneg, fun c hc => hless c hc htotal⟩⟩

theorem exists_rank (A : I.Arithmetic) {inv : Pred} {cmds : List TypedCmd}
    (hF : Frame (unfrozen : String → Option V) Γ scopes) (hcmds : Stmt.CmdsScoped Γ cmds)
    (hbound : bound.Within Γ)
    (hnonneg : I.Valid (.conj inv.expr (.disjunction (cmds.map (·.guard))))
      (.compare bound .gte (.ofNum 0)))
    (hless : ∀ c ∈ cmds, Decreases I o scopes inv.expr bound c) :
    ∃ rank : Valuation V → ℕ, ∀ σ, I.Ensures unfrozen Γ inv.expr σ → ∀ c ∈ cmds,
      I.Holds σ c.guard →
        Upholds I True (fun τ => rank τ < rank σ) (.running (Task.ofStmts none c.body) σ) := by
  refine ⟨fun σ => (Function.invFun A.int (bound.eval I σ) + 1).toNat, ?_⟩
  intro σ hinv c hc hguard
  have hread : ∀ n, Function.invFun A.int (A.int n) = n := Function.leftInverse_invFun A.injective
  have hscoped := Stmt.cmdsScoped_iff.1 hcmds c hc
  have hrunning : I.Holds σ (.conj inv.expr (.disjunction (cmds.map (·.guard)))) := by
    refine (I.holds_conj ..).2 ⟨hinv.holds_of_agree fun _ _ => rfl, ?_⟩
    exact (I.holds_disjunction ..).2 ⟨c.guard, List.mem_map_of_mem hc, hguard⟩
  obtain ⟨m, n, hm, hn, hmn⟩ := (A.isTrue_gte _ _).1 (hnonneg σ hrunning)
  have hn0 : n = 0 := by
    have hzero : A.int n = A.int (0 : Int64).toInt := hn.symm.trans (A.num 0)
    exact A.injective hzero
  refine (upholds_decreases A hF hscoped.1 hscoped.2 hbound (hless c hc) hinv hguard).mono ?_
  rintro τ ⟨m', n', hm', hn', hless'⟩
  have hmn' : n' = m := A.injective (hn'.symm.trans hm)
  simp only [hm', hm, hread]
  omega

theorem establishes_loop (harith : total → Nonempty I.Arithmetic)
    {s : TypedStmt} {inv : Pred} {cmds : List TypedCmd} {exit : Target}
    (hF : Frame (unfrozen : String → Option V) Γ scopes) (hpred : Segment.predOf? s = some inv)
    (hs : s.Scoped Γ) (hcmds : Stmt.CmdsScoped Γ cmds)
    (hbodies : ∀ c ∈ cmds, Establishes I total False unfrozen Γ (.conj inv.expr c.guard) c.body
      inv.expr)
    (hcheck : LoopChecked I total o scopes inv cmds exit) :
    Establishes I total False unfrozen Γ inv.expr [s, .loop cmds loc] exit.pred.expr := by
  intro before σ hσ
  have hassert := Segment.assertion?_of_predOf? hpred
  have hwithin : inv.expr.Within Γ := hs.assertion_within _ hassert
  have hsplit : (Task.ofStmts before [s, .loop cmds loc] : List (Task V)) =
      Task.ofStmts before [s] ++ [.exec (some inv.expr) (.loop cmds loc)] := by
    simp [Task.ofStmts, hassert]
  rw [hsplit]
  refine (Wp.establishes_assertion hF hs hassert before σ hσ).append fun τ hτ => ?_
  refine correct_loop ?_ ?_ ?_ ?_ hτ
  · rintro υ hυ _ ⟨⟩
    exact (Interpretation.ensures_iff_holds hF hwithin).1 hυ
  · intro υ hυ c hc hguard
    have hguardWithin := (Stmt.cmdsScoped_iff.1 hcmds c hc).1
    exact hbodies c hc none υ
      (hυ.conj ((Interpretation.ensures_iff_holds hF hguardWithin).2 hguard))
  · intro htotal
    obtain ⟨A⟩ := harith htotal
    obtain ⟨bound, hbound, hnonneg, hless⟩ := hcheck.bounded htotal
    exact exists_rank A hF hcmds (Segment.bound_within hpred hs bound hbound) hnonneg hless
  · intro υ hυ hguards
    refine Interpretation.Ensures.mono hcheck.leads (hυ.conj fun τ hτυ _ => ?_)
    rw [I.holds_neg, I.holds_disjunction]
    rintro ⟨_, hmem, hholds⟩
    obtain ⟨c, hc, rfl⟩ := List.mem_map.1 hmem
    have hguardWithin := (Stmt.cmdsScoped_iff.1 hcmds c hc).1
    exact hguards c hc ((I.holds_congr fun x hx => hτυ x (hguardWithin x hx)).1 hholds)

/-! ## Programs -/

/-- Statements in scope, with the visible names in force, that stay off the heap and have
no holes. -/
structure Ready (Γ : Set String) (scopes : Scopes) (ss : List TypedStmt) : Prop where
  visible : ∀ x ∈ Γ, Fresh.taken scopes x = true
  statements : ∀ s ∈ ss, s.Scoped Γ ∧ s.isPlain = true

namespace Ready

variable {ss us : List TypedStmt} {cs : List TypedCmd}

theorem frame (h : Ready Γ scopes ss) : Frame (unfrozen : String → Option V) Γ scopes :=
  ⟨h.visible, by simp⟩

theorem of_subset (h : Ready Γ scopes ss) (hsub : ∀ s ∈ us, s ∈ ss) : Ready Γ scopes us :=
  ⟨h.visible, fun s hs => h.statements s (hsub s hs)⟩

theorem of_list (hvisible : ∀ x ∈ Γ, Fresh.taken scopes x = true) (hscoped : Stmt.ListScoped Γ ss)
    (hplain : Stmt.listPlain ss = true) : Ready Γ scopes ss :=
  ⟨hvisible, fun s hs => ⟨Stmt.listScoped_iff.1 hscoped s hs, Stmt.listPlain_iff.1 hplain s hs⟩⟩

theorem of_cmds (hvisible : ∀ x ∈ Γ, Fresh.taken scopes x = true) (hscoped : Stmt.CmdsScoped Γ cs)
    (hplain : Stmt.cmdsPlain cs = true) :
    ∀ c ∈ cs, c.guard.Within Γ ∧ Ready Γ scopes c.body := by
  intro c hc
  have hscoped' := Stmt.cmdsScoped_iff.1 hscoped c hc
  exact ⟨hscoped'.1, of_list hvisible hscoped'.2 (Stmt.cmdsPlain_iff.1 hplain c hc)⟩

end Ready

section Recursion

variable (I total o)

def SegmentsSound (scopes : Scopes) (target : Target) (pre : Pred) (segs : List Segment) : Prop :=
  Yields I total (segments o scopes target pre segs) fun _ =>
    ∀ Γ ss, Segment.Covers segs ss → Ready Γ scopes ss →
      Establishes I total False unfrozen Γ pre.expr ss target.pred.expr

def PullBackSound (scopes : Scopes) (target : Target) (segs : List Segment) : Prop :=
  Yields I total (pullBack o scopes target segs) fun next =>
    ∀ Γ ss, Segment.Covers segs ss → Ready Γ scopes ss →
      Establishes I total False unfrozen Γ next.pred.expr ss target.pred.expr

def BodiesSound (scopes : Scopes) (inv : Pred) (loc : Loc) (cs : List TypedCmd) : Prop :=
  Yields I total (bodies o scopes inv loc cs) fun _ =>
    ∀ Γ, (∀ c ∈ cs, Ready Γ scopes c.body) → ∀ c ∈ cs,
      Establishes I total False unfrozen Γ (.conj inv.expr c.guard) c.body inv.expr

def RunSound (scopes : Scopes) (target : Target) (ss : List TypedStmt) : Prop :=
  Yields I total (run o scopes target ss) fun next =>
    (∀ s ∈ ss, Segment.cuts s = false) → ∀ Γ, Ready Γ scopes ss →
      Establishes I total False unfrozen Γ next.pred.expr ss target.pred.expr

def StmtSound (scopes : Scopes) (target : Target) (s : TypedStmt) : Prop :=
  Yields I total (stmt o scopes target s) fun e =>
    Segment.cuts s = false → ∀ Γ, Ready Γ scopes [s] →
      Establishes I total False unfrozen Γ e [s] target.pred.expr

def BranchesSound (scopes : Scopes) (target : Target) (cs : List TypedCmd) : Prop :=
  Yields I total (branches o scopes target cs) fun es =>
    ∀ Γ, (∀ c ∈ cs, c.guard.Within Γ ∧ Ready Γ scopes c.body) →
      ∀ σ, (∀ e ∈ es, I.Ensures unfrozen Γ e σ) → ∀ c ∈ cs, I.Holds σ c.guard →
        Correct I total False (I.Ensures unfrozen Γ target.pred.expr)
          (.running (Task.ofStmts none c.body) σ)

end Recursion

section Cases

variable {target : Target} {pre inv a : Pred} {segs : List Segment}
  {ss : List TypedStmt} {s : TypedStmt} {cs : List TypedCmd}

theorem not_ready_hole {text : String} {env : TypeEnv} :
    ¬ Ready Γ scopes (.hole text env loc :: ss) := by
  intro h
  have hplain := (h.statements _ (List.mem_cons_self ..)).2
  cases hplain

theorem establishes_asserted {post : TypedExpr} {us : List TypedStmt}
    (hcovers : Segment.Covers (.assertion a :: segs) us) (hready : Ready Γ scopes us)
    (hrest : ∀ ss, Segment.Covers segs ss → Ready Γ scopes ss →
      Establishes I total False unfrozen Γ a.expr ss post) :
    Establishes I total False unfrozen Γ a.expr us post := by
  cases hcovers with
  | assertion hs rest =>
    have hhead := (hready.statements _ (List.mem_cons_self ..)).1
    have htail := hready.of_subset fun s hs => List.mem_cons_of_mem _ hs
    exact Wp.establishes_cons
      (Wp.establishes_assertion hready.frame hhead (Segment.assertion?_of_predOf? hs))
      (hrest _ rest htail)

theorem segmentsSound_assertion (hdedupe : o.dedupe = false)
    (ih : SegmentsSound I total o scopes target a segs) :
    SegmentsSound I total o scopes target pre (.assertion a :: segs) := by
  unfold SegmentsSound
  rw [segments]
  refine ((Yields.obligate hdedupe _ _ _ _).bind fun _ => ih).mono ?_
  rintro _ ⟨_, hvalid, hrest⟩ Γ us hcovers hready
  exact (establishes_asserted hcovers hready (hrest Γ)).weaken hvalid

theorem segmentsSound_hole {env : TypeEnv} (ih : PullBackSound I total o scopes target segs) :
    SegmentsSound I total o scopes target pre (.hole env loc :: segs) := by
  unfold SegmentsSound
  rw [segments]
  refine (ih.bind fun next => Yields.recordHole _ _ _ _).mono ?_
  rintro _ - Γ us hcovers hready
  cases hcovers
  exact absurd hready not_ready_hole

theorem segmentsSound_pulled (hdedupe : o.dedupe = false)
    (hassertion : ∀ a rest, segs = .assertion a :: rest → False)
    (hhole : ∀ env loc rest, segs = .hole env loc :: rest → False)
    (ih : PullBackSound I total o scopes target segs) :
    SegmentsSound I total o scopes target pre segs := by
  unfold SegmentsSound
  rw [segments.eq_3 _ _ _ _ _ hassertion hhole]
  refine (ih.bind fun next => Yields.obligate hdedupe _ _ _ _).mono ?_
  rintro _ ⟨next, hnext, hvalid⟩ Γ us hcovers hready
  exact (hnext Γ us hcovers hready).weaken hvalid

theorem pullBackSound_nil : PullBackSound I total o scopes target [] := by
  unfold PullBackSound
  rw [pullBack]
  refine (Yields.pure _).mono ?_
  rintro next rfl Γ us hcovers -
  cases hcovers
  exact Wp.establishes_nil

theorem pullBackSound_run (ihrest : PullBackSound I total o scopes target segs)
    (ihrun : ∀ next, RunSound I total o scopes next ss) :
    PullBackSound I total o scopes target (.run ss :: segs) := by
  unfold PullBackSound
  rw [pullBack]
  refine (ihrest.bind fun next => ihrun next).mono ?_
  rintro first ⟨next, hnext, hfirst⟩ Γ us hcovers hready
  cases hcovers with
  | run hss rest =>
    exact Wp.establishes_append
      (hfirst hss Γ (hready.of_subset fun s hs => List.mem_append_left _ hs))
      (hnext Γ _ rest (hready.of_subset fun s hs => List.mem_append_right _ hs))

theorem pullBackSound_assertion (ih : SegmentsSound I total o scopes target a segs) :
    PullBackSound I total o scopes target (.assertion a :: segs) := by
  unfold PullBackSound
  rw [pullBack]
  refine (ih.bind fun _ => Yields.pure _).mono ?_
  rintro next ⟨_, hrest, rfl⟩ Γ us hcovers hready
  exact establishes_asserted hcovers hready (hrest Γ)

theorem pullBackSound_loop (hdedupe : o.dedupe = false) (harith : total → Nonempty I.Arithmetic)
    (ihrest : PullBackSound I total o scopes target segs)
    (ihbodies : BodiesSound I total o scopes inv loc cs) :
    PullBackSound I total o scopes target (.loop inv cs loc :: segs) := by
  unfold PullBackSound
  rw [pullBack]
  refine (ihrest.bind fun exit => ihbodies.bind fun _ =>
    (yields_checkLoop hdedupe inv cs loc exit).bind fun _ => Yields.pure _).mono ?_
  rintro next ⟨exit, hexit, _, hbodies, _, hcheck, rfl⟩ Γ us hcovers hready
  cases hcovers with
  | @loop _ s _ _ _ us hs rest =>
    have hhead := (hready.statements s (by simp)).1
    obtain ⟨hcmds, hplain⟩ := hready.statements (.loop cs loc) (by simp)
    have hready' := Ready.of_cmds hready.visible hcmds hplain
    have hloop : Establishes I total False unfrozen Γ inv.expr [s, .loop cs loc] exit.pred.expr :=
      establishes_loop harith hready.frame hs hhead hcmds
        (hbodies Γ fun c hc => (hready' c hc).2) hcheck
    exact Wp.establishes_append hloop
      (hexit Γ us rest (hready.of_subset fun s hs => by simp [hs]))

theorem pullBackSound_hole {env : TypeEnv} (ih : PullBackSound I total o scopes target segs) :
    PullBackSound I total o scopes target (.hole env loc :: segs) := by
  unfold PullBackSound
  rw [pullBack]
  refine (ih.bind fun next => (Yields.recordHole _ _ _ _).bind fun _ => Yields.pure _).mono ?_
  rintro _ - Γ us hcovers hready
  cases hcovers
  exact absurd hready not_ready_hole

theorem bodiesSound_nil : BodiesSound I total o scopes inv loc [] := by
  unfold BodiesSound
  rw [bodies]
  exact (Yields.pure _).mono fun _ _ => by simp

theorem bodiesSound_cons
    (ihbody : SegmentsSound I total o scopes
      ⟨inv, ⟨.preservation, loc⟩, some c.guard.text⟩ (.constant (.conj inv.expr c.guard))
      (Segment.ofStmts c.body))
    (ihrest : BodiesSound I total o scopes inv loc cs) :
    BodiesSound I total o scopes inv loc (c :: cs) := by
  unfold BodiesSound
  rw [bodies]
  refine (ihbody.bind fun _ => ihrest).mono ?_
  rintro _ ⟨_, hbody, hrest⟩ Γ hready
  obtain ⟨hhead, htail⟩ := List.forall_mem_cons.1 hready
  exact List.forall_mem_cons.2
    ⟨hbody Γ c.body (Segment.covers_ofStmts c.body) hhead, hrest Γ htail⟩

theorem runSound_nil : RunSound I total o scopes target [] := by
  unfold RunSound
  rw [run]
  refine (Yields.pure _).mono ?_
  rintro next rfl - Γ -
  exact Wp.establishes_nil

theorem runSound_cons (ihrest : RunSound I total o scopes target ss)
    (ihstmt : ∀ next, StmtSound I total o scopes next s) :
    RunSound I total o scopes target (s :: ss) := by
  unfold RunSound
  rw [run]
  refine (ihrest.bind fun next => (ihstmt next).bind fun e => Yields.pure _).mono ?_
  rintro first ⟨next, hnext, e, he, rfl⟩ hss Γ hready
  obtain ⟨hs, hss⟩ := List.forall_mem_cons.1 hss
  have hhead : Ready Γ scopes [s] := hready.of_subset fun t ht => by simp_all
  have htail : Ready Γ scopes ss := hready.of_subset fun t ht => List.mem_cons_of_mem _ ht
  exact Wp.establishes_cons (he hs Γ hhead) (hnext hss Γ htail)

theorem stmtSound_cond (ih : BranchesSound I total o scopes target cs) :
    StmtSound I total o scopes target (.cond cs loc) := by
  unfold StmtSound
  rw [stmt]
  refine (ih.bind fun es => Yields.pure _).mono ?_
  rintro _ ⟨es, hes, rfl⟩ - Γ hready
  obtain ⟨hscoped, hplain⟩ := hready.statements (.cond cs loc) (by simp)
  exact Wp.establishes_cond (hes Γ (Ready.of_cmds hready.visible hscoped hplain))

theorem stmtSound_block {b : TypedProgram}
    (ih : PullBackSound I total o ((Wp.OpenBlock.ofBlock scopes b target.pred.expr).scope :: scopes)
      target (Segment.ofStmts
        ((Wp.OpenBlock.ofBlock scopes b target.pred.expr).renames.stmts b.stmts))) :
    StmtSound I total o scopes target (.block b loc) := by
  unfold StmtSound
  rw [stmt]
  refine (ih.bind fun result => Yields.pure _).mono ?_
  rintro _ ⟨result, hresult, rfl⟩ - Γ hready
  obtain ⟨hscoped, hplain⟩ := hready.statements (.block b loc) (by simp)
  refine Wp.establishes_block hready.frame hscoped fun Δ hΔ hstmts => ?_
  refine hresult Δ _ (Segment.covers_ofStmts _) (Ready.of_list hΔ.visible hstmts ?_)
  rw [Renaming.listPlain_stmts]
  exact hplain

theorem stmtSound_simple (hcond : ∀ cs loc, s = .cond cs loc → False)
    (hblock : ∀ b loc, s = .block b loc → False) : StmtSound I total o scopes target s := by
  unfold StmtSound
  rw [stmt.eq_3 _ _ _ _ hcond hblock]
  refine (Yields.ofExcept _).mono ?_
  intro e he hassert Γ hready
  obtain ⟨hscoped, hplain⟩ := hready.statements s (by simp)
  cases s with
  | skip loc =>
    rw [Wp.stmt] at he
    cases he
    exact Wp.establishes_skip
  | abort loc =>
    rw [Wp.stmt] at he
    cases he
    exact Wp.establishes_abort hready.frame
  | assign xs es loc =>
    rw [Wp.stmt] at he
    cases he
    exact Wp.establishes_assign hready.frame hscoped
  | arrayAssign a i v loc =>
    rw [Wp.stmt] at he
    exact Wp.establishes_arrayAssign hready.frame hscoped he
  | loop cs loc =>
    rw [Wp.stmt] at he
    cases he
  | cond cs loc => exact (hcond cs loc rfl).elim
  | block b loc => exact (hblock b loc rfl).elim
  | assert e loc | invariant inv bound loc => cases hassert
  | hole text env loc | alloc x es loc | lookup x e loc | mutate cell value loc
  | dispose e loc => cases hplain

theorem branchesSound_nil : BranchesSound I total o scopes target [] := by
  unfold BranchesSound
  rw [branches]
  exact (Yields.pure _).mono fun _ _ => by simp

theorem branchesSound_cons (ihbody : PullBackSound I total o scopes target (Segment.ofStmts c.body))
    (ihrest : BranchesSound I total o scopes target cs) :
    BranchesSound I total o scopes target (c :: cs) := by
  unfold BranchesSound
  rw [branches]
  refine (ihbody.bind fun body => ihrest.bind fun rest => Yields.pure _).mono ?_
  rintro _ ⟨body, hbody, rest, hrest, rfl⟩ Γ hready σ hσ
  obtain ⟨⟨hguard, hhead⟩, htail⟩ := List.forall_mem_cons.1 hready
  exact Wp.correct_branches_cons hhead.frame hguard
    (hbody Γ c.body (Segment.covers_ofStmts c.body) hhead) (hrest Γ htail) hσ

end Cases

/-- Segments establish their target if their obligations are valid. -/
theorem segments_sound (hdedupe : o.dedupe = false) (harith : total → Nonempty I.Arithmetic)
    (scopes : Scopes) (target : Target) (pre : Pred) (segs : List Segment) :
    SegmentsSound I total o scopes target pre segs :=
  segments.induct (SegmentsSound I total o) (PullBackSound I total o) (BodiesSound I total o)
    (RunSound I total o) (StmtSound I total o) (BranchesSound I total o)
    (fun _ _ _ _ _ => segmentsSound_assertion hdedupe)
    (fun _ _ _ _ _ _ => segmentsSound_hole)
    (fun _ _ _ _ => segmentsSound_pulled hdedupe)
    (fun _ _ => pullBackSound_nil)
    (fun _ _ _ _ => pullBackSound_run)
    (fun _ _ _ _ => pullBackSound_assertion)
    (fun _ _ _ _ _ _ => pullBackSound_loop hdedupe harith)
    (fun _ _ _ _ _ => pullBackSound_hole)
    (fun _ _ _ => bodiesSound_nil)
    (fun _ _ _ _ _ => bodiesSound_cons)
    (fun _ _ => runSound_nil)
    (fun _ _ _ _ => runSound_cons)
    (fun _ _ _ _ => stmtSound_cond)
    (fun _ _ _ _ => stmtSound_block)
    (fun _ _ _ => stmtSound_simple)
    (fun _ _ => branchesSound_nil)
    (fun _ _ _ _ => branchesSound_cons)
    scopes target pre segs

end Structure

end GuardedCommands
