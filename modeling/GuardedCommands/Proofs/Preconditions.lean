import GuardedCommands.Proofs.Blocks

/-!
# Computed preconditions are preconditions

Statements establish a postcondition from a precondition if they run correctly
from every state in which the precondition is ensured.  One rule for each kind of
statement says so for the precondition that is computed for it.  The rules serve
two purposes: with assertions checked, for the obligations of a program, and with
assertions passed over, for the decrease of a bound.  In the second case a failure
is allowed, because the first has ruled it out.
-/

namespace GuardedCommands

universe u

variable {V : Type u}

/-- From every state in which the precondition is ensured, the statements run correctly to
states in which the postcondition is. -/
def Establishes (I : Interpretation V) (total fails : Prop) (θ : String → Option V)
    (Γ : Set String) (pre : TypedExpr) (ss : List TypedStmt) (post : TypedExpr) : Prop :=
  ∀ before σ, I.Ensures θ Γ pre σ →
    Execution.Correct I total fails (I.Ensures θ Γ post) (.running (Task.ofStmts before ss) σ)

/-- An obligation that is true in every state. -/
def Interpretation.Valid (I : Interpretation V) (pre post : TypedExpr) : Prop :=
  ∀ σ, I.Holds σ pre → I.Holds σ post

theorem Establishes.weaken {I : Interpretation V} {total fails : Prop} {θ : String → Option V}
    {Γ : Set String} {pre mid post : TypedExpr} {ss : List TypedStmt} (hvalid : I.Valid pre mid)
    (h : Establishes I total fails θ Γ mid ss post) : Establishes I total fails θ Γ pre ss post :=
  fun before σ hσ => h before σ (hσ.mono hvalid)

namespace Interpretation

variable {I : Interpretation V} {θ : String → Option V} {Γ : Set String} {scopes : Scopes}
  {σ : Valuation V}

theorem ensures_conjunction {es : List TypedExpr} :
    I.Ensures θ Γ (.conjunction es) σ ↔ ∀ e ∈ es, I.Ensures θ Γ e σ := by
  simp only [Ensures, holds_conjunction]
  exact ⟨fun h e he τ hτ hθ => h τ hτ hθ e he, fun h τ hτ hθ e he => h e he τ hτ hθ⟩

theorem Ensures.of_implies {guard body : TypedExpr} (hF : Frame θ Γ scopes)
    (hguard : guard.Within Γ) (h : I.Ensures θ Γ (.implies guard body) σ)
    (hσ : I.Holds σ guard) : I.Ensures θ Γ body σ := by
  intro τ hτ hθ
  have hτguard := (ensures_iff_holds hF hguard).2 hσ τ hτ hθ
  exact (I.holds_implies τ guard body).1 (h τ hτ hθ) hτguard

theorem Ensures.conj {d e : TypedExpr} (hd : I.Ensures θ Γ d σ) (he : I.Ensures θ Γ e σ) :
    I.Ensures θ Γ (.conj d e) σ :=
  fun τ hτ hθ => (I.holds_conj τ d e).2 ⟨hd τ hτ hθ, he τ hτ hθ⟩

theorem not_ensures_false (hF : Frame θ Γ scopes) : ¬ I.Ensures θ Γ (.ofBool false) σ := by
  intro h
  have hfalse := h.holds_freeze hF
  simp at hfalse

end Interpretation

namespace Wp

open Execution

variable {I : Interpretation V} {total fails : Prop} {θ : String → Option V} {Γ : Set String}
  {scopes : Scopes} {pre mid post : TypedExpr} {loc : Loc}

/-! ## One rule for each kind of statement -/

theorem establishes_nil : Establishes I total fails θ Γ post [] post :=
  fun _ _ hσ => correct_done hσ

variable {ss : List TypedStmt} {s : TypedStmt} {es : List TypedExpr} {e : TypedExpr}
  {cs : List TypedCmd}

theorem establishes_append {us : List TypedStmt} (hss : Establishes I total fails θ Γ pre ss mid)
    (hus : Establishes I total fails θ Γ mid us post) :
    Establishes I total fails θ Γ pre (ss ++ us) post :=
  fun before σ hσ => correct_seq (hss before σ hσ) hus

theorem establishes_cons (hs : Establishes I total fails θ Γ pre [s] mid)
    (hss : Establishes I total fails θ Γ mid ss post) :
    Establishes I total fails θ Γ pre (s :: ss) post :=
  establishes_append hs hss

theorem establishes_skip : Establishes I total fails θ Γ post [.skip loc] post := by
  intro before σ hσ
  refine correct_single fun d hd => ?_
  cases hd with
  | skip => exact correct_done hσ
  | passed hs | refused hs | foreign hs => cases hs

theorem establishes_abort (hF : Frame θ Γ scopes) :
    Establishes I total fails θ Γ (.ofBool false) [.abort loc] post :=
  fun _ _ hσ => absurd hσ (Interpretation.not_ensures_false hF)

theorem establishes_assign {xs : List Name} (hF : Frame θ Γ scopes)
    (hs : (Stmt.assign xs es loc : TypedStmt).Scoped Γ) :
    Establishes I total fails θ Γ (assign xs es post) [.assign xs es loc] post := by
  intro before σ hσ
  refine correct_single fun d hd => ?_
  cases hd with
  | assign => exact correct_done ((ensures_assign hF hs.1 hs.2).1 hσ)
  | passed hs | refused hs | foreign hs => cases hs

theorem establishes_arrayAssign {a i v : TypedExpr} (hF : Frame θ Γ scopes)
    (hs : (Stmt.arrayAssign a i v loc : TypedStmt).Scoped Γ)
    (hpre : arrayAssign a i v loc post = .ok pre) :
    Establishes I total fails θ Γ pre [.arrayAssign a i v loc] post := by
  unfold arrayAssign at hpre
  split at hpre
  · next x hname =>
    cases hpre
    intro before σ hσ
    refine correct_single fun d hd => ?_
    cases hd with
    | arrayAssign hname' =>
      cases hname.symm.trans hname'
      exact correct_done ((ensures_arrayAssign hF hname hs.1 hs.2.1 hs.2.2).1 hσ)
    | nestedArray hname' =>
      rw [hname] at hname'
      cases hname'
    | passed hs | refused hs | foreign hs => cases hs
  · cases hpre

theorem establishes_assertion (hF : Frame θ Γ scopes) (hs : s.Scoped Γ)
    (he : s.assertion? = some e) : Establishes I total fails θ Γ e [s] e := by
  intro before σ hσ
  have hholds := (Interpretation.ensures_iff_holds hF (hs.assertion_within e he)).1 hσ
  exact correct_assertion he (fun _ => hσ) (.inr hholds)

theorem establishes_cond (h : ∀ σ, (∀ e ∈ es, I.Ensures θ Γ e σ) → ∀ c ∈ cs, I.Holds σ c.guard →
      Correct I total fails (I.Ensures θ Γ post) (.running (Task.ofStmts none c.body) σ)) :
    Establishes I total fails θ Γ (.conjunction es) [.cond cs loc] post :=
  fun _ σ hσ => correct_cond (h σ (Interpretation.ensures_conjunction.1 hσ))

theorem correct_branches_cons {c : TypedCmd} {body : TypedExpr} (hF : Frame θ Γ scopes)
    (hguard : c.guard.Within Γ) (hbody : Establishes I total fails θ Γ body c.body post)
    (hrest : ∀ σ, (∀ e ∈ es, I.Ensures θ Γ e σ) → ∀ c ∈ cs, I.Holds σ c.guard →
      Correct I total fails (I.Ensures θ Γ post) (.running (Task.ofStmts none c.body) σ))
    {σ : Valuation V} (hσ : ∀ e ∈ .implies c.guard body :: es, I.Ensures θ Γ e σ) :
    ∀ d ∈ c :: cs, I.Holds σ d.guard →
      Correct I total fails (I.Ensures θ Γ post) (.running (Task.ofStmts none d.body) σ) := by
  intro d hd hholds
  rcases List.mem_cons.1 hd with rfl | hd
  · have himplies := hσ _ (List.mem_cons_self ..)
    exact hbody none σ (himplies.of_implies hF hguard hholds)
  · exact hrest σ (fun e he => hσ e (List.mem_cons_of_mem _ he)) d hd hholds

theorem establishes_block {b : TypedProgram} (hF : Frame θ Γ scopes)
    (hs : (Stmt.block b loc : TypedStmt).Scoped Γ)
    (hbody : ∀ Δ, Frame θ Δ ((OpenBlock.ofBlock scopes b post).scope :: scopes) →
      Stmt.ListScoped Δ ((OpenBlock.ofBlock scopes b post).renames.stmts b.stmts) →
      Establishes I total fails θ Δ pre
        ((OpenBlock.ofBlock scopes b post).renames.stmts b.stmts) post) :
    Establishes I total fails θ Γ pre [.block b loc] post := by
  intro before σ hσ
  have hprepared : Prepared θ Γ scopes b post _ _ := prepared_ofBlock hF hs
  exact correct_block hF hs hprepared
    (hbody _ hprepared.frame hprepared.statements none) hσ

/-! ## Preconditions that pass over assertions -/

theorem establishes_passed (he : s.assertion? = some e) :
    Establishes I total True θ Γ post [s] post :=
  fun _ _ hσ => correct_assertion he (fun _ => hσ) (.inl trivial)

theorem establishes_foreign (hs : s.isForeign = true) :
    Establishes I total True θ Γ pre [s] post := by
  intro before σ _
  refine correct_single fun d hd => ?_
  cases hd with
  | foreign _ => exact correct_failed trivial
  | passed hs' | refused hs' => cases s <;> cases hs <;> cases hs'
  | _ => cases hs

/-- Statements without loops establish a postcondition from the precondition that is
computed for it, if failures are allowed. -/
theorem establishes_list (o : Options) (scopes : Scopes) (post : TypedExpr)
    (ss : List TypedStmt) :
    ∀ pre, list o scopes post ss = .ok pre → ∀ θ Γ, Frame θ Γ scopes → Stmt.ListScoped Γ ss →
      Establishes I total True θ Γ pre ss post := by
  refine list.induct
    (fun scopes post ss => ∀ pre, list o scopes post ss = .ok pre → ∀ θ Γ, Frame θ Γ scopes →
      Stmt.ListScoped Γ ss → Establishes I total True θ Γ pre ss post)
    (fun scopes post s => ∀ pre, stmt o scopes post s = .ok pre → ∀ θ Γ, Frame θ Γ scopes →
      s.Scoped Γ → Establishes I total True θ Γ pre [s] post)
    (fun scopes post cs => ∀ es, cmds o scopes post cs = .ok es → ∀ θ Γ, Frame θ Γ scopes →
      Stmt.CmdsScoped Γ cs → ∀ σ, (∀ e ∈ es, I.Ensures θ Γ e σ) →
        ∀ c ∈ cs, I.Holds σ c.guard →
          Correct I total True (I.Ensures θ Γ post) (.running (Task.ofStmts none c.body) σ))
    ?nil ?cons ?skip ?assert ?invariant ?hole ?abort ?assign ?arrayAssign ?loop ?cond ?alloc
    ?lookup ?mutate ?dispose ?block ?noCmds ?moreCmds scopes post ss
  case nil =>
    intro scopes post pre hpre θ Γ _ _
    rw [list] at hpre
    cases hpre
    exact establishes_nil
  case cons =>
    intro scopes post s ss ihss ihs pre hpre θ Γ hF hscoped
    rw [list] at hpre
    obtain ⟨mid, hmid, hpre⟩ := Except.ok_of_bind hpre
    exact establishes_cons (ihs mid pre hpre θ Γ hF hscoped.1) (ihss mid hmid θ Γ hF hscoped.2)
  case cond =>
    intro scopes post cs loc ih pre hpre θ Γ hF hscoped
    rw [stmt] at hpre
    obtain ⟨es, hes, hpre⟩ := Except.ok_of_bind hpre
    cases hpre
    exact establishes_cond (ih es hes θ Γ hF hscoped)
  case block =>
    intro scopes post b loc opened ih pre hpre θ Γ hF hscoped
    rw [stmt] at hpre
    exact establishes_block hF hscoped fun Δ hΔ hstmts => ih pre hpre θ Δ hΔ hstmts
  case noCmds => exact fun _ _ _ _ _ _ _ _ _ _ c hc => absurd hc (by simp)
  case moreCmds =>
    intro scopes post c cs ihbody ihcs es hes θ Γ hF hscoped σ hσ
    rw [cmds] at hes
    obtain ⟨body, hbody, hes⟩ := Except.ok_of_bind hes
    obtain ⟨rest, hrest, hes⟩ := Except.ok_of_bind hes
    cases hes
    exact correct_branches_cons hF hscoped.1 (ihbody body hbody θ Γ hF hscoped.2.1)
      (ihcs rest hrest θ Γ hF hscoped.2.2) hσ
  all_goals
    intros
    rename_i hpre θ Γ hF hscoped
    rw [stmt] at hpre
    try cases hpre
  case skip => exact establishes_skip
  case abort => exact establishes_abort hF
  case assign => exact establishes_assign hF hscoped
  case arrayAssign => exact establishes_arrayAssign hF hscoped hpre
  case assert | invariant => exact establishes_passed rfl
  case hole | alloc | lookup | mutate | dispose => exact establishes_foreign rfl

end Wp

end GuardedCommands
