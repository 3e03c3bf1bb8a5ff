import GuardedCommands.Proofs.Guarantees
import GuardedCommands.Proofs.Preconditions
import GuardedCommands.Proofs.ProgramCorrectness
import GuardedCommands.Verification.Verifier

/-!
# Computed preconditions are the weakest

The precondition that is computed for statements without loops and heap commands is
ensured in exactly those states from which the statements guarantee the
postcondition.  A precondition may speak of names that are not in scope, the locals
of blocks that have been opened; what it ensures is what holds for all their values,
just as a block may start with any values of its locals.
-/

namespace GuardedCommands

universe u

variable {V : Type u}

namespace Interpretation

variable {I : Interpretation V} {Γ Γ' : Set String} {scopes : Scopes} {σ σ' : Valuation V}

/-- The condition holds whatever the names stand for that are not visible. -/
abbrev EnsuresOn (I : Interpretation V) (Γ : Set String) (e : TypedExpr) (σ : Valuation V) :
    Prop :=
  I.Ensures (fun _ => none) Γ e σ

theorem frame_visible (hΓ : ∀ x ∈ Γ, Fresh.taken scopes x = true) :
    Frame (fun _ => (none : Option V)) Γ scopes :=
  ⟨hΓ, by simp⟩

theorem EnsuresOn.transfer {e : TypedExpr}
    (hΓ : ∀ x ∈ e.freeVars, x ∈ Γ → x ∈ Γ' ∧ σ' x = σ x) (h : I.EnsuresOn Γ e σ) :
    I.EnsuresOn Γ' e σ' := by
  intro τ hτ _
  classical
  let before : Valuation V := fun x => if x ∈ Γ then σ x else τ x
  refine (I.holds_congr fun x hx => ?_).1 (h before (fun x hx => if_pos hx) (by simp))
  by_cases hxΓ : x ∈ Γ
  · obtain ⟨hxΓ', hσx⟩ := hΓ x hx hxΓ
    rw [hτ x hxΓ', hσx]
    exact if_pos hxΓ
  · exact if_neg hxΓ

theorem ensuresOn_implies {guard body : TypedExpr} (hguard : guard.Within Γ) :
    I.EnsuresOn Γ (.implies guard body) σ ↔ (I.Holds σ guard → I.EnsuresOn Γ body σ) := by
  have hread : ∀ τ : Valuation V, (∀ x ∈ Γ, τ x = σ x) → (I.Holds τ guard ↔ I.Holds σ guard) :=
    fun τ hτ => I.holds_congr fun x hx => hτ x (hguard x hx)
  simp only [EnsuresOn, Ensures, holds_implies]
  constructor
  · exact fun h hσ τ hτ hθ => h τ hτ hθ ((hread τ hτ).2 hσ)
  · exact fun h τ hτ hθ hguard => h ((hread τ hτ).1 hguard) τ hτ hθ

end Interpretation

namespace Wp

variable {I : Interpretation V} {Γ : Set String} {scopes : Scopes} {pre mid post : TypedExpr}
  {loc : Loc}

/-- The precondition is ensured exactly where the statements guarantee the postcondition. -/
def Exact (I : Interpretation V) (Γ : Set String) (pre : TypedExpr) (ss : List TypedStmt)
    (post : TypedExpr) : Prop :=
  ∀ σ, I.EnsuresOn Γ pre σ ↔ Guarantees I (I.EnsuresOn Γ post) ss σ

/-! ## One rule for each kind of statement -/

theorem exact_cons {s : TypedStmt} {ss : List TypedStmt} (hs : Exact I Γ pre [s] mid)
    (hss : Exact I Γ mid ss post) : Exact I Γ pre (s :: ss) post := by
  intro σ
  have hmid : I.EnsuresOn Γ mid = Guarantees I (I.EnsuresOn Γ post) ss :=
    funext fun τ => propext (hss τ)
  rw [hs σ, hmid]
  exact guarantees_cons.symm

theorem exact_passed {s : TypedStmt} (hs : s.passOver = .skip loc) : Exact I Γ post [s] post :=
  fun _ => (guarantees_passed hs).symm

theorem exact_abort (hΓ : ∀ x ∈ Γ, Fresh.taken scopes x = true) :
    Exact I Γ (.ofBool false) [.abort loc] post :=
  fun _ => iff_of_false (Interpretation.not_ensures_false (Interpretation.frame_visible hΓ))
    not_guarantees_abort

theorem exact_assign {xs : List Name} {es : List TypedExpr}
    (hΓ : ∀ x ∈ Γ, Fresh.taken scopes x = true)
    (hfree : ∀ x ∈ (Stmt.assign xs es loc : TypedStmt).freeNames, x ∈ Γ) :
    Exact I Γ (assign xs es post) [.assign xs es loc] post := by
  simp only [Stmt.freeNames, NameSet.mem_union, NameSet.mem_ofList, Wp.namesOf,
    NameSet.mem_unionMap] at hfree
  intro σ
  rw [guarantees_assign]
  refine ensures_assign (Interpretation.frame_visible hΓ) (fun x hx => ?_) fun e he x hx => ?_
  · exact hfree _ (.inl (List.mem_map_of_mem hx))
  · exact hfree x (.inr ⟨e, he, hx⟩)

theorem exact_arrayAssign {a i v : TypedExpr} (hΓ : ∀ x ∈ Γ, Fresh.taken scopes x = true)
    (hfree : ∀ x ∈ (Stmt.arrayAssign a i v loc : TypedStmt).freeNames, x ∈ Γ)
    (hpre : arrayAssign a i v loc post = .ok pre) :
    Exact I Γ pre [.arrayAssign a i v loc] post := by
  simp only [Stmt.freeNames, NameSet.mem_union] at hfree
  unfold arrayAssign at hpre
  split at hpre
  · next x hname =>
    cases hpre
    intro σ
    rw [guarantees_arrayAssign hname]
    exact ensures_arrayAssign (Interpretation.frame_visible hΓ) hname
      (fun x hx => hfree x (.inl (.inl hx))) (fun x hx => hfree x (.inl (.inr hx)))
      (fun x hx => hfree x (.inr hx))
  · cases hpre

theorem exact_cond {cs : List TypedCmd} {es : List TypedExpr}
    (h : ∀ σ, (∀ e ∈ es, I.EnsuresOn Γ e σ) ↔
      ∀ c ∈ cs, I.Holds σ c.guard → Guarantees I (I.EnsuresOn Γ post) c.body σ) :
    Exact I Γ (.conjunction es) [.cond cs loc] post :=
  fun σ => (Interpretation.ensures_conjunction.trans (h σ)).trans guarantees_cond.symm

/-! ## Blocks -/

section Blocks

variable {b : TypedProgram} {o : OpenBlock}

theorem OpenBlock.Opened.hidden_unused
    (h : OpenBlock.Opened scopes post.freeVars b.declaredNames b.localNames o) {x : String}
    (hx : x ∈ b.localNames) (htaken : Fresh.taken scopes x = true) (Δ : Set String) :
    x ∉ o.renames.text '' Δ := by
  rintro ⟨z, -, htext⟩
  cases hn : o.renames.names.get? z with
  | none =>
    rw [Renaming.text_of_none hn] at htext
    subst htext
    rw [(h.kept z hx hn).1] at htaken
    cases htaken
  | some y =>
    rw [Renaming.text_of_some hn] at htext
    subst htext
    rw [(h.new z y hn).1] at htaken
    cases htaken

def inside (Γ : Set String) (b : TypedProgram) (o : OpenBlock) : Set String :=
  Γ ∪ o.renames.text '' {x | x ∈ b.localNames}

theorem OpenBlock.Opened.inside_taken
    (h : OpenBlock.Opened scopes post.freeVars b.declaredNames b.localNames o)
    (hΓ : ∀ x ∈ Γ, Fresh.taken scopes x = true) :
    ∀ x ∈ inside Γ b o, Fresh.taken (o.scope :: scopes) x = true := by
  rintro _ (hx | ⟨x, hx, rfl⟩)
  · exact Fresh.taken_cons.2 (.inr (hΓ _ hx))
  · exact Fresh.taken_cons.2 (.inl (h.scope x hx))

theorem OpenBlock.Opened.free_inside
    (h : OpenBlock.Opened scopes post.freeVars b.declaredNames b.localNames o)
    (hstraight : Stmt.listStraight b.stmts = true)
    (hfree : ∀ x ∈ Stmt.freeNamesList b.stmts, x ∈ Γ ∪ {x | x ∈ b.localNames}) :
    ∀ x ∈ Stmt.freeNamesList (o.renames.stmts b.stmts), x ∈ inside Γ b o := by
  intro z hz
  obtain ⟨x, hx, rfl⟩ := Renaming.mem_freeNames_stmts h.consistent b.stmts hstraight hz
  by_cases hlocal : x ∈ b.localNames
  · exact .inr ⟨x, hlocal, rfl⟩
  · rw [h.text_outer hlocal]
    exact .inl ((hfree x hx).resolve_right hlocal)

/-- The statements of a block guarantee from the one state what their precondition under new
names ensures in the other, if the second state has the locals under their new names. -/
theorem guarantees_opened
    (h : OpenBlock.Opened scopes post.freeVars b.declaredNames b.localNames o)
    (hdefns : b.defns = []) (hstraight : Stmt.listStraight b.stmts = true)
    (hΓ : ∀ x ∈ Γ, Fresh.taken scopes x = true)
    (hfree : ∀ x ∈ Stmt.freeNamesList b.stmts, x ∈ Γ ∪ {x | x ∈ b.localNames})
    (hbody : Exact I (inside Γ b o) pre (o.renames.stmts b.stmts) post) {σ σ' τ : Valuation V}
    (hσ' : ∀ x ∉ b.localNames, σ' x = σ x) (hτ : ∀ x ∈ Γ, τ x = σ x)
    (hlocal : ∀ x ∈ b.localNames, τ (o.renames.text x) = σ' x) :
    Guarantees I (fun σ'' => I.EnsuresOn Γ post (σ''.restore σ b.localNames)) b.stmts σ' ↔
      I.EnsuresOn (inside Γ b o) pre τ := by
  have htracks : o.renames.Tracks (Γ ∪ {x | x ∈ b.localNames}) τ σ' τ := by
    refine ⟨fun x hx => ?_, fun _ _ => rfl⟩
    by_cases hmem : x ∈ b.localNames
    · exact hlocal x hmem
    · rw [h.text_outer hmem, hτ x (hx.resolve_right hmem), hσ' x hmem]
  rw [hbody τ]
  refine Renaming.guarantees_stmts h.consistent (h.over hdefns hΓ) (fun σ'' τ'' h'' => ?_)
    htracks b.stmts hstraight hfree (h.avoids hdefns)
  -- on the visible names the two final states are the same after restoring
  have hsame : ∀ x ∈ Γ, τ'' x = σ''.restore σ b.localNames x := by
    intro x hx
    by_cases hmem : x ∈ b.localNames
    · have hrestore : σ''.restore σ b.localNames x = σ x := if_pos hmem
      rw [h''.rest x (h.hidden_unused hmem (hΓ x hx) _), hτ x hx, hrestore]
    · have hrestore : σ''.restore σ b.localNames x = σ'' x := if_neg hmem
      have hagree := h''.agree x (.inl hx)
      rwa [h.text_outer hmem, ← hrestore] at hagree
  constructor
  · exact Interpretation.EnsuresOn.transfer fun x _ hx => ⟨.inl hx, hsame x hx⟩
  · refine Interpretation.EnsuresOn.transfer fun x hpost hx => ?_
    rcases hx with hx | ⟨z, hz, rfl⟩
    · exact ⟨hx, (hsame x hx).symm⟩
    · exact absurd hpost (h.fresh hz).2

theorem exact_block
    (h : OpenBlock.Opened scopes post.freeVars b.declaredNames b.localNames o)
    (hdefns : b.defns = []) (hstraight : Stmt.listStraight b.stmts = true)
    (hΓ : ∀ x ∈ Γ, Fresh.taken scopes x = true)
    (hfree : ∀ x ∈ Stmt.freeNamesList b.stmts, x ∈ Γ ∪ {x | x ∈ b.localNames})
    (hbody : Exact I (inside Γ b o) pre (o.renames.stmts b.stmts) post) :
    Exact I Γ pre [.block b loc] post := by
  intro σ
  rw [guarantees_block]
  constructor
  · intro hpre σ' hσ'
    -- the state in which the locals have the chosen values under their new names
    let locals : Set String := {x | x ∈ b.localNames}
    have hinj : Function.Injective (locals.domRestrict o.renames.text) :=
      Set.injOn_iff_injective.1
        (((h.over hdefns hΓ).injOn h.consistent).mono Set.subset_union_right)
    let τ : Valuation V :=
      Function.extend (locals.domRestrict o.renames.text) (locals.domRestrict σ') σ
    have hlocal : ∀ x ∈ b.localNames, τ (o.renames.text x) = σ' x :=
      fun x hx => hinj.extend_apply _ _ ⟨x, hx⟩
    have hτ : ∀ x ∈ Γ, τ x = σ x := by
      intro x hx
      refine Function.extend_apply' _ _ _ ?_
      rintro ⟨⟨z, hz⟩, rfl⟩
      have htaken := hΓ _ hx
      rw [Set.domRestrict_apply, (h.fresh hz).1] at htaken
      cases htaken
    refine (guarantees_opened h hdefns hstraight hΓ hfree hbody hσ' hτ hlocal).2 ?_
    exact hpre.transfer fun x _ hx => ⟨.inl hx, hτ x hx⟩
  · intro hguar τ hτ hθ
    -- a block may start with the values that the new names have in `τ`
    let σ' : Valuation V := σ.restore (fun x => τ (o.renames.text x)) b.localNames
    have hσ' : ∀ x ∉ b.localNames, σ' x = σ x := fun x hx => if_neg hx
    have hlocal : ∀ x ∈ b.localNames, τ (o.renames.text x) = σ' x :=
      fun x hx => (if_pos hx).symm
    exact (guarantees_opened h hdefns hstraight hΓ hfree hbody hσ' hτ hlocal).1 (hguar σ' hσ')
      τ (fun _ _ => rfl) hθ

end Blocks

/-! ## All statements -/

theorem exact_list (o : Options) (scopes : Scopes) (post : TypedExpr) (ss : List TypedStmt) :
    ∀ pre, list o scopes post ss = .ok pre → Stmt.listStraight ss = true →
      ∀ Γ, (∀ x ∈ Γ, Fresh.taken scopes x = true) → (∀ x ∈ Stmt.freeNamesList ss, x ∈ Γ) →
        Exact I Γ pre ss post := by
  refine list.induct
    (fun scopes post ss => ∀ pre, list o scopes post ss = .ok pre →
      Stmt.listStraight ss = true → ∀ Γ, (∀ x ∈ Γ, Fresh.taken scopes x = true) →
        (∀ x ∈ Stmt.freeNamesList ss, x ∈ Γ) → Exact I Γ pre ss post)
    (fun scopes post s => ∀ pre, stmt o scopes post s = .ok pre → s.isStraight = true →
      ∀ Γ, (∀ x ∈ Γ, Fresh.taken scopes x = true) → (∀ x ∈ s.freeNames, x ∈ Γ) →
        Exact I Γ pre [s] post)
    (fun scopes post cs => ∀ es, cmds o scopes post cs = .ok es →
      Stmt.cmdsStraight cs = true → ∀ Γ, (∀ x ∈ Γ, Fresh.taken scopes x = true) →
        (∀ x ∈ Stmt.freeNamesCmds cs, x ∈ Γ) → ∀ σ, (∀ e ∈ es, I.EnsuresOn Γ e σ) ↔
          ∀ c ∈ cs, I.Holds σ c.guard → Guarantees I (I.EnsuresOn Γ post) c.body σ)
    ?nil ?cons ?skip ?assert ?invariant ?hole ?abort ?assign ?arrayAssign ?loop ?cond ?alloc
    ?lookup ?mutate ?dispose ?block ?noCmds ?moreCmds scopes post ss
  case nil =>
    intro scopes post pre hpre _ Γ _ _ σ
    rw [list] at hpre
    cases hpre
    exact guarantees_nil.symm
  case cons =>
    intro scopes post s ss ihss ihs pre hpre hss Γ hΓ hfree
    simp only [Stmt.listStraight, Bool.and_eq_true] at hss
    simp only [Stmt.freeNamesList, NameSet.mem_union] at hfree
    rw [list] at hpre
    obtain ⟨mid, hmid, hpre⟩ := Except.ok_of_bind hpre
    exact exact_cons (ihs mid pre hpre hss.1 Γ hΓ fun x hx => hfree x (.inl hx))
      (ihss mid hmid hss.2 Γ hΓ fun x hx => hfree x (.inr hx))
  case cond =>
    intro scopes post cs loc ih pre hpre hs Γ hΓ hfree
    rw [stmt] at hpre
    obtain ⟨es, hes, hpre⟩ := Except.ok_of_bind hpre
    cases hpre
    exact exact_cond (ih es hes hs Γ hΓ hfree)
  case block =>
    intro scopes post b loc opened ih pre hpre hs Γ hΓ hfree
    simp only [Stmt.isStraight, Bool.and_eq_true, List.isEmpty_iff] at hs
    simp only [Stmt.freeNames, NameSet.mem_sdiff, NameSet.mem_ofList] at hfree
    have hfreeBody : ∀ x ∈ Stmt.freeNamesList b.stmts, x ∈ Γ ∪ {x | x ∈ b.localNames} := by
      intro x hx
      by_cases hmem : x ∈ b.localNames
      · exact .inr hmem
      · exact .inl (hfree x ⟨hx, hmem⟩)
    have hopened := OpenBlock.opened_ofBlock scopes b post
    rw [stmt] at hpre
    refine exact_block hopened hs.1 hs.2 hΓ hfreeBody (ih pre hpre ?_ _
      (hopened.inside_taken hΓ) (hopened.free_inside hs.2 hfreeBody))
    rw [Renaming.listStraight_stmts]
    exact hs.2
  case noCmds =>
    intro scopes post es hes _ Γ _ _ σ
    rw [cmds] at hes
    cases hes
    simp
  case moreCmds =>
    intro scopes post c cs ihbody ihcs es hes hcs Γ hΓ hfree σ
    simp only [Stmt.cmdsStraight, Bool.and_eq_true] at hcs
    simp only [Stmt.freeNamesCmds, NameSet.mem_union] at hfree
    rw [cmds] at hes
    obtain ⟨body, hbody, hes⟩ := Except.ok_of_bind hes
    obtain ⟨rest, hrest, hes⟩ := Except.ok_of_bind hes
    cases hes
    have hbodyExact := ihbody body hbody hcs.1 Γ hΓ fun x hx => hfree x (.inl (.inr hx))
    have hguard : c.guard.Within Γ := fun x hx => hfree x (.inl (.inl hx))
    rw [List.forall_mem_cons, List.forall_mem_cons, Interpretation.ensuresOn_implies hguard,
      hbodyExact σ, ihcs rest hrest hcs.2 Γ hΓ (fun x hx => hfree x (.inr hx)) σ]
  all_goals
    intros
    rename_i hpre hs Γ hΓ hfree
    rw [stmt] at hpre
    try cases hpre
  case skip | assert | invariant | hole => exact exact_passed rfl
  case abort => exact exact_abort hΓ
  case assign => exact exact_assign hΓ hfree
  case arrayAssign => exact exact_arrayAssign hΓ hfree hpre
  case alloc | lookup | mutate | dispose => cases hs

end Wp

/-- A precondition computed by a verifier is true for all values of the names that are not
in scope exactly if no run of the statements fails, assertions and holes being passed over,
and every run that ends satisfies the postcondition. -/
theorem wp_is_weakest (I : Interpretation V) (v : Verifier) {ss : List TypedStmt}
    {pre post : TypedExpr} (hstraight : Stmt.listStraight ss = true)
    (hss : ∀ x ∈ Stmt.freeNamesList ss, Fresh.taken v.scopes x = true)
    (hpost : ∀ x ∈ post.freeVars, Fresh.taken v.scopes x = true)
    (hwp : v.wp ss post = .ok pre) (σ : Valuation V) :
    (∀ τ : Valuation V, (∀ x, Fresh.taken v.scopes x = true → τ x = σ x) → I.Holds τ pre) ↔
      ¬ Execution.Reaches I (.running (Task.ofStmts none (Stmt.passOverList ss)) σ) .failed ∧
        ∀ τ, Execution.Reaches I (.running (Task.ofStmts none (Stmt.passOverList ss)) σ)
          (.running [] τ) → I.Holds τ post := by
  let Γ : Set String := {x | Fresh.taken v.scopes x = true}
  have hexact : Wp.Exact I Γ pre ss post :=
    Wp.exact_list v.options v.scopes post ss pre hwp hstraight Γ (fun _ hx => hx) hss
  have hread : I.EnsuresOn Γ post = fun τ => I.Holds τ post :=
    funext fun τ => propext (Interpretation.ensures_iff_holds
      (Interpretation.frame_visible fun _ hx => hx) hpost)
  have hpre : I.EnsuresOn Γ pre σ ↔
      ∀ τ : Valuation V, (∀ x, Fresh.taken v.scopes x = true → τ x = σ x) → I.Holds τ pre :=
    ⟨fun h τ hτ => h τ hτ (by simp), fun h τ hτ _ => h τ hτ⟩
  rw [← hpre, hexact σ, hread]
  exact ⟨fun h => ⟨h.safe, h.final⟩, fun h => ⟨h.1, h.2⟩⟩

namespace HiddenName

open Countdown

/-- The block `|[ var x; if x > 0 → skip | ¬ x > 0 → {False} fi; x := 0 ]|`. -/
def inner : TypedProgram :=
  ⟨[], [⟨.var, [.bare "x"], .int, none, .none⟩], [],
    [.cond [⟨positive, [.skip .none], .none⟩,
        ⟨.neg positive, [.assert (.ofBool false) .none], .none⟩] .none,
      .assign [.bare "x"] [.ofNum 0] .none], .none⟩

def stmts : List TypedStmt :=
  [.block inner .none, .assign [.bare "x"] [.binary .sub x (.ofNum 1)] .none]

def verifier : Verifier := (Verifier.start opts).enterScope ["x"]

/-- The local is `x0` in the precondition, and it is left free there. -/
def pre : TypedExpr :=
  let local' : TypedExpr := .compare (.ofVar (.bare "x0") .int) .gt (.ofNum 0)
  let after : TypedExpr := .compare (.binary .sub x (.ofNum 1)) .gt (.ofNum 0)
  .conjunction [.implies local' after, .implies (.neg local') after]

theorem wp_stmts : verifier.wp stmts positive = .ok pre := by cbv

end HiddenName

open HiddenName Countdown

theorem hidden_name_weakest :
    Stmt.listStraight stmts = true ∧
      (∀ x ∈ Stmt.freeNamesList stmts, Fresh.taken verifier.scopes x = true) ∧
      (∀ x ∈ positive.freeVars, Fresh.taken verifier.scopes x = true) ∧
      verifier.wp stmts positive = .ok pre ∧
      ((∀ τ : Valuation Value, (∀ x, Fresh.taken verifier.scopes x = true → τ x = three x) →
          reading.Holds τ pre) ↔
        ¬ Execution.Reaches reading
            (.running (Task.ofStmts none (Stmt.passOverList stmts)) three) .failed ∧
          ∀ τ, Execution.Reaches reading
            (.running (Task.ofStmts none (Stmt.passOverList stmts)) three) (.running [] τ) →
              reading.Holds τ positive) := by
  have hss : ∀ x ∈ Stmt.freeNamesList stmts, Fresh.taken verifier.scopes x = true := by decide
  have hpost : ∀ x ∈ positive.freeVars, Fresh.taken verifier.scopes x = true := by decide
  exact ⟨rfl, hss, hpost, wp_stmts, wp_is_weakest reading verifier rfl hss hpost wp_stmts three⟩

end GuardedCommands
