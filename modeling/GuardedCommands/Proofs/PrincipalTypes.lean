import GuardedCommands.Proofs.TypingProblems

/-!
# Principal types of expressions

Inference finds every type that an expression admits.  So an expression is rejected only if
it admits no type at all, and the types that it admits are the values of the inferred type
under the assignments that the result leaves.
-/

namespace GuardedCommands

open Ty (Subst Assignment)

open ElaborationM

namespace Finds

variable {α β : Type} {view : α → Ty} {U₀ U V : Set String} {st₀ st st₁ : ElaborationState}
  {P : Problem} {s : Subst}

theorem map {m : ElaborationM (Inferred β)} {f : Inferred β → ElaborationM (Inferred α)}
    {view' : β → Ty} (hm : Finds view' U₀ st₀ st m P)
    (hf : ∀ b s, ∃ a, f (b, s) = Pure.pure (a, s) ∧ view a = view' b) :
    Finds view U₀ st₀ st (m >>= f) P := by
  refine Ends.bind hm fun r st' hr => ?_
  obtain ⟨a, ha, hview⟩ := hf r.1 r.2
  unfold Ends
  rw [show f r = Pure.pure (a, r.2) from ha]
  rw [← hview] at hr
  exact hr

end Finds

namespace Expr

def Principal (e : Expr) : Prop :=
  ∀ {env : TypeEnv} {U : Set String} {st : ElaborationState}, env.Ready U st →
    Finds TypedExpr.ty U st st (e.infer env) fun v => e.Admits (env.uses v)

def LinksPrincipal (links : List (ChainLink Expr)) : Prop :=
  ∀ {env : TypeEnv} {U U₁ : Set String} {st st₁ : ElaborationState} {loc : Loc} {prev : Ty}
    {s : Subst}, env.Ready U st → Progress U st s U₁ st₁ → prev.Simple U₁ →
      Finds (fun _ => .bool) U st st₁ (inferLinks env loc prev s links) fun v τ =>
        s.Holds v ∧ (τ = .bool ∧ LinksAdmit (env.uses v) (prev.value v) links)

end Expr

/-! ## Steps -/

namespace Finds

variable {α : Type} {view : α → Ty} {U₀ U U₁ : Set String} {st₀ st st₁ : ElaborationState}
  {env : TypeEnv} {e : Expr} {f : Inferred TypedExpr → ElaborationM (Inferred α)} {P : Problem}
  {Q : Assignment → Ty → Ty → Prop} {s : Subst}

theorem infer (he : e.Principal) (henv : env.Ready U st)
    (hP : ∀ v τ, P v τ ↔ ∃ a, e.Admits (env.uses v) a ∧ Q v a τ)
    (hQ : ∀ {v w}, w.Agrees st.supply.issued v → Q w = Q v)
    (hf : ∀ typed s₁ U₁ st₁, Progress U st s₁ U₁ st₁ → typed.ty.Simple U₁ →
      Finds view U₀ st₀ st₁ (f (typed, s₁)) fun v τ => s₁.Holds v ∧ Q v (typed.ty.value v) τ) :
    Finds view U₀ st₀ st (e.infer env >>= f) P := by
  refine step (Ends.imp (he henv) (fun r st' hr => ?_) fun st' hnone v τ hv => ?_)
  · obtain ⟨U', hprogress, hsimple, hsound, hcomplete⟩ := hr
    refine ⟨hprogress.supply, _, fun v τ hv => (hP v τ).2 ⟨_, hsound v hv.1, hv.2⟩,
      fun v τ hv => ?_, hf r.1 r.2 U' st' hprogress hsimple⟩
    obtain ⟨a, ha, hQv⟩ := (hP v τ).1 hv
    obtain ⟨w, hw, hholds, rfl⟩ := hcomplete v a ha
    refine ⟨w, hw, hholds, ?_⟩
    rwa [hQ hw]
  · obtain ⟨a, ha, -⟩ := (hP v τ).1 hv
    exact hnone v a ha

theorem inferAfter (he : e.Principal) (henv : env.Ready U st) (hs : Progress U st s U₁ st₁)
    (hP : ∀ v τ, s.Holds v → (P v τ ↔ ∃ a, e.Admits (env.uses v) a ∧ Q v a τ))
    (hQ : ∀ {v w}, w.Agrees st₁.supply.issued v → Q w = Q v)
    (hf : ∀ typed s₁ U₂ st₂, Progress U₁ st₁ s₁ U₂ st₂ → typed.ty.Simple U₂ →
      Finds view U₀ st₀ st₂ (f (typed, s₁)) fun v τ =>
        (s₁.compose s).Holds v ∧ Q v (typed.ty.value v) τ) :
    Finds view U₀ st₀ st₁ (e.infer (env.subst s) >>= f) fun v τ => s.Holds v ∧ P v τ := by
  refine infer (Q := fun v a τ => s.Holds v ∧ Q v a τ) he (henv.after hs) (fun v τ => ?_)
    (fun hw => ?_) fun typed s₁ U₂ st₂ hs₁ hty => ?_
  · constructor
    · rintro ⟨hv, hPv⟩
      obtain ⟨a, ha, hQv⟩ := (hP v τ hv).1 hPv
      exact ⟨a, (env.uses_subst hv hs.isMeta).symm ▸ ha, hv, hQv⟩
    · rintro ⟨a, ha, hv, hQv⟩
      rw [env.uses_subst hv hs.isMeta] at ha
      exact ⟨hv, (hP v τ hv).2 ⟨a, ha, hQv⟩⟩
  · funext a τ
    rw [hQ hw, hs.holds_congr hw]
  · refine (hf typed s₁ U₂ st₂ hs₁ hty).congr fun v τ => ?_
    rw [hs.holds_compose hs₁, and_comm (a := s.Holds v), and_assoc]

theorem resultOf {g a : Ty} {loc : Loc} {f : Inferred Ty → ElaborationM (Inferred α)}
    (hs : Progress U₁ st₁ s U st) (hg : g.Simple U) (ha : a.Simple U)
    (hP : ∀ v τ, s.Holds v → (P v τ ↔ ∃ b, g.value v = .fn (a.value v) b ∧ Q v b τ))
    (hQ : ∀ {v w}, w.Agrees st.supply.issued v → Q w = Q v)
    (hf : ∀ t s₁ U₂ st₂, Progress U st s₁ U₂ st₂ → t.Simple U₂ →
      Finds view U₀ st₀ st₂ (f (t, s₁)) fun v τ => (s₁.compose s).Holds v ∧ Q v (t.value v) τ) :
    Finds view U₀ st₀ st (Expr.resultOf g a loc >>= f) fun v τ => s.Holds v ∧ P v τ := by
  unfold Expr.resultOf
  rw [bind_assoc]
  refine choose (Q := fun v b τ => g.value v = .fn (a.value v) b ∧ Q v b τ) .freshMeta hs
    (fun v τ hv => by simpa using hP v τ hv) (fun hw => ?_) fun t st' hissues ht => ?_
  · rw [hQ hw, hs.value_congr hg hw, hs.value_congr ha hw]
  · rw [bind_assoc]
    have hs' := hs.extend hissues
    refine unify hs' (hg.mono Set.subset_union_left)
      (Ty.simple_func.2 ⟨ha.mono Set.subset_union_left, ht⟩)
      (fun v τ hv => Iff.rfl) fun s₁ U₂ hs₁ => ?_
    rw [pure_bind]
    refine (hf _ s₁ U₂ st' ?_ (hs₁.simple_subst ht)).congr fun v τ => and_congr_right fun hv => ?_
    · exact Progress.after_issues hissues hs.finish hs₁
    · rw [(((hs'.holds_compose hs₁).1 hv).2).value_subst]

end Finds

/-! ## The rules -/

namespace Expr

open Finds

attribute [local simp] infer inferLinks Admits LinksAdmit

theorem principal_lit (l : Lit) (loc : Loc) : (lit l loc).Principal := by
  intro env U st henv
  rw [infer]
  refine .start (.pure (.empty henv.known) ?_ fun v τ _ => ?_)
  · cases l <;> exact ⟨trivial, trivial⟩
  · rw [Admits]
    cases l <;> rfl

theorem principal_var (x : Name) (loc : Loc) : (var x loc).Principal := by
  intro env U st henv
  rw [infer]
  have hs := Progress.empty henv.known
  refine .start (choose (Q := fun _ a τ => τ = a) (chooses_nameTy henv x loc) hs (fun v τ _ => ?_)
    (fun _ => rfl) fun t st' hissues ht => ?_)
  · simp
  · exact .pure (hs.extend hissues) ht fun v τ _ => Iff.rfl

theorem principal_const (x : Name) (loc : Loc) : (const x loc).Principal := by
  intro env U st henv
  rw [infer]
  have hs := Progress.empty henv.known
  refine .start (choose (Q := fun _ a τ => τ = a) (chooses_nameTy henv x loc) hs (fun v τ _ => ?_)
    (fun _ => rfl) fun t st' hissues ht => ?_)
  · simp
  · exact .pure (hs.extend hissues) ht fun v τ _ => Iff.rfl

theorem principal_op (o : Op) (loc : Loc) : (op o loc).Principal := by
  intro env U st henv
  have hs := Progress.empty henv.known
  cases o with
  | arith o =>
    rw [infer]
    refine .start (.pure hs ?_ fun v τ _ => ?_)
    · constructor <;> cases o <;> simp [TypedExpr.ty, ArithOp.ty, Ty.funcs, Ty.int, Ty.bool,
        Ty.Over, Ty.HeadsRooted]
    · rw [Admits]
      cases o <;> rfl
  | chain o =>
    rw [infer]
    refine .start (choose (Q := fun _ a τ => τ = a) (Chooses.chainOpTy o) hs (fun v τ _ => ?_)
      (fun _ => rfl) fun t st' hissues ht => ?_)
    · simp
    · exact .pure (hs.extend hissues) ht fun v τ _ => Iff.rfl

theorem principal_chain {head : Expr} {links : List (ChainLink Expr)} (hhead : head.Principal)
    (hlinks : LinksPrincipal links) (loc : Loc) : (chain head links loc).Principal := by
  intro env U st henv
  rw [infer]
  refine Finds.infer (Q := fun v a τ => τ = .bool ∧ LinksAdmit (env.uses v) a links) hhead henv
    (fun v τ => ?_) (fun hw => ?_) fun head' s U₁ st₁ hs hty => ?_
  · simp only [Admits]
    tauto
  · rw [henv.uses_congr hw]
  · exact .map (hlinks henv hs hty) fun links s => ⟨_, rfl, rfl⟩

theorem principal_application {f a : Expr} {env : TypeEnv} {U : Set String}
    {st : ElaborationState} {loc : Loc} (node : TypedExpr → TypedExpr → Ty → TypedExpr)
    (hnode : ∀ f a t, (node f a t).ty = t) (hf : f.Principal) (ha : a.Principal)
    (henv : env.Ready U st) :
    Finds TypedExpr.ty U st st (do
      let (f, s₁) ← f.infer env
      let (a, s₂) ← a.infer (env.subst s₁)
      let (t, s₃) ← Expr.resultOf (f.ty.subst s₂) a.ty loc
      return (node f a t, s₃.compose (s₂.compose s₁)))
      fun v τ => ∃ b, f.Admits (env.uses v) (.fn b τ) ∧ a.Admits (env.uses v) b := by
  refine Finds.infer (Q := fun v c τ => ∃ b, a.Admits (env.uses v) b ∧ c = .fn b τ) hf henv
    (fun v τ => ?_) (fun hw => ?_) fun f' s₁ U₁ st₁ hs₁ hf' => ?_
  · grind
  · rw [henv.uses_congr hw]
  refine inferAfter (Q := fun v b τ => f'.ty.value v = .fn b τ) ha henv hs₁ (fun v τ _ => Iff.rfl)
    (fun hw => ?_) fun a' s₂ U₂ st₂ hs₂ ha' => ?_
  · rw [hs₁.value_congr hf' hw]
  refine Finds.resultOf (Q := fun _ b τ => τ = b) (hs₁.compose hs₂) (hs₂.simple_subst hf') ha'
    (fun v τ hv => ?_) (fun _ => rfl) fun t s₃ U₃ st₃ hs₃ ht => ?_
  · rw [((hs₁.holds_compose hs₂).1 hv).2.value_subst]
    simp
  · exact .pure ((hs₁.compose hs₂).compose hs₃) (by rwa [hnode]) fun v τ _ => by rw [hnode]

theorem principal_app {f a : Expr} (hf : f.Principal) (ha : a.Principal) (loc : Loc) :
    (app f a loc).Principal := by
  intro env U st henv
  simp only [infer, Admits]
  exact principal_application (fun f a t => .app f a t loc) (fun _ _ _ => rfl) hf ha henv

theorem principal_index {a i : Expr} (ha : a.Principal) (hi : i.Principal) (loc : Loc) :
    (index a i loc).Principal := by
  intro env U st henv
  simp only [infer, Admits]
  exact principal_application (fun a i t => .index a i t loc) (fun _ _ _ => rfl) ha hi henv

theorem principal_lam {x : Name} {body : Expr} (hbody : body.Principal) (loc : Loc) :
    (lam x body loc).Principal := by
  intro env U st henv
  rw [infer]
  have hs := Progress.empty henv.known
  refine .start (choose (Q := fun v a τ => ∃ b, body.Admits ((env.uses v).bind x.text a) b ∧
    τ = .fn a b) .freshMeta hs (fun v τ _ => ?_) (fun hw => ?_) fun t st' hissues ht => ?_)
  · simp
  · rw [henv.uses_congr hw]
  have hmeta := (hs.extend hissues).subset_metaNames
  have hinner := (henv.issue hissues).insert ht x
  refine (Finds.infer (Q := fun v b τ => τ = .fn (t.value v) b) hbody hinner (fun v τ => ?_)
    (fun hw => ?_) fun body' s₁ U₁ st₁ hs₁ hty => ?_)
  · rw [TypeEnv.uses_insert ht.vars hmeta]
    simp [Ty.Subst.holds_empty]
  · rw [(hs.extend hissues).value_congr ht hw]
  · refine .pure (Progress.after_issues hissues henv.known hs₁)
      (Ty.simple_func.2 ⟨hs₁.simple_subst ht, hty⟩) fun v τ hv => ?_
    simp only [TypedExpr.ty, Ty.value_func, hv.value_subst]

theorem principal_update {a i e : Expr} (ha : a.Principal) (hi : i.Principal) (he : e.Principal)
    (loc : Loc) : (update a i e loc).Principal := by
  intro env U st henv
  rw [infer]
  refine Finds.infer (Q := fun v c τ => c = τ ∧ ∃ b d, i.Admits (env.uses v) b ∧
    e.Admits (env.uses v) d ∧ τ = .fn b d) ha henv (fun v τ => ?_) (fun hw => ?_)
    fun a' s₁ U₁ st₁ hs₁ ha' => ?_
  · simp
  · rw [henv.uses_congr hw]
  refine inferAfter (Q := fun v b τ => a'.ty.value v = τ ∧ ∃ d, e.Admits (env.uses v) d ∧
    τ = .fn b d) hi henv hs₁ (fun v τ _ => ?_) (fun hw => ?_) fun i' s₂ U₂ st₂ hs₂ hi' => ?_
  · grind
  · rw [hs₁.value_congr ha' hw, henv.uses_congr (hw.mono hs₁.supply)]
  have hs₁₂ := hs₁.compose hs₂
  refine inferAfter (Q := fun v d τ => a'.ty.value v = τ ∧ τ = .fn (i'.ty.value v) d) he henv hs₁₂
    (fun v τ _ => ?_) (fun hw => ?_) fun e' s₃ U₃ st₃ hs₃ he' => ?_
  · grind
  · rw [hs₁₂.value_congr hi' hw, hs₁.value_congr ha' (hw.mono hs₂.supply)]
  have hs := hs₁₂.compose hs₃
  have harray := hs₁.simple_later hs (hs₂.issues.trans hs₃.issues) ha'
  have hindex := hs₁₂.simple_later hs hs₃.issues hi'
  refine Finds.unify (Q := fun v τ => τ = a'.ty.value v) hs harray (Ty.simple_func.2 ⟨hindex, he'⟩)
    (fun v τ hv => ?_) fun s₄ U₄ hs₄ => ?_
  · rw [Ty.value_func, hv.value_subst, hv.value_subst]
    grind
  · refine .pure (hs.compose hs₄) (hs₁.simple_later (hs.compose hs₄)
      ((hs₂.issues.trans hs₃.issues).trans hs₄.issues) ha') fun v τ hv => ?_
    rw [TypedExpr.ty, hv.value_subst]

theorem linksPrincipal_nil : LinksPrincipal [] := by
  intro env U U₁ st st₁ loc prev s henv hs hprev
  rw [inferLinks]
  exact .pure hs Ty.simple_bool fun v τ _ => by simp [Ty.value_bool]

theorem linksPrincipal_cons {link : ChainLink Expr} {rest : List (ChainLink Expr)}
    (hrhs : link.rhs.Principal) (hrest : LinksPrincipal rest) : LinksPrincipal (link :: rest) := by
  intro env U U₁ st st₁ loc prev s henv hs hprev
  rw [inferLinks]
  refine inferAfter (Q := fun v b τ => τ = .bool ∧
    link.op.Admits (.fn (prev.value v) (.fn b .bool)) ∧ LinksAdmit (env.uses v) b rest)
    hrhs henv hs (fun v τ _ => ?_) (fun hw => ?_) fun rhs s₁ U₂ st₂ hs₁ hty => ?_
  · simp only [LinksAdmit]
    grind
  · rw [hs.value_congr hprev hw, henv.uses_congr (hw.mono hs.supply)]
  have hs' := hs.compose hs₁
  have huses : ∀ {n : Nat} {v w : Assignment}, st₂.supply.issued ≤ n → w.Agrees n v →
      env.uses w = env.uses v ∧ prev.value w = prev.value v ∧ rhs.ty.value w = rhs.ty.value v := by
    intro n v w hn hw
    have hw := hw.mono hn
    exact ⟨henv.uses_congr (hw.mono hs'.supply), hs.value_congr hprev (hw.mono hs₁.supply),
      hs'.value_congr hty hw⟩
  refine choose (Q := fun v c τ => τ = .bool ∧ c = .fn (prev.value v) (.fn (rhs.ty.value v) .bool) ∧
    LinksAdmit (env.uses v) (rhs.ty.value v) rest) (Chooses.chainOpTy link.op) hs' (fun v τ _ => ?_)
    (fun hw => ?_) fun opTy st₃ hissues hop => ?_
  · grind
  · obtain ⟨henv, hprev, hrhs⟩ := huses le_rfl hw
    rw [henv, hprev, hrhs]
  have hs₃ := hs'.extend hissues
  refine choose (Q := fun v c τ => τ = .bool ∧ c = .bool ∧
    opTy.value v = .fn (prev.value v) (.fn (rhs.ty.value v) c) ∧
    LinksAdmit (env.uses v) (rhs.ty.value v) rest) .freshMeta hs₃ (fun v τ _ => ?_)
    (fun hw => ?_) fun result st₄ hissues' hresult => ?_
  · simp
  · obtain ⟨henv, hprev, hrhs⟩ := huses hissues.supply hw
    rw [henv, hprev, hrhs, hs₃.value_congr hop hw]
  have hs₄ := hs₃.extend hissues'
  have hprev₄ := hs.simple_later hs₄ ((hs₁.issues.trans hissues).trans hissues') hprev
  have hrhs₄ := (hty.mono (Set.subset_union_left (t := issued st₂.supply.issued
    st₃.supply.issued))).mono (Set.subset_union_left (t := issued st₃.supply.issued
      st₄.supply.issued))
  refine Finds.unify (Q := fun v τ => τ = .bool ∧ result.value v = .bool ∧
    LinksAdmit (env.uses v) (rhs.ty.value v) rest) hs₄ (hop.mono Set.subset_union_left)
    (Ty.simple_func.2 ⟨hprev₄, Ty.simple_func.2 ⟨hrhs₄, hresult⟩⟩) (fun v τ hv => ?_)
    fun s₂ U₅ hs₂ => ?_
  · simp only [Ty.funcs, List.foldr, Ty.value_func, hv.value_subst]
    grind
  have hs₅ := hs₄.compose hs₂
  refine Finds.unify (Q := fun v τ => τ = .bool ∧ LinksAdmit (env.uses v) (rhs.ty.value v) rest)
    hs₅ (hs₄.simple_later hs₅ (.refl _) hresult) Ty.simple_bool (fun v τ hv => ?_)
    fun s₃ U₆ hs₃ => ?_
  · rw [hv.value_subst, Ty.value_bool]
    grind
  have hs₆ := hs₅.compose hs₃
  refine .map ((hrest henv hs₆ (hs₄.simple_later hs₆ (.refl _) hrhs₄)).congr fun v τ => ?_)
    fun links s => ⟨_, rfl, rfl⟩
  exact and_congr_right fun hv => by rw [hv.value_subst]

theorem bindAll_ends {env : TypeEnv} {U : Set String} {st : ElaborationState}
    (henv : env.Ready U st) (xs : List Name) : Ends (bindAll env xs) st
    (fun r st' => Issues st st' ∧
      r.1.Ready (U ∪ issued st.supply.issued st'.supply.issued) st' ∧
      (∀ v, r.1.uses v = (env.uses v).bindAll (r.2.map fun b => (b.name.text, b.ty.value v))) ∧
      (∀ v : Assignment, (r.2.map fun b => (b.name.text, b.ty.value v)).map (·.1) =
        xs.map (·.text)) ∧
      ∀ (v : Assignment) (bs : List (String × Ty)), bs.map (·.1) = xs.map (·.text) →
        ∃ w : Assignment, w.Agrees st.supply.issued v ∧
          (r.2.map fun b => (b.name.text, b.ty.value w)) = bs)
    fun _ => False := by
  induction xs generalizing env U st with
  | nil =>
    refine ⟨.refl st, ?_, fun _ => rfl, fun _ => rfl, fun v bs hbs => ⟨v, .refl v, ?_⟩⟩
    · rwa [issued_self, Set.union_empty]
    · exact (List.map_eq_nil_iff.1 hbs).symm
  | cons x xs ih =>
    unfold bindAll
    refine Ends.bind ((Chooses.freshMeta (U := U)).imp (fun _ _ h => h)
      fun _ h => h (fun _ => .bool) .bool trivial) fun t st₁ ht => ?_
    obtain ⟨hissues, ht, -, hchoice⟩ := ht
    have hs := (Progress.empty henv.known).extend hissues
    refine Ends.bind (ih ((henv.issue hissues).insert ht x)) fun r st' hr => ?_
    obtain ⟨hissues', hready, huses, hnames, hchoices⟩ := hr
    rw [Set.union_assoc, issued_union hissues.supply hissues'.supply] at hready
    refine ⟨hissues.trans hissues', hready, fun v => ?_, fun v => by simp [← hnames v],
      fun v bs hbs => ?_⟩
    · rw [huses, TypeEnv.uses_insert ht.vars hs.subset_metaNames]
      rfl
    · cases bs with
      | nil => cases hbs
      | cons b bs =>
        obtain ⟨hx, hxs⟩ := List.cons.inj hbs
        obtain ⟨w, hw, hb⟩ := hchoice v b.2 trivial
        obtain ⟨w', hw', hrest⟩ := hchoices w bs hxs
        refine ⟨w', hw'.trans hissues.supply hw, List.cons_eq_cons.2 ⟨?_, hrest⟩⟩
        exact Prod.ext hx.symm ((hs.value_congr ht hw').trans hb)

theorem principal_quant {q range body : Expr} {xs : List Name} (hq : q.Principal)
    (hrange : range.Principal) (hbody : body.Principal) (loc : Loc) :
    (quant q xs range body loc).Principal := by
  intro env U st henv
  rw [infer]
  refine step ((bindAll_ends henv xs).imp (fun r st₁ hr => ?_) fun _ h => h.elim)
  obtain ⟨hissues, hinner, huses, hnames, hchoices⟩ := hr
  refine ⟨hissues.supply, fun v τ => range.Admits (r.1.uses v) .bool ∧
    ∃ a, body.Admits (r.1.uses v) a ∧ ∃ c, q.Admits (env.uses v) c ∧ q.Quantifies a c τ,
    fun v τ hv => ?_, fun v τ hv => ?_, ?_⟩
  · simp only [huses] at hv
    rw [Admits]
    exact ⟨_, hnames v, hv⟩
  · rw [Admits] at hv
    obtain ⟨bs, hbs, hv⟩ := hv
    obtain ⟨w, hw, rfl⟩ := hchoices v bs hbs
    rw [← henv.uses_congr hw] at hv
    refine ⟨w, hw, ?_⟩
    simpa only [huses] using hv
  refine Finds.infer (Q := fun v b τ => b = .bool ∧ ∃ a, body.Admits (r.1.uses v) a ∧
    ∃ c, q.Admits (env.uses v) c ∧ q.Quantifies a c τ) hrange hinner (fun v τ => ?_) (fun hw => ?_)
    fun range' s₁ U₁ st₂ hs₁ hrange' => ?_
  · grind
  · rw [hinner.uses_congr hw, henv.uses_congr (hw.mono hissues.supply)]
  refine Finds.unify (Q := fun v τ => ∃ a, body.Admits (r.1.uses v) a ∧
    ∃ c, q.Admits (env.uses v) c ∧ q.Quantifies a c τ) hs₁ hrange' Ty.simple_bool
    (fun v τ _ => Iff.rfl) fun s₂ U₂ hs₂ => ?_
  have hs₁₂ := hs₁.compose hs₂
  refine inferAfter (Q := fun v a τ => ∃ c, q.Admits (env.uses v) c ∧ q.Quantifies a c τ) hbody
    hinner hs₁₂ (fun v τ _ => Iff.rfl) (fun hw => ?_) fun body' s₃ U₃ st₃ hs₃ hbody' => ?_
  · rw [henv.uses_congr (hw.mono (hissues.supply.trans hs₁₂.supply))]
  have hs₁₃ := Progress.after_issues hissues henv.known (hs₁₂.compose hs₃)
  refine inferAfter (Q := fun v c τ => q.Quantifies (body'.ty.value v) c τ) hq henv hs₁₃
    (fun v τ _ => Iff.rfl) (fun hw => ?_) fun q' s₄ U₄ st₄ hs₄ hq' => ?_
  · rw [hs₁₃.value_congr hbody' hw]
  have hs := hs₁₃.compose hs₄
  have hbodyty := hs₁₃.simple_later hs hs₄.issues hbody'
  unfold Quantifies
  dsimp only
  split
  · refine Finds.unify (Q := fun v τ => τ = .int) hs hbodyty Ty.simple_bool (fun v τ hv => ?_)
      fun s₅ U₅ hs₅ => ?_
    · rw [hv.value_subst, Ty.value_bool]
    · exact .pure (hs.compose hs₅) Ty.simple_int fun v τ _ => Iff.rfl
  · refine choose (Q := fun v a τ => q'.ty.value v = .fn a (.fn a a) ∧ a = body'.ty.value v ∧ τ = a)
      .freshMeta hs (fun v τ _ => ?_) (fun hw => ?_) fun a st₅ hissues' ha => ?_
    · grind
    · rw [hs.value_congr hq' hw, hs₁₃.value_congr hbody' (hw.mono hs₄.supply)]
    have hs' := hs.extend hissues'
    refine Finds.unify (Q := fun v τ => a.value v = body'.ty.value v ∧ τ = a.value v) hs'
      (hs.simple_later hs' hissues' hq') (Ty.simple_func.2 ⟨ha, Ty.simple_func.2 ⟨ha, ha⟩⟩)
      (fun v τ hv => ?_) fun s₅ U₅ hs₅ => ?_
    · rw [hv.value_subst]
      rfl
    have hs₅' := hs'.compose hs₅
    refine Finds.unify (Q := fun v τ => τ = a.value v) hs₅' (hs'.simple_later hs₅' (.refl _) ha)
      (hs₁₃.simple_later hs₅' (hs₄.issues.trans hissues') hbody') (fun v τ hv => ?_)
      fun s₆ U₆ hs₆ => ?_
    · rw [hv.value_subst, hv.value_subst]
    · refine .pure (hs₅'.compose hs₆) (hs'.simple_later (hs₅'.compose hs₆) (.refl _) ha)
        fun v τ hv => ?_
      rw [TypedExpr.ty, hv.value_subst]

mutual

/-- Inference finds all types that an expression admits. -/
theorem infer_principal : (e : Expr) → e.Principal
  | .lit l loc => principal_lit l loc
  | .var x loc => principal_var x loc
  | .const x loc => principal_const x loc
  | .op o loc => principal_op o loc
  | .chain head links loc => principal_chain (infer_principal head) (inferLinks_principal links) loc
  | .app f a loc => principal_app (infer_principal f) (infer_principal a) loc
  | .lam x body loc => principal_lam (infer_principal body) loc
  | .quant q xs range body loc =>
    principal_quant (infer_principal q) (infer_principal range) (infer_principal body) loc
  | .index a i loc => principal_index (infer_principal a) (infer_principal i) loc
  | .update a i e loc =>
    principal_update (infer_principal a) (infer_principal i) (infer_principal e) loc
  | .tuple es loc | .caseOf e cs loc => fun _ => by
    rw [infer]
    exact .throw fun v τ => by simp

theorem inferLinks_principal : (links : List (ChainLink Expr)) → LinksPrincipal links
  | [] => linksPrincipal_nil
  | link :: rest => linksPrincipal_cons (infer_principal link.rhs) (inferLinks_principal rest)

end

end Expr

end GuardedCommands
