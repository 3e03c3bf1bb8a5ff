import GuardedCommands.Proofs.Nesting
import GuardedCommands.Proofs.UnlocatedKinds

/-!
# Elaboration without locations

Elaborating a program without locations takes the steps that elaborating the program
takes: it meets the same names and the same types, draws the same new names and fails
at the same step.  What it returns is the typed program without locations.
-/

namespace GuardedCommands

/-! ## Typed expressions -/

def Binder.unlocated (b : Binder) : Binder := ⟨b.name.unlocated, b.ty.unlocated⟩

theorem Binder.subst_unlocated (s : Ty.Subst) (b : Binder) :
    b.unlocated.subst s.unlocated = (b.subst s).unlocated := by
  simp [subst, unlocated]

namespace TypedExpr

mutual

def unlocated : TypedExpr → TypedExpr
  | .lit l t _ => .lit l t.unlocated .none
  | .var x t _ => .var x.unlocated t.unlocated .none
  | .const x t _ => .const x.unlocated t.unlocated .none
  | .op o t _ => .op o t.unlocated .none
  | .chain head links t _ => .chain head.unlocated (unlocatedLinks links) t.unlocated .none
  | .app f a t _ => .app f.unlocated a.unlocated t.unlocated .none
  | .lam b body t _ => .lam b.unlocated body.unlocated t.unlocated .none
  | .quant q bs r body t _ =>
    .quant q.unlocated (bs.map Binder.unlocated) r.unlocated body.unlocated t.unlocated .none
  | .index a i t _ => .index a.unlocated i.unlocated t.unlocated .none
  | .update a i v t _ => .update a.unlocated i.unlocated v.unlocated t.unlocated .none

def unlocatedLinks : List (TypedLink TypedExpr) → List (TypedLink TypedExpr)
  | [] => []
  | l :: ls => ⟨l.op, l.opTy.unlocated, .none, l.rhs.unlocated⟩ :: unlocatedLinks ls

end

@[simp] theorem loc_unlocated (e : TypedExpr) : e.unlocated.loc = .none := by
  cases e <;> rfl

@[simp] theorem ty_unlocated (e : TypedExpr) : e.unlocated.ty = e.ty.unlocated := by
  cases e <;> rfl

theorem substTy_unlocated (s : Ty.Subst) (e : TypedExpr) :
    e.unlocated.substTy s.unlocated = (e.substTy s).unlocated := by
  induction e using nested_induction (L := fun ls =>
      substTyLinks s.unlocated (unlocatedLinks ls) = unlocatedLinks (substTyLinks s ls)) with
  | quant q bs r body _ _ ihq ihr ihbody =>
    simp only [unlocated, substTy, Ty.subst_unlocated, List.map_map, Function.comp_def,
      Binder.subst_unlocated, ihq, ihr, ihbody]
  | _ =>
    simp_all only [unlocated, unlocatedLinks, substTy, substTyLinks, Ty.subst_unlocated,
      Binder.subst_unlocated]

end TypedExpr

/-! ## Environments and computations -/

def TypeInfo.unlocated (i : TypeInfo) : TypeInfo := ⟨i.role, i.ty.unlocated⟩

namespace TypeEnv

def unlocated (env : TypeEnv) : TypeEnv :=
  ⟨env.entries.map fun e => (e.1.unlocated, e.2.unlocated)⟩

theorem insert_unlocated (env : TypeEnv) (x : Name) (i : TypeInfo) :
    env.unlocated.insert x.unlocated i.unlocated = (env.insert x i).unlocated := by
  simp [insert, unlocated]

theorem insertAll_unlocated (env : TypeEnv) (xs : List Name) (i : TypeInfo) :
    env.unlocated.insertAll (xs.map Name.unlocated) i.unlocated =
      (env.insertAll xs i).unlocated := by
  simp [insertAll, unlocated]

theorem lookup?_unlocated (env : TypeEnv) (x : String) :
    env.unlocated.lookup? x = (env.lookup? x).map TypeInfo.unlocated := by
  simp [lookup?, unlocated, ← List.map_reverse, List.find?_map, Function.comp_def]

theorem contains_unlocated (env : TypeEnv) (x : String) :
    env.unlocated.contains x = env.contains x := by
  rw [contains, contains, lookup?_unlocated, Option.isSome_map]

theorem subst_unlocated (s : Ty.Subst) (env : TypeEnv) :
    env.unlocated.subst s.unlocated = (env.subst s).unlocated := by
  simp [subst, unlocated, TypeInfo.unlocated]

theorem freeVars_unlocated (env : TypeEnv) : env.unlocated.freeVars = env.freeVars := by
  rw [freeVars, freeVars, unlocated, NameSet.unionMap_map]
  simp only [TypeInfo.unlocated, Ty.freeVars_unlocated]

end TypeEnv

def ElaborationState.unlocated (st : ElaborationState) : ElaborationState :=
  ⟨st.toKindState.unlocated, st.inProgress⟩

abbrev Inferred.unlocated {α β : Type} (u : α → β) (r : Inferred α) : Inferred β :=
  (u r.1, r.2.unlocated)

namespace ElaborationM

abbrev Mirrors {α β : Type} (u : α → β) (m : ElaborationM α) (m' : ElaborationM β) : Prop :=
  GuardedCommands.Mirrors ElaborationError.unlocated ElaborationState.unlocated u m m'

variable {α β : Type} {u : α → β}

theorem ofKinds_mirrors {m : KindM α} {m' : KindM β} (h : KindM.Mirrors u m m') :
    Mirrors u (ofKinds m) (ofKinds m') := by
  intro st
  have hkinds := h st.toKindState
  have hstate : st.unlocated.toKindState = st.toKindState.unlocated := rfl
  unfold ofKinds
  rw [hstate, hkinds]
  cases m st.toKindState <;> rfl

theorem unify_mirrors (t u : Ty) (loc : Loc) :
    Mirrors Ty.Subst.unlocated (unify t u loc) (unify t.unlocated u.unlocated .none) :=
  .ofExcept (Ty.unify_unlocated t u loc)

theorem fresh_mirrors (hint : String) : Mirrors Name.unlocated (fresh hint) (fresh hint) :=
  .modifyGet fun _ => rfl

theorem freshMeta_mirrors : Mirrors Ty.unlocated freshMeta freshMeta := by
  apply (fresh_mirrors "t").bind
  intro n
  exact .pure rfl

theorem chainOpTy_mirrors (o : ChainOp) : Mirrors Ty.unlocated (chainOpTy o) (chainOpTy o) := by
  apply Mirrors.modifyGet
  intro st
  cases o <;> rfl

theorem freshMetas_mirrors (names : List String) :
    Mirrors (List.map fun e => (e.1, e.2.unlocated)) (freshMetas names) (freshMetas names) := by
  have hmeta : ∀ x : String, Mirrors (fun e => (e.1, e.2.unlocated))
      (do return (x, ← freshMeta)) (do return (x, ← freshMeta)) := by
    intro x
    apply freshMeta_mirrors.bind
    intro t
    exact .pure rfl
  have hmetas := Mirrors.mapM (w := id) (k := fun x => do return (x, ← freshMeta)) hmeta names
  rwa [List.map_id] at hmetas

theorem subst_ofList_unlocated (t : Ty) (metas : List (String × Ty)) :
    t.unlocated.subst (.ofList (metas.map fun e => (e.1, e.2.unlocated))) =
      (t.subst (.ofList metas)).unlocated := by
  rw [NameMap.ofList_map]
  exact Ty.subst_unlocated _ t

theorem skolemize_mirrors (t : Ty) :
    Mirrors (fun r => (r.1.unlocated, r.2.map fun e => (e.1, e.2.unlocated))) (skolemize t)
      (skolemize t.unlocated) := by
  unfold skolemize
  rw [Ty.rigidVars_unlocated]
  apply (freshMetas_mirrors _).bind
  intro metas
  exact .pure (by rw [subst_ofList_unlocated])

theorem instantiate_mirrors (x : String) (t : Ty) :
    Mirrors Ty.unlocated (instantiate x t) (instantiate x t.unlocated) := by
  apply Mirrors.bind .get
  intro st
  have hstate : st.unlocated.inProgress = st.inProgress := rfl
  rw [hstate]
  split
  · exact .pure rfl
  · rw [Ty.rigidVars_unlocated]
    apply (freshMetas_mirrors _).bind
    intro metas
    exact .pure (subst_ofList_unlocated t metas)

theorem generalize_mirrors (env : TypeEnv) (t : Ty) :
    Mirrors Ty.Subst.unlocated (generalize env t) (generalize env.unlocated t.unlocated) := by
  have hrigid : ∀ m : String, Mirrors (fun e => (e.1, e.2.unlocated))
      (do return (m, Ty.rigid (← fresh "a"))) (do return (m, Ty.rigid (← fresh "a"))) := by
    intro m
    apply (fresh_mirrors "a").bind
    intro n
    exact .pure rfl
  have hall := Mirrors.mapM (w := id) (k := fun m => do return (m, Ty.rigid (← fresh "a"))) hrigid
    (t.metavars \ env.freeVars).toList
  rw [List.map_id] at hall
  unfold generalize
  rw [Ty.metavars_unlocated, TypeEnv.freeVars_unlocated]
  apply hall.bind
  intro rigid
  exact .pure (NameMap.ofList_map Ty.unlocated rigid)

theorem checkClosed_mirrors (t : Ty) : Mirrors id (checkClosed t) (checkClosed t.unlocated) := by
  unfold checkClosed
  rw [Ty.loc_unlocated]
  exact ofKinds_mirrors (Ty.checkStar_mirrors t t.loc)

theorem bindUnknown_mirrors (names : List String) :
    KindM.Mirrors id (bindUnknown names) (bindUnknown names) := by
  induction names with
  | nil => exact .pure rfl
  | cons x rest ih =>
    unfold bindUnknown
    apply Mirrors.bind .get
    intro st
    have hlookup : (st.unlocated.context.lookup? x).isSome = (st.context.lookup? x).isSome := by
      rw [KindState.unlocated, KindContext.lookup?_unlocated, Option.isSome_map]
    rw [hlookup]
    split
    · exact ih
    · apply (KindM.annotateFresh_mirrors (.bare x)).bind
      intro _
      apply ih.bind
      intro bound
      exact .pure rfl

theorem thenForget_mirrors (names : List String) {m m' : KindM Unit} (h : KindM.Mirrors id m m') :
    KindM.Mirrors id (thenForget names m) (thenForget names m') := by
  have hforget : ∀ ctx : KindContext, names.foldl KindContext.unannotate ctx.unlocated =
      (names.foldl KindContext.unannotate ctx).unlocated :=
    fun _ => List.foldl_hom KindContext.unlocated KindContext.unannotate_unlocated
  intro st
  unfold thenForget
  rw [h st]
  cases m st <;> simp only [EStateM.mirror, KindState.unlocated, hforget]

theorem checkOpen_mirrors (t : Ty) : Mirrors id (checkOpen t) (checkOpen t.unlocated) := by
  apply ofKinds_mirrors
  rw [Ty.rigidVars_unlocated, Ty.loc_unlocated]
  apply (bindUnknown_mirrors _).bind
  intro bound
  exact thenForget_mirrors bound (Ty.checkStar_mirrors t t.loc)

end ElaborationM

/-! ## Expressions -/

theorem Lit.unlocated_ty (l : Lit) : l.ty.unlocated = l.ty := by
  cases l <;> rfl

theorem ArithOp.unlocated_ty (o : ArithOp) : o.ty.unlocated = o.ty := by
  cases o <;> rfl

namespace Expr

open ElaborationM

theorem resultOf_mirrors (f arg : Ty) (loc : Loc) :
    ElaborationM.Mirrors (Inferred.unlocated Ty.unlocated) (resultOf f arg loc)
      (resultOf f.unlocated arg.unlocated .none) := by
  apply freshMeta_mirrors.bind
  intro result
  rw [Ty.func_unlocated]
  apply (unify_mirrors f (.func arg result) loc).bind
  intro s
  exact .pure (by rw [Ty.subst_unlocated])

theorem nameTy_mirrors (env : TypeEnv) (x : Name) (loc : Loc) :
    ElaborationM.Mirrors Ty.unlocated (nameTy env x loc)
      (nameTy env.unlocated x.unlocated .none) := by
  unfold nameTy
  rw [Name.text_unlocated, TypeEnv.lookup?_unlocated]
  cases env.lookup? x.text with
  | none => exact .throw rfl
  | some info => exact instantiate_mirrors x.text info.ty

theorem bindAll_mirrors (env : TypeEnv) (xs : List Name) :
    ElaborationM.Mirrors (fun r => (r.1.unlocated, r.2.map Binder.unlocated)) (bindAll env xs)
      (bindAll env.unlocated (xs.map Name.unlocated)) := by
  induction xs generalizing env with
  | nil => exact .pure rfl
  | cons x xs ih =>
    apply freshMeta_mirrors.bind
    intro t
    have hinner := ih (env.insert x ⟨.const, t⟩)
    rw [← TypeEnv.insert_unlocated] at hinner
    apply hinner.bind
    rintro ⟨inner, bs⟩
    exact .pure rfl

theorem applied_mirrors {env : TypeEnv} {f a : Expr} (loc : Loc)
    (mk mk' : TypedExpr → TypedExpr → Ty → TypedExpr)
    (hmk : ∀ f a t, mk' f.unlocated a.unlocated t.unlocated = (mk f a t).unlocated)
    (hf : ElaborationM.Mirrors (Inferred.unlocated TypedExpr.unlocated) (f.infer env)
      (f.unlocated.infer env.unlocated))
    (ha : ∀ s, ElaborationM.Mirrors (Inferred.unlocated TypedExpr.unlocated)
      (a.infer (env.subst s)) (a.unlocated.infer (env.subst s).unlocated)) :
    ElaborationM.Mirrors (Inferred.unlocated TypedExpr.unlocated)
      (f.infer env >>= fun f => a.infer (env.subst f.2) >>= fun a =>
        resultOf (f.1.ty.subst a.2) a.1.ty loc >>= fun r =>
          pure (mk f.1 a.1 r.1, r.2.compose (a.2.compose f.2)))
      (f.unlocated.infer env.unlocated >>= fun f =>
        a.unlocated.infer (env.unlocated.subst f.2) >>= fun a =>
          resultOf (f.1.ty.subst a.2) a.1.ty .none >>= fun r =>
            pure (mk' f.1 a.1 r.1, r.2.compose (a.2.compose f.2))) := by
  apply hf.bind
  rintro ⟨f', s₁⟩
  dsimp only
  rw [TypeEnv.subst_unlocated]
  apply (ha s₁).bind
  rintro ⟨a', s₂⟩
  dsimp only
  rw [TypedExpr.ty_unlocated, TypedExpr.ty_unlocated, Ty.subst_unlocated]
  apply (resultOf_mirrors (f'.ty.subst s₂) a'.ty loc).bind
  rintro ⟨t, s₃⟩
  exact .pure (by simp only [Ty.Subst.compose_unlocated, hmk])

theorem quant_mirrors (q : TypedExpr) (binders : List Binder) (range body : TypedExpr) (loc : Loc)
    (r : Inferred Ty) :
    ElaborationM.Mirrors (Inferred.unlocated TypedExpr.unlocated)
      (pure (.quant q (binders.map (·.subst r.2)) range body r.1 loc, r.2))
      (pure (.quant q.unlocated ((binders.map Binder.unlocated).map (·.subst r.2.unlocated))
        range.unlocated body.unlocated r.1.unlocated .none, r.2.unlocated)) := by
  apply Mirrors.pure
  simp [TypedExpr.unlocated, Binder.subst_unlocated]

mutual

theorem infer_mirrors (env : TypeEnv) : (e : Expr) →
    ElaborationM.Mirrors (Inferred.unlocated TypedExpr.unlocated) (e.infer env)
      (e.unlocated.infer env.unlocated)
  | .lit l loc => by
    rw [unlocated, infer, infer]
    exact .pure (congrArg (fun t => (TypedExpr.lit l t .none, ∅)) l.unlocated_ty.symm)
  | .var x loc | .const x loc => by
    rw [unlocated, infer, infer]
    apply (nameTy_mirrors env x loc).bind
    intro t
    exact .pure rfl
  | .op (.arith o) loc => by
    rw [unlocated, infer, infer]
    exact .pure (congrArg (fun t => (TypedExpr.op (.arith o) t .none, ∅)) o.unlocated_ty.symm)
  | .op (.chain o) loc => by
    rw [unlocated, infer, infer]
    apply (chainOpTy_mirrors o).bind
    intro t
    exact .pure rfl
  | .chain head links loc => by
    rw [unlocated, infer, infer]
    apply (infer_mirrors env head).bind
    rintro ⟨head', s⟩
    dsimp only
    rw [TypedExpr.ty_unlocated]
    apply (inferLinks_mirrors env loc head'.ty s links).bind
    rintro ⟨links', s'⟩
    exact .pure rfl
  | .app f a loc => by
    rw [unlocated, infer, infer]
    exact applied_mirrors loc (fun f a t => .app f a t loc) (fun f a t => .app f a t .none)
      (fun _ _ _ => rfl) (infer_mirrors env f) fun s => infer_mirrors (env.subst s) a
  | .lam x body loc => by
    rw [unlocated, infer, infer]
    apply freshMeta_mirrors.bind
    intro param
    have hbody := infer_mirrors (env.insert x ⟨.const, param⟩) body
    rw [← TypeEnv.insert_unlocated] at hbody
    apply hbody.bind
    rintro ⟨body', s⟩
    exact .pure (by
      simp only [TypedExpr.ty_unlocated, Ty.subst_unlocated, Ty.func_unlocated]
      rfl)
  | .quant q xs range body loc => by
    rw [unlocated, infer, infer]
    apply (bindAll_mirrors env xs).bind
    rintro ⟨inner, binders⟩
    apply (infer_mirrors inner range).bind
    rintro ⟨range', s₁⟩
    dsimp only
    rw [TypedExpr.ty_unlocated, TypedExpr.loc_unlocated]
    apply (unify_mirrors range'.ty .bool range'.loc).bind
    intro s₂
    rw [Ty.Subst.compose_unlocated, TypeEnv.subst_unlocated]
    apply (infer_mirrors (inner.subst (s₂.compose s₁)) body).bind
    rintro ⟨body', s₃⟩
    dsimp only
    rw [Ty.Subst.compose_unlocated, TypeEnv.subst_unlocated]
    apply (infer_mirrors (env.subst (s₃.compose (s₂.compose s₁))) q).bind
    rintro ⟨q', s₄⟩
    dsimp only
    rw [Ty.Subst.compose_unlocated, isHash_unlocated]
    generalize s₄.compose (s₃.compose (s₂.compose s₁)) = s
    simp only [TypedExpr.ty_unlocated, TypedExpr.loc_unlocated, Ty.subst_unlocated]
    split
    · apply (unify_mirrors _ .bool body'.loc).bind
      intro s₅
      rw [Ty.Subst.compose_unlocated]
      exact Mirrors.bind (u := Inferred.unlocated Ty.unlocated) (.pure rfl)
        (quant_mirrors q' binders range' body' loc)
    · apply freshMeta_mirrors.bind
      intro a
      have hfuncs : Ty.funcs [a.unlocated, a.unlocated] a.unlocated = _ :=
        Ty.funcs_unlocated [a, a] a
      rw [hfuncs]
      apply (unify_mirrors _ (.funcs [a, a] a) (q'.loc.merge loc)).bind
      intro s₅
      rw [Ty.Subst.compose_unlocated, Ty.subst_unlocated, Ty.subst_unlocated]
      apply (unify_mirrors _ _ (body'.loc.merge loc)).bind
      intro s₆
      rw [Ty.Subst.compose_unlocated, Ty.subst_unlocated]
      exact Mirrors.bind (u := Inferred.unlocated Ty.unlocated) (.pure rfl)
        (quant_mirrors q' binders range' body' loc)
  | .index a i loc => by
    rw [unlocated, infer, infer]
    exact applied_mirrors loc (fun f a t => .index f a t loc) (fun f a t => .index f a t .none)
      (fun _ _ _ => rfl) (infer_mirrors env a) fun s => infer_mirrors (env.subst s) i
  | .update a i v loc => by
    rw [unlocated, infer, infer]
    apply (infer_mirrors env a).bind
    rintro ⟨a', s₁⟩
    dsimp only
    rw [TypeEnv.subst_unlocated]
    apply (infer_mirrors (env.subst s₁) i).bind
    rintro ⟨i', s₂⟩
    dsimp only
    rw [Ty.Subst.compose_unlocated, TypeEnv.subst_unlocated]
    apply (infer_mirrors (env.subst (s₂.compose s₁)) v).bind
    rintro ⟨v', s₃⟩
    simp only [Ty.Subst.compose_unlocated, TypedExpr.ty_unlocated, Ty.subst_unlocated,
      Ty.func_unlocated]
    apply (unify_mirrors _ _ loc).bind
    intro s₄
    exact .pure (by simp only [Ty.Subst.compose_unlocated, Ty.subst_unlocated]; rfl)
  | .tuple es loc | .caseOf e cs loc => .throw rfl

theorem inferLinks_mirrors (env : TypeEnv) (loc : Loc) (prev : Ty) (s : Ty.Subst) :
    (links : List (ChainLink Expr)) →
    ElaborationM.Mirrors (Inferred.unlocated TypedExpr.unlocatedLinks)
      (inferLinks env loc prev s links)
      (inferLinks env.unlocated .none prev.unlocated s.unlocated (unlocatedLinks links))
  | [] => .pure rfl
  | link :: rest => by
    rw [unlocatedLinks, inferLinks, inferLinks, TypeEnv.subst_unlocated]
    apply (infer_mirrors (env.subst s) link.rhs).bind
    rintro ⟨rhs, s₁⟩
    dsimp only
    rw [Ty.Subst.compose_unlocated]
    apply (chainOpTy_mirrors link.op).bind
    intro opTy
    apply freshMeta_mirrors.bind
    intro result
    have hargs : [prev.unlocated.subst (s₁.compose s).unlocated, rhs.unlocated.ty] =
        [prev.subst (s₁.compose s), rhs.ty].map Ty.unlocated := by
      simp only [TypedExpr.ty_unlocated, Ty.subst_unlocated, List.map_cons, List.map_nil]
    rw [hargs, Ty.funcs_unlocated]
    apply (unify_mirrors _ _ (link.loc.merge loc)).bind
    intro s₂
    rw [Ty.Subst.compose_unlocated, Ty.subst_unlocated]
    apply (unify_mirrors _ .bool (link.loc.merge loc)).bind
    intro s₃
    rw [Ty.Subst.compose_unlocated, TypedExpr.ty_unlocated, Ty.subst_unlocated]
    apply (inferLinks_mirrors env loc _ _ rest).bind
    rintro ⟨links, s'⟩
    exact .pure (by simp only [Ty.subst_unlocated]; rfl)

end

theorem expect_mirrors (env : TypeEnv) (expected : Ty) (e : Expr) :
    ElaborationM.Mirrors (Inferred.unlocated TypedExpr.unlocated) (e.expect env expected)
      (e.unlocated.expect env.unlocated expected.unlocated) := by
  apply (infer_mirrors env e).bind
  rintro ⟨typed, s₁⟩
  dsimp only
  rw [TypedExpr.ty_unlocated, Ty.subst_unlocated, loc_unlocated]
  apply (unify_mirrors _ _ e.loc).bind
  intro s₂
  exact .pure (by rw [Ty.Subst.compose_unlocated])

theorem expectEach_mirrors (env : TypeEnv) (s : Ty.Subst) (es : List (Ty × Expr)) :
    ElaborationM.Mirrors (Inferred.unlocated (List.map TypedExpr.unlocated))
      (expectEach env s es)
      (expectEach env.unlocated s.unlocated (es.map (Prod.map Ty.unlocated unlocated))) := by
  induction es generalizing s with
  | nil => exact .pure rfl
  | cons d es ih =>
    obtain ⟨expected, e⟩ := d
    rw [List.map_cons, Prod.map_apply, expectEach, expectEach, TypeEnv.subst_unlocated,
      Ty.subst_unlocated]
    apply (expect_mirrors (env.subst s) (expected.subst s) e).bind
    rintro ⟨typed, s₁⟩
    dsimp only
    rw [Ty.Subst.compose_unlocated]
    apply (ih (s₁.compose s)).bind
    rintro ⟨others, s'⟩
    exact .pure rfl

theorem expectAll_mirrors (env : TypeEnv) (expected : Ty) (es : List Expr) :
    ElaborationM.Mirrors (Inferred.unlocated (List.map TypedExpr.unlocated))
      (expectAll env expected es)
      (expectAll env.unlocated expected.unlocated (es.map unlocated)) := by
  have heach := expectEach_mirrors env ∅ (es.map fun e => (expected, e))
  rw [List.map_map] at heach
  unfold expectAll
  rw [List.map_map]
  exact heach

theorem expectOption_mirrors (env : TypeEnv) (expected : Ty) (e : Option Expr) :
    ElaborationM.Mirrors (Inferred.unlocated (Option.map TypedExpr.unlocated))
      (expectOption env expected e)
      (expectOption env.unlocated expected.unlocated (e.map unlocated)) := by
  cases e with
  | none => exact .pure rfl
  | some e =>
    apply (expect_mirrors env expected e).bind
    rintro ⟨typed, s⟩
    exact .pure rfl

end Expr

end GuardedCommands
