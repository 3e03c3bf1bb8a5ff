import GuardedCommands.Proofs.Nesting
import GuardedCommands.Proofs.Solving

/-!
# Elaborated expressions are well typed

Inference returns a tree whose types are provisional and the substitution that it
has found.  Under every substitution that absorbs this one the tree satisfies the
typing rules.
-/

namespace GuardedCommands

open Ty (Subst)

variable {Γ : Scope} {U : Set String} {st st' : ElaborationState} {s : Subst}

/-! ## The steps that rules are made of -/

namespace ElaborationM

theorem freshMeta_spec {t : Ty} (h : freshMeta st = .ok t st') :
    st.Extends st' ∧ t.Over (issued st.supply.issued st'.supply.issued) := by
  cases h
  exact ⟨⟨Nat.le_succ _, rfl, rfl⟩, mem_issued le_rfl (Nat.lt_succ_self _)⟩

theorem unify_spec {t u : Ty} {loc : Loc} (hU : U ⊆ issued 0 st.supply.issued) (ht : t.Over U)
    (hu : u.Over U) (h : unify t u loc st = .ok s st') :
    ∃ U', Solving U st s U' st' ∧ ∀ S : Subst, S.Absorbs s → t.subst S ≈ u.subst S := by
  obtain ⟨hunify, rfl⟩ := EStateM.ok_of_ofExcept h
  obtain ⟨U', hmaps, hsound⟩ := Ty.unify_sound ht hu hunify
  exact ⟨U', .of_maps hmaps hU, hsound⟩

variable {metas : List (String × Ty)}

theorem freshMetas_spec {names : List String} (h : freshMetas names st = .ok metas st') :
    st.Extends st' ∧ metas.map (·.1) = names ∧
      ∀ e ∈ metas, e.2.Over (issued st.supply.issued st'.supply.issued) := by
  induction names generalizing st metas with
  | nil =>
    cases h
    exact ⟨.refl _, rfl, by simp⟩
  | cons x names ih =>
    unfold freshMetas at h
    rw [List.mapM_cons] at h
    obtain ⟨e, st₁, he, h⟩ := EStateM.ok_of_bind h
    obtain ⟨t, st₂, ht, he⟩ := EStateM.ok_of_bind he
    obtain ⟨hext, hover⟩ := freshMeta_spec ht
    cases he
    obtain ⟨others, st₃, hothers, h⟩ := EStateM.ok_of_bind h
    cases h
    obtain ⟨hext', hnames, hovers⟩ := ih hothers
    refine ⟨hext.trans hext', by simp [hnames], List.forall_mem_cons.2 ⟨?_, ?_⟩⟩
    · exact hover.mono (issued_mono le_rfl hext'.supply)
    · exact fun e he => (hovers e he).mono (issued_mono hext.supply le_rfl)

theorem freshMetas_instance {scheme : Ty} (hclosed : scheme.Closed)
    (h : freshMetas scheme.rigidVars.toList st = .ok metas st') :
    st.Extends st' ∧
      (scheme.subst (.ofList metas)).Over (issued st.supply.issued st'.supply.issued) ∧
      ∀ S : Subst, scheme.IsInstance ((scheme.subst (.ofList metas)).subst S) := by
  obtain ⟨hext, hnames, hovers⟩ := freshMetas_spec h
  have hdom : ∀ x, x ∈ scheme.rigidVars ↔ ((NameMap.ofList metas).get? x).isSome := by
    intro x
    rw [NameMap.get?_ofList, ← Option.ne_none_iff_isSome, Ne, NameMap.lookup_eq_none]
    simp only [List.map_reverse, List.mem_reverse, hnames, not_not]
    rfl
  refine ⟨hext, hclosed.over_subst fun x hx => ?_, fun S => ?_⟩
  · obtain ⟨u, hu⟩ := Option.isSome_iff_exists.1 ((hdom x).1 hx)
    have hmem := NameMap.mem_of_lookup (NameMap.get?_ofList metas x ▸ hu)
    exact ⟨u, hu, hovers _ (List.mem_reverse.1 hmem)⟩
  · refine ⟨(NameMap.ofList metas).map (Ty.subst S), fun x hx => ?_, ?_⟩
    · rw [NameMap.mem_keys_iff, NameMap.get?_map, Option.isSome_map] at hx
      exact (hdom x).2 hx
    · exact hclosed.subst_subst (fun x hx => (hdom x).1 hx) S

theorem chainOpTy_spec {o : ChainOp} {t : Ty} (h : chainOpTy o st = .ok t st') :
    st.Extends st' ∧ t.Over (issued st.supply.issued st'.supply.issued) ∧
      ∀ S : Subst, o.HasTy (t.subst S) := by
  have hnew : (st.supply.next "t").text ∈
      issued st.supply.issued st.supply.advance.issued := mem_issued le_rfl (Nat.lt_succ_self _)
  cases o with
  | eq | neq =>
    cases h
    refine ⟨⟨Nat.le_succ _, rfl, rfl⟩, ?_, fun S => ⟨st.supply.nextMeta.subst S, ?_⟩⟩
    · simpa [Ty.funcs, Supply.nextMeta, Ty.bool, Ty.Over] using hnew
    · exact Ty.equiv_iff_canonical.2 rfl
  | lt | lte | gt | gte | eqProp =>
    cases h
    refine ⟨.refl _, by simp [Ty.funcs, Ty.int, Ty.bool, Ty.Over], fun S => ?_⟩
    exact Ty.equiv_iff_canonical.2 rfl

theorem instantiate_apply (x : String) (t : Ty) (st : ElaborationState) :
    instantiate x t st = if x ∈ st.inProgress then .ok t st
      else (freshMetas t.rigidVars.toList >>= fun metas => pure (t.subst (.ofList metas))) st := by
  change (if x ∈ st.inProgress then (pure t : ElaborationM Ty)
    else freshMetas t.rigidVars.toList >>= fun metas => pure (t.subst (.ofList metas))) st = _
  split <;> rfl

theorem instantiate_of_over {t : Ty} (ht : t.Over U) (x : String) (st : ElaborationState) :
    instantiate x t st = .ok t st := by
  rw [instantiate_apply, ht.rigidVars_toList]
  split
  · rfl
  · exact congrArg (EStateM.Result.ok · st) t.subst_empty

end ElaborationM

namespace Expr

open ElaborationM

theorem nameTy_spec {x : Name} {loc : Loc} {t : Ty} (hΓ : Γ.Ready U st)
    (h : nameTy Γ.env x loc st = .ok t st') :
    st.Extends st' ∧ t.Over (U ∪ issued st.supply.issued st'.supply.issued) ∧
      ∀ S : Subst, (Γ.subst S).Gives x.text (t.subst S) := by
  unfold nameTy at h
  rw [Scope.lookup?_env] at h
  cases hfixed : Γ.fixed.lookup? x.text with
  | some info =>
    rw [hfixed, Option.some_or] at h
    obtain ⟨e, he, heq⟩ := TypeEnv.mem_of_lookup? hfixed
    have hover : info.ty.Over U := heq ▸ hΓ.fixed e he
    dsimp only at h
    rw [instantiate_of_over hover] at h
    cases h
    refine ⟨.refl _, hover.mono Set.subset_union_left, fun S => ?_⟩
    have hlookup : (Γ.subst S).fixed.lookup? x.text =
        some { info with ty := info.ty.subst S } := by
      rw [Scope.subst, TypeEnv.lookup?_subst, hfixed]
      rfl
    exact .fixed hlookup
  | none =>
    rw [hfixed, Option.none_or] at h
    have hpending : x.text ∉ st.inProgress := by
      intro hmem
      have hvisible := TypeEnv.contains_iff.2 (hΓ.pending _ hmem)
      simp [TypeEnv.contains, hfixed] at hvisible
    cases hscheme : Γ.schemes.lookup? x.text with
    | none =>
      rw [hscheme] at h
      cases h
    | some info =>
      rw [hscheme] at h
      obtain ⟨e, he, heq⟩ := TypeEnv.mem_of_lookup? hscheme
      have hclosed : info.ty.Closed := heq ▸ hΓ.schemes e he
      dsimp only at h
      rw [instantiate_apply, if_neg hpending] at h
      obtain ⟨metas, st₁, hmetas, h⟩ := EStateM.ok_of_bind h
      cases h
      obtain ⟨hext, hover, hinstance⟩ := freshMetas_instance hclosed hmetas
      refine ⟨hext, hover.mono Set.subset_union_right, fun S => ?_⟩
      have hhidden : (Γ.subst S).fixed.lookup? x.text = none := by
        rw [Scope.subst, TypeEnv.lookup?_subst, hfixed]
        rfl
      exact .scheme hhidden hscheme (hinstance S)

theorem resultOf_spec {f a t : Ty} {loc : Loc} (hU : U ⊆ issued 0 st.supply.issued)
    (hf : f.Over U) (ha : a.Over U) (h : resultOf f a loc st = .ok (t, s) st') :
    ∃ U', Solving U st s U' st' ∧ t.Over U' ∧
      ∀ S : Subst, S.Absorbs s → f.subst S ≈ .func (a.subst S) (t.subst S) := by
  obtain ⟨result, st₁, hresult, h⟩ := EStateM.ok_of_bind h
  obtain ⟨s₁, st₂, hunify, h⟩ := EStateM.ok_of_bind h
  cases h
  obtain ⟨hext, hover⟩ := freshMeta_spec hresult
  have hstart := (Solving.of_extends hext hU).finish
  have hnew := hover.mono (Set.subset_union_right (s := U))
  have hfunc : (Ty.func a result).Over (U ∪ issued st.supply.issued st₁.supply.issued) :=
    Ty.over_func.2 ⟨ha.mono Set.subset_union_left, hnew⟩
  obtain ⟨U', hsolving, hequiv⟩ :=
    unify_spec hstart (hf.mono Set.subset_union_left) hfunc hunify
  refine ⟨U', .after_extends hext hU hsolving, hsolving.over_subst hnew, fun S hS => ?_⟩
  rw [hS.subst]
  exact Setoid.trans (hequiv S hS) (Ty.subst_func S a result)

theorem bindAll_spec {xs : List Name} {inner : TypeEnv} {bs : List Binder} (hΓ : Γ.Ready U st)
    (h : bindAll Γ.env xs st = .ok (inner, bs) st') :
    st.Extends st' ∧ inner = (Γ.bindAll bs).env ∧
      (Γ.bindAll bs).Ready (U ∪ issued st.supply.issued st'.supply.issued) st' := by
  induction xs generalizing Γ U st inner bs with
  | nil =>
    cases h
    rw [issued_self, Set.union_empty]
    exact ⟨.refl _, rfl, hΓ⟩
  | cons x xs ih =>
    obtain ⟨t, st₁, ht, h⟩ := EStateM.ok_of_bind h
    obtain ⟨⟨inner', bs'⟩, st₂, hrest, h⟩ := EStateM.ok_of_bind h
    cases h
    obtain ⟨hext, hover⟩ := freshMeta_spec ht
    have hbound := (hΓ.extend hext).bind (x := x) (hover.mono Set.subset_union_right)
    rw [← Scope.env_bind] at hrest
    obtain ⟨hext', hinner, hready⟩ := ih hbound hrest
    rw [Set.union_assoc, issued_union hext.supply hext'.supply] at hready
    exact ⟨hext.trans hext', hinner, hready⟩

end Expr

/-! ## Elaboration adds types and changes nothing else -/

namespace TypedExpr

@[simp] theorem ty_substTy (s : Subst) (e : TypedExpr) : (e.substTy s).ty = e.ty.subst s := by
  cases e <;> simp only [substTy, ty]

@[simp] theorem erase_substTy (s : Subst) (e : TypedExpr) : (e.substTy s).erase = e.erase := by
  induction e using nested_induction
      (L := fun ls => eraseLinks (substTyLinks s ls) = eraseLinks ls) with
  | quant q bs r body _ _ ihq ihr ihbody =>
    simp only [substTy, erase, ihq, ihr, ihbody, List.map_map, Function.comp_def, Binder.subst]
  | _ => simp_all only [substTy, substTyLinks, erase, eraseLinks, Binder.subst]

end TypedExpr

namespace Expr

theorem bindAll_names (env : TypeEnv) (xs : List Name) :
    Returns (bindAll env xs) fun r => r.2.map (·.name) = xs := by
  induction xs generalizing env with
  | nil => exact .pure rfl
  | cons x xs ih =>
    unfold bindAll
    refine .andThen fun t => (ih _).bind fun r hr => .pure ?_
    simp [hr]

mutual

theorem infer_erase (env : TypeEnv) : (e : Expr) → Returns (e.infer env) fun r => r.1.erase = e
  | .lit l loc => by
    rw [infer]
    exact .pure (by simp only [TypedExpr.erase])
  | .var x loc | .const x loc | .op (.chain o) loc => by
    rw [infer]
    exact .andThen fun t => .pure (by simp only [TypedExpr.erase])
  | .op (.arith o) loc => by
    rw [infer]
    exact .pure (by simp only [TypedExpr.erase])
  | .chain head links loc => by
    rw [infer]
    refine (infer_erase env head).bind fun r hhead => ?_
    refine (inferLinks_erase env loc _ _ links).bind fun r' hlinks => .pure ?_
    simp only [TypedExpr.erase, hhead, hlinks]
  | .app f a loc | .index f a loc => by
    rw [infer]
    refine (infer_erase env f).bind fun r hf => ?_
    refine (infer_erase _ a).bind fun r' ha => .andThen fun t => .pure ?_
    simp only [TypedExpr.erase, hf, ha]
  | .lam x body loc => by
    rw [infer]
    refine .andThen fun t => (infer_erase _ body).bind fun r hbody => .pure ?_
    simp only [TypedExpr.erase, hbody]
  | .quant q xs range body loc => by
    rw [infer]
    refine (bindAll_names env xs).bind fun r hxs => ?_
    refine (infer_erase _ range).bind fun r₁ hrange => .andThen fun s => ?_
    refine (infer_erase _ body).bind fun r₂ hbody => ?_
    refine (infer_erase _ q).bind fun r₃ hq => ?_
    have hquant : ∀ (t : Ty) (s : Subst),
        (TypedExpr.quant r₃.1 (r.2.map (·.subst s)) r₁.1 r₂.1 t loc).erase =
          .quant q xs range body loc := by
      intro t s
      simp only [TypedExpr.erase, hq, hrange, hbody, List.map_map, Function.comp_def,
        Binder.subst, hxs]
    dsimp only
    split
    · exact .andThen fun s => .andThen fun r => .pure (hquant r.1 r.2)
    · exact .andThen fun a => .andThen fun s => .andThen fun s' => .andThen fun r =>
        .pure (hquant r.1 r.2)
  | .update a i v loc => by
    rw [infer]
    refine (infer_erase env a).bind fun r ha => ?_
    refine (infer_erase _ i).bind fun r₁ hi => ?_
    refine (infer_erase _ v).bind fun r₂ hv => .andThen fun s => .pure ?_
    simp only [TypedExpr.erase, ha, hi, hv]
  | .tuple es loc | .caseOf e cs loc => by
    rw [infer]
    exact .throw

theorem inferLinks_erase (env : TypeEnv) (loc : Loc) (prev : Ty) (s : Subst) :
    (links : List (ChainLink Expr)) → Returns (inferLinks env loc prev s links) fun r =>
      TypedExpr.eraseLinks r.1 = links
  | [] => by
    rw [inferLinks]
    exact .pure (by simp only [TypedExpr.eraseLinks])
  | link :: rest => by
    rw [inferLinks]
    refine (infer_erase _ link.rhs).bind fun r hrhs => ?_
    refine .andThen fun opTy => .andThen fun result => .andThen fun s₂ => .andThen fun s₃ => ?_
    refine (inferLinks_erase env loc _ _ rest).bind fun r' hlinks => .pure ?_
    simp only [TypedExpr.eraseLinks, hrhs, hlinks]

end

end Expr

/-! ## The rules -/

structure Elaborated (Γ : Scope) (U : Set String) (st : ElaborationState) (e : TypedExpr)
    (s : Subst) (U' : Set String) (st' : ElaborationState) : Prop
    extends Solving U st s U' st' where
  tyOver : e.ty.Over U'
  typed : ∀ S : Subst, S.Absorbs s → (e.substTy S).WellTyped (Γ.subst S)

namespace Expr

open ElaborationM

def Sound (e : Expr) : Prop :=
  ∀ {Γ : Scope} {U : Set String} {st : ElaborationState} {typed : TypedExpr} {s : Subst}
    {st' : ElaborationState}, Γ.Ready U st → e.infer Γ.env st = .ok (typed, s) st' →
      ∃ U', Elaborated Γ U st typed s U' st'

def LinksSound (links : List (ChainLink Expr)) : Prop :=
  ∀ {Γ : Scope} {U U₁ : Set String} {st st₁ st₂ : ElaborationState} {loc : Loc} {prev : Ty}
    {s s' : Subst} {typed : List (TypedLink TypedExpr)}, Γ.Ready U st → Solving U st s U₁ st₁ →
      prev.Over U₁ → inferLinks Γ.env loc prev s links st₁ = .ok (typed, s') st₂ →
        ∃ U₂, Solving U st s' U₂ st₂ ∧ ∀ S : Subst, S.Absorbs s' → S.Absorbs s ∧
          TypedExpr.LinksTyped (Γ.subst S) (prev.subst S) (TypedExpr.substTyLinks S typed)

variable {U₁ : Set String} {st₁ st₂ st₃ : ElaborationState} {s₁ s₂ s₃ : Subst}

variable {e f a i body : Expr} {a' : TypedExpr} {st₄ st₅ : ElaborationState} {expected : Ty}
  {es : List Expr}

theorem Sound.after {typed : TypedExpr} (he : e.Sound) (hΓ : Γ.Ready U st)
    (hs : Solving U st s U₁ st₁) (h : e.infer (Γ.env.subst s) st₁ = .ok (typed, s₁) st₂) :
    ∃ U₂, Solving U₁ st₁ s₁ U₂ st₂ ∧ typed.ty.Over U₂ ∧
      ∀ S : Subst, S.Absorbs s → S.Absorbs s₁ → (typed.substTy S).WellTyped (Γ.subst S) := by
  rw [← hΓ.env_subst hs] at h
  obtain ⟨U₂, helaborated⟩ := he (hΓ.after hs) h
  refine ⟨U₂, helaborated.toSolving, helaborated.tyOver, fun S hS hS₁ => ?_⟩
  have htyped := helaborated.typed S hS₁
  rwa [Scope.subst_subst hS] at htyped

theorem sound_lit (l : Lit) (loc : Loc) : (lit l loc).Sound := by
  intro Γ U st typed s st' hΓ h
  rw [infer] at h
  cases h
  refine ⟨U, .of_maps (.empty U) hΓ.known, by cases l <;> trivial, fun S hS => ?_⟩
  rw [TypedExpr.substTy]
  exact .lit (by cases l <;> exact Setoid.refl _)

theorem sound_var (x : Name) (loc : Loc) : (var x loc).Sound := by
  intro Γ U st typed s st' hΓ h
  rw [infer] at h
  obtain ⟨t, st₁, ht, h⟩ := EStateM.ok_of_bind h
  cases h
  obtain ⟨hext, hover, hgives⟩ := nameTy_spec hΓ ht
  refine ⟨_, .of_extends hext hΓ.known, hover, fun S hS => ?_⟩
  rw [TypedExpr.substTy]
  exact .var (hgives S)

theorem sound_const (x : Name) (loc : Loc) : (const x loc).Sound := by
  intro Γ U st typed s st' hΓ h
  rw [infer] at h
  obtain ⟨t, st₁, ht, h⟩ := EStateM.ok_of_bind h
  cases h
  obtain ⟨hext, hover, hgives⟩ := nameTy_spec hΓ ht
  refine ⟨_, .of_extends hext hΓ.known, hover, fun S hS => ?_⟩
  rw [TypedExpr.substTy]
  exact .const (hgives S)

theorem sound_op (o : Op) (loc : Loc) : (op o loc).Sound := by
  intro Γ U st typed s st' hΓ h
  cases o with
  | arith o =>
    rw [infer] at h
    cases h
    refine ⟨U, .of_maps (.empty U) hΓ.known, ?_, fun S hS => ?_⟩
    · cases o <;> simp [TypedExpr.ty, ArithOp.ty, Ty.funcs, Ty.int, Ty.bool, Ty.Over]
    · rw [TypedExpr.substTy]
      exact .arith (by cases o <;> exact Setoid.refl _)
  | chain o =>
    rw [infer] at h
    obtain ⟨t, st₁, ht, h⟩ := EStateM.ok_of_bind h
    cases h
    obtain ⟨hext, hover, hop⟩ := chainOpTy_spec ht
    refine ⟨_, .of_extends hext hΓ.known, hover.mono Set.subset_union_right, fun S hS => ?_⟩
    rw [TypedExpr.substTy]
    exact .comparison (hop S)

theorem sound_chain {head : Expr} {links : List (ChainLink Expr)} (hhead : head.Sound)
    (hlinks : LinksSound links) (loc : Loc) : (chain head links loc).Sound := by
  intro Γ U st typed s st' hΓ h
  rw [infer] at h
  obtain ⟨⟨head', s₁⟩, st₁, h₁, h⟩ := EStateM.ok_of_bind h
  obtain ⟨⟨links', s₂⟩, st₂, h₂, h⟩ := EStateM.ok_of_bind h
  cases h
  obtain ⟨U₁, helaborated⟩ := hhead hΓ h₁
  obtain ⟨U₂, hsolving, htyped⟩ := hlinks hΓ helaborated.toSolving helaborated.tyOver h₂
  refine ⟨U₂, hsolving, trivial, fun S hS => ?_⟩
  obtain ⟨hS₁, hlinks'⟩ := htyped S hS
  rw [TypedExpr.substTy]
  refine .chain (helaborated.typed S hS₁) ?_ (Setoid.refl _)
  rwa [TypedExpr.ty_substTy]

theorem application_spec {f' : TypedExpr} {t : Ty} {loc : Loc} (hf : f.Sound) (ha : a.Sound)
    (hΓ : Γ.Ready U st) (h₁ : f.infer Γ.env st = .ok (f', s₁) st₁)
    (h₂ : a.infer (Γ.env.subst s₁) st₁ = .ok (a', s₂) st₂)
    (h₃ : resultOf (f'.ty.subst s₂) a'.ty loc st₂ = .ok (t, s₃) st₃) :
    ∃ U', Solving U st (s₃.compose (s₂.compose s₁)) U' st₃ ∧ t.Over U' ∧
      ∀ S : Subst, S.Absorbs (s₃.compose (s₂.compose s₁)) →
        (f'.substTy S).WellTyped (Γ.subst S) ∧ (a'.substTy S).WellTyped (Γ.subst S) ∧
          (f'.substTy S).ty ≈ .func (a'.substTy S).ty (t.subst S) := by
  obtain ⟨U₁, hf'⟩ := hf hΓ h₁
  obtain ⟨U₂, hs₂, haty, ha'⟩ := ha.after hΓ hf'.toSolving h₂
  obtain ⟨U₃, hs₃, hty, hequiv⟩ := resultOf_spec hs₂.finish (hs₂.over_subst hf'.tyOver) haty h₃
  have hs₁₂ := hf'.toSolving.compose hs₂
  refine ⟨U₃, hs₁₂.compose hs₃, hty, fun S hS => ?_⟩
  have hS₁₂ := hs₁₂.absorbs hs₃ hS
  have hS₁ := hf'.toSolving.absorbs hs₂ hS₁₂
  have happ := hequiv S hS.later
  rw [hS₁₂.later.subst] at happ
  rw [TypedExpr.ty_substTy, TypedExpr.ty_substTy]
  exact ⟨hf'.typed S hS₁, ha' S hS₁ hS₁₂.later, happ⟩

theorem sound_app (hf : f.Sound) (ha : a.Sound) (loc : Loc) : (app f a loc).Sound := by
  intro Γ U st typed s st' hΓ h
  rw [infer] at h
  obtain ⟨⟨f', s₁⟩, st₁, h₁, h⟩ := EStateM.ok_of_bind h
  obtain ⟨⟨a', s₂⟩, st₂, h₂, h⟩ := EStateM.ok_of_bind h
  obtain ⟨⟨t, s₃⟩, st₃, h₃, h⟩ := EStateM.ok_of_bind h
  cases h
  obtain ⟨U', hsolving, hty, htyped⟩ := application_spec hf ha hΓ h₁ h₂ h₃
  refine ⟨U', hsolving, hty, fun S hS => ?_⟩
  obtain ⟨hf', ha', happ⟩ := htyped S hS
  rw [TypedExpr.substTy]
  exact .app hf' ha' happ

theorem sound_index (ha : a.Sound) (hi : i.Sound) (loc : Loc) : (index a i loc).Sound := by
  intro Γ U st typed s st' hΓ h
  rw [infer] at h
  obtain ⟨⟨a', s₁⟩, st₁, h₁, h⟩ := EStateM.ok_of_bind h
  obtain ⟨⟨i', s₂⟩, st₂, h₂, h⟩ := EStateM.ok_of_bind h
  obtain ⟨⟨t, s₃⟩, st₃, h₃, h⟩ := EStateM.ok_of_bind h
  cases h
  obtain ⟨U', hsolving, hty, htyped⟩ := application_spec ha hi hΓ h₁ h₂ h₃
  refine ⟨U', hsolving, hty, fun S hS => ?_⟩
  obtain ⟨ha', hi', hindex⟩ := htyped S hS
  rw [TypedExpr.substTy]
  exact .index ha' hi' hindex

theorem sound_lam {x : Name} (hbody : body.Sound) (loc : Loc) : (lam x body loc).Sound := by
  intro Γ U st typed s st' hΓ h
  rw [infer] at h
  obtain ⟨param, st₁, hparam, h⟩ := EStateM.ok_of_bind h
  obtain ⟨⟨body', s₁⟩, st₂, h₁, h⟩ := EStateM.ok_of_bind h
  cases h
  obtain ⟨hext, hover⟩ := freshMeta_spec hparam
  have hover := hover.mono (Set.subset_union_right (s := U))
  have hbound := (hΓ.extend hext).bind (x := x) hover
  rw [← Scope.env_bind] at h₁
  obtain ⟨U', hbody'⟩ := hbody hbound h₁
  refine ⟨U', .after_extends hext hΓ.known hbody'.toSolving, ?_, fun S hS => ?_⟩
  · exact Ty.over_func.2 ⟨hbody'.over_subst hover, hbody'.tyOver⟩
  · rw [TypedExpr.substTy]
    refine .lam ?_ ?_
    · rw [Binder.subst, hS.subst, ← Scope.subst_bind]
      exact hbody'.typed S hS
    · rw [TypedExpr.ty_substTy]
      exact Ty.subst_func S _ _

theorem update_spec {v : Expr} {i' v' : TypedExpr} {s₄ : Subst} {loc : Loc} (ha : a.Sound)
    (hi : i.Sound) (hv : v.Sound) (hΓ : Γ.Ready U st) (h₁ : a.infer Γ.env st = .ok (a', s₁) st₁)
    (h₂ : i.infer (Γ.env.subst s₁) st₁ = .ok (i', s₂) st₂)
    (h₃ : v.infer (Γ.env.subst (s₂.compose s₁)) st₂ = .ok (v', s₃) st₃)
    (h₄ : unify (a'.ty.subst (s₃.compose (s₂.compose s₁)))
      (.func (i'.ty.subst (s₃.compose (s₂.compose s₁))) v'.ty) loc st₃ = .ok s₄ st₄) :
    ∃ U', Solving U st (s₄.compose (s₃.compose (s₂.compose s₁))) U' st₄ ∧
      (a'.ty.subst (s₄.compose (s₃.compose (s₂.compose s₁)))).Over U' ∧
      ∀ S : Subst, S.Absorbs (s₄.compose (s₃.compose (s₂.compose s₁))) →
        (a'.substTy S).WellTyped (Γ.subst S) ∧ (i'.substTy S).WellTyped (Γ.subst S) ∧
          (v'.substTy S).WellTyped (Γ.subst S) ∧
          (a'.substTy S).ty ≈ .func (i'.substTy S).ty (v'.substTy S).ty := by
  obtain ⟨U₁, ha'⟩ := ha hΓ h₁
  obtain ⟨U₂, hs₂, hity, hi'⟩ := hi.after hΓ ha'.toSolving h₂
  have hs₁₂ := ha'.toSolving.compose hs₂
  obtain ⟨U₃, hs₃, hvty, hv'⟩ := hv.after hΓ hs₁₂ h₃
  have hs₁₃ := hs₁₂.compose hs₃
  have hext := hs₂.toExtends.trans hs₃.toExtends
  have haty := ha'.toSolving.over_later hs₁₃ hext ha'.tyOver
  have hity := hs₁₂.over_later hs₁₃ hs₃.toExtends hity
  obtain ⟨U₄, hs₄, hequiv⟩ := unify_spec hs₃.finish haty (Ty.over_func.2 ⟨hity, hvty⟩) h₄
  have hs := hs₁₃.compose hs₄
  refine ⟨U₄, hs, ?_, fun S hS => ?_⟩
  · exact ha'.toSolving.over_later hs (hext.trans hs₄.toExtends) ha'.tyOver
  · have hS₁₃ := hs₁₃.absorbs hs₄ hS
    have hS₁₂ := hs₁₂.absorbs hs₃ hS₁₃
    have hS₁ := ha'.toSolving.absorbs hs₂ hS₁₂
    have harray := Setoid.trans (hequiv S hS.later) (Ty.subst_func S _ _)
    rw [hS₁₃.subst, hS₁₃.subst] at harray
    simp only [TypedExpr.ty_substTy]
    exact ⟨ha'.typed S hS₁, hi' S hS₁ hS₁₂.later, hv' S hS₁₂ hS₁₃.later, harray⟩

theorem sound_update {v : Expr} (ha : a.Sound) (hi : i.Sound) (hv : v.Sound) (loc : Loc) :
    (update a i v loc).Sound := by
  intro Γ U st typed s st' hΓ h
  rw [infer] at h
  obtain ⟨⟨a', s₁⟩, st₁, h₁, h⟩ := EStateM.ok_of_bind h
  obtain ⟨⟨i', s₂⟩, st₂, h₂, h⟩ := EStateM.ok_of_bind h
  obtain ⟨⟨v', s₃⟩, st₃, h₃, h⟩ := EStateM.ok_of_bind h
  obtain ⟨s₄, st₄, h₄, h⟩ := EStateM.ok_of_bind h
  cases h
  obtain ⟨U', hsolving, hty, htyped⟩ := update_spec ha hi hv hΓ h₁ h₂ h₃ h₄
  refine ⟨U', hsolving, hty, fun S hS => ?_⟩
  obtain ⟨ha', hi', hv', harray⟩ := htyped S hS
  rw [TypedExpr.substTy]
  refine .update ha' hi' hv' harray ?_
  rw [hS.subst, TypedExpr.ty_substTy]

theorem operator_spec {op body a : Ty} {s₅ s₆ : Subst} {U₃ U₄ : Set String}
    {st₆ st₇ st₈ : ElaborationState} {loc loc' : Loc} (hbody : Solving U st s₃ U₃ st₄)
    (hext : st₄.Extends st₅) (hs : Solving U st s U₄ st₅) (hbodyty : body.Over U₃)
    (hopty : op.Over U₄) (h₁ : freshMeta st₅ = .ok a st₆)
    (h₂ : unify (op.subst s) (.funcs [a, a] a) loc st₆ = .ok s₅ st₇)
    (h₃ : unify (a.subst (s₅.compose s)) (body.subst (s₅.compose s)) loc' st₇ = .ok s₆ st₈) :
    ∃ U', Solving U st (s₆.compose (s₅.compose s)) U' st₈ ∧
      (a.subst (s₆.compose (s₅.compose s))).Over U' ∧
      ∀ S : Subst, S.Absorbs (s₆.compose (s₅.compose s)) → S.Absorbs s ∧
        op.subst S ≈ .funcs [a.subst S, a.subst S] (a.subst S) ∧ a.subst S ≈ body.subst S := by
  obtain ⟨hnew, ha⟩ := freshMeta_spec h₁
  have hstart := (Solving.of_extends hnew hs.finish).finish
  have hopty := hs.over_later hs (.refl _) hopty
  have ha' := ha.mono (Set.subset_union_right (s := U₄))
  obtain ⟨U₅, hs₅, hop⟩ := unify_spec hstart (hopty.mono Set.subset_union_left)
    (by simpa [Ty.funcs] using ha') h₂
  have hs₅' := Solving.after_extends hnew hs.finish hs₅
  have hs' := hs.compose hs₅'
  have haty := hs'.over_issued hs.supply hs₅.supply ha
  have hbodyty := hbody.over_later hs' (hext.trans hs₅'.toExtends) hbodyty
  obtain ⟨U₆, hs₆, hvalue⟩ := unify_spec hs₅.finish haty hbodyty h₃
  have hs'' := hs'.compose hs₆
  refine ⟨U₆, hs'', hs''.over_issued hs.supply (hs₅.supply.trans hs₆.supply) ha, fun S hS => ?_⟩
  have hS' := hs'.absorbs hs₆ hS
  have hS₀ := hs.absorbs hs₅' hS'
  have hop := Setoid.trans (hop S hS'.later) (Ty.subst_binary S a a a)
  have hvalue := hvalue S hS.later
  rw [hS₀.subst] at hop
  rw [hS'.subst, hS'.subst] at hvalue
  exact ⟨hS₀, hop, hvalue⟩

theorem sound_quant {q range : Expr} {xs : List Name} (hq : q.Sound) (hrange : range.Sound)
    (hbody : body.Sound) (loc : Loc) : (quant q xs range body loc).Sound := by
  intro Γ U st typed s st' hΓ h
  rw [infer] at h
  obtain ⟨⟨inner, bs⟩, st₁, h₁, h⟩ := EStateM.ok_of_bind h
  obtain ⟨hext, rfl, hinner⟩ := bindAll_spec hΓ h₁
  obtain ⟨⟨range', s₁⟩, st₂, h₂, h⟩ := EStateM.ok_of_bind h
  obtain ⟨s₂, st₃, h₃, h⟩ := EStateM.ok_of_bind h
  obtain ⟨⟨body', s₃⟩, st₄, h₄, h⟩ := EStateM.ok_of_bind h
  obtain ⟨⟨q', s₄⟩, st₅, h₅, h⟩ := EStateM.ok_of_bind h
  obtain ⟨U₁, hrange'⟩ := hrange hinner h₂
  obtain ⟨U₂, hs₂, hbool⟩ := unify_spec hrange'.finish hrange'.tyOver Ty.over_bool h₃
  have hs₁₂ := hrange'.toSolving.compose hs₂
  obtain ⟨U₃, hs₃, hbodyty, hbody'⟩ := hbody.after hinner hs₁₂ h₄
  have hs₁₃ := hs₁₂.compose hs₃
  have hs := Solving.after_extends hext hΓ.known hs₁₃
  obtain ⟨U₄, hs₄, hqty, hq'⟩ := hq.after hΓ hs h₅
  have hsq := hs.compose hs₄
  -- what the parts have come to, once all that was found for them is built in
  have hparts : ∀ S : Subst, S.Absorbs (s₄.compose (s₃.compose (s₂.compose s₁))) →
      (q'.substTy S).WellTyped (Γ.subst S) ∧
        (range'.substTy S).WellTyped ((Γ.bindAll bs).subst S) ∧ (range'.substTy S).ty ≈ .bool ∧
        (body'.substTy S).WellTyped ((Γ.bindAll bs).subst S) := by
    intro S hS
    have hS₁₃ := hs.absorbs hs₄ hS
    have hS₁₂ := hs₁₂.absorbs hs₃ hS₁₃
    have hS₁ := hrange'.toSolving.absorbs hs₂ hS₁₂
    rw [TypedExpr.ty_substTy]
    exact ⟨hq' S hS₁₃ hS.later, hrange'.typed S hS₁, hbool S hS₁₂.later,
      hbody' S hS₁₂ hS₁₃.later⟩
  have herase : q'.erase = q := infer_erase _ q _ _ _ h₅
  have hbinders : ∀ {s S : Subst}, S.Absorbs s →
      (bs.map (·.subst s)).map (·.subst S) = bs.map (·.subst S) := by
    intro s S hS
    simp only [List.map_map, Function.comp_def, Binder.subst, hS.subst]
  dsimp only at h
  split at h
  · next hcounts =>
    obtain ⟨s₅, st₆, h₆, h⟩ := EStateM.ok_of_bind h
    cases h
    have hbodyty := hs.over_later hsq hs₄.toExtends hbodyty
    obtain ⟨U₅, hs₅, hprop⟩ := unify_spec hs₄.finish hbodyty Ty.over_bool h₆
    refine ⟨U₅, hsq.compose hs₅, Ty.over_int, fun S hS => ?_⟩
    have hSq := hsq.absorbs hs₅ hS
    have hprop := hprop S hS.later
    rw [hSq.subst, ← TypedExpr.ty_substTy] at hprop
    obtain ⟨hq, hrange, hbool, hbody⟩ := hparts S hSq
    rw [Scope.subst_bindAll] at hrange hbody
    rw [TypedExpr.substTy, hbinders hS]
    exact .count (by simpa [herase] using hcounts) hq hrange hbool hbody hprop (Setoid.refl _)
  · next hcounts =>
    obtain ⟨a, st₆, h₆, h⟩ := EStateM.ok_of_bind h
    obtain ⟨s₅, st₇, h₇, h⟩ := EStateM.ok_of_bind h
    obtain ⟨s₆, st₈, h₈, h⟩ := EStateM.ok_of_bind h
    cases h
    obtain ⟨U', hsolving, haty, hequiv⟩ := operator_spec hs hs₄.toExtends hsq hbodyty hqty h₆ h₇ h₈
    refine ⟨U', hsolving, haty, fun S hS => ?_⟩
    obtain ⟨hSq, hop, hvalue⟩ := hequiv S hS
    rw [← TypedExpr.ty_substTy] at hop hvalue
    obtain ⟨hq, hrange, hbool, hbody⟩ := hparts S hSq
    rw [Scope.subst_bindAll] at hrange hbody
    rw [TypedExpr.substTy, hbinders hS, hS.subst]
    exact .fold (by simpa [herase] using hcounts) hq hop hrange hbool hbody hvalue (Setoid.refl _)

theorem comparison_spec {left right opTy result : Ty} {o : ChainOp} {loc : Loc}
    (hs : Solving U st s U₁ st₁) (hleft : left.Over U₁) (hright : right.Over U₁)
    (h₁ : chainOpTy o st₁ = .ok opTy st₂) (h₂ : freshMeta st₂ = .ok result st₃)
    (h₃ : unify opTy (.funcs [left, right] result) loc st₃ = .ok s₁ st₄)
    (h₄ : unify (result.subst (s₁.compose s)) .bool loc st₄ = .ok s₂ st₅) :
    ∃ U', Solving U st (s₂.compose (s₁.compose s)) U' st₅ ∧ st₁.Extends st₅ ∧
      ∀ S : Subst, S.Absorbs (s₂.compose (s₁.compose s)) → S.Absorbs s ∧ o.HasTy (opTy.subst S) ∧
        opTy.subst S ≈ .funcs [left.subst S, right.subst S] .bool := by
  obtain ⟨hext₁, hopty, hhas⟩ := chainOpTy_spec h₁
  obtain ⟨hext₂, hresult⟩ := freshMeta_spec h₂
  have hext := hext₁.trans hext₂
  have hstart := (Solving.of_extends hext hs.finish).finish
  have hopty := (hopty.mono (issued_mono le_rfl hext₂.supply)).mono
    (Set.subset_union_right (s := U₁))
  have hresult := hresult.mono (issued_mono hext₁.supply le_rfl)
  have hnew := hresult.mono (Set.subset_union_right (s := U₁))
  have hfuncs : (Ty.funcs [left, right] result).Over
      (U₁ ∪ issued st₁.supply.issued st₃.supply.issued) := by
    simp only [Ty.funcs, List.foldr, Ty.over_func]
    exact ⟨hleft.mono Set.subset_union_left, hright.mono Set.subset_union_left, hnew⟩
  obtain ⟨U₂, hs₁, hcompares⟩ := unify_spec hstart hopty hfuncs h₃
  have hs₁' := Solving.after_extends hext hs.finish hs₁
  have hs' := hs.compose hs₁'
  have hresultty := hs'.over_issued hs.supply hs₁.supply hresult
  obtain ⟨U₃, hs₂, hbool⟩ := unify_spec hs₁.finish hresultty Ty.over_bool h₄
  refine ⟨U₃, hs'.compose hs₂, hs₁'.toExtends.trans hs₂.toExtends, fun S hS => ?_⟩
  have hS' := hs'.absorbs hs₂ hS
  have hbool := hbool S hS.later
  rw [hS'.subst] at hbool
  refine ⟨hs.absorbs hs₁' hS', hhas S, ?_⟩
  have hcompares := Setoid.trans (hcompares S hS'.later) (Ty.subst_binary S left right result)
  refine Setoid.trans hcompares (Ty.equiv_func.2 ⟨Setoid.refl _, ?_⟩)
  exact Ty.equiv_func.2 ⟨Setoid.refl _, hbool⟩

theorem linksSound_nil : LinksSound [] := by
  intro Γ U U₁ st st₁ st₂ loc prev s s' typed hΓ hs hprev h
  rw [inferLinks] at h
  cases h
  refine ⟨U₁, hs, fun S hS => ⟨hS, ?_⟩⟩
  rw [TypedExpr.substTyLinks]
  exact .nil

theorem linksSound_cons {link : ChainLink Expr} {rest : List (ChainLink Expr)}
    (hrhs : link.rhs.Sound) (hrest : LinksSound rest) : LinksSound (link :: rest) := by
  intro Γ U U₁ st st₁ st₂ loc prev s s' typed hΓ hs hprev h
  rw [inferLinks] at h
  obtain ⟨⟨rhs, s₁⟩, st₃, h₁, h⟩ := EStateM.ok_of_bind h
  obtain ⟨opTy, st₄, h₂, h⟩ := EStateM.ok_of_bind h
  obtain ⟨result, st₅, h₃, h⟩ := EStateM.ok_of_bind h
  obtain ⟨s₂, st₆, h₄, h⟩ := EStateM.ok_of_bind h
  obtain ⟨s₃, st₇, h₅, h⟩ := EStateM.ok_of_bind h
  obtain ⟨⟨links, s₄⟩, st₈, h₆, h⟩ := EStateM.ok_of_bind h
  cases h
  obtain ⟨U₂, hs₁, hrhsty, hrhs'⟩ := hrhs.after hΓ hs h₁
  have hs₁' := hs.compose hs₁
  have hprevty := hs.over_later hs₁' hs₁.toExtends hprev
  obtain ⟨U₃, hs₃, hext, hcompares⟩ := comparison_spec hs₁' hprevty hrhsty h₂ h₃ h₄ h₅
  have hrhsty' := hs₁'.over_later hs₃ hext hrhsty
  obtain ⟨U₄, hs₄, hlinks⟩ := hrest hΓ hs₃ hrhsty' h₆
  refine ⟨U₄, hs₄, fun S hS => ?_⟩
  obtain ⟨hS₃, hlinks⟩ := hlinks S hS
  obtain ⟨hS₁, hop, hequiv⟩ := hcompares S hS₃
  have hS₀ := hs.absorbs hs₁ hS₁
  rw [hS₁.subst, ← TypedExpr.ty_substTy] at hequiv
  rw [hS₃.subst, ← TypedExpr.ty_substTy] at hlinks
  refine ⟨hS₀, ?_⟩
  rw [TypedExpr.substTyLinks]
  refine .cons (hrhs' S hS₀ hS₁.later) ?_ ?_ hlinks
  · rwa [hS₃.subst]
  · rwa [hS₃.subst]

mutual

theorem infer_sound : (e : Expr) → e.Sound
  | .lit l loc => sound_lit l loc
  | .var x loc => sound_var x loc
  | .const x loc => sound_const x loc
  | .op o loc => sound_op o loc
  | .chain head links loc => sound_chain (infer_sound head) (inferLinks_sound links) loc
  | .app f a loc => sound_app (infer_sound f) (infer_sound a) loc
  | .lam x body loc => sound_lam (infer_sound body) loc
  | .quant q xs range body loc =>
    sound_quant (infer_sound q) (infer_sound range) (infer_sound body) loc
  | .index a i loc => sound_index (infer_sound a) (infer_sound i) loc
  | .update a i v loc => sound_update (infer_sound a) (infer_sound i) (infer_sound v) loc
  | .tuple es loc | .caseOf e cs loc => fun _ h => by
    rw [infer] at h
    cases h

theorem inferLinks_sound : (links : List (ChainLink Expr)) → LinksSound links
  | [] => linksSound_nil
  | link :: rest => linksSound_cons (infer_sound link.rhs) (inferLinks_sound rest)

end

/-! ## Expected types -/

open TypedExpr (HasTy)

theorem expect_sound {typed : TypedExpr} (hΓ : Γ.Ready U st) (hexpected : expected.Over U)
    (h : e.expect Γ.env expected st = .ok (typed, s) st') :
    ∃ U', Solving U st s U' st' ∧ ∀ S : Subst, S.Absorbs s →
      HasTy (Γ.subst S) (typed.substTy S) (expected.subst S) := by
  obtain ⟨⟨typed', s₁⟩, st₁, h₁, h⟩ := EStateM.ok_of_bind h
  obtain ⟨s₂, st₂, h₂, h⟩ := EStateM.ok_of_bind h
  cases h
  obtain ⟨U₁, helaborated⟩ := infer_sound e hΓ h₁
  have hs₁ := helaborated.toSolving
  obtain ⟨U₂, hs₂, hequiv⟩ :=
    unify_spec hs₁.finish (hs₁.over_subst hexpected) helaborated.tyOver h₂
  refine ⟨U₂, hs₁.compose hs₂, fun S hS => ?_⟩
  have hS₁ := hs₁.absorbs hs₂ hS
  have hequiv := Setoid.symm (hequiv S hS.later)
  rw [hS₁.subst, ← TypedExpr.ty_substTy] at hequiv
  exact ⟨helaborated.typed S hS₁, hequiv⟩

theorem expect_after {typed : TypedExpr} (hΓ : Γ.Ready U st) (hs : Solving U st s U₁ st₁)
    (hexpected : expected.Over U₁)
    (h : e.expect (Γ.env.subst s) expected st₁ = .ok (typed, s₁) st₂) :
    ∃ U₂, Solving U₁ st₁ s₁ U₂ st₂ ∧ ∀ S : Subst, S.Absorbs s → S.Absorbs s₁ →
      HasTy (Γ.subst S) (typed.substTy S) (expected.subst S) := by
  rw [← hΓ.env_subst hs] at h
  obtain ⟨U₂, hs₁, htyped⟩ := expect_sound (hΓ.after hs) hexpected h
  refine ⟨U₂, hs₁, fun S hS hS₁ => ?_⟩
  have htyped := htyped S hS₁
  rwa [Scope.subst_subst hS] at htyped

theorem expectEach_sound {es : List (Ty × Expr)} {typed : List TypedExpr} (hΓ : Γ.Ready U st)
    (hs : Solving U st s U₁ st₁) (hexpected : ∀ e ∈ es, e.1.Over U)
    (h : expectEach Γ.env s es st₁ = .ok (typed, s₁) st₂) :
    ∃ U₂, Solving U st s₁ U₂ st₂ ∧ ∀ S : Subst, S.Absorbs s₁ → S.Absorbs s ∧
      List.Forall₂ (fun e typed => HasTy (Γ.subst S) (typed.substTy S) (e.1.subst S)) es typed := by
  induction es generalizing s U₁ st₁ typed with
  | nil =>
    cases h
    exact ⟨U₁, hs, fun S hS => ⟨hS, .nil⟩⟩
  | cons e es ih =>
    obtain ⟨expected, e⟩ := e
    obtain ⟨hover, hothers⟩ := List.forall_mem_cons.1 hexpected
    obtain ⟨⟨typed', s₂⟩, st₃, h₁, h⟩ := EStateM.ok_of_bind h
    obtain ⟨⟨others, s₃⟩, st₄, h₂, h⟩ := EStateM.ok_of_bind h
    cases h
    obtain ⟨U₂, hs₂, htyped⟩ := expect_after hΓ hs (hs.over_subst hover) h₁
    obtain ⟨U₃, hs₃, htyped'⟩ := ih (hs.compose hs₂) hothers h₂
    refine ⟨U₃, hs₃, fun S hS => ?_⟩
    obtain ⟨hS₂, hall⟩ := htyped' S hS
    have hS₀ := hs.absorbs hs₂ hS₂
    have htyped := htyped S hS₀ hS₂.later
    rw [hS₀.subst] at htyped
    exact ⟨hS₀, .cons htyped hall⟩

theorem expectAll_sound {typed : List TypedExpr} (hΓ : Γ.Ready U st) (hexpected : expected.Over U)
    (h : expectAll Γ.env expected es st = .ok (typed, s) st') :
    ∃ U', Solving U st s U' st' ∧ ∀ S : Subst, S.Absorbs s →
      ∀ e ∈ typed, HasTy (Γ.subst S) (e.substTy S) (expected.subst S) := by
  have hstart : Solving U st ∅ U st := .of_maps (.empty U) hΓ.known
  obtain ⟨U', hs, htyped⟩ := expectEach_sound hΓ hstart (by simpa using fun _ _ => hexpected) h
  refine ⟨U', hs, fun S hS => ?_⟩
  have hall := (htyped S hS).2
  rw [List.forall₂_map_left_iff] at hall
  exact forall_mem_of_forall₂ hall fun _ _ h => h

theorem expectAll_after {typed : List TypedExpr} (hΓ : Γ.Ready U st) (hs : Solving U st s U₁ st₁)
    (hexpected : expected.Over U₁)
    (h : expectAll (Γ.env.subst s) expected es st₁ = .ok (typed, s₁) st₂) :
    ∃ U₂, Solving U₁ st₁ s₁ U₂ st₂ ∧ ∀ S : Subst, S.Absorbs s → S.Absorbs s₁ →
      ∀ e ∈ typed, HasTy (Γ.subst S) (e.substTy S) (expected.subst S) := by
  rw [← hΓ.env_subst hs] at h
  obtain ⟨U₂, hs₁, htyped⟩ := expectAll_sound (hΓ.after hs) hexpected h
  refine ⟨U₂, hs₁, fun S hS hS₁ => ?_⟩
  have htyped := htyped S hS₁
  rwa [Scope.subst_subst hS] at htyped

theorem expectOption_sound {e : Option Expr} {typed : Option TypedExpr} (hΓ : Γ.Ready U st)
    (hexpected : expected.Over U) (h : expectOption Γ.env expected e st = .ok (typed, s) st') :
    ∃ U', Solving U st s U' st' ∧ ∀ S : Subst, S.Absorbs s →
      ∀ e ∈ typed, HasTy (Γ.subst S) (e.substTy S) (expected.subst S) := by
  cases e with
  | none =>
    cases h
    exact ⟨U, .of_maps (.empty U) hΓ.known, by simp⟩
  | some e =>
    obtain ⟨⟨typed', s₁⟩, st₁, h₁, h⟩ := EStateM.ok_of_bind h
    cases h
    obtain ⟨U', hs, htyped⟩ := expect_sound hΓ hexpected h₁
    refine ⟨U', hs, fun S hS e he => ?_⟩
    cases he
    exact htyped S hS

theorem expectOption_after {e : Option Expr} {typed : Option TypedExpr} (hΓ : Γ.Ready U st)
    (hs : Solving U st s U₁ st₁) (hexpected : expected.Over U₁)
    (h : expectOption (Γ.env.subst s) expected e st₁ = .ok (typed, s₁) st₂) :
    ∃ U₂, Solving U₁ st₁ s₁ U₂ st₂ ∧ ∀ S : Subst, S.Absorbs s → S.Absorbs s₁ →
      ∀ e ∈ typed, HasTy (Γ.subst S) (e.substTy S) (expected.subst S) := by
  rw [← hΓ.env_subst hs] at h
  obtain ⟨U₂, hs₁, htyped⟩ := expectOption_sound (hΓ.after hs) hexpected h
  refine ⟨U₂, hs₁, fun S hS hS₁ => ?_⟩
  have htyped := htyped S hS₁
  rwa [Scope.subst_subst hS] at htyped

end Expr

end GuardedCommands
