import GuardedCommands.Proofs.InferenceCompleteness
import GuardedCommands.Proofs.Substitution

/-!
# Substitution keeps expressions well typed

An expression stays well typed when expressions of the types of its names are put in
their place.  The type of a replacement may differ from the type of the name in that
one has an array where the other has a function, so a subexpression gets another type,
but an equivalent one.  Binders are renamed on the way, and a new binder has the type
of the old one.
-/

namespace GuardedCommands

open TypedExpr (binderNames)

theorem Ty.func_congr {a b c d : Ty} (h : a ≈ c) (h' : b ≈ d) : Ty.func a b ≈ .func c d :=
  equiv_func.2 ⟨h, h'⟩

/-! ## Scopes that give names the same types -/

namespace Scope

variable {Γ Δ : Scope} {bs : List Binder} {x : String} {t : Ty}

theorem gives_bindAll_of_not_mem (hx : x ∉ binderNames bs) :
    (Γ.bindAll bs).Gives x t ↔ Γ.Gives x t := by
  induction bs generalizing Γ with
  | nil => exact Iff.rfl
  | cons b bs ih =>
    have hxb : x ≠ b.name.text := fun h => hx (h ▸ List.mem_cons_self)
    have hxbs : x ∉ binderNames bs := fun h => hx (List.mem_cons_of_mem _ h)
    exact (ih (Γ := Γ.bind b.name b.ty) hxbs).trans (by rw [gives_bind, if_neg hxb])

theorem gives_bindAll_of_mem (τ : Valuation Ty) (hx : x ∈ binderNames bs) :
    (Γ.bindAll bs).Gives x t ↔ t = τ.bindAll (binderNames bs) (bs.map (·.ty)) x := by
  induction bs generalizing Γ τ with
  | nil => cases hx
  | cons b bs ih =>
    by_cases hxbs : x ∈ binderNames bs
    · exact ih (Γ := Γ.bind b.name b.ty) (Function.update τ b.name.text b.ty) hxbs
    · have hxb : x = b.name.text := (List.mem_cons.1 hx).resolve_right hxbs
      have hgives := gives_bindAll_of_not_mem (Γ := Γ.bind b.name b.ty) (t := t) hxbs
      rw [gives_bind, if_pos hxb] at hgives
      subst hxb
      exact hgives.trans (by rw [List.map_cons, binderNames, List.map_cons,
        Valuation.bindAll_head hxbs])

/-- `Δ` lets some names be used at all types at which `Γ` does. -/
def Passes (Γ Δ : Scope) (names : NameSet) : Prop := ∀ x ∈ names, ∀ t, Γ.Gives x t → Δ.Gives x t

theorem passes_union {names others : NameSet} :
    Passes Γ Δ (names ∪ others) ↔ Passes Γ Δ names ∧ Passes Γ Δ others := by
  simp only [Passes, NameSet.mem_union, or_imp, forall_and]

theorem Passes.bindAll {names : NameSet} (bs : List Binder)
    (h : ∀ x ∈ names, x ∉ binderNames bs → ∀ t, Γ.Gives x t → Δ.Gives x t) :
    Passes (Γ.bindAll bs) (Δ.bindAll bs) names := by
  intro x hx t ht
  by_cases hxbs : x ∈ binderNames bs
  · rwa [gives_bindAll_of_mem (fun _ => t) hxbs] at ht ⊢
  · rw [gives_bindAll_of_not_mem hxbs] at ht ⊢
    exact h x hx hxbs t ht

end Scope

namespace TypedExpr

/-! ## Names of well-typed expressions -/

mutual

theorem WellTyped.gives {Γ : Scope} {e : TypedExpr} {x : String} :
    e.WellTyped Γ → x ∈ e.freeVars → ∃ t, Γ.Gives x t
  | .lit _, hx | .arith _, hx | .comparison _, hx => by simp [freeVars] at hx
  | .var h, hx | .const h, hx => by
    rw [freeVars, NameSet.mem_singleton] at hx
    exact ⟨_, hx ▸ h⟩
  | .chain hhead hlinks _, hx => by
    rw [freeVars, NameSet.mem_union] at hx
    exact hx.elim hhead.gives hlinks.gives
  | .app hf ha _, hx | .index hf ha _, hx => by
    rw [freeVars, NameSet.mem_union] at hx
    exact hx.elim hf.gives ha.gives
  | .lam hbody _, hx => by
    rw [freeVars, NameSet.mem_erase] at hx
    obtain ⟨t, ht⟩ := hbody.gives hx.1
    rw [Scope.gives_bind, if_neg hx.2] at ht
    exact ⟨t, ht⟩
  | .count _ hq hrange _ hbody _ _, hx | .fold _ hq _ hrange _ hbody _ _, hx => by
    rw [freeVars, NameSet.mem_union, NameSet.mem_sdiff, NameSet.mem_union,
      NameSet.mem_ofList] at hx
    rcases hx with hx | ⟨hx, hbound⟩
    · exact hq.gives hx
    · obtain ⟨t, ht⟩ := hx.elim hrange.gives hbody.gives
      exact ⟨t, (Scope.gives_bindAll_of_not_mem hbound).1 ht⟩
  | .update ha hi hv _ _, hx => by
    rw [freeVars, NameSet.mem_union, NameSet.mem_union] at hx
    exact hx.elim (fun hx => hx.elim ha.gives hi.gives) hv.gives

theorem LinksTyped.gives {Γ : Scope} {left : Ty} {links : List (TypedLink TypedExpr)}
    {x : String} : LinksTyped Γ left links → x ∈ freeVarsLinks links → ∃ t, Γ.Gives x t
  | .nil, hx => by simp [freeVarsLinks] at hx
  | .cons hrhs _ _ hlinks, hx => by
    rw [freeVarsLinks, NameSet.mem_union] at hx
    exact hx.elim hrhs.gives hlinks.gives

end

mutual

theorem WellTyped.passes {Γ Δ : Scope} {e : TypedExpr} :
    e.WellTyped Γ → Γ.Passes Δ e.freeVars → e.WellTyped Δ
  | .lit h, _ => .lit h
  | .arith h, _ => .arith h
  | .comparison h, _ => .comparison h
  | .var h, hΔ => .var (hΔ _ (NameSet.mem_singleton.2 rfl) _ h)
  | .const h, hΔ => .const (hΔ _ (NameSet.mem_singleton.2 rfl) _ h)
  | .chain hhead hlinks h, hΔ => by
    rw [freeVars, Scope.passes_union] at hΔ
    exact .chain (hhead.passes hΔ.1) (hlinks.passes hΔ.2) h
  | .app hf ha h, hΔ => by
    rw [freeVars, Scope.passes_union] at hΔ
    exact .app (hf.passes hΔ.1) (ha.passes hΔ.2) h
  | .index ha hi h, hΔ => by
    rw [freeVars, Scope.passes_union] at hΔ
    exact .index (ha.passes hΔ.1) (hi.passes hΔ.2) h
  | .lam (b := b) hbody h, hΔ =>
    .lam (hbody.passes (Scope.Passes.bindAll [b] fun x hx hbound =>
      hΔ x (NameSet.mem_erase.2 ⟨hx, fun h => hbound (List.mem_singleton.2 h)⟩))) h
  | .count hcounts hq hrange hbool hbody hprop h, hΔ => by
    rw [freeVars, Scope.passes_union] at hΔ
    have hinner := Scope.passes_union.1 (Scope.Passes.bindAll _ fun x hx hbound =>
      hΔ.2 x (NameSet.mem_sdiff.2 ⟨hx, fun h => hbound (NameSet.mem_ofList.1 h)⟩))
    exact .count hcounts (hq.passes hΔ.1) (hrange.passes hinner.1) hbool
      (hbody.passes hinner.2) hprop h
  | .fold hcounts hq hop hrange hbool hbody hvalue h, hΔ => by
    rw [freeVars, Scope.passes_union] at hΔ
    have hinner := Scope.passes_union.1 (Scope.Passes.bindAll _ fun x hx hbound =>
      hΔ.2 x (NameSet.mem_sdiff.2 ⟨hx, fun h => hbound (NameSet.mem_ofList.1 h)⟩))
    exact .fold hcounts (hq.passes hΔ.1) hop (hrange.passes hinner.1) hbool
      (hbody.passes hinner.2) hvalue h
  | .update ha hi hv harray h, hΔ => by
    rw [freeVars, Scope.passes_union, Scope.passes_union] at hΔ
    exact .update (ha.passes hΔ.1.1) (hi.passes hΔ.1.2) (hv.passes hΔ.2) harray h

theorem LinksTyped.passes {Γ Δ : Scope} {left : Ty} {links : List (TypedLink TypedExpr)} :
    LinksTyped Γ left links → Γ.Passes Δ (freeVarsLinks links) → LinksTyped Δ left links
  | .nil, _ => .nil
  | .cons hrhs hop h hlinks, hΔ => by
    rw [freeVarsLinks, Scope.passes_union] at hΔ
    exact .cons (hrhs.passes hΔ.1) hop h (hlinks.passes hΔ.2)

end

variable {Γ Δ : Scope} {e q : TypedExpr}

theorem HasTy.passes {t : Ty} (h : e.HasTy Γ t) (hΔ : Γ.Passes Δ e.freeVars) : e.HasTy Δ t :=
  ⟨h.1.passes hΔ, h.2⟩

/-! ## Types of new binders -/

section Binders

variable {captured : NameSet} {bs : List Binder} {avoid : NameSet} {inner : ExprSubst}

theorem types_renameBinders :
    (renameBinders captured bs avoid inner).binders.map (·.ty) = bs.map (·.ty) := by
  induction bs generalizing avoid inner with
  | nil => rfl
  | cons b bs ih =>
    unfold renameBinders
    split <;> simp [ih]

variable {d : TypedExpr}

theorem ty_renameBinders (hinner : ∀ x ∈ binderNames bs, x ∉ captured → inner.get? x = none)
    {x : String} (hx : x ∈ binderNames bs)
    (hd : (renameBinders captured bs avoid inner).inner.get? x = some d) (τ : Valuation Ty) :
    d.ty = τ.bindAll (binderNames bs) (bs.map (·.ty)) x := by
  induction bs generalizing avoid inner τ with
  | nil => cases hx
  | cons b bs ih =>
    unfold renameBinders at hd
    split at hd
    · next hcap =>
      by_cases hxbs : x ∈ binderNames bs
      · refine ih (fun z hz hnot => ?_) hxbs hd (Function.update τ b.name.text b.ty)
        have hne : z ≠ b.name.text := fun h => hnot (h ▸ hcap)
        rw [NameMap.get?_insert, if_neg hne]
        exact hinner z (List.mem_cons_of_mem _ hz) hnot
      · have hxb : x = b.name.text := (List.mem_cons.1 hx).resolve_right hxbs
        rw [get?_renameBinders_of_not_mem hxbs, NameMap.get?_insert, if_pos hxb] at hd
        cases hd
        subst hxb
        exact (Valuation.bindAll_head hxbs).symm
    · next hcap =>
      by_cases hxbs : x ∈ binderNames bs
      · exact ih (fun z hz => hinner z (List.mem_cons_of_mem _ hz)) hxbs hd
          (Function.update τ b.name.text b.ty)
      · have hxb : x = b.name.text := (List.mem_cons.1 hx).resolve_right hxbs
        rw [get?_renameBinders_of_not_mem hxbs, hinner x hx (hxb ▸ hcap)] at hd
        cases hd

theorem types_underBinders (s : ExprSubst) (bs : List Binder) (free : NameSet) :
    (underBinders s bs free).binders.map (·.ty) = bs.map (·.ty) := by
  unfold underBinders
  dsimp only
  split
  · rfl
  · exact types_renameBinders

theorem ty_underBinders {s : ExprSubst} {free : NameSet} {x : String} (hx : x ∈ binderNames bs)
    (hd : (underBinders s bs free).inner.get? x = some d) (τ : Valuation Ty) :
    d.ty = τ.bindAll (binderNames bs) (bs.map (·.ty)) x := by
  unfold underBinders at hd
  dsimp only at hd
  split at hd
  · simp at hd
  · refine ty_renameBinders (fun z hz _ => ?_) hx hd τ
    simp only [NameMap.get?_filterKeys, NameSet.contains, NameSet.mem_ofList, hz]
    simp

end Binders

/-! ## Substitution -/

/-- A substitution leads from a scope to another, for expressions with some free names:
replacements have the types of the names they are for, and names that are left are used
as before. -/
structure Fits (s : ExprSubst) (free : NameSet) (Γ Δ : Scope) : Prop where
  kept : ∀ x ∈ free, s.get? x = none → ∀ t, Γ.Gives x t → Δ.Gives x t
  put : ∀ x ∈ free, ∀ d, s.get? x = some d → ∀ t, Γ.Gives x t → d.HasTy Δ t

section Substitution

variable {Γ Δ : Scope} {s : ExprSubst} {free : NameSet} {bs : List Binder}

theorem fits_union {names others : NameSet} :
    Fits s (names ∪ others) Γ Δ ↔ Fits s names Γ Δ ∧ Fits s others Γ Δ := by
  constructor
  · intro h
    exact ⟨⟨fun x hx => h.kept x (NameSet.mem_union.2 (.inl hx)),
        fun x hx => h.put x (NameSet.mem_union.2 (.inl hx))⟩,
      ⟨fun x hx => h.kept x (NameSet.mem_union.2 (.inr hx)),
        fun x hx => h.put x (NameSet.mem_union.2 (.inr hx))⟩⟩
  · rintro ⟨h, h'⟩
    exact ⟨fun x hx => (NameSet.mem_union.1 hx).elim (h.kept x) (h'.kept x),
      fun x hx => (NameSet.mem_union.1 hx).elim (h.put x) (h'.put x)⟩

theorem fits_bound {x : String} (hx : x ∈ binderNames bs) {t : Ty}
    (ht : (Γ.bindAll bs).Gives x t) :
    ((underBinders s bs free).inner.get? x = none →
        (Δ.bindAll (underBinders s bs free).binders).Gives x t) ∧
      ∀ d, (underBinders s bs free).inner.get? x = some d →
        d.HasTy (Δ.bindAll (underBinders s bs free).binders) t := by
  have hty : t = Valuation.bindAll (fun _ => t) (binderNames bs) (bs.map (·.ty)) x :=
    (Scope.gives_bindAll_of_mem _ hx).1 ht
  obtain ⟨y, hy, ⟨hread⟩, hvalue⟩ := (underBinders_faithful.{0} s bs free).inside x hx
  have hgives : (Δ.bindAll (underBinders s bs free).binders).Gives y t := by
    rw [Scope.gives_bindAll_of_mem (fun _ => t) hy, types_underBinders,
      hvalue (fun _ => t) (fun _ => t) _ (by simp)]
    exact hty
  constructor
  · intro hnone
    rcases hread with ⟨-, rfl⟩ | ⟨loc, u, hsome⟩
    · exact hgives
    · rw [hnone] at hsome
      cases hsome
  · intro d hd
    rcases hread with ⟨hnone, -⟩ | ⟨loc, u, hsome⟩
    · rw [hnone] at hd
      cases hd
    · have hu : d.ty = t := (ty_underBinders hx hd (fun _ => t)).trans hty.symm
      rw [hsome] at hd
      cases hd
      cases hu
      exact ⟨.var hgives, Setoid.refl _⟩

theorem Fits.under {outer : NameSet} (h : Fits s outer Γ Δ) (bs : List Binder) (free : NameSet)
    (hsub : ∀ x ∈ free, x ∉ binderNames bs → x ∈ outer) :
    Fits (underBinders s bs free).inner free (Γ.bindAll bs)
      (Δ.bindAll (underBinders s bs free).binders) := by
  have hu := underBinders_faithful.{0} s bs free
  constructor
  · intro x hx hnone t ht
    by_cases hxbs : x ∈ binderNames bs
    · exact (fits_bound hxbs ht).1 hnone
    · rw [hu.outside x hx hxbs] at hnone
      rw [Scope.gives_bindAll_of_not_mem hxbs] at ht
      exact (Scope.gives_bindAll_of_not_mem (hu.notFree x hx hxbs)).2
        (h.kept x (hsub x hx hxbs) hnone t ht)
  · intro x hx d hd t ht
    by_cases hxbs : x ∈ binderNames bs
    · exact (fits_bound hxbs ht).2 d hd
    · rw [hu.outside x hx hxbs] at hd
      rw [Scope.gives_bindAll_of_not_mem hxbs] at ht
      exact (h.put x (hsub x hx hxbs) d hd t ht).passes fun z hz u =>
        (Scope.gives_bindAll_of_not_mem (hu.notCaptured x hx hxbs d hd z hz)).2

end Substitution

theorem WellTyped.not_isHash {a : Ty} (hq : q.WellTyped Γ) (h : q.ty ≈ .funcs [a, a] a) :
    q.erase.isHash = false := by
  cases hhash : q.erase.isHash with
  | false => rfl
  | true =>
    cases hq with
    | @arith _ o t loc ht =>
      cases o with
      | hash =>
        have hint : Ty.int ≈ .func a a := (Ty.equiv_func.1 (Setoid.trans (Setoid.symm ht) h)).2
        exact absurd (Ty.equiv_iff_canonical.1 hint) (by simp [Ty.int, Ty.func, Ty.canonical])
      | _ => simp [erase, Expr.isHash] at hhash
    | _ => simp [erase, Expr.isHash] at hhash

theorem substitute_of_isHash (h : q.erase.isHash = true) (s : ExprSubst) : q.substitute s = q := by
  cases q with
  | op => rfl
  | _ => simp [erase, Expr.isHash] at h

mutual

/-- An expression keeps its type, up to arrays and functions. -/
theorem WellTyped.substitute {Γ Δ : Scope} {s : ExprSubst} {e : TypedExpr} :
    e.WellTyped Γ → Fits s e.freeVars Γ Δ → (e.substitute s).HasTy Δ e.ty
  | .lit h, _ => ⟨.lit h, Setoid.refl _⟩
  | .arith h, _ => ⟨.arith h, Setoid.refl _⟩
  | .comparison h, _ => ⟨.comparison h, Setoid.refl _⟩
  | .var (x := x) h, hs => by
    rw [TypedExpr.substitute]
    cases hx : s.get? x.text with
    | none => exact ⟨.var (hs.kept _ (NameSet.mem_singleton.2 rfl) hx _ h), Setoid.refl _⟩
    | some d => exact hs.put _ (NameSet.mem_singleton.2 rfl) d hx _ h
  | .const (x := x) h, hs => by
    rw [TypedExpr.substitute]
    cases hx : s.get? x.text with
    | none => exact ⟨.const (hs.kept _ (NameSet.mem_singleton.2 rfl) hx _ h), Setoid.refl _⟩
    | some d => exact hs.put _ (NameSet.mem_singleton.2 rfl) d hx _ h
  | .chain hhead hlinks h, hs => by
    rw [freeVars, fits_union] at hs
    have hhead := hhead.substitute hs.1
    exact ⟨.chain hhead.1 (hlinks.substitute hhead.2 hs.2) h, Setoid.refl _⟩
  | .app hf ha h, hs => by
    rw [freeVars, fits_union] at hs
    have hf := hf.substitute hs.1
    have ha := ha.substitute hs.2
    exact ⟨.app hf.1 ha.1 (hf.2.trans (h.trans (Ty.func_congr ha.2.symm (Setoid.refl _)))),
      Setoid.refl _⟩
  | .index ha hi h, hs => by
    rw [freeVars, fits_union] at hs
    have ha := ha.substitute hs.1
    have hi := hi.substitute hs.2
    exact ⟨.index ha.1 hi.1 (ha.2.trans (h.trans (Ty.func_congr hi.2.symm (Setoid.refl _)))),
      Setoid.refl _⟩
  | @WellTyped.lam _ b body _ _ hbody h, hs => by
    have hinner := hs.under [b] body.freeVars fun x hx hbound =>
      NameSet.mem_erase.2 ⟨hx, fun h => hbound (List.mem_singleton.2 h)⟩
    have htypes := types_underBinders s [b] body.freeVars
    have hbody := hbody.substitute hinner
    obtain ⟨b', hb'⟩ := List.length_eq_one_iff.1 (by simpa using congrArg List.length htypes)
    rw [hb'] at htypes hbody
    have hb : b'.ty = b.ty := by simpa using htypes
    rw [TypedExpr.substitute, hb']
    exact ⟨.lam hbody.1 (h.trans (Ty.func_congr (hb ▸ Setoid.refl _) hbody.2.symm)),
      Setoid.refl _⟩
  | .count hcounts hq hrange hbool hbody hprop h, hs => by
    rw [freeVars, fits_union] at hs
    have hinner := fits_union.1 (hs.2.under _ _ fun x hx hbound =>
      NameSet.mem_sdiff.2 ⟨hx, fun h => hbound (NameSet.mem_ofList.1 h)⟩)
    have hrange := hrange.substitute hinner.1
    have hbody := hbody.substitute hinner.2
    refine ⟨.count ?_ (hq.substitute hs.1).1 hrange.1 (hrange.2.trans hbool) hbody.1
      (hbody.2.trans hprop) h, Setoid.refl _⟩
    rw [substitute_of_isHash hcounts]
    exact hcounts
  | .fold hcounts hq hop hrange hbool hbody hvalue h, hs => by
    rw [freeVars, fits_union] at hs
    have hinner := fits_union.1 (hs.2.under _ _ fun x hx hbound =>
      NameSet.mem_sdiff.2 ⟨hx, fun h => hbound (NameSet.mem_ofList.1 h)⟩)
    have hq := hq.substitute hs.1
    have hrange := hrange.substitute hinner.1
    have hbody := hbody.substitute hinner.2
    have hop := hq.2.trans hop
    exact ⟨.fold (hq.1.not_isHash hop) hq.1 hop hrange.1 (hrange.2.trans hbool) hbody.1
      (hvalue.trans hbody.2.symm) h, Setoid.refl _⟩
  | .update ha hi hv harray h, hs => by
    rw [freeVars, fits_union, fits_union] at hs
    have ha := ha.substitute hs.1.1
    have hi := hi.substitute hs.1.2
    have hv := hv.substitute hs.2
    exact ⟨.update ha.1 hi.1 hv.1
      (ha.2.trans (harray.trans (Ty.func_congr hi.2.symm hv.2.symm))) (h.trans ha.2.symm),
      Setoid.refl _⟩

theorem LinksTyped.substitute {Γ Δ : Scope} {s : ExprSubst} {left left' : Ty}
    {links : List (TypedLink TypedExpr)} :
    LinksTyped Γ left links → left' ≈ left → Fits s (freeVarsLinks links) Γ Δ →
      LinksTyped Δ left' (substituteLinks s links)
  | .nil, _, _ => .nil
  | .cons hrhs hop h hlinks, hleft, hs => by
    rw [freeVarsLinks, fits_union] at hs
    have hrhs := hrhs.substitute hs.1
    exact .cons hrhs.1 hop (h.trans (Ty.func_congr hleft.symm
      (Ty.func_congr hrhs.2.symm (Setoid.refl _)))) (hlinks.substitute hrhs.2 hs.2)

end

theorem HasTy.substitute {s : ExprSubst} {t : Ty} (h : e.HasTy Γ t) (hs : Fits s e.freeVars Γ Δ) :
    (e.substitute s).HasTy Δ t :=
  have he := h.1.substitute hs
  ⟨he.1, he.2.trans h.2⟩

theorem HasTy.substitute_singleton {x : String} {d : TypedExpr} {t : Ty} (h : e.HasTy Γ t)
    (hΔ : Γ.Passes Δ e.freeVars) (hd : ∀ u, Γ.Gives x u → d.HasTy Δ u) :
    (e.substitute (.singleton x d)).HasTy Δ t := by
  refine h.substitute ⟨fun y hy _ => hΔ y hy, fun y _ d' hd' u hu => ?_⟩
  rw [NameMap.get?_singleton] at hd'
  split at hd'
  · next hy =>
    cases hd'
    exact hd u (hy ▸ hu)
  · cases hd'

end TypedExpr

end GuardedCommands
