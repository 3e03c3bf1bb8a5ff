import GuardedCommands.Proofs.StatementTyping

/-!
# Elaborated functions are well typed

The functions of a program are elaborated together.  Each has a metavariable for a
placeholder, so the bodies are typed in a scope in which every function has one
fixed type.  When all bodies are done, the metavariables that are left in the types
of the functions become rigid variables, a new one for each: the types are closed,
and they are what the placeholders stand for.
-/

namespace GuardedCommands

open Ty (Subst)

open ElaborationM

open TypedExpr (HasTy)

namespace Ty

/-! ## Sorts of variables -/

/-- The metavariables of a type are from `M`, and its rigid variables are not named like
metavariables. -/
def Sorted (M : Set String) : Ty → Prop
  | .rigid n => n.text ∉ metaNames
  | .metavar n => n.text ∈ M
  | .array _ t _ => t.Sorted M
  | .app f a _ => f.Sorted M ∧ a.Sorted M
  | .base .. | .tuple .. | .arrow _ | .data _ => True

variable {t : Ty} {s : Subst} {M U : Set String}

theorem Over.sorted (h : t.Over U) (hU : U ⊆ M) : t.Sorted M := by
  induction t with
  | rigid n => exact h.elim
  | metavar n => exact hU h
  | array i t l ih => exact ih h
  | app f a l ihf iha => exact ⟨ihf h.1, iha h.2⟩
  | base | tuple | arrow | data => trivial

theorem Sorted.mem (h : t.Sorted M) : ∀ x ∈ t.metavars, x ∈ M := by
  induction t with
  | metavar n =>
    intro x hx
    rw [NameSet.mem_singleton.1 hx]
    exact h
  | array i t l ih => exact ih h
  | app f a l ihf iha =>
    intro x hx
    rcases NameSet.mem_union.1 hx with hx | hx
    · exact ihf h.1 x hx
    · exact iha h.2 x hx
  | rigid | base | tuple | arrow | data => simp [metavars]

theorem Sorted.subst (h : t.Sorted M) (hs : ∀ x u, s.get? x = some u → u.Sorted M) :
    (t.subst s).Sorted M := by
  induction t with
  | rigid n | metavar n =>
    cases hn : s.get? n.text with
    | none => simpa [Ty.subst, hn] using h
    | some u => simpa [Ty.subst, hn] using hs _ _ hn
  | array i t l ih => exact ih h
  | app f a l ihf iha => exact ⟨ihf h.1, iha h.2⟩
  | base | tuple | arrow | data => trivial

theorem Sorted.closed_subst (h : t.Sorted M) (hdom : ∀ x u, s.get? x = some u → x ∈ metaNames)
    (hs : ∀ x ∈ t.metavars, ∃ a, s.get? x = some (.rigid a) ∧ a.text ∉ metaNames) :
    (t.subst s).Closed := by
  induction t with
  | rigid n =>
    cases hn : s.get? n.text with
    | none =>
      have hsame : (rigid n).subst s = .rigid n := by simp [Ty.subst, hn]
      rw [hsame]
      exact h
    | some u => exact absurd (hdom _ _ hn) h
  | metavar n =>
    obtain ⟨a, ha, hname⟩ := hs n.text (by simp [metavars])
    have hrigid : (metavar n).subst s = .rigid a := by simp [Ty.subst, ha]
    rw [hrigid]
    exact hname
  | array i t l ih => exact ih h hs
  | app f a l ihf iha =>
    exact ⟨ihf h.1 fun x hx => hs x (NameSet.mem_union.2 (.inl hx)),
      iha h.2 fun x hx => hs x (NameSet.mem_union.2 (.inr hx))⟩
  | base | tuple | arrow | data => trivial

theorem Closed.metavars_eq (h : t.Closed) : t.metavars = ∅ := by
  have hnone : ∀ x, x ∉ t.metavars := by
    induction t with
    | metavar n => exact h.elim
    | array i t l ih => exact ih h
    | app f a l ihf iha =>
      intro x hx
      rcases NameSet.mem_union.1 hx with hx | hx
      · exact ihf h.1 x hx
      · exact iha h.2 x hx
    | rigid | base | tuple | arrow | data => simp [metavars]
  cases hmetas : t.metavars with
  | mk names hsorted =>
    have hnil : names = [] := List.eq_nil_iff_forall_not_mem.2 fun x hx =>
      hnone x (hmetas ▸ hx)
    subst hnil
    rfl

theorem mem_metavars_subst {x : String} (h : x ∈ t.metavars) (hx : s.get? x = none) :
    x ∈ (t.subst s).metavars := by
  induction t with
  | metavar n =>
    have hn : x = n.text := by simpa [metavars] using h
    subst hn
    simp [Ty.subst, hx, metavars]
  | array i t l ih => exact ih h
  | app f a l ihf iha =>
    rcases NameSet.mem_union.1 h with h | h
    · exact NameSet.mem_union.2 (.inl (ihf h))
    · exact NameSet.mem_union.2 (.inr (iha h))
  | rigid | base | tuple | arrow | data => simp [metavars] at h

theorem metavars_subset_freeVars (t : Ty) : ∀ x ∈ t.metavars, x ∈ t.freeVars := by
  induction t with
  | metavar n => simp [metavars, freeVars]
  | array i t l ih => exact ih
  | app f a l ihf iha =>
    intro x hx
    rcases NameSet.mem_union.1 hx with hx | hx
    · exact NameSet.mem_union.2 (.inl (ihf x hx))
    · exact NameSet.mem_union.2 (.inr (iha x hx))
  | rigid | base | tuple | arrow | data => simp [metavars]

theorem metavars_canonical (t : Ty) (x : String) : x ∈ t.canonical.metavars ↔ x ∈ t.metavars := by
  induction t <;> simp_all [canonical, metavars, Name.bare]

theorem mem_metavars_of_equiv {u : Ty} (h : t ≈ u) {x : String} (hx : x ∈ t.metavars) :
    x ∈ u.metavars := by
  rw [← metavars_canonical] at hx ⊢
  rwa [← equiv_iff_canonical.1 h]

end Ty

/-! ## Making types general -/

abbrev rigidName (i : Nat) : Name := Supply.next ⟨i⟩ "a"

theorem rigidName_not_mem (i : Nat) : (rigidName i).text ∉ metaNames := by
  rintro ⟨j, hj⟩
  have hlist := congrArg String.toList hj
  simp [Supply.next, Name.bare] at hlist

theorem rigidName_injective {i j : Nat} (h : (rigidName i).text = (rigidName j).text) : i = j :=
  Nat.repr_injective ((String.append_right_inj _).1 h)

namespace ElaborationM

variable {st st' : ElaborationState}

theorem mapM_rigid_spec {f : String → ElaborationM (String × Ty)} {free : List String}
    {named : List (String × Ty)}
    (hf : ∀ x st, f x st = .ok (x, .rigid (rigidName st.supply.issued))
      { st with supply := st.supply.advance })
    (h : free.mapM f st = .ok named st') :
    st.Extends st' ∧ named.map (·.1) = free ∧
      (∀ e ∈ named, ∃ i, st.supply.issued ≤ i ∧ i < st'.supply.issued ∧
        e.2 = .rigid (rigidName i)) ∧
      named.Pairwise fun a b => a.2 ≠ b.2 := by
  induction free generalizing st named with
  | nil =>
    cases h
    exact ⟨.refl _, rfl, by simp, .nil⟩
  | cons x free ih =>
    rw [List.mapM_cons] at h
    obtain ⟨e, st₁, he, h⟩ := EStateM.ok_of_bind h
    obtain ⟨others, st₂, hothers, h⟩ := EStateM.ok_of_bind h
    rw [hf] at he
    cases h
    cases he
    obtain ⟨hext, hnames, hrigid, hpairwise⟩ := ih hothers
    have hlt : st.supply.issued < st'.supply.issued := hext.supply
    refine ⟨⟨hlt.le, hext.inProgress, hext.annotated⟩, by simp [hnames], ?_, ?_⟩
    · rw [List.forall_mem_cons]
      constructor
      · exact ⟨_, le_rfl, hlt, rfl⟩
      · intro e he
        obtain ⟨i, hi, hi', heq⟩ := hrigid e he
        exact ⟨i, (Nat.le_succ _).trans hi, hi', heq⟩
    · refine List.pairwise_cons.2 ⟨fun e he heq => ?_, hpairwise⟩
      obtain ⟨i, hi, -, heq'⟩ := hrigid e he
      rw [heq'] at heq
      have hsame := rigidName_injective (congrArg Name.text (Ty.rigid.inj heq))
      have hi : st.supply.issued + 1 ≤ i := hi
      omega

theorem generalize_spec {env : TypeEnv} {t : Ty} {g : Subst}
    (h : generalize env t st = .ok g st') :
    st.Extends st' ∧ (∀ x ∈ t.metavars, x ∉ env.freeVars → (g.get? x).isSome) ∧
      (∀ x u, g.get? x = some u → x ∈ t.metavars ∧
        ∃ i, st.supply.issued ≤ i ∧ i < st'.supply.issued ∧ u = .rigid (rigidName i)) ∧
      ∀ x y u, g.get? x = some u → g.get? y = some u → x = y := by
  obtain ⟨named, st₁, hnamed, h⟩ := EStateM.ok_of_bind h
  cases h
  obtain ⟨hext, hnames, hrigid, hpairwise⟩ := mapM_rigid_spec (fun _ _ => rfl) hnamed
  have hmem : ∀ x u, (NameMap.ofList named).get? x = some u → (x, u) ∈ named := fun x u hu =>
    List.mem_reverse.1 (NameMap.mem_of_lookup (NameMap.get?_ofList named x ▸ hu))
  refine ⟨hext, fun x hx hfree => ?_, fun x u hu => ⟨?_, ?_⟩, fun x y u hx hy => ?_⟩
  · have hx : x ∈ named.map (·.1) := hnames ▸ NameSet.mem_sdiff.2 ⟨hx, hfree⟩
    rw [NameMap.get?_ofList, ← Option.ne_none_iff_isSome, Ne, NameMap.lookup_eq_none]
    simpa using hx
  · have hx : x ∈ named.map (·.1) := List.mem_map.2 ⟨_, hmem x u hu, rfl⟩
    rw [hnames] at hx
    exact (NameSet.mem_sdiff.1 hx).1
  · exact hrigid _ (hmem x u hu)
  · by_contra hne
    have : Std.Symm fun a b : String × Ty => a.2 ≠ b.2 := ⟨fun _ _ h => h.symm⟩
    have hpair : (x, u) ≠ (y, u) := fun heq => hne (congrArg Prod.fst heq)
    exact hpairwise.forall (hmem x u hx) (hmem y u hy) hpair rfl

end ElaborationM

/-- `r` is `s`, with some of the metavariables of `M` that are left made rigid by names
issued before `n`. -/
structure Generalizes (M : Set String) (s r : Subst) (n : Nat) : Prop where
  known : M ⊆ metaNames
  metas : ∀ {x u}, r.get? x = some u → x ∈ M
  resolved : r.Resolved
  sorted : ∀ {x u}, r.get? x = some u → u.Sorted M
  named : ∀ {x u}, s.get? x = none → r.get? x = some u → ∃ i < n, u = .rigid (rigidName i)
  injective : ∀ {x y u}, s.get? x = none → s.get? y = none → r.get? x = some u →
    r.get? y = some u → x = y
  absorbed : ∀ {S : Subst}, S.Absorbs r → S.Absorbs s

namespace Generalizes

variable {M : Set String} {s r g : Subst} {n m : Nat}

theorem get?_rigidName (h : Generalizes M s r n) (i : Nat) : r.get? (rigidName i).text = none := by
  cases hi : r.get? (rigidName i).text with
  | none => rfl
  | some u => exact absurd (h.known (h.metas hi)) (rigidName_not_mem i)

theorem of_solving {U U' : Set String} {st st' : ElaborationState} (h : Solving U st s U' st')
    (n : Nat) : Generalizes (issued 0 st'.supply.issued) s s n where
  known := issued_subset_metaNames _ _
  metas := h.mem_issued
  resolved := h.maps.resolved
  sorted hu := (h.maps.solved hu).2.2.sorted h.finish
  named hx hu := by simp [hx] at hu
  injective hx _ hu := by simp [hx] at hu
  absorbed hS := hS

theorem compose {t : Ty} (h : Generalizes M s r n) (hnm : n ≤ m) (ht : (t.subst r).Sorted M)
    (hg : ∀ x u, g.get? x = some u → x ∈ (t.subst r).metavars ∧
      ∃ i, n ≤ i ∧ i < m ∧ u = .rigid (rigidName i))
    (hinjective : ∀ x y u, g.get? x = some u → g.get? y = some u → x = y) :
    (∀ x u, r.get? x = some u → g.get? x = none) ∧ Generalizes M s (g.compose r) m := by
  have hmetas : ∀ {x u}, g.get? x = some u → x ∈ M := fun {x u} hu => ht.mem x (hg x u hu).1
  have hdisjoint : ∀ x u, r.get? x = some u → g.get? x = none := by
    intro x u hu
    cases hx : g.get? x with
    | none => rfl
    | some v =>
      have hmem := Ty.metavars_subset_freeVars _ x (hg x v hx).1
      rw [h.resolved.get?_eq_none hmem] at hu
      cases hu
  have hname : ∀ i, g.get? (rigidName i).text = none := by
    intro i
    cases hi : g.get? (rigidName i).text with
    | none => rfl
    | some u => exact absurd (h.known (hmetas hi)) (rigidName_not_mem i)
  have hsame : ∀ i, (Ty.rigid (rigidName i)).subst g = .rigid (rigidName i) := by
    intro i
    simp [Ty.subst, hname i]
  refine ⟨hdisjoint, h.known, ?_, ?_, ?_, ?_, ?_, ?_⟩
  · intro x u hu
    rcases Subst.of_get?_compose hu with hu | ⟨v, hv, -⟩
    · exact hmetas hu
    · exact h.metas hv
  · have hnew : ∀ i, (g.compose r).get? (rigidName i).text = none := by
      intro i
      simp [hname i, h.get?_rigidName i]
    intro x u hu y hy
    rcases Subst.of_get?_compose hu with hu | ⟨v, hv, rfl⟩
    · obtain ⟨-, i, -, -, rfl⟩ := hg x u hu
      rw [NameSet.mem_singleton.1 hy]
      exact hnew i
    · rcases Ty.mem_freeVars_subst hy with ⟨hyv, hnone⟩ | ⟨z, w, hw, hyw⟩
      · simp [hnone, h.resolved x v hv y hyv]
      · obtain ⟨-, i, -, -, rfl⟩ := hg z w hw
        rw [NameSet.mem_singleton.1 hyw]
        exact hnew i
  · intro x u hu
    have hgsorted : ∀ x u, g.get? x = some u → u.Sorted M := by
      intro x u hu
      obtain ⟨-, i, -, -, rfl⟩ := hg x u hu
      exact rigidName_not_mem i
    rcases Subst.of_get?_compose hu with hu | ⟨v, hv, rfl⟩
    · exact hgsorted x u hu
    · exact (h.sorted hv).subst hgsorted
  · intro x u hx hu
    rcases Subst.of_get?_compose hu with hu | ⟨v, hv, rfl⟩
    · obtain ⟨-, i, -, hi, rfl⟩ := hg x u hu
      exact ⟨i, hi, rfl⟩
    · obtain ⟨i, hi, rfl⟩ := h.named hx hv
      exact ⟨i, hi.trans_le hnm, hsame i⟩
  · intro x y u hx hy hu hu'
    rcases Subst.of_get?_compose hu with hu | ⟨v, hv, rfl⟩
    · rcases Subst.of_get?_compose hu' with hu' | ⟨w, hw, heq⟩
      · exact hinjective x y u hu hu'
      · obtain ⟨-, i, hi, -, rfl⟩ := hg x u hu
        obtain ⟨j, hj, rfl⟩ := h.named hy hw
        rw [hsame] at heq
        have := rigidName_injective (congrArg Name.text (Ty.rigid.inj heq))
        omega
    · obtain ⟨i, hi, rfl⟩ := h.named hx hv
      rw [hsame] at hu'
      rcases Subst.of_get?_compose hu' with hu' | ⟨w, hw, heq⟩
      · obtain ⟨-, j, hj, -, heq⟩ := hg y _ hu'
        have := rigidName_injective (congrArg Name.text (Ty.rigid.inj heq))
        omega
      · obtain ⟨j, hj, rfl⟩ := h.named hy hw
        rw [hsame] at heq
        rw [← heq] at hw
        exact h.injective hx hy hv hw
  · intro S hS
    exact h.absorbed (hS.earlier hdisjoint)

end Generalizes

namespace Program

variable {M U U₁ : Set String} {st st' st₁ st₂ : ElaborationState} {s s' r : Subst}

structure SchemeOf (s s' : Subst) (placeholder scheme : Ty) : Prop where
  closed : scheme.Closed
  subst : ∀ S : Subst, S.Absorbs s' → scheme.subst S = placeholder.subst S
  rigid : ∀ x ∈ (placeholder.subst s).metavars, ∃ i, s'.get? x = some (.rigid (rigidName i))

variable {ps : List Pending} {Γ : Scope} {p : Pending} {s₁ : Subst} {st₃ : ElaborationState}
  {metas : List (String × Ty)} {skolems : List Skolems} {n : Nat} {fs : List FunctionType}

theorem generalizeAll_spec {ambient : TypeEnv} {schemes : List Ty}
    (hambient : ∀ x ∈ ambient.freeVars, x ∉ metaNames) (hs : s.Resolved)
    (hps : ∀ p ∈ ps, p.placeholder.Sorted M) (hr : Generalizes M s r st.supply.issued)
    (h : generalizeAll ambient r ps st = .ok (schemes, s') st') :
    st.Extends st' ∧ Generalizes M s s' st'.supply.issued ∧
      (∀ S : Subst, S.Absorbs s' → S.Absorbs r) ∧
      List.Forall₂ (fun p scheme => SchemeOf s s' p.placeholder scheme) ps schemes := by
  induction ps generalizing r st schemes with
  | nil =>
    cases h
    exact ⟨.refl _, hr, fun S hS => hS, .nil⟩
  | cons p ps ih =>
    obtain ⟨g, st₁, hg, h⟩ := EStateM.ok_of_bind h
    obtain ⟨⟨schemes', s''⟩, st₂, hrest, h⟩ := EStateM.ok_of_bind h
    cases h
    obtain ⟨hext, hsome, hrigid, hinjective⟩ := generalize_spec hg
    have hsorted : (p.placeholder.subst r).Sorted M :=
      (hps p (by simp)).subst fun x u hu => hr.sorted hu
    obtain ⟨hdisjoint, hgr⟩ := hr.compose hext.supply hsorted hrigid hinjective
    have hsolved : ∀ x ∈ (p.placeholder.subst r).metavars,
        ∃ i, g.get? x = some (.rigid (rigidName i)) := by
      intro x hx
      have hfree : x ∉ ambient.freeVars := fun hmem =>
        hambient x hmem (hr.known (hsorted.mem x hx))
      obtain ⟨u, hu⟩ := Option.isSome_iff_exists.1 (hsome x hx hfree)
      obtain ⟨-, i, -, -, rfl⟩ := hrigid x u hu
      exact ⟨i, hu⟩
    obtain ⟨hext', hgen, habsorbs, hschemes⟩ := ih (fun q hq => hps q (by simp [hq])) hgr hrest
    refine ⟨hext.trans hext', hgen, fun S hS => (habsorbs S hS).earlier hdisjoint,
      .cons ⟨?_, ?_, ?_⟩ hschemes⟩
    · apply hsorted.closed_subst
      · intro x u hu
        exact hr.known (hsorted.mem x (hrigid x u hu).1)
      · intro x hx
        obtain ⟨i, hi⟩ := hsolved x hx
        exact ⟨_, hi, rigidName_not_mem i⟩
    · intro S hS
      have hS := habsorbs S hS
      rw [hS.later.subst, (hS.earlier hdisjoint).subst]
    · -- the metavariable is made rigid now or has been before, and stays so
      intro x hx
      have hnow : ∃ i, (g.compose r).get? x = some (.rigid (rigidName i)) := by
        cases hx' : r.get? x with
        | some u =>
          have hnone := hs.get?_eq_none (Ty.metavars_subset_freeVars _ x hx)
          obtain ⟨i, -, rfl⟩ := hr.named hnone hx'
          have hname : g.get? (rigidName i).text = none := by
            have := hgr.get?_rigidName i
            simp only [Subst.get?_compose, Option.or_eq_none_iff] at this
            exact this.1
          exact ⟨i, by simp [hx', hdisjoint x _ hx', Ty.subst, hname]⟩
        | none =>
          have hmem := Ty.mem_metavars_subst hx hx'
          rw [(hr.absorbed hr.resolved.absorbs_self).subst] at hmem
          obtain ⟨i, hi⟩ := hsolved x hmem
          exact ⟨i, by simp [hi]⟩
      obtain ⟨i, hi⟩ := hnow
      have hfinal := habsorbs s' hgen.resolved.absorbs_self x _ hi
      rw [hfinal]
      exact ⟨i, by simp [Ty.subst, hgen.get?_rigidName i]⟩

/-! ## Bodies -/

theorem startFunctions_spec {ds : List Definition} (h : startFunctions ds st = .ok ps st') :
    st.supply.issued ≤ st'.supply.issued ∧ st'.context.annotated = st.context.annotated ∧
      (∀ x, x ∈ st'.inProgress ↔ x ∈ st.inProgress ∨ ∃ p ∈ ps, p.name.text = x) ∧
      ∀ p ∈ ps, p.placeholder.Over (issued st.supply.issued st'.supply.issued) := by
  fun_induction startFunctions ds generalizing st ps with
  | case1 =>
    cases h
    exact ⟨le_rfl, rfl, by simp, by simp⟩
  | case2 n body rest loc ds ih =>
    obtain ⟨t, st₁, ht, h⟩ := EStateM.ok_of_bind h
    obtain ⟨_, st₂, hmodify, h⟩ := EStateM.ok_of_bind h
    obtain ⟨ps', st₃, hps, h⟩ := EStateM.ok_of_bind h
    cases h
    cases hmodify
    obtain ⟨hext, hover⟩ := freshMeta_spec ht
    obtain ⟨hsupply, hannotated, hprogress, hplaceholders⟩ := ih hps
    refine ⟨hext.supply.trans hsupply, hannotated.trans hext.annotated, fun x => ?_,
      List.forall_mem_cons.2 ⟨?_, ?_⟩⟩
    · rw [hprogress, NameSet.mem_insert, hext.inProgress, eq_comm (a := x)]
      simp only [List.mem_cons, exists_eq_or_imp]
      tauto
    · exact hover.mono (issued_mono le_rfl hsupply)
    · exact fun p hp => (hplaceholders p hp).mono (issued_mono hext.supply le_rfl)
  | case3 d ds hd ih => exact ih h

theorem inferBody_sound {body : TypedExpr} {s₂ : Subst} (hΓ : Γ.Ready U st)
    (hs : Solving U st s U₁ st₁) (hp : p.placeholder.Over U)
    (h₁ : p.body.infer (Γ.env.subst s) st₁ = .ok (body, s₁) st₂)
    (h₂ : unify (p.placeholder.subst (s₁.compose s)) (body.ty.subst (s₁.compose s)) p.loc st₂ =
      .ok s₂ st₃) :
    ∃ U', Solving U st (s₂.compose (s₁.compose s)) U' st₃ ∧
      ∀ S : Subst, S.Absorbs (s₂.compose (s₁.compose s)) → S.Absorbs s ∧
        HasTy (Γ.subst S) (body.substTy S) (p.placeholder.subst S) := by
  obtain ⟨U₂, hs₁, hty, htyped⟩ := Expr.Sound.after (Expr.infer_sound p.body) hΓ hs h₁
  have hs₁' := hs.compose hs₁
  obtain ⟨U₃, hs₂, hequiv⟩ := unify_spec hs₁.finish (hs₁'.over_subst hp)
    (hs₁'.over_later hs₁' (.refl _) hty) h₂
  refine ⟨U₃, hs₁'.compose hs₂, fun S hS => ?_⟩
  have hS₁ := hs₁'.absorbs hs₂ hS
  have hS₀ := hs.absorbs hs₁ hS₁
  have hequiv := hequiv S hS.later
  rw [hS₁.subst, hS₁.subst] at hequiv
  refine ⟨hS₀, htyped S hS₀ hS₁.later, ?_⟩
  rw [TypedExpr.ty_substTy]
  exact Setoid.symm hequiv

/-- The metavariables in the places of the variables of a signature, when the signature has
been found to agree with a placeholder. -/
def Agrees (s : Subst) (signature placeholder : Ty) (k : Skolems) : Prop :=
  k.metas.map (·.1) = signature.rigidVars.toList ∧
    ∀ S : Subst, S.Absorbs s → (signature.subst (.ofList k.metas)).subst S ≈ placeholder.subst S

theorem matchSignature_sound {t t' : Ty} (ht : t.Closed) (hs : Solving U st s U₁ st₁)
    (hp : p.placeholder.Over U) (h₁ : skolemize t st₁ = .ok (t', metas) st₂)
    (h₂ : unify (t'.subst s) (p.placeholder.subst s) p.loc st₂ = .ok s₁ st₃) :
    ∃ U', Solving U st (s₁.compose s) U' st₃ ∧
      (∀ S : Subst, S.Absorbs (s₁.compose s) → S.Absorbs s) ∧
      Agrees (s₁.compose s) t p.placeholder ⟨metas, p.loc⟩ ∧
      ∀ e ∈ metas, e.2.Over metaNames := by
  obtain ⟨metas', st₄, hmetas, h₁⟩ := EStateM.ok_of_bind h₁
  cases h₁
  obtain ⟨hext, hover, -⟩ := freshMetas_instance ht hmetas
  have hs' := hs.extend hext
  obtain ⟨U₂, hs₁, hequiv⟩ := unify_spec hs'.finish (hs'.over_issued hs.supply le_rfl hover)
    (hs'.over_subst hp) h₂
  obtain ⟨-, hnames, hovers⟩ := freshMetas_spec hmetas
  refine ⟨U₂, hs'.compose hs₁, fun S hS => hs'.absorbs hs₁ hS, ⟨hnames, fun S hS => ?_⟩,
    fun e he => (hovers e he).mono (issued_subset_metaNames _ _)⟩
  have hequiv := hequiv S hS.later
  rwa [(hs'.absorbs hs₁ hS).subst, (hs'.absorbs hs₁ hS).subst] at hequiv

theorem inferBodies_sound {signatures : NameMap Ty} {bodies : List TypedExpr} (hΓ : Γ.Ready U st)
    (hsignatures : ∀ x t, signatures.get? x = some t → t.Closed) (hs : Solving U st s U₁ st₁)
    (hps : ∀ p ∈ ps, p.placeholder.Over U)
    (h : inferBodies signatures Γ.env s ps st₁ = .ok ((bodies, skolems), s') st₂) :
    ∃ U₂, Solving U st s' U₂ st₂ ∧ (∀ S : Subst, S.Absorbs s' → S.Absorbs s) ∧
      List.Forall₂ (fun p body => (∀ S : Subst, S.Absorbs s' →
          HasTy (Γ.subst S) (body.substTy S) (p.placeholder.subst S)) ∧
        ∀ t, signatures.get? p.name.text = some t →
          ∃ k ∈ skolems, Agrees s' t p.placeholder k) ps bodies ∧
      ∀ k ∈ skolems, (∀ e ∈ k.metas, e.2.Over metaNames) ∧
        ∃ p ∈ ps, ∃ t, signatures.get? p.name.text = some t ∧ Agrees s' t p.placeholder k := by
  induction ps generalizing s U₁ st₁ bodies skolems with
  | nil =>
    cases h
    exact ⟨U₁, hs, fun S hS => hS, .nil, by simp⟩
  | cons p ps ih =>
    rw [List.forall_mem_cons] at hps
    obtain ⟨⟨body, s₁⟩, st₃, h₁, h⟩ := EStateM.ok_of_bind h
    obtain ⟨s₂, st₄, h₂, h⟩ := EStateM.ok_of_bind h
    obtain ⟨U₂, hs₂, hbody⟩ := inferBody_sound hΓ hs hps.1 h₁ h₂
    cases hsignature : signatures.get? p.name.text with
    | none =>
      rw [hsignature] at h
      obtain ⟨⟨⟨bodies', skolems'⟩, s''⟩, st₅, h₃, h⟩ := EStateM.ok_of_bind h
      cases h
      obtain ⟨U₃, hs₃, habsorbs, hbodies, hskolems⟩ := ih hs₂ hps.2 h₃
      refine ⟨U₃, hs₃, fun S hS => (hbody S (habsorbs S hS)).1, .cons ⟨?_, ?_⟩ hbodies,
        fun k hk => ?_⟩
      · exact fun S hS => (hbody S (habsorbs S hS)).2
      · simp [hsignature]
      · obtain ⟨hmetas, q, hq, hk⟩ := hskolems k hk
        exact ⟨hmetas, q, List.mem_cons_of_mem p hq, hk⟩
    | some t =>
      rw [hsignature] at h
      obtain ⟨⟨t', metas⟩, st₅, h₃, h⟩ := EStateM.ok_of_bind h
      obtain ⟨s₃, st₆, h₄, h⟩ := EStateM.ok_of_bind h
      obtain ⟨⟨⟨bodies', skolems'⟩, s''⟩, st₇, h₅, h⟩ := EStateM.ok_of_bind h
      cases h
      obtain ⟨U₃, hs₃, hearlier, hagrees, hmetas⟩ :=
        matchSignature_sound (hsignatures _ t hsignature) hs₂ hps.1 h₃ h₄
      obtain ⟨U₄, hs₄, habsorbs, hbodies, hskolems⟩ := ih hs₃ hps.2 h₅
      have hbody := fun S hS => hbody S (hearlier S (habsorbs S hS))
      have hagrees : Agrees s' t p.placeholder ⟨metas, p.loc⟩ :=
        ⟨hagrees.1, fun S hS => hagrees.2 S (habsorbs S hS)⟩
      refine ⟨U₄, hs₄, fun S hS => (hbody S hS).1, .cons ⟨fun S hS => (hbody S hS).2, ?_⟩ ?_,
        List.forall_mem_cons.2 ⟨⟨hmetas, p, List.mem_cons_self .., t, hsignature, hagrees⟩, ?_⟩⟩
      · intro u hu
        obtain rfl : t = u := Option.some.inj (hsignature ▸ hu)
        exact ⟨_, List.mem_cons_self .., hagrees⟩
      · refine hbodies.imp fun q body hq => ⟨hq.1, fun u hu => ?_⟩
        obtain ⟨k, hk, hagrees⟩ := hq.2 u hu
        exact ⟨k, List.mem_cons_of_mem _ hk, hagrees⟩
      · intro k hk
        obtain ⟨hmetas, q, hq, hk⟩ := hskolems k hk
        exact ⟨hmetas, q, List.mem_cons_of_mem p hq, hk⟩

/-! ## Signatures -/

theorem check_spec {loc : Loc} {images : NameSet} (h : Skolems.check s loc images metas = .ok ()) :
    (∀ e ∈ metas, ∃ n, e.2.subst s = .metavar n ∧ n.text ∉ images) ∧
      metas.Pairwise fun a b => ∀ n m, a.2.subst s = .metavar n → b.2.subst s = .metavar m →
        n.text ≠ m.text := by
  induction metas generalizing images with
  | nil => exact ⟨by simp, .nil⟩
  | cons e rest ih =>
    obtain ⟨x, m⟩ := e
    unfold Skolems.check at h
    split at h
    · next n hn =>
      split at h
      · cases h
      · next hnew =>
        obtain ⟨hrest, hpairwise⟩ := ih h
        refine ⟨List.forall_mem_cons.2 ⟨⟨n, hn, hnew⟩, fun e he => ?_⟩,
          List.pairwise_cons.2 ⟨fun e he a b ha hb heq => ?_, hpairwise⟩⟩
        · obtain ⟨k, hk, hout⟩ := hrest e he
          exact ⟨k, hk, fun hin => hout (NameSet.mem_insert.2 (.inr hin))⟩
        · obtain ⟨k, hk, hout⟩ := hrest e he
          obtain rfl : n = a := Ty.metavar.inj (hn.symm.trans ha)
          obtain rfl : k = b := Ty.metavar.inj (hk.symm.trans hb)
          exact hout (NameSet.mem_insert.2 (.inl heq.symm))
    · cases h

theorem mem_metavars_instance {u : Ty} {θ : Subst} {x : String} {n : Name}
    (hx : x ∈ u.rigidVars) (hn : θ.get? x = some (.metavar n)) : n.text ∈ (u.subst θ).metavars := by
  induction u with
  | rigid m =>
    obtain rfl : x = m.text := by simpa [Ty.rigidVars] using hx
    simp [Ty.subst, hn, Ty.metavars]
  | array i t l ih => exact ih hx
  | app f a l ihf iha =>
    rcases NameSet.mem_union.1 hx with hx | hx
    · exact NameSet.mem_union.2 (.inl (ihf hx))
    · exact NameSet.mem_union.2 (.inr (iha hx))
  | metavar | base | tuple | arrow | data => simp [Ty.rigidVars] at hx

theorem isRenaming_of_agrees {signature placeholder scheme : Ty} {k : Skolems}
    (hgen : Generalizes M s s' n) (hs : s.Resolved) (hscheme : SchemeOf s s' placeholder scheme)
    (hsignature : signature.Closed) (hagrees : Agrees s signature placeholder k)
    (hcheck : k.checkGeneral s = .ok ()) : signature.IsRenaming scheme := by
  obtain ⟨hunknown, hdifferent⟩ := check_spec hcheck
  have hS : s'.Absorbs s := hgen.absorbed hgen.resolved.absorbs_self
  have hdom : ∀ x ∈ signature.rigidVars, ((NameMap.ofList k.metas).get? x).isSome := by
    intro x hx
    rw [NameMap.get?_ofList, ← Option.ne_none_iff_isSome, Ne, NameMap.lookup_eq_none]
    simp only [List.map_reverse, List.mem_reverse, hagrees.1, not_not]
    exact hx
  -- each variable has become a metavariable of its own, and this one a rigid variable
  have hvariable : ∀ x ∈ signature.rigidVars, ∃ m n i, (x, m) ∈ k.metas ∧
      (NameMap.ofList k.metas).get? x = some m ∧ m.subst s = .metavar n ∧
      s'.get? n.text = some (.rigid (rigidName i)) := by
    intro x hx
    obtain ⟨m, hm⟩ := Option.isSome_iff_exists.1 (hdom x hx)
    have hmem := List.mem_reverse.1 (NameMap.mem_of_lookup (NameMap.get?_ofList k.metas x ▸ hm))
    obtain ⟨n, hn, -⟩ := hunknown _ hmem
    have hmetavar : n.text ∈ ((signature.subst (.ofList k.metas)).subst s).metavars := by
      rw [hsignature.subst_subst hdom]
      exact mem_metavars_instance hx (by simp [hm, hn])
    obtain ⟨i, hi⟩ := hscheme.rigid n.text
      (Ty.mem_metavars_of_equiv (hagrees.2 s hs.absorbs_self) hmetavar)
    exact ⟨m, n, i, hmem, hm, hn, hi⟩
  have himage : ∀ {x m n i}, (NameMap.ofList k.metas).get? x = some m → m.subst s = .metavar n →
      s'.get? n.text = some (.rigid (rigidName i)) →
      ((NameMap.ofList k.metas).map (Ty.subst s')).get? x = some (.rigid (rigidName i)) := by
    intro x m n i hm hn hi
    rw [NameMap.get?_map, hm, Option.map_some, ← hS.subst, hn]
    simp [Ty.subst, hi]
  refine ⟨(NameMap.ofList k.metas).map (Ty.subst s'), fun x hx => ?_,
    fun x hx y hy a b ha hb hab => ?_, ?_⟩
  · obtain ⟨m, n, i, -, hm, hn, hi⟩ := hvariable x hx
    exact ⟨_, himage hm hn hi⟩
  · obtain ⟨m, n, i, hmem, hm, hn, hi⟩ := hvariable x hx
    obtain ⟨m', n', j, hmem', hm', hn', hj⟩ := hvariable y hy
    rw [himage hm hn hi] at ha
    rw [himage hm' hn' hj] at hb
    cases ha
    cases hb
    obtain rfl := rigidName_injective hab
    have hnone : ∀ {m n}, Ty.subst s m = .metavar n → s.get? n.text = none := fun {m n} hn =>
      hs.get?_eq_none (t := m) (by simp [hn, Ty.freeVars])
    have hsame := hgen.injective (hnone hn) (hnone hn') hi hj
    by_contra hne
    have : Std.Symm fun a b : String × Ty => ∀ n m, a.2.subst s = .metavar n →
        b.2.subst s = .metavar m → n.text ≠ m.text := ⟨fun _ _ h n m hn hm => (h m n hm hn).symm⟩
    have hpair : (x, m) ≠ (y, m') := fun heq => hne (congrArg Prod.fst heq)
    exact hdifferent.forall hmem hmem' hpair n n' hn hn' hsame
  · have hequiv := hagrees.2 s' hS
    rw [hsignature.subst_subst hdom, ← hscheme.subst s' hgen.resolved.absorbs_self,
      hscheme.closed.subst_eq_self fun x u hu => hgen.known (hgen.metas hu)] at hequiv
    exact Setoid.symm hequiv

/-! ## The group of all functions -/

def functionEntries (fs : List FunctionType) : List (Name × TypeInfo) :=
  fs.map fun f => (f.name, ⟨.const, f.ty⟩)

/-- The functions of a program have closed types, and bodies and signatures that agree with
them. -/
structure FunctionsTyped (signatures : NameMap Ty) (given : TypeEnv) (fs : List FunctionType)
    (s : Subst) : Prop where
  closed : ∀ f ∈ fs, f.ty.Closed
  typed : ∀ S : Subst, S.Absorbs s → (∀ x u, S.get? x = some u → x ∈ metaNames) → ∀ f ∈ fs,
    HasTy ⟨given, ⟨functionEntries fs⟩⟩ (f.body.substTy S) f.ty
  conform : ∀ f ∈ fs, ∀ u, signatures.get? f.name.text = some u → u.IsRenaming f.ty

theorem forall₂_functions {A : Pending → Ty → Prop} {B : Pending → TypedExpr → Prop}
    {mk : Pending × Ty × TypedExpr → FunctionType} {ts : List Ty} {bodies : List TypedExpr}
    (hmk : ∀ q, (mk q).name = q.1.name ∧ (mk q).ty = q.2.1 ∧ (mk q).body = q.2.2)
    (ht : List.Forall₂ A ps ts) (hbody : List.Forall₂ B ps bodies) :
    List.Forall₂ (fun p f => f.name = p.name ∧ A p f.ty ∧ B p f.body) ps
      ((ps.zip (ts.zip bodies)).map mk) := by
  induction ht generalizing bodies with
  | nil => exact .nil
  | cons ht _ ih =>
    cases hbody with
    | cons hbody hrest =>
      obtain ⟨hname, hty, hexpr⟩ := hmk (_, _, _)
      exact .cons ⟨hname, hty ▸ ht, hexpr ▸ hbody⟩ (ih hrest)

theorem mem_foldl_erase {names : NameSet} {x : String} :
    x ∈ ps.foldl (fun names p => names.erase p.name.text) names ↔
      x ∈ names ∧ ∀ p ∈ ps, p.name.text ≠ x := by
  induction ps generalizing names with
  | nil => simp
  | cons p ps ih =>
    rw [List.foldl_cons, ih, NameSet.mem_erase, List.forall_mem_cons]
    tauto

theorem entries_foldl_insert {α : Type} (name : α → Name) (info : α → TypeInfo) (env : TypeEnv)
    (l : List α) :
    (l.foldl (fun env a => env.insert (name a) (info a)) env).entries =
      env.entries ++ l.map fun a => (name a, info a) := by
  induction l generalizing env with
  | nil => simp
  | cons a l ih =>
    rw [List.foldl_cons, ih]
    simp [TypeEnv.insert]

def bodyScope (given : TypeEnv) (ps : List Pending) : Scope :=
  ⟨given, ⟨ps.map fun p => (p.name, ⟨.const, p.placeholder⟩)⟩⟩

theorem env_bodyScope (given : TypeEnv) (ps : List Pending) :
    (bodyScope given ps).env =
      ps.foldl (fun env p => env.insert p.name ⟨.const, p.placeholder⟩) given :=
  TypeEnv.eq_of_entries (entries_foldl_insert _ _ given ps).symm

theorem subst_bodyScope {given : TypeEnv} {S : Subst}
    (h : List.Forall₂ (fun p f => f.name = p.name ∧ f.ty = p.placeholder.subst S) ps fs) :
    (bodyScope given ps).subst S = ⟨given, ⟨functionEntries fs⟩⟩ := by
  have hentries : ps.map (fun p => (p.name, (⟨.const, p.placeholder.subst S⟩ : TypeInfo))) =
      functionEntries fs := by
    induction h with
    | nil => rfl
    | cons h _ ih => simp [functionEntries, h.1, h.2, ih]
  simp [bodyScope, Scope.subst, TypeEnv.subst, ← hentries]

theorem ready_bodyScope {given : TypeEnv} (hgiven : Scope.Ready ⟨given, .empty⟩ ∅ st)
    (hU : U ⊆ issued 0 st₁.supply.issued) (hps : ∀ p ∈ ps, p.placeholder.Over U)
    (hprogress : ∀ x ∈ st₁.inProgress, ∃ p ∈ ps, p.name.text = x) :
    (bodyScope given ps).Ready U st₁ := by
  constructor
  · exact hU
  · exact hgiven.schemes
  · exact hgiven.mutables
  · intro e he
    obtain ⟨p, hp, rfl⟩ := List.mem_map.1 he
    exact hps p hp
  · intro x hx
    obtain ⟨p, hp, rfl⟩ := hprogress x hx
    exact List.mem_map_of_mem (List.mem_map_of_mem (List.mem_map_of_mem hp))

theorem functionsTyped_of_forall₂ {given : TypeEnv} {signatures : NameMap Ty}
    (hgen : Generalizes M s s' n) (hs : s.Resolved)
    (hsignatures : ∀ x t, signatures.get? x = some t → t.Closed)
    (hcheck : ∀ k ∈ skolems, k.checkGeneral s = .ok ())
    (h : List.Forall₂ (fun p f => f.name = p.name ∧ SchemeOf s s' p.placeholder f.ty ∧
      (∀ S : Subst, S.Absorbs s →
        HasTy ((bodyScope given ps).subst S) (f.body.substTy S) (p.placeholder.subst S)) ∧
      ∀ t, signatures.get? p.name.text = some t →
        ∃ k ∈ skolems, Agrees s t p.placeholder k) ps fs) :
    FunctionsTyped signatures given fs s' := by
  constructor
  · exact forall_mem_of_forall₂ h fun p f hf => hf.2.1.closed
  · intro S hS hmetas
    have hty : ∀ (p : Pending) (f : FunctionType), SchemeOf s s' p.placeholder f.ty →
        f.ty = p.placeholder.subst S := by
      intro p f hf
      rw [← hf.subst S hS, hf.closed.subst_eq_self hmetas]
    have hscope : (bodyScope given ps).subst S = ⟨given, ⟨functionEntries fs⟩⟩ :=
      subst_bodyScope (h.imp fun p f hf => ⟨hf.1, hty p f hf.2.1⟩)
    refine forall_mem_of_forall₂ h fun p f hf => ?_
    rw [← hscope, hty p f hf.2.1]
    exact hf.2.2.1 S (hgen.absorbed hS)
  · refine forall_mem_of_forall₂ h fun p f hf u hu => ?_
    rw [hf.1] at hu
    obtain ⟨k, hk, hagrees⟩ := hf.2.2.2 u hu
    exact isRenaming_of_agrees hgen hs hf.2.1 (hsignatures _ u hu) hagrees (hcheck k hk)

theorem not_mem_metaNames_of_closed {env : TypeEnv} (henv : ∀ e ∈ env.entries, e.2.ty.Closed)
    (hs : ∀ x u, s.get? x = some u → x ∈ metaNames) :
    ∀ x ∈ (env.subst s).freeVars, x ∉ metaNames := by
  intro x hx
  rw [TypeEnv.subst_eq_self henv hs] at hx
  obtain ⟨e, he, hx⟩ := NameSet.mem_unionMap.1 hx
  exact (henv e he).not_mem_metaNames x hx

theorem inferFunctions_sound {p : Program} {given outer : TypeEnv} {functions : List FunctionType}
    (hgiven : Scope.Ready ⟨given, .empty⟩ ∅ st)
    (hsignatures : ∀ x t, p.signatures.get? x = some t → t.Closed)
    (h : p.inferFunctions given st = .ok ((functions, outer), s') st') :
    st.supply.issued ≤ st'.supply.issued ∧ st'.context.annotated = st.context.annotated ∧
      (∀ x, x ∉ st'.inProgress) ∧ Found s' ∅ st' ∧
      outer.entries = given.entries ++ functionEntries functions ∧
      FunctionsTyped p.signatures given functions s' := by
  have hnone : ∀ x, x ∉ st.inProgress := by
    intro x hx
    simpa [TypeEnv.visible, TypeEnv.names, TypeEnv.empty] using hgiven.pending x hx
  obtain ⟨pending, st₁, hpending, h⟩ := EStateM.ok_of_bind h
  obtain ⟨hsupply, hannotated, hprogress, hplaceholders⟩ := startFunctions_spec hpending
  split at h
  · next hempty =>
    cases h
    obtain rfl := List.isEmpty_iff.1 hempty
    refine ⟨hsupply, hannotated, ?_, ⟨by simp, ?_⟩, by simp [functionEntries], ?_⟩
    · intro x hx
      simpa [hnone] using (hprogress x).1 hx
    · intro x t ht
      simp at ht
    · exact ⟨by simp, by simp, by simp⟩
  · obtain ⟨⟨⟨bodies, skolems⟩, s⟩, st₂, hbodies, h⟩ := EStateM.ok_of_bind h
    obtain ⟨_, st₃, hcheck, h⟩ := EStateM.ok_of_bind h
    obtain ⟨hgeneral, hst⟩ := EStateM.ok_of_ofExcept hcheck
    obtain ⟨_, st₄, hmodify, h⟩ := EStateM.ok_of_bind h
    obtain ⟨⟨schemes, s''⟩, st₅, hschemes, h⟩ := EStateM.ok_of_bind h
    cases h
    cases hmodify
    subst hst
    have hprogress : ∀ x ∈ st₁.inProgress, ∃ p ∈ pending, p.name.text = x := fun x hx =>
      ((hprogress x).1 hx).resolve_left (hnone x)
    have hknown : issued st.supply.issued st₁.supply.issued ⊆ issued 0 st₁.supply.issued :=
      issued_mono (Nat.zero_le _) le_rfl
    have hΓ := ready_bodyScope hgiven hknown hplaceholders hprogress
    rw [← env_bodyScope] at hbodies
    obtain ⟨U₂, hs, -, htyped, -⟩ :=
      inferBodies_sound hΓ hsignatures (.of_maps (.empty _) hknown) hplaceholders hbodies
    obtain ⟨hext, hgen, -, hscheme⟩ := generalizeAll_spec
      (not_mem_metaNames_of_closed hgiven.schemes fun x u hu => hs.mem_metaNames hu)
      hs.maps.resolved (fun p hp => (hplaceholders p hp).sorted
        (issued_mono (Nat.zero_le _) hs.supply)) (.of_solving hs _) hschemes
    refine ⟨hsupply.trans (hs.supply.trans hext.supply),
      hext.annotated.trans (hs.annotated.trans hannotated), fun x hx => ?_,
      ⟨fun hu => ⟨issued_mono le_rfl hext.supply (hgen.metas hu), id⟩, hgen.resolved⟩,
      entries_foldl_insert _ _ given _, functionsTyped_of_forall₂ hgen hs.maps.resolved hsignatures
        (Except.ok_of_forM hgeneral) (forall₂_functions (fun _ => ⟨rfl, rfl, rfl⟩) hscheme htyped)⟩
    -- no function is left in progress
    rw [hext.inProgress, mem_foldl_erase, hs.inProgress] at hx
    obtain ⟨p, hp, hname⟩ := hprogress x hx.1
    exact hx.2 p hp hname

end Program

end GuardedCommands
