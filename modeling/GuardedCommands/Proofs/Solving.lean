import GuardedCommands.Proofs.ElaboratedScope
import GuardedCommands.Proofs.KindScope
import GuardedCommands.Proofs.Typing

/-!
# The progress of type inference

Inference goes on from a set of metavariables that are still unknown.  It takes new
ones from the supply and solves some, so each of its steps has a substitution from
the unknowns before, together with the new ones, to the unknowns after.  Such steps
compose, and a substitution that absorbs the composition absorbs both parts.

A scope is ready for inference if its schemes have no metavariables, its fixed
types have no variables but the unknowns, and every function that is being defined
has a fixed type.
-/

namespace GuardedCommands

/-! ## New metavariables -/

def issued (a b : Nat) : Set String := {x | ∃ i, a ≤ i ∧ i < b ∧ x = (Supply.next ⟨i⟩ "t").text}

theorem mem_issued {i a b : Nat} (ha : a ≤ i) (hb : i < b) :
    (Supply.next ⟨i⟩ "t").text ∈ issued a b :=
  ⟨i, ha, hb, rfl⟩

theorem issued_mono {a b c d : Nat} (h : c ≤ a) (h' : b ≤ d) : issued a b ⊆ issued c d := by
  rintro x ⟨i, ha, hb, rfl⟩
  exact mem_issued (h.trans ha) (hb.trans_le h')

@[simp] theorem issued_self (a : Nat) : issued a a = ∅ := by
  ext x
  constructor
  · rintro ⟨i, ha, hb, -⟩
    omega
  · exact False.elim

theorem issued_union {a b c : Nat} (hab : a ≤ b) (hbc : b ≤ c) :
    issued a b ∪ issued b c = issued a c := by
  ext x
  constructor
  · rintro (h | h)
    · exact issued_mono le_rfl hbc h
    · exact issued_mono hab le_rfl h
  · rintro ⟨i, ha, hc, rfl⟩
    by_cases hb : i < b
    · exact .inl (mem_issued ha hb)
    · exact .inr (mem_issued (not_lt.1 hb) hc)

theorem issued_disjoint (a b c : Nat) : Disjoint (issued a b) (issued b c) := by
  rw [Set.disjoint_left]
  rintro x ⟨i, -, hi, rfl⟩ ⟨j, hj, -, heq⟩
  have := Supply.next_injective heq
  omega

def metaNames : Set String := {x | ∃ i, x = (Supply.next ⟨i⟩ "t").text}

theorem issued_subset_metaNames (a b : Nat) : issued a b ⊆ metaNames := by
  rintro x ⟨i, -, -, rfl⟩
  exact ⟨i, rfl⟩

/-! ## Steps of inference -/

/-- Inference has gone from one state to another and found `s`.  The unknowns were `U`
and are `U'`. -/
structure Solving (U : Set String) (st : ElaborationState) (s : Ty.Subst) (U' : Set String)
    (st' : ElaborationState) : Prop extends st.Extends st' where
  start : U ⊆ issued 0 st.supply.issued
  maps : s.Maps (U ∪ issued st.supply.issued st'.supply.issued) U'

namespace Solving

open Ty (Subst)

variable {U U₁ U₂ : Set String} {st st₁ st₂ : ElaborationState} {s s₁ s₂ S : Subst} {t : Ty}

theorem finish (h : Solving U st s U₁ st₁) : U₁ ⊆ issued 0 st₁.supply.issued := by
  intro x hx
  rcases h.maps.subset hx with hx | hx
  · exact issued_mono le_rfl h.supply (h.start hx)
  · exact issued_mono (Nat.zero_le _) le_rfl hx

theorem of_extends (h : st.Extends st₁) (hU : U ⊆ issued 0 st.supply.issued) :
    Solving U st ∅ (U ∪ issued st.supply.issued st₁.supply.issued) st₁ :=
  { toExtends := h
    start := hU
    maps := .empty _ }

theorem of_maps (h : s.Maps U U₁) (hU : U ⊆ issued 0 st.supply.issued) : Solving U st s U₁ st :=
  { toExtends := .refl st
    start := hU
    maps := by rwa [issued_self, Set.union_empty] }

theorem over_subst (h : Solving U st s U₁ st₁) (ht : t.Over U) : (t.subst s).Over U₁ :=
  (ht.mono Set.subset_union_left).subst h.maps

theorem after_extends (h : st.Extends st₁) (hU : U ⊆ issued 0 st.supply.issued)
    (h' : Solving (U ∪ issued st.supply.issued st₁.supply.issued) st₁ s U₂ st₂) :
    Solving U st s U₂ st₂ := by
  have hmaps := h'.maps
  rw [Set.union_assoc, issued_union h.supply h'.supply] at hmaps
  exact ⟨h.trans h'.toExtends, hU, hmaps⟩

theorem widen (h : Solving U st s₁ U₁ st₁) (h' : Solving U₁ st₁ s₂ U₂ st₂) :
    s₁.Maps (U ∪ issued st.supply.issued st₂.supply.issued)
      (U₁ ∪ issued st₁.supply.issued st₂.supply.issued) := by
  have hdisjoint : Disjoint (U ∪ issued st.supply.issued st₁.supply.issued)
      (issued st₁.supply.issued st₂.supply.issued) := by
    rw [Set.disjoint_union_left]
    constructor
    · exact (issued_disjoint 0 _ _).mono_left
        (h.start.trans (issued_mono le_rfl h.supply))
    · exact issued_disjoint _ _ _
  have hmaps := h.maps.widen hdisjoint
  rwa [Set.union_assoc, issued_union h.supply h'.supply] at hmaps

theorem compose (h : Solving U st s₁ U₁ st₁) (h' : Solving U₁ st₁ s₂ U₂ st₂) :
    Solving U st (s₂.compose s₁) U₂ st₂ :=
  { toExtends := h.toExtends.trans h'.toExtends
    start := h.start
    maps := (h.widen h').compose h'.maps }

theorem over_later (h : Solving U st s₁ U₁ st₁) (h' : Solving U st s₂ U₂ st₂)
    (hext : st₁.Extends st₂) (ht : t.Over U₁) : (t.subst s₂).Over U₂ := by
  have hsub : U₁ ⊆ U ∪ issued st.supply.issued st₂.supply.issued :=
    h.maps.subset.trans (Set.union_subset_union_right U (issued_mono le_rfl hext.supply))
  exact (ht.mono hsub).subst h'.maps

theorem over_issued (h : Solving U st s U₁ st₁) {a b : Nat} (ha : st.supply.issued ≤ a)
    (hb : b ≤ st₁.supply.issued) (ht : t.Over (issued a b)) : (t.subst s).Over U₁ :=
  (ht.mono ((issued_mono ha hb).trans Set.subset_union_right)).subst h.maps

theorem absorbs (h : Solving U st s₁ U₁ st₁) (h' : Solving U₁ st₁ s₂ U₂ st₂)
    (hS : S.Absorbs (s₂.compose s₁)) : S.Absorbs s₁ :=
  hS.earlier ((h.widen h').disjoint h'.maps)

theorem mem_issued (h : Solving U st s U₁ st₁) {x : String} {t : Ty}
    (hx : s.get? x = some t) : x ∈ issued 0 st₁.supply.issued := by
  rcases (h.maps.solved hx).1 with hx | hx
  · exact issued_mono le_rfl h.supply (h.start hx)
  · exact issued_mono (Nat.zero_le _) le_rfl hx

theorem mem_metaNames (h : Solving U st s U₁ st₁) {x : String} {t : Ty}
    (hx : s.get? x = some t) : x ∈ metaNames :=
  issued_subset_metaNames _ _ (h.mem_issued hx)

theorem extend (h : Solving U st s U₁ st₁) (h' : st₁.Extends st₂) :
    Solving U st s (U₁ ∪ issued st₁.supply.issued st₂.supply.issued) st₂ :=
  { toExtends := h.toExtends.trans h'
    start := h.start
    maps := h.widen (.of_extends h' h.finish) }

end Solving

/-- What a program has come to so far: metavariables other than the unknowns `U` have been
replaced, for good. -/
structure Found (s : Ty.Subst) (U : Set String) (st : ElaborationState) : Prop where
  solved : ∀ {x t}, s.get? x = some t → x ∈ issued 0 st.supply.issued ∧ x ∉ U
  resolved : s.Resolved

theorem Found.compose {s r : Ty.Subst} {U U' : Set String} {st st' : ElaborationState}
    (h : Found s U st) (hr : Solving U st r U' st') :
    Found (r.compose s) U' st' ∧
      ∀ S : Ty.Subst, S.Absorbs (r.compose s) → S.Absorbs s ∧ S.Absorbs r := by
  have hstep : ∀ {x t}, s.get? x = some t → x ∉ U ∪ issued st.supply.issued st'.supply.issued := by
    rintro x t ht (hx | hx)
    · exact (h.solved ht).2 hx
    · exact Set.disjoint_left.1 (issued_disjoint 0 _ _) (h.solved ht).1 hx
  have hdisjoint : ∀ x t, s.get? x = some t → r.get? x = none := by
    intro x t ht
    cases hx : r.get? x with
    | none => rfl
    | some u => exact absurd (hr.maps.solved hx).1 (hstep ht)
  have hleft : ∀ {x}, x ∈ U' → (r.compose s).get? x = none := by
    intro x hx
    have hs : s.get? x = none := by
      cases hsx : s.get? x with
      | none => rfl
      | some t => exact absurd (hr.maps.subset hx) (hstep hsx)
    simp [hr.maps.get?_eq_none hx, hs]
  refine ⟨⟨fun {x t} ht => ?_, fun x t ht y hy => ?_⟩, fun S hS => ⟨hS.earlier hdisjoint, hS.later⟩⟩
  · rcases Ty.Subst.of_get?_compose ht with ht | ⟨u, hu, -⟩
    · exact ⟨hr.mem_issued ht, (hr.maps.solved ht).2.1⟩
    · exact ⟨issued_mono le_rfl hr.supply (h.solved hu).1, fun hx => hstep hu (hr.maps.subset hx)⟩
  · rcases Ty.Subst.of_get?_compose ht with ht | ⟨u, hu, rfl⟩
    · exact hleft ((hr.maps.solved ht).2.2.mem y hy)
    · rcases Ty.mem_freeVars_subst hy with ⟨hyu, hnone⟩ | ⟨z, w, hw, hyw⟩
      · simp [hnone, h.resolved x u hu y hyu]
      · exact hleft ((hr.maps.solved hw).2.2.mem y hyw)

/-! ## Scopes -/

namespace Ty

/-- A type without metavariables, and without rigid variables that are named like
metavariables. -/
def Closed : Ty → Prop
  | .rigid n => n.text ∉ metaNames
  | .metavar _ => False
  | .array _ t _ => t.Closed
  | .app f a _ => f.Closed ∧ a.Closed
  | .base .. | .tuple .. | .arrow _ | .data _ => True

theorem Closed.not_mem_metaNames {t : Ty} (h : t.Closed) : ∀ x ∈ t.freeVars, x ∉ metaNames := by
  induction t with
  | rigid n =>
    intro x hx
    rw [NameSet.mem_singleton.1 hx]
    exact h
  | metavar n => exact h.elim
  | array i t l ih => exact ih h
  | app f a l ihf iha =>
    intro x hx
    rcases NameSet.mem_union.1 hx with hx | hx
    · exact ihf h.1 x hx
    · exact iha h.2 x hx
  | base | tuple | arrow | data => simp [freeVars]

theorem Closed.subst_eq_self {t : Ty} {s : Subst} (h : t.Closed)
    (hs : ∀ x u, s.get? x = some u → x ∈ metaNames) : t.subst s = t := by
  apply Ty.subst_eq_self
  intro x hx
  cases hsx : s.get? x with
  | none => rfl
  | some u => exact absurd (hs x u hsx) (h.not_mem_metaNames x hx)

theorem Closed.subst_subst {t : Ty} {θ : Subst} (h : t.Closed)
    (hθ : ∀ x ∈ t.rigidVars, (θ.get? x).isSome) (S : Subst) :
    (t.subst θ).subst S = t.subst (θ.map (Ty.subst S)) := by
  induction t with
  | rigid n =>
    obtain ⟨u, hu⟩ := Option.isSome_iff_exists.1 (hθ n.text (by simp [rigidVars]))
    simp [subst, hu]
  | metavar n => exact h.elim
  | array i t l ih => simp only [subst, ih h hθ]
  | app f a l ihf iha =>
    have hf := ihf h.1 fun x hx => hθ x (NameSet.mem_union.2 (.inl hx))
    have ha := iha h.2 fun x hx => hθ x (NameSet.mem_union.2 (.inr hx))
    simp only [subst, hf, ha]
  | base | tuple | arrow | data => rfl

theorem Closed.over_subst {t : Ty} {θ : Subst} {U : Set String} (h : t.Closed)
    (hθ : ∀ x ∈ t.rigidVars, ∃ u, θ.get? x = some u ∧ u.Over U) : (t.subst θ).Over U := by
  induction t with
  | rigid n =>
    obtain ⟨u, hu, hover⟩ := hθ n.text (by simp [rigidVars])
    simpa [subst, hu] using hover
  | metavar n => exact h.elim
  | array i t l ih => exact ih h hθ
  | app f a l ihf iha =>
    exact ⟨ihf h.1 fun x hx => hθ x (NameSet.mem_union.2 (.inl hx)),
      iha h.2 fun x hx => hθ x (NameSet.mem_union.2 (.inr hx))⟩
  | base | tuple | arrow | data => trivial

theorem Over.closed {t : Ty} (h : t.Over ∅) : t.Closed := by
  induction t with
  | rigid n | metavar n => exact h.elim
  | array i t l ih => exact ih h
  | app f a l ihf iha => exact ⟨ihf h.1, iha h.2⟩
  | base | tuple | arrow | data => trivial

theorem Over.rigidVars_toList {t : Ty} {U : Set String} (h : t.Over U) :
    t.rigidVars.toList = [] := by
  rw [List.eq_nil_iff_forall_not_mem]
  intro x hx
  change x ∈ t.rigidVars at hx
  induction t with
  | rigid n => exact h
  | array i t l ih => exact ih h hx
  | app f a l ihf iha =>
    rcases NameSet.mem_union.1 hx with hx | hx
    · exact ihf h.1 hx
    · exact iha h.2 hx
  | metavar | base | tuple | arrow | data => exact NameSet.not_mem_empty x hx

end Ty

namespace TypeEnv

theorem lookup?_append (a b : List (Name × TypeInfo)) (x : String) :
    (⟨a ++ b⟩ : TypeEnv).lookup? x =
      ((⟨b⟩ : TypeEnv).lookup? x).or ((⟨a⟩ : TypeEnv).lookup? x) := by
  simp only [lookup?, List.reverse_append, List.find?_append]
  cases List.find? (fun e : Name × TypeInfo => e.1.text == x) b.reverse <;> rfl

theorem lookup?_subst (env : TypeEnv) (s : Ty.Subst) (x : String) :
    (env.subst s).lookup? x = (env.lookup? x).map fun i => { i with ty := i.ty.subst s } := by
  simp only [lookup?, subst, ← List.map_reverse, List.find?_map, Option.map_map]
  rfl

theorem subst_eq_self {env : TypeEnv} {s : Ty.Subst} (h : ∀ e ∈ env.entries, e.2.ty.Closed)
    (hs : ∀ x t, s.get? x = some t → x ∈ metaNames) : env.subst s = env := by
  have hentries : env.entries.map (fun e => (e.1, { e.2 with ty := e.2.ty.subst s })) =
      env.entries := by
    rw [List.map_congr_left (g := id), List.map_id]
    intro e he
    simp [(h e he).subst_eq_self hs]
  exact congrArg mk hentries

theorem mem_of_lookup? {env : TypeEnv} {x : String} {info : TypeInfo}
    (h : env.lookup? x = some info) : ∃ e ∈ env.entries, e.2 = info := by
  obtain ⟨e, he, rfl⟩ := Option.map_eq_some_iff.1 h
  exact ⟨e, List.mem_reverse.1 (List.mem_of_find?_eq_some he), rfl⟩

end TypeEnv

namespace Scope

open Ty (Subst)

/-- The types of a scope have no variables that inference must not see. -/
structure Ready (Γ : Scope) (U : Set String) (st : ElaborationState) : Prop where
  known : U ⊆ issued 0 st.supply.issued
  schemes : ∀ e ∈ Γ.schemes.entries, e.2.ty.Closed
  mutables : ∀ e ∈ Γ.schemes.entries, e.2.isMutable = true → e.2.ty.Over ∅
  fixed : ∀ e ∈ Γ.fixed.entries, e.2.ty.Over U
  pending : ∀ x ∈ st.inProgress, x ∈ Γ.fixed.visible

variable {Γ : Scope} {U U₁ : Set String} {st st₁ : ElaborationState} {s S : Subst}

theorem lookup?_env (Γ : Scope) (x : String) :
    Γ.env.lookup? x = (Γ.fixed.lookup? x).or (Γ.schemes.lookup? x) :=
  TypeEnv.lookup?_append _ _ x

theorem env_bind (Γ : Scope) (x : Name) (t : Ty) :
    (Γ.bind x t).env = Γ.env.insert x ⟨.const, t⟩ := by
  simp [env, bind, TypeEnv.insert]

theorem subst_bind (Γ : Scope) (x : Name) (t : Ty) (s : Subst) :
    (Γ.bind x t).subst s = (Γ.subst s).bind x (t.subst s) := by
  simp [subst, bind, TypeEnv.subst, TypeEnv.insert]

theorem subst_bindAll (Γ : Scope) (bs : List Binder) (s : Subst) :
    (Γ.bindAll bs).subst s = (Γ.subst s).bindAll (bs.map (·.subst s)) := by
  induction bs generalizing Γ with
  | nil => rfl
  | cons b bs ih =>
    simp only [bindAll, List.map_cons, List.foldl_cons] at ih ⊢
    rw [ih, subst_bind]
    rfl

theorem subst_subst (hS : S.Absorbs s) (Γ : Scope) : (Γ.subst s).subst S = Γ.subst S := by
  simp only [subst, TypeEnv.subst, List.map_map, Function.comp_def, hS.subst]

theorem Ready.env_subst (hΓ : Γ.Ready U st) (hs : Solving U st s U₁ st₁) :
    (Γ.subst s).env = Γ.env.subst s := by
  have hschemes : Γ.schemes.subst s = Γ.schemes :=
    TypeEnv.subst_eq_self hΓ.schemes fun x t hx => hs.mem_metaNames hx
  have hentries := congrArg TypeEnv.entries hschemes
  simp only [env, subst, TypeEnv.subst, List.map_append] at hentries ⊢
  rw [hentries]

theorem Ready.after (hΓ : Γ.Ready U st) (hs : Solving U st s U₁ st₁) :
    (Γ.subst s).Ready U₁ st₁ := by
  constructor
  · exact hs.finish
  · exact hΓ.schemes
  · exact hΓ.mutables
  · intro e he
    obtain ⟨e', he', rfl⟩ := List.mem_map.1 he
    exact hs.over_subst (hΓ.fixed e' he')
  · intro x hx
    rw [hs.inProgress] at hx
    exact (TypeEnv.visible_subst _ _).symm ▸ hΓ.pending x hx

theorem Ready.extend (hΓ : Γ.Ready U st) (h : st.Extends st₁) :
    Γ.Ready (U ∪ issued st.supply.issued st₁.supply.issued) st₁ := by
  constructor
  · exact Set.union_subset (hΓ.known.trans (issued_mono le_rfl h.supply))
      (issued_mono (Nat.zero_le _) le_rfl)
  · exact hΓ.schemes
  · exact hΓ.mutables
  · exact fun e he => (hΓ.fixed e he).mono Set.subset_union_left
  · intro x hx
    rw [h.inProgress] at hx
    exact hΓ.pending x hx

theorem Ready.bind (hΓ : Γ.Ready U st) {x : Name} {t : Ty} (ht : t.Over U) :
    (Γ.bind x t).Ready U st := by
  constructor
  · exact hΓ.known
  · exact hΓ.schemes
  · exact hΓ.mutables
  · intro e he
    rcases List.mem_append.1 he with he | he
    · exact hΓ.fixed e he
    · rw [List.mem_singleton.1 he]
      exact ht
  · intro y hy
    change y ∈ (Γ.fixed.insert x _).visible
    rw [TypeEnv.visible_insert]
    exact .inl (hΓ.pending y hy)

end Scope

end GuardedCommands
