import GuardedCommands.Proofs.TypeValues

/-!
# Most general unifiers

Unification replaces rigid variables and metavariables alike and tells variables apart
by name alone, so it is meant for types in which no name is of both sorts.  Its result
makes two such types equivalent, binds nothing but names of the two types, and has no
bound name left in what it puts in.  If moreover no variable is applied, every other
substitution that makes the types equivalent factors through the result, and there is
none if unification fails.
-/

namespace GuardedCommands

namespace Ty

variable {t u : Ty} {s r θ : Subst} {M K : Set String}

/-! ## The sorts of variables -/

/-- The metavariables of a type are in a set of names, and its rigid variables are not. -/
def SortedBy (M : Set String) : Ty → Prop
  | .rigid n => n.text ∉ M
  | .metavar n => n.text ∈ M
  | .array _ t _ => t.SortedBy M
  | .app f a _ => f.SortedBy M ∧ a.SortedBy M
  | .base .. | .tuple .. | .arrow _ | .data _ => True

theorem sortedBy_of_mem (hm : ∀ x ∈ t.metavars, x ∈ M) (hr : ∀ x ∈ t.rigidVars, x ∉ M) :
    t.SortedBy M := by
  induction t with
  | rigid n => exact hr n.text (NameSet.mem_singleton.2 rfl)
  | metavar n => exact hm n.text (NameSet.mem_singleton.2 rfl)
  | array i t l ih => exact ih hm hr
  | app f a l ihf iha =>
    constructor
    · exact ihf (fun x hx => hm x (NameSet.mem_union.2 (.inl hx)))
        (fun x hx => hr x (NameSet.mem_union.2 (.inl hx)))
    · exact iha (fun x hx => hm x (NameSet.mem_union.2 (.inr hx)))
        (fun x hx => hr x (NameSet.mem_union.2 (.inr hx)))
  | base | tuple | arrow | data => trivial

theorem SortedBy.subst (ht : t.SortedBy M) (hs : ∀ x w, s.get? x = some w → w.SortedBy M) :
    (t.subst s).SortedBy M := by
  induction t with
  | rigid n | metavar n =>
    cases hn : s.get? n.text with
    | none => simpa [Ty.subst, hn] using ht
    | some w => simpa [Ty.subst, hn] using hs _ w hn
  | array i t l ih => exact ih ht
  | app f a l ihf iha => exact ⟨ihf ht.1, iha ht.2⟩
  | base | tuple | arrow | data => trivial

open Classical in
/-- What a substitution makes of each name, which is a metavariable if it is in a set and
rigid otherwise. -/
noncomputable def Subst.reading (θ : Subst) (M : Set String) : Assignment := fun x =>
  (if x ∈ M then metavar (.bare x) else rigid (.bare x)).subst θ |>.canonical

theorem SortedBy.value_reading (ht : t.SortedBy M) (θ : Subst) :
    t.value (θ.reading M) = (t.subst θ).canonical := by
  induction t with
  | rigid n =>
    have hn : n.text ∉ M := ht
    cases hθ : θ.get? n.text <;>
      simp [value, Subst.reading, hn, Ty.subst, hθ, canonical, Name.bare]
  | metavar n =>
    have hn : n.text ∈ M := ht
    cases hθ : θ.get? n.text <;>
      simp [value, Subst.reading, hn, Ty.subst, hθ, canonical, Name.bare]
  | array i t l ih => simp only [value, Ty.subst, canonical, ih ht]
  | app f a l ihf iha => simp only [value, Ty.subst, canonical, ihf ht.1, iha ht.2]
  | base | tuple | arrow | data => rfl

theorem equiv_subst_iff (ht : t.SortedBy M) (hu : u.SortedBy M) (θ : Subst) :
    t.subst θ ≈ u.subst θ ↔ t.value (θ.reading M) = u.value (θ.reading M) := by
  rw [equiv_iff_canonical, ht.value_reading, hu.value_reading]

/-! ## What one step does -/

/-- A step keeps the sorts of variables, and what solves the equations that it leaves solves
the equation that it was taken from. -/
def Step.Reduces (step : Step) (M : Set String) (t u : Ty) : Prop :=
  match step with
  | .split eqs => (∀ eq ∈ eqs, eq.1.SortedBy M ∧ eq.2.SortedBy M) ∧
      ∀ v : Assignment, (∀ eq ∈ eqs, eq.1.value v = eq.2.value v) → t.value v = u.value v
  | .bind x b => b.SortedBy M ∧ ∀ v : Assignment, v x = b.value v → t.value v = u.value v
  | .fail _ => True

theorem Step.Reduces.symm {step : Step} (h : step.Reduces M t u) : step.Reduces M u t := by
  cases step with
  | split eqs | bind x b => exact ⟨h.1, fun v hv => (h.2 v hv).symm⟩
  | fail e => trivial

theorem bindStep_reduces (loc : Loc) (x : Name) {n : Ty} (hn : ∀ v, n.value v = v x.text)
    (ht : t.SortedBy M) : (bindStep loc x t).Reduces M n t := by
  unfold bindStep
  split
  · next y =>
    split
    · next hyx => exact ⟨by simp, fun v _ => by rw [hn, value, hyx]⟩
    · exact ⟨ht, fun v hv => (hn v).trans hv⟩
  · next y =>
    split
    · next hyx => exact ⟨by simp, fun v _ => by rw [hn, value, hyx]⟩
    · exact ⟨ht, fun v hv => (hn v).trans hv⟩
  · split
    · trivial
    · exact ⟨ht, fun v hv => (hn v).trans hv⟩

theorem step_reduces (loc : Loc) (ht : t.SortedBy M) (hu : u.SortedBy M) :
    (step loc t u).Reduces M t u := by
  unfold step
  split
  · split
    · next hab => exact ⟨by simp, fun v _ => by simp only [value, hab]⟩
    · trivial
  · exact ⟨by simpa using ⟨ht, hu⟩, fun v hv => by simpa [value] using hv⟩
  · constructor
    · simpa using ⟨⟨trivial, hu.1.2⟩, ht, hu.2⟩
    · intro v hv
      simp only [List.forall_mem_cons, value] at hv
      simp only [value, ← hv.1, hv.2.1]
  · constructor
    · simpa using ⟨⟨trivial, ht.1.2⟩, hu, ht.2⟩
    · intro v hv
      simp only [List.forall_mem_cons, value] at hv
      simp only [value, ← hv.1, hv.2.1]
  · split
    · next hnm => exact ⟨by simp, fun v _ => by simp only [value, hnm]⟩
    · trivial
  · exact ⟨by simp, fun v _ => rfl⟩
  · split
    · next hab => exact ⟨by simp, fun v _ => by simp only [value, hab]⟩
    · trivial
  · constructor
    · simpa using ⟨⟨ht.1, hu.1⟩, ht.2, hu.2⟩
    · intro v hv
      simp only [List.forall_mem_cons] at hv
      simp only [value, hv.1, hv.2.1]
  · exact bindStep_reduces loc _ (fun _ => rfl) hu
  · exact bindStep_reduces loc _ (fun _ => rfl) hu
  · exact (bindStep_reduces loc _ (fun _ => rfl) ht).symm
  · exact (bindStep_reduces loc _ (fun _ => rfl) ht).symm
  · trivial

/-! ## What a run does -/

/-- The state of a run: what has been found and the equations that are left, in names of `K`
of which those in `M` are metavariables. -/
structure Pending (M K : Set String) (eqs : List Equation) (s : Subst) : Prop where
  sorted : ∀ eq ∈ eqs, eq.1.SortedBy M ∧ eq.2.SortedBy M
  /-- What has been found has been replaced in what is left. -/
  unsolved : ∀ x ∈ equationVars eqs, x ∈ K ∧ s.get? x = none
  solved : ∀ x w, s.get? x = some w → x ∈ K ∧ w.SortedBy M
  resolved : s.Resolved

theorem Pending.head_reduces {rest : List Equation} (h : Pending M K ((t, u) :: rest) s)
    (loc : Loc) : (step loc t u).Reduces M t u :=
  have htu := h.sorted _ List.mem_cons_self
  step_reduces loc htu.1 htu.2

theorem Pending.head_unsolved {rest : List Equation} (h : Pending M K ((t, u) :: rest) s)
    {x : String} (hx : x ∈ t.freeVars ∪ u.freeVars) : x ∈ K ∧ s.get? x = none := by
  refine h.unsolved x ?_
  simp only [equationVars, NameSet.mem_union]
  exact .inl (NameSet.mem_union.1 hx)

theorem Pending.split {loc : Loc} {parts rest : List Equation}
    (h : Pending M K ((t, u) :: rest) s) (hstep : step loc t u = .split parts) :
    Pending M K (parts ++ rest) s := by
  have hrest := (List.forall_mem_cons.1 h.sorted).2
  have hparts : (Step.split parts).Reduces M t u := hstep ▸ h.head_reduces loc
  refine ⟨List.forall_mem_append.2 ⟨hparts.1, hrest⟩, fun x hx => ?_, h.solved, h.resolved⟩
  refine h.unsolved x ?_
  simp only [mem_equationVars_append, equationVars, NameSet.mem_union] at hx ⊢
  exact hx.imp_left fun hx => NameSet.mem_union.1 ((step_split hstep).2 x hx)

theorem Pending.bind {loc : Loc} {x : String} {b : Ty} {rest : List Equation}
    (h : Pending M K ((t, u) :: rest) s) (hstep : step loc t u = .bind x b) :
    Pending M K (substEquations (.singleton x b) rest) (Subst.compose (.singleton x b) s) := by
  have hrest := (List.forall_mem_cons.1 h.sorted).2
  obtain ⟨hb, -⟩ : (Step.bind x b).Reduces M t u := hstep ▸ h.head_reduces loc
  obtain ⟨hx, hxb, hvars⟩ := step_bind hstep
  have hbVars : ∀ y ∈ b.freeVars, y ∈ K ∧ s.get? y = none :=
    fun y hy => h.head_unsolved (hvars y hy)
  have hfound : ∀ y w, (NameMap.singleton x b).get? y = some w → y = x ∧ w = b := by
    intro y w hw
    rw [NameMap.get?_singleton] at hw
    split at hw
    · next hyx =>
      cases hw
      exact ⟨hyx, rfl⟩
    · cases hw
  have hsortedFound : ∀ y w, (NameMap.singleton x b).get? y = some w → w.SortedBy M := by
    intro y w hw
    rw [(hfound y w hw).2]
    exact hb
  have hnone : ∀ y, y ≠ x → s.get? y = none → (Subst.compose (.singleton x b) s).get? y = none := by
    intro y hyx hy
    simp [hyx, hy]
  constructor
  · intro eq heq
    obtain ⟨eq', heq', rfl⟩ := List.mem_map.1 heq
    exact ⟨(hrest eq' heq').1.subst hsortedFound, (hrest eq' heq').2.subst hsortedFound⟩
  · intro y hy
    obtain ⟨hyx, hy⟩ := mem_equationVars_subst hxb hy
    have hyK : y ∈ K ∧ s.get? y = none := by
      rcases hy with hy | hy
      · exact h.unsolved y (by simp [equationVars, hy])
      · exact hbVars y hy
    exact ⟨hyK.1, hnone y hyx hyK.2⟩
  · intro y w hw
    rcases Subst.of_get?_compose hw with hw | ⟨w', hw', rfl⟩
    · obtain ⟨rfl, rfl⟩ := hfound y w hw
      exact ⟨(h.head_unsolved hx).1, hb⟩
    · exact ⟨(h.solved y w' hw').1, (h.solved y w' hw').2.subst hsortedFound⟩
  · intro y w hw z hz
    rcases Subst.of_get?_compose hw with hw | ⟨w', hw', rfl⟩
    · obtain ⟨rfl, rfl⟩ := hfound y w hw
      exact hnone z (fun hzx => hxb (hzx ▸ hz)) (hbVars z hz).2
    · obtain ⟨hzx, hz⟩ := mem_freeVars_subst_singleton hxb hz
      rcases hz with hz | hz
      · exact hnone z hzx (h.resolved y w' hw' z hz)
      · exact hnone z hzx (hbVars z hz).2

theorem solve_reduces {loc : Loc} {eqs : List Equation} (h : Pending M K eqs s)
    (hr : solve loc eqs s = .ok r) :
    Pending M K [] r ∧ ∀ v : Assignment, r.Holds v →
      s.Holds v ∧ ∀ eq ∈ eqs, eq.1.value v = eq.2.value v := by
  induction eqs, s using solve.induct loc with
  | case1 s =>
    rw [solve] at hr
    cases hr
    exact ⟨h, fun v hv => ⟨hv, by simp⟩⟩
  | case2 s t u rest parts hstep ih =>
    rw [solve_cons_of_split hstep] at hr
    have hparts : (Step.split parts).Reduces M t u := hstep ▸ h.head_reduces loc
    obtain ⟨hdone, hsolves⟩ := ih (h.split hstep) hr
    refine ⟨hdone, fun v hv => ?_⟩
    obtain ⟨hs, heqs⟩ := hsolves v hv
    rw [List.forall_mem_append] at heqs
    exact ⟨hs, List.forall_mem_cons.2 ⟨hparts.2 v heqs.1, heqs.2⟩⟩
  | case3 s t u rest x b hstep found =>
    rename_i ih
    rw [solve_cons_of_bind hstep] at hr
    have hbind : (Step.bind x b).Reduces M t u := hstep ▸ h.head_reduces loc
    have hx : s.get? x = none := (h.head_unsolved (step_bind hstep).1).2
    have hdisjoint : ∀ y w, s.get? y = some w → found.get? y = none := by
      intro y w hw
      have hyx : y ≠ x := by
        rintro rfl
        rw [hx] at hw
        cases hw
      simp [found, hyx]
    obtain ⟨hdone, hsolves⟩ := ih (h.bind hstep) hr
    refine ⟨hdone, fun v hv => ?_⟩
    obtain ⟨hcompose, heqs⟩ := hsolves v hv
    obtain ⟨hs, hfound⟩ := (Subst.holds_compose hdisjoint).1 hcompose
    refine ⟨hs, List.forall_mem_cons.2 ⟨hbind.2 v (Subst.holds_singleton.1 hfound), ?_⟩⟩
    intro eq heq
    have hvalues := heqs _ (List.mem_map_of_mem heq)
    rwa [hfound.value_subst, hfound.value_subst] at hvalues
  | case4 s t u rest e hstep =>
    rw [solve_cons_of_fail hstep] at hr
    cases hr

theorem unify_reduces {loc : Loc} (ht : t.SortedBy M) (hu : u.SortedBy M)
    (h : t.unify u loc = .ok s) :
    Pending M {x | x ∈ t.freeVars ∪ u.freeVars} [] s ∧
      ∀ v : Assignment, s.Holds v → t.value v = u.value v := by
  have hstart : Pending M {x | x ∈ t.freeVars ∪ u.freeVars} [(t, u)] ∅ :=
    { sorted := by simpa using ⟨ht, hu⟩
      unsolved := by
        intro x hx
        simpa [equationVars] using hx
      solved := by simp
      resolved := by
        intro x w hw
        cases hw }
  obtain ⟨hdone, hsolves⟩ := solve_reduces hstart h
  exact ⟨hdone, fun v hv => (hsolves v hv).2 (t, u) (List.mem_singleton_self _)⟩

theorem Pending.holds_reading (h : Pending M K [] s) : s.Holds (s.reading M) := by
  intro x w hw
  have hsame : (s.reading M) x = w.canonical := by
    unfold Subst.reading
    split <;> simp [subst, Name.bare, hw]
  rw [hsame, (h.solved x w hw).2.value_reading, subst_eq_self (h.resolved x w hw)]

/-- What is done to the result of unification is done to the types, if it makes them
equivalent. -/
theorem unify_factors {loc : Loc} (ht : t.SortedBy M) (hu : u.SortedBy M)
    (htr : t.HeadsRooted) (hur : u.HeadsRooted) (h : t.unify u loc = .ok s)
    (hθ : t.subst θ ≈ u.subst θ) {w : Ty} (hw : w.SortedBy M) :
    w.subst θ ≈ (w.subst s).subst θ := by
  obtain ⟨hdone, -⟩ := unify_reduces ht hu h
  have hprincipal := unify_principal loc htr hur
  rw [h] at hprincipal
  have hholds : s.Holds (θ.reading M) := (hprincipal.2 _).2 ((equiv_subst_iff ht hu θ).1 hθ)
  have hws : (w.subst s).SortedBy M := hw.subst fun x v hv => (hdone.solved x v hv).2
  rw [equiv_subst_iff hw hws, hholds.value_subst]

/-! ## Results -/

theorem sortedBy_metavars
    (hsorts : ∀ x ∈ t.metavars ∪ u.metavars, x ∉ t.rigidVars ∪ u.rigidVars) :
    t.SortedBy {x | x ∈ t.metavars ∪ u.metavars} ∧
      u.SortedBy {x | x ∈ t.metavars ∪ u.metavars} := by
  simp only [NameSet.mem_union] at hsorts
  constructor
  · exact sortedBy_of_mem (fun x hx => NameSet.mem_union.2 (.inl hx))
      (fun x hx hmem => hsorts x (NameSet.mem_union.1 hmem) (.inl hx))
  · exact sortedBy_of_mem (fun x hx => NameSet.mem_union.2 (.inr hx))
      (fun x hx hmem => hsorts x (NameSet.mem_union.1 hmem) (.inr hx))

theorem sortedBy_not_rigid
    (hsorts : ∀ x ∈ t.metavars ∪ u.metavars, x ∉ t.rigidVars ∪ u.rigidVars) :
    t.SortedBy {x | x ∉ t.rigidVars ∪ u.rigidVars} ∧
      u.SortedBy {x | x ∉ t.rigidVars ∪ u.rigidVars} := by
  constructor
  · exact sortedBy_of_mem (fun x hx => hsorts x (NameSet.mem_union.2 (.inl hx)))
      (fun x hx hmem => hmem (NameSet.mem_union.2 (.inl hx)))
  · exact sortedBy_of_mem (fun x hx => hsorts x (NameSet.mem_union.2 (.inr hx)))
      (fun x hx hmem => hmem (NameSet.mem_union.2 (.inr hx)))

/-- The result of unification makes the two types equivalent.  It binds names of the two
types only, and no name that it binds occurs in what it puts in, so applying it twice is
applying it once. -/
theorem unifier_makes_types_equivalent {loc : Loc}
    (hsorts : ∀ x ∈ t.metavars ∪ u.metavars, x ∉ t.rigidVars ∪ u.rigidVars)
    (h : t.unify u loc = .ok s) :
    t.subst s ≈ u.subst s ∧
      (∀ x ∈ s.keys, x ∈ t.freeVars ∪ u.freeVars) ∧
      (∀ x w, s.get? x = some w → ∀ y ∈ s.keys, y ∉ w.freeVars) ∧
      ∀ w : Ty, (w.subst s).subst s = w.subst s := by
  obtain ⟨ht, hu⟩ := sortedBy_metavars hsorts
  obtain ⟨hdone, hsolves⟩ := unify_reduces ht hu h
  refine ⟨?equivalent, ?relevant, ?resolved, ?idempotent⟩
  case equivalent => exact (equiv_subst_iff ht hu s).2 (hsolves _ hdone.holds_reading)
  case relevant =>
    intro x hx
    obtain ⟨w, hw⟩ := Option.isSome_iff_exists.1 (NameMap.mem_keys_iff.1 hx)
    exact (hdone.solved x w hw).1
  case resolved =>
    intro x w hw y hy hmem
    rw [NameMap.mem_keys_iff, hdone.resolved x w hw y hmem] at hy
    cases hy
  case idempotent => exact hdone.resolved.absorbs_self.subst

namespace Indexing

def interval : Interval := ⟨.including (.ofNum 0), .excluding (.ofVar "N"), .none⟩

def listOf (t : Ty) : Ty := .apply (.data (.bare "List")) t

/-- The type `?i → array [0..N) of ?e`. -/
def table : Ty := .func (.metavar (.bare "?i")) (.arrayOf interval (.metavar (.bare "?e")))

/-- The type `k → k → List ?a`. -/
def search : Ty :=
  .func (.rigid (.bare "k")) (.func (.rigid (.bare "k")) (listOf (.metavar (.bare "?a"))))

def found : Subst := .ofList [("?e", listOf (.metavar (.bare "?a"))), ("?i", .int), ("k", .int)]

theorem unify_table : table.unify search .none = .ok found := by cbv

theorem sorts_apart :
    ∀ x ∈ table.metavars ∪ search.metavars, x ∉ table.rigidVars ∪ search.rigidVars := by
  decide

/-- Lists of arrays on one side, lists of functions on the other. -/
def arrays : Subst :=
  .ofList [("?a", .arrayOf interval .bool), ("?e", listOf (.func .int .bool)), ("?i", .int),
    ("k", .int)]

theorem arrays_unify : table.subst arrays ≈ search.subst arrays := equiv_iff_canonical.2 rfl

end Indexing

open Indexing

theorem table_made_equivalent :
    (∀ x ∈ table.metavars ∪ search.metavars, x ∉ table.rigidVars ∪ search.rigidVars) ∧
      table.unify search .none = .ok found ∧ table.subst found ≈ search.subst found ∧
      (∀ x ∈ found.keys, x ∈ table.freeVars ∪ search.freeVars) ∧
      (∀ x w, found.get? x = some w → ∀ y ∈ found.keys, y ∉ w.freeVars) ∧
      ∀ w : Ty, (w.subst found).subst found = w.subst found :=
  ⟨sorts_apart, unify_table, unifier_makes_types_equivalent sorts_apart unify_table⟩

/-- Two types that some substitution makes equivalent have a unifier, and the substitution
factors through it: it makes the same of every name and of what the unifier puts in its
place.  A name is taken at the sort that it has in the types; where it is in neither, at
both.  Unification fails only if there is no such substitution. -/
theorem unifier_most_general (loc : Loc)
    (hsorts : ∀ x ∈ t.metavars ∪ u.metavars, x ∉ t.rigidVars ∪ u.rigidVars)
    (htr : t.HeadsRooted) (hur : u.HeadsRooted) :
    (∀ θ : Subst, t.subst θ ≈ u.subst θ → ∃ s, t.unify u loc = .ok s ∧
      (∀ x : Name, x.text ∉ t.rigidVars ∪ u.rigidVars →
        (metavar x).subst θ ≈ ((metavar x).subst s).subst θ) ∧
      ∀ x : Name, x.text ∉ t.metavars ∪ u.metavars →
        (rigid x).subst θ ≈ ((rigid x).subst s).subst θ) ∧
    ∀ e, t.unify u loc = .error e → ∀ θ : Subst, ¬ t.subst θ ≈ u.subst θ := by
  obtain ⟨ht, hu⟩ := sortedBy_metavars hsorts
  obtain ⟨ht', hu'⟩ := sortedBy_not_rigid hsorts
  have hfails : ∀ e, t.unify u loc = .error e → ∀ θ : Subst, ¬ t.subst θ ≈ u.subst θ := by
    intro e he θ hθ
    have hprincipal := unify_principal loc htr hur
    rw [he] at hprincipal
    exact hprincipal _ ((equiv_subst_iff ht hu θ).1 hθ)
  refine ⟨fun θ hθ => ?_, hfails⟩
  cases hunify : t.unify u loc with
  | error e => exact absurd hθ (hfails e hunify θ)
  | ok s =>
    refine ⟨s, rfl, fun x hx => ?_, fun x hx => ?_⟩
    · exact unify_factors ht' hu' htr hur hunify hθ (w := .metavar x) hx
    · exact unify_factors ht hu htr hur hunify hθ (w := .rigid x) hx

theorem arrays_factor :
    (∀ x ∈ table.metavars ∪ search.metavars, x ∉ table.rigidVars ∪ search.rigidVars) ∧
      table.HeadsRooted ∧ search.HeadsRooted ∧ table.subst arrays ≈ search.subst arrays ∧
      ∃ s, table.unify search .none = .ok s ∧
        (∀ x : Name, x.text ∉ table.rigidVars ∪ search.rigidVars →
          (metavar x).subst arrays ≈ ((metavar x).subst s).subst arrays) ∧
        ∀ x : Name, x.text ∉ table.metavars ∪ search.metavars →
          (rigid x).subst arrays ≈ ((rigid x).subst s).subst arrays := by
  have htable : table.HeadsRooted := ⟨rfl, ⟨rfl, trivial, trivial⟩, trivial⟩
  have hsearch : search.HeadsRooted :=
    ⟨rfl, ⟨rfl, trivial, trivial⟩, rfl, ⟨rfl, trivial, trivial⟩, rfl, trivial, trivial⟩
  exact ⟨sorts_apart, htable, hsearch, arrays_unify,
    (unifier_most_general .none sorts_apart htable hsearch).1 arrays arrays_unify⟩

end Ty

end GuardedCommands
