import GuardedCommands.Proofs.Basic
import GuardedCommands.Ty.Unify

/-!
# Solutions of type equations

Types are compared up to locations, and an array type counts as the type of the
functions from the integers to its elements.  `canonical` writes arrays as such
functions and drops locations, so two types are equivalent when their canonical
forms are equal.

Unification works on types whose variables are metavariables of a known set.
What it returns takes such types to types over the metavariables that are left.
A later substitution absorbs an earlier one if it has the findings of the earlier
one built in; whatever absorbs the result of unification makes the two types
equivalent.
-/

namespace GuardedCommands

namespace Ty

/-! ## Equivalence -/

/-- The congruence that is generated by taking an array type for the type of the
functions from the integers to its elements. -/
inductive Equiv : Ty → Ty → Prop
  | base {b : BaseTy} {l l' : Loc} : Equiv (.base b l) (.base b l')
  | tuple {n : UInt64} {l l' : Loc} : Equiv (.tuple n l) (.tuple n l')
  | arrow {l l' : Loc} : Equiv (.arrow l) (.arrow l')
  | data {n m : Name} (h : n.text = m.text) : Equiv (.data n) (.data m)
  | rigid {n m : Name} (h : n.text = m.text) : Equiv (.rigid n) (.rigid m)
  | metavar {n m : Name} (h : n.text = m.text) : Equiv (.metavar n) (.metavar m)
  | array {i : Interval} {t u : Ty} {l l' : Loc} (h : Equiv t u) :
      Equiv (.array i t l) (.array i u l')
  | app {f g a b : Ty} {l l' : Loc} (hf : Equiv f g) (ha : Equiv a b) :
      Equiv (.app f a l) (.app g b l')
  | indexed {i : Interval} {t : Ty} {l : Loc} : Equiv (.array i t l) (.func .int t)
  | symm {t u : Ty} (h : Equiv t u) : Equiv u t
  | trans {t u v : Ty} (h : Equiv t u) (h' : Equiv u v) : Equiv t v

/-- A type without locations in which arrays are functions. -/
def canonical : Ty → Ty
  | .base b _ => .base b .none
  | .array _ t _ => .app (.app (.arrow .none) (.base .int .none) .none) t.canonical .none
  | .tuple n _ => .tuple n .none
  | .arrow _ => .arrow .none
  | .app f a _ => .app f.canonical a.canonical .none
  | .data n => .data (.bare n.text)
  | .rigid n => .rigid (.bare n.text)
  | .metavar n => .metavar (.bare n.text)

theorem equiv_canonical (t : Ty) : t.Equiv t.canonical := by
  induction t with
  | base | tuple | arrow => constructor
  | data n => exact .data rfl
  | rigid n => exact .rigid rfl
  | metavar n => exact .metavar rfl
  | app f a l hf ha => exact .app hf ha
  | array i t l ih => exact .trans .indexed (.app (.app .arrow .base) ih)

variable {u a b : Ty} {s : Subst} {eqs : List Equation}

theorem equiv_iff {t : Ty} : t.Equiv u ↔ t.canonical = u.canonical := by
  constructor
  · intro h
    induction h with
    | base | tuple | arrow | indexed => rfl
    | data h | rigid h | metavar h => simp only [canonical, h]
    | array h ih => simp only [canonical, ih]
    | app hf ha ihf iha => simp only [canonical, ihf, iha]
    | symm h ih => exact ih.symm
    | trans h h' ih ih' => exact ih.trans ih'
  · intro h
    have hu := u.equiv_canonical.symm
    rw [← h] at hu
    exact t.equiv_canonical.trans hu

instance : Setoid Ty where
  r := Equiv
  iseqv :=
    { refl := fun _ => equiv_iff.2 rfl
      symm := .symm
      trans := .trans }

theorem equiv_iff_canonical {t : Ty} : t ≈ u ↔ t.canonical = u.canonical := equiv_iff

theorem equiv_func {c d : Ty} : func a b ≈ func c d ↔ a ≈ c ∧ b ≈ d := by
  simp only [equiv_iff_canonical, func, canonical, app.injEq, true_and, and_true]

/-! ## Applying substitutions -/

theorem subst_eq_self {t : Ty} (h : ∀ x ∈ t.freeVars, s.get? x = none) : t.subst s = t := by
  induction t with
  | rigid n | metavar n => simp [subst, h n.text (by simp [freeVars])]
  | array i t l ih => simp only [subst, ih h]
  | app f a l ihf iha =>
    have hf := ihf fun x hx => h x (NameSet.mem_union.2 (.inl hx))
    have ha := iha fun x hx => h x (NameSet.mem_union.2 (.inr hx))
    simp only [subst, hf, ha]
  | base | tuple | arrow | data => rfl

@[simp] theorem subst_empty (t : Ty) : t.subst ∅ = t := subst_eq_self (by simp)

theorem subst_func (s : Subst) (a b : Ty) : (func a b).subst s ≈ func (a.subst s) (b.subst s) :=
  equiv_iff_canonical.2 rfl

theorem subst_binary (s : Subst) (a b c : Ty) :
    (funcs [a, b] c).subst s ≈ funcs [a.subst s, b.subst s] (c.subst s) :=
  equiv_iff_canonical.2 rfl

@[simp] theorem Subst.get?_compose (s t : Subst) (x : String) :
    (s.compose t).get? x = (s.get? x).or ((t.get? x).map (Ty.subst s)) := by
  simp [compose]

theorem Subst.of_get?_compose {t : Subst} {x : String} (h : (s.compose t).get? x = some u) :
    s.get? x = some u ∨ ∃ v, t.get? x = some v ∧ u = v.subst s := by
  rw [get?_compose, Option.or_eq_some_iff] at h
  rcases h with h | ⟨-, h⟩
  · exact .inl h
  · obtain ⟨v, hv, rfl⟩ := Option.map_eq_some_iff.1 h
    exact .inr ⟨v, hv, rfl⟩

/-- `S` has what `s` has found built in. -/
def Subst.Absorbs (S s : Subst) : Prop := ∀ x t, s.get? x = some t → S.get? x = some (t.subst S)

namespace Subst.Absorbs

variable {S s t : Subst}

theorem subst (h : S.Absorbs s) (t : Ty) : (t.subst s).subst S = t.subst S := by
  induction t with
  | rigid n | metavar n =>
    cases hs : s.get? n.text with
    | none => simp [Ty.subst, hs]
    | some u => simp [Ty.subst, hs, h _ _ hs]
  | array i t l ih => simp only [Ty.subst, ih]
  | app f a l ihf iha => simp only [Ty.subst, ihf, iha]
  | base | tuple | arrow | data => rfl

theorem later (h : S.Absorbs (s.compose t)) : S.Absorbs s := by
  intro x u hu
  exact h x u (by simp [hu])

theorem earlier (h : S.Absorbs (s.compose t))
    (hdisjoint : ∀ x u, t.get? x = some u → s.get? x = none) : S.Absorbs t := by
  intro x u hu
  have hx := h x (u.subst s) (by simp [hdisjoint x u hu, hu])
  rwa [h.later.subst] at hx

end Subst.Absorbs

/-- No variable that has been replaced is left. -/
def Subst.Resolved (s : Subst) : Prop :=
  ∀ x t, s.get? x = some t → ∀ y ∈ t.freeVars, s.get? y = none

theorem Subst.Resolved.absorbs_self (h : s.Resolved) : s.Absorbs s := by
  intro x t ht
  rw [ht, Ty.subst_eq_self (h x t ht)]

theorem mem_freeVars_subst {t : Ty} {y : String} (h : y ∈ (t.subst s).freeVars) :
    (y ∈ t.freeVars ∧ s.get? y = none) ∨ ∃ x u, s.get? x = some u ∧ y ∈ u.freeVars := by
  induction t with
  | rigid n | metavar n =>
    cases hn : s.get? n.text with
    | none =>
      have hy : y = n.text := by simpa [subst, hn, freeVars] using h
      subst hy
      exact .inl ⟨by simp [freeVars], hn⟩
    | some u => exact .inr ⟨_, u, hn, by simpa [subst, hn] using h⟩
  | array i t l ih => exact ih h
  | app f a l ihf iha =>
    rcases NameSet.mem_union.1 h with h | h
    · exact (ihf h).imp_left fun h => ⟨NameSet.mem_union.2 (.inl h.1), h.2⟩
    · exact (iha h).imp_left fun h => ⟨NameSet.mem_union.2 (.inr h.1), h.2⟩
  | base | tuple | arrow | data => simp [subst, freeVars] at h

theorem Subst.Resolved.get?_eq_none (h : s.Resolved) {t : Ty} {x : String}
    (hx : x ∈ (t.subst s).freeVars) : s.get? x = none := by
  rcases mem_freeVars_subst hx with ⟨-, hnone⟩ | ⟨y, u, hu, hxu⟩
  · exact hnone
  · exact h y u hu x hxu

/-! ## Types over a set of metavariables -/

def Over (U : Set String) : Ty → Prop
  | .rigid _ => False
  | .metavar n => n.text ∈ U
  | .array _ t _ => t.Over U
  | .app f a _ => f.Over U ∧ a.Over U
  | .base .. | .tuple .. | .arrow _ | .data _ => True

variable {U U' V : Set String}

@[simp] theorem over_metavar {n : Name} : (metavar n).Over U ↔ n.text ∈ U := Iff.rfl

theorem over_int : Ty.int.Over U := trivial

theorem over_bool : Ty.bool.Over U := trivial

@[simp] theorem over_func : (func a b).Over U ↔ a.Over U ∧ b.Over U := by
  simp [func, Over]

theorem Over.mono {t : Ty} (h : t.Over U) (hUV : U ⊆ V) : t.Over V := by
  induction t with
  | rigid n => exact h
  | metavar n => exact hUV h
  | array i t l ih => exact ih h
  | app f a l ihf iha => exact ⟨ihf h.1, iha h.2⟩
  | base | tuple | arrow | data => trivial

theorem Over.mem {t : Ty} (h : t.Over U) : ∀ x ∈ t.freeVars, x ∈ U := by
  induction t with
  | rigid n => exact h.elim
  | metavar n => simpa [freeVars] using h
  | array i t l ih => exact ih h
  | app f a l ihf iha =>
    intro x hx
    rcases NameSet.mem_union.1 hx with hx | hx
    · exact ihf h.1 x hx
    · exact iha h.2 x hx
  | base | tuple | arrow | data => simp [freeVars]

theorem Over.of_mem {t : Ty} (h : t.Over U) (hV : ∀ x ∈ t.freeVars, x ∈ V) : t.Over V := by
  induction t with
  | rigid n => exact h
  | metavar n => exact hV _ (by simp [freeVars])
  | array i t l ih => exact ih h hV
  | app f a l ihf iha =>
    exact ⟨ihf h.1 fun x hx => hV x (NameSet.mem_union.2 (.inl hx)),
      iha h.2 fun x hx => hV x (NameSet.mem_union.2 (.inr hx))⟩
  | base | tuple | arrow | data => trivial

theorem Over.subst_eq_self {t : Ty} (h : t.Over U) (hs : ∀ x ∈ U, s.get? x = none) :
    t.subst s = t :=
  Ty.subst_eq_self fun x hx => hs x (h.mem x hx)

/-- A substitution that takes types over `U` to types over `U'`, and that has an entry
for no other metavariable than those that it does away with. -/
structure Subst.Maps (s : Subst) (U U' : Set String) : Prop where
  subset : U' ⊆ U
  solved : ∀ {x : String} {t : Ty}, s.get? x = some t → x ∈ U ∧ x ∉ U' ∧ t.Over U'
  kept : ∀ {x : String}, x ∈ U → s.get? x = none → x ∈ U'

theorem Over.subst {t : Ty} (h : t.Over U) (hs : s.Maps U U') : (t.subst s).Over U' := by
  induction t with
  | rigid n => exact h.elim
  | metavar n =>
    cases hn : s.get? n.text with
    | none => simpa [Ty.subst, hn] using hs.kept h hn
    | some u => simpa [Ty.subst, hn] using (hs.solved hn).2.2
  | array i t l ih => exact ih h
  | app f a l ihf iha => exact ⟨ihf h.1, iha h.2⟩
  | base | tuple | arrow | data => trivial

namespace Subst.Maps

variable {s t : Subst} {U'' : Set String}

theorem empty (U : Set String) : Subst.Maps ∅ U U :=
  { subset := subset_rfl
    solved := by simp
    kept := fun h _ => h }

theorem get?_eq_none (h : s.Maps U U') {x : String} (hx : x ∈ U') : s.get? x = none := by
  cases hs : s.get? x with
  | none => rfl
  | some t => exact absurd hx (h.solved hs).2.1

theorem disjoint (h : s.Maps U U') (h' : t.Maps U' U'') :
    ∀ x u, s.get? x = some u → t.get? x = none := by
  intro x u hu
  cases ht : t.get? x with
  | none => rfl
  | some v => exact absurd (h'.solved ht).1 (h.solved hu).2.1

theorem compose (h : s.Maps U U') (h' : t.Maps U' U'') : (t.compose s).Maps U U'' := by
  constructor
  · exact h'.subset.trans h.subset
  · intro x u hu
    rcases of_get?_compose hu with hu | ⟨v, hv, rfl⟩
    · obtain ⟨hx, hover⟩ := h'.solved hu
      exact ⟨h.subset hx, hover⟩
    · obtain ⟨hx, hx', hover⟩ := h.solved hv
      exact ⟨hx, fun hmem => hx' (h'.subset hmem), hover.subst h'⟩
  · intro x hx hnone
    rw [get?_compose, Option.or_eq_none_iff, Option.map_eq_none_iff] at hnone
    exact h'.kept (h.kept hx hnone.2) hnone.1

theorem widen (h : s.Maps U U') (hV : Disjoint U V) : s.Maps (U ∪ V) (U' ∪ V) := by
  constructor
  · exact Set.union_subset_union_left V h.subset
  · intro x u hu
    obtain ⟨hx, hx', hover⟩ := h.solved hu
    refine ⟨.inl hx, ?_, hover.mono Set.subset_union_left⟩
    rintro (hmem | hmem)
    · exact hx' hmem
    · exact Set.disjoint_left.1 hV hx hmem
  · rintro x (hx | hx) hnone
    · exact .inl (h.kept hx hnone)
    · exact .inr hx

theorem singleton {x : String} {v : Ty} (hx : x ∈ U) (hv : v.Over U) (hxv : x ∉ v.freeVars) :
    Subst.Maps (.singleton x v) U (U \ {x}) := by
  constructor
  · exact Set.sdiff_subset
  · intro y u hu
    rw [NameMap.get?_singleton] at hu
    split at hu
    · next hyx =>
      cases hu
      subst hyx
      refine ⟨hx, by simp, hv.of_mem fun z hz => ⟨hv.mem z hz, ?_⟩⟩
      intro hzx
      exact hxv (hzx ▸ hz)
    · cases hu
  · intro y hy hnone
    refine ⟨hy, fun hyx => ?_⟩
    have hyx : y = x := hyx
    simp [hyx] at hnone

theorem resolved (h : s.Maps U U') : s.Resolved := fun _ _ ht y hy =>
  h.get?_eq_none ((h.solved ht).2.2.mem y hy)

end Subst.Maps

/-! ## Unification -/

theorem bindStep_sound {loc : Loc} {x : Name} {t : Ty} (ht : t.Over U)
    (h : bindStep loc x t = .split eqs) (S : Subst) : (metavar x).subst S ≈ t.subst S := by
  unfold bindStep at h
  split at h
  · exact ht.elim
  · split at h
    · next y heq =>
      simp only [subst, heq]
      cases S.get? x.text with
      | none => exact .metavar heq.symm
      | some u => exact Setoid.refl u
    · cases h
  · split at h <;> cases h

theorem step_split_sound {loc : Loc} {t : Ty} (ht : t.Over U) (hu : u.Over U)
    (h : step loc t u = .split eqs) :
    (∀ eq ∈ eqs, eq.1.Over U ∧ eq.2.Over U) ∧
      ∀ S : Subst, (∀ eq ∈ eqs, eq.1.subst S ≈ eq.2.subst S) → t.subst S ≈ u.subst S := by
  unfold step at h
  split at h
  · split at h
    · next hab =>
      cases h
      exact ⟨by simp, fun S _ => hab ▸ .base⟩
    · cases h
  · cases h
    constructor
    · simpa using ⟨ht, hu⟩
    · intro S hS
      have helem := equiv_iff_canonical.1 (hS _ (List.mem_singleton_self _))
      exact equiv_iff_canonical.2 (by simp only [subst, canonical, helem])
  · cases h
    constructor
    · simp only [List.forall_mem_cons]
      exact ⟨⟨trivial, hu.1.2⟩, ⟨ht, hu.2⟩, by simp⟩
    · intro S hS
      simp only [List.forall_mem_cons, equiv_iff_canonical] at hS
      exact equiv_iff_canonical.2 (by simp only [subst, canonical, ← hS.1, hS.2.1])
  · cases h
    constructor
    · simp only [List.forall_mem_cons]
      exact ⟨⟨trivial, ht.1.2⟩, ⟨hu, ht.2⟩, by simp⟩
    · intro S hS
      simp only [List.forall_mem_cons, equiv_iff_canonical] at hS
      exact equiv_iff_canonical.2 (by simp only [subst, canonical, ← hS.1, hS.2.1])
  · split at h
    · next hnm =>
      cases h
      exact ⟨by simp, fun S _ => hnm ▸ .tuple⟩
    · cases h
  · cases h
    exact ⟨by simp, fun S _ => .arrow⟩
  · split at h
    · next hab =>
      cases h
      exact ⟨by simp, fun S _ => .data hab⟩
    · cases h
  · cases h
    constructor
    · simp only [List.forall_mem_cons]
      exact ⟨⟨ht.1, hu.1⟩, ⟨ht.2, hu.2⟩, by simp⟩
    · intro S hS
      simp only [List.forall_mem_cons] at hS
      exact .app hS.1 hS.2.1
  · exact ht.elim
  · have hnil := bindStep_split h
    subst hnil
    exact ⟨by simp, fun S _ => bindStep_sound hu h S⟩
  · exact hu.elim
  · have hnil := bindStep_split h
    subst hnil
    exact ⟨by simp, fun S _ => Setoid.symm (bindStep_sound ht h S)⟩
  · cases h

theorem step_bind_sound {loc : Loc} {t v : Ty} {x : String} (ht : t.Over U) (hu : u.Over U)
    (h : step loc t u = .bind x v) :
    x ∈ U ∧ v.Over U ∧ x ∉ v.freeVars ∧
      ∀ S : Subst, S.get? x = some (v.subst S) → t.subst S ≈ u.subst S := by
  unfold step at h
  split at h
  · split at h <;> cases h
  · cases h
  · cases h
  · cases h
  · split at h <;> cases h
  · cases h
  · split at h <;> cases h
  · cases h
  · exact ht.elim
  · obtain ⟨rfl, rfl, hx⟩ := bindStep_bind h
    refine ⟨ht, hu, hx, fun S hS => ?_⟩
    simp only [subst, hS, Option.getD_some]
    exact Setoid.refl _
  · exact hu.elim
  · obtain ⟨rfl, rfl, hx⟩ := bindStep_bind h
    refine ⟨hu, ht, hx, fun S hS => ?_⟩
    simp only [subst, hS, Option.getD_some]
    exact Setoid.refl _
  · cases h

theorem solve_cons_of_split {loc : Loc} {t : Ty} {parts : List Equation}
    (h : step loc t u = .split parts) (rest : List Equation) (s : Subst) :
    solve loc ((t, u) :: rest) s = solve loc (parts ++ rest) s := by
  rw [solve]
  split <;> simp_all

theorem solve_cons_of_bind {loc : Loc} {t v : Ty} {x : String} (h : step loc t u = .bind x v)
    (rest : List Equation) (s : Subst) :
    solve loc ((t, u) :: rest) s =
      solve loc (substEquations (.singleton x v) rest) (Subst.compose (.singleton x v) s) := by
  rw [solve]
  split <;> simp_all

theorem solve_cons_of_fail {loc : Loc} {t : Ty} {e : ElaborationError} (h : step loc t u = .fail e)
    (rest : List Equation) (s : Subst) : solve loc ((t, u) :: rest) s = .error e := by
  rw [solve]
  split <;> simp_all

/-- What solving returns maps on from where it started, and whatever absorbs it solves
all equations. -/
theorem solve_sound {loc : Loc} {r : Subst} (hs : s.Maps V U)
    (heqs : ∀ eq ∈ eqs, eq.1.Over U ∧ eq.2.Over U) (h : solve loc eqs s = .ok r) :
    ∃ U', r.Maps V U' ∧ ∀ S : Subst, S.Absorbs r →
      S.Absorbs s ∧ ∀ eq ∈ eqs, eq.1.subst S ≈ eq.2.subst S := by
  induction eqs, s using solve.induct loc generalizing U with
  | case1 s =>
    rw [solve] at h
    cases h
    exact ⟨U, hs, fun S hS => ⟨hS, by simp⟩⟩
  | case2 s t u rest parts hstep ih =>
    rw [solve_cons_of_split hstep] at h
    have htu := heqs (t, u) List.mem_cons_self
    obtain ⟨hparts, hsound⟩ := step_split_sound htu.1 htu.2 hstep
    have hall : ∀ eq ∈ parts ++ rest, eq.1.Over U ∧ eq.2.Over U := by
      intro eq heq
      rcases List.mem_append.1 heq with heq | heq
      · exact hparts eq heq
      · exact heqs eq (List.mem_cons_of_mem _ heq)
    obtain ⟨U', hr, hsolves⟩ := ih hs hall h
    refine ⟨U', hr, fun S hS => ⟨(hsolves S hS).1, ?_⟩⟩
    have hholds := (hsolves S hS).2
    rw [List.forall_mem_cons]
    constructor
    · exact hsound S fun eq heq => hholds eq (List.mem_append_left _ heq)
    · exact fun eq heq => hholds eq (List.mem_append_right _ heq)
  | case3 s t u rest x v hstep found =>
    rename_i ih
    rw [solve_cons_of_bind hstep] at h
    have htu := heqs (t, u) List.mem_cons_self
    obtain ⟨hx, hv, hxv, hsound⟩ := step_bind_sound htu.1 htu.2 hstep
    have hfound : found.Maps U (U \ {x}) := .singleton hx hv hxv
    have hall : ∀ eq ∈ substEquations found rest, eq.1.Over (U \ {x}) ∧ eq.2.Over (U \ {x}) := by
      intro eq heq
      obtain ⟨eq', heq', rfl⟩ := List.mem_map.1 heq
      have hover := heqs eq' (List.mem_cons_of_mem _ heq')
      exact ⟨hover.1.subst hfound, hover.2.subst hfound⟩
    obtain ⟨U', hr, hsolves⟩ := ih (hs.compose hfound) hall h
    refine ⟨U', hr, fun S hS => ?_⟩
    obtain ⟨habsorbs, hholds⟩ := hsolves S hS
    refine ⟨habsorbs.earlier (hs.disjoint hfound), List.forall_mem_cons.2 ⟨?_, ?_⟩⟩
    · exact hsound S (habsorbs.later x v (by simp [found]))
    · intro eq heq
      have heq' := hholds _ (List.mem_map_of_mem heq)
      rwa [habsorbs.later.subst, habsorbs.later.subst] at heq'
  | case4 s t u rest e hstep =>
    rw [solve_cons_of_fail hstep] at h
    cases h

theorem unify_sound {t : Ty} {loc : Loc} (ht : t.Over U) (hu : u.Over U)
    (h : t.unify u loc = .ok s) :
    ∃ U', s.Maps U U' ∧ ∀ S : Subst, S.Absorbs s → t.subst S ≈ u.subst S := by
  have heqs : ∀ eq ∈ [(t, u)], eq.1.Over U ∧ eq.2.Over U := by simpa using ⟨ht, hu⟩
  obtain ⟨U', hmaps, hsolves⟩ := solve_sound (.empty U) heqs h
  exact ⟨U', hmaps, fun S hS => (hsolves S hS).2 (t, u) (List.mem_singleton_self _)⟩

end Ty

end GuardedCommands
