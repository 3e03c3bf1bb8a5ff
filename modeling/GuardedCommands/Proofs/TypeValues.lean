import GuardedCommands.Proofs.Kinding

/-!
# Values of types

An assignment says what every type variable stands for.  The value of a type under an
assignment is the type itself with its variables replaced, in canonical form, so two
types have equal values exactly if the assignment makes them equivalent.  What a
substitution has found holds under an assignment if every variable that it replaces has
the value of the type in its place; such an assignment cannot tell a type from what the
substitution makes of it.

Unification finds all solutions of an equation.  Where no variable is applied, the
assignments under which its result holds are those that give both sides the same value,
and if it fails there are none.
-/

namespace GuardedCommands

namespace Ty

abbrev Assignment := String → Ty

/-- A type whose variables stand for what an assignment says, without locations and with
functions in the place of arrays. -/
def value (v : Assignment) : Ty → Ty
  | .base b _ => .base b .none
  | .array _ t _ => .app (.app (.arrow .none) (.base .int .none) .none) (t.value v) .none
  | .tuple n _ => .tuple n .none
  | .arrow _ => .arrow .none
  | .app f a _ => .app (f.value v) (a.value v) .none
  | .data n => .data (.bare n.text)
  | .rigid n | .metavar n => v n.text

def fn (a b : Ty) : Ty := .app (.app (.arrow .none) a .none) b .none

variable {t u : Ty} {s r : Subst} {v w : Assignment}

@[simp] theorem fn_inj {a b c d : Ty} : fn a b = fn c d ↔ a = c ∧ b = d := by
  simp [fn]

@[simp] theorem value_func (a b : Ty) : (func a b).value v = fn (a.value v) (b.value v) := rfl

theorem value_bool : Ty.bool.value v = Ty.bool := rfl

theorem value_congr (h : ∀ x ∈ t.freeVars, v x = w x) : t.value v = t.value w := by
  induction t with
  | rigid n | metavar n => exact h n.text (by simp [freeVars])
  | array i t l ih => simp only [value, ih h]
  | app f a l ihf iha =>
    have hf := ihf fun x hx => h x (NameSet.mem_union.2 (.inl hx))
    have ha := iha fun x hx => h x (NameSet.mem_union.2 (.inr hx))
    simp only [value, hf, ha]
  | base | tuple | arrow | data => rfl

theorem eq_of_value_eq (h : t.value v = t.value w) : ∀ x ∈ t.freeVars, v x = w x := by
  induction t with
  | rigid n | metavar n =>
    intro x hx
    rw [NameSet.mem_singleton.1 hx]
    exact h
  | array i t l ih => exact ih (app.inj h).2.1
  | app f a l ihf iha =>
    intro x hx
    rcases NameSet.mem_union.1 hx with hx | hx
    · exact ihf (app.inj h).1 x hx
    · exact iha (app.inj h).2.1 x hx
  | base | tuple | arrow | data => simp [freeVars]

def Assignment.after (v : Assignment) (s : Subst) : Assignment := fun x =>
  ((s.get? x).map (value v)).getD (v x)

theorem value_subst (t : Ty) (s : Subst) (v : Assignment) :
    (t.subst s).value v = t.value (v.after s) := by
  induction t with
  | rigid n | metavar n => cases hn : s.get? n.text <;> simp [subst, value, Assignment.after, hn]
  | array i t l ih => simp only [subst, value, ih]
  | app f a l ihf iha => simp only [subst, value, ihf, iha]
  | base | tuple | arrow | data => rfl

/-! ## Substitutions that hold -/

/-- Every variable that a substitution replaces has the value of the type in its place. -/
def Subst.Holds (s : Subst) (v : Assignment) : Prop :=
  ∀ x t, s.get? x = some t → v x = t.value v

theorem Subst.holds_empty : Subst.Holds ∅ v := by
  intro x t h
  cases h

theorem Subst.Holds.after_eq (h : s.Holds v) : v.after s = v := by
  funext x
  cases hx : s.get? x with
  | none => simp [Assignment.after, hx]
  | some t => simp [Assignment.after, hx, h x t hx]

theorem Subst.Holds.value_subst (h : s.Holds v) (t : Ty) : (t.subst s).value v = t.value v := by
  rw [Ty.value_subst, h.after_eq]

theorem Subst.Resolved.holds_after (h : s.Resolved) (v : Assignment) : s.Holds (v.after s) := by
  intro x t ht
  rw [← Ty.value_subst, Ty.subst_eq_self (h x t ht)]
  simp [Assignment.after, ht]

theorem Subst.holds_singleton {x : String} {t : Ty} :
    Subst.Holds (.singleton x t) v ↔ v x = t.value v := by
  constructor
  · intro h
    exact h x t (by simp)
  · intro h y u hy
    rw [NameMap.get?_singleton] at hy
    split at hy
    · next hyx =>
      cases hy
      rw [hyx, h]
    · cases hy

theorem Subst.holds_compose (hdisjoint : ∀ x u, r.get? x = some u → s.get? x = none) :
    (s.compose r).Holds v ↔ r.Holds v ∧ s.Holds v := by
  constructor
  · intro h
    have hs : s.Holds v := fun x t ht => h x t (by simp [ht])
    refine ⟨fun x t ht => ?_, hs⟩
    rw [← hs.value_subst t]
    exact h x (t.subst s) (by simp [hdisjoint x t ht, ht])
  · rintro ⟨hr, hs⟩ x t ht
    rcases Subst.of_get?_compose ht with ht | ⟨u, hu, rfl⟩
    · exact hs x t ht
    · rw [hs.value_subst, hr x u hu]

/-! ## Types without applied variables -/

def Subst.HeadsRooted (s : Subst) : Prop := ∀ x t, s.get? x = some t → t.HeadsRooted

theorem Subst.headsRooted_empty : Subst.HeadsRooted ∅ := by
  intro x t h
  cases h

theorem HeadsRooted.subst_of_mem (ht : t.HeadsRooted)
    (hs : ∀ x ∈ t.freeVars, ∀ u, s.get? x = some u → u.HeadsRooted) : (t.subst s).HeadsRooted := by
  induction t with
  | rigid n | metavar n =>
    cases hn : s.get? n.text with
    | none => simp [Ty.subst, hn, Ty.HeadsRooted]
    | some u => simpa [Ty.subst, hn] using hs _ (NameSet.mem_singleton.2 rfl) u hn
  | array i t l ih => exact ih ht hs
  | app f a l ihf iha =>
    exact ⟨rooted_subst ht.1 s, ihf ht.2.1 fun x hx => hs x (NameSet.mem_union.2 (.inl hx)),
      iha ht.2.2 fun x hx => hs x (NameSet.mem_union.2 (.inr hx))⟩
  | base | tuple | arrow | data => trivial

theorem HeadsRooted.subst (ht : t.HeadsRooted) (hs : s.HeadsRooted) : (t.subst s).HeadsRooted :=
  ht.subst_of_mem fun x _ => hs x

theorem Subst.HeadsRooted.compose (hs : s.HeadsRooted) (hr : r.HeadsRooted) :
    (s.compose r).HeadsRooted := by
  intro x t ht
  rcases Subst.of_get?_compose ht with ht | ⟨u, hu, rfl⟩
  · exact hs x t ht
  · exact (hr x u hu).subst hs

@[simp] theorem headsRooted_func {a b : Ty} :
    (func a b).HeadsRooted ↔ a.HeadsRooted ∧ b.HeadsRooted := by
  simp [func, HeadsRooted, rooted]

theorem Over.headsRooted (h : t.Over ∅) : t.HeadsRooted := by
  have hroot : ∀ u : Ty, u.Over ∅ → u.rooted = true := by
    intro u hu
    induction u with
    | rigid | metavar => exact hu.elim
    | app f a l ihf _ => exact ihf hu.1
    | base | array | tuple | arrow | data => rfl
  induction t with
  | rigid | metavar => exact h.elim
  | array i t l ih => exact ih h
  | app f a l ihf iha => exact ⟨hroot f h.1, ihf h.1, iha h.2⟩
  | base | tuple | arrow | data => trivial

theorem eq_arrow_of_value (ht : t.rooted = true) (h : t.value v = .arrow .none) :
    ∃ l, t = .arrow l := by
  cases t with
  | arrow l => exact ⟨l, rfl⟩
  | rigid | metavar => cases ht
  | base | array | tuple | app | data => cases h

theorem value_app_ne {f a b : Ty} {l : Loc} (hf : f.rooted = true) (hg : f.HeadsRooted)
    (hfunc : ∀ l' dom l'', f ≠ .app (.arrow l') dom l'') :
    fn .int b ≠ (app f a l).value v := by
  intro h
  obtain ⟨hhead, -⟩ := app.inj h
  cases f with
  | app g dom l'' =>
    obtain ⟨l', rfl⟩ := eq_arrow_of_value hg.1 (app.inj hhead).1.symm
    exact hfunc l' dom l'' rfl
  | array i t l' => cases (app.inj hhead).1
  | rigid | metavar => cases hf
  | base | tuple | arrow | data => cases hhead

/-! ## Solutions of equations -/

theorem size_le_of_mem {x : String} (h : x ∈ t.freeVars) : (v x).size ≤ (t.value v).size := by
  induction t with
  | rigid n | metavar n => rw [NameSet.mem_singleton.1 h, value]
  | array i t l ih =>
    have := ih h
    simp only [value, size]
    omega
  | app f a l ihf iha =>
    simp only [value, size]
    rcases NameSet.mem_union.1 h with h | h
    · have := ihf h
      omega
    · have := iha h
      omega
  | base | tuple | arrow | data => simp [freeVars] at h

theorem ne_value_of_mem {x : String} (h : x ∈ t.freeVars) (hr : t ≠ .rigid ⟨x, t.loc⟩)
    (hm : t ≠ .metavar ⟨x, t.loc⟩) : v x ≠ t.value v := by
  intro heq
  have hsize := congrArg size heq
  cases t with
  | rigid n =>
    obtain rfl := NameSet.mem_singleton.1 h
    exact hr rfl
  | metavar n =>
    obtain rfl := NameSet.mem_singleton.1 h
    exact hm rfl
  | array i t l =>
    have := size_le_of_mem (v := v) (t := t) h
    simp only [value, size] at hsize
    omega
  | app f a l =>
    simp only [value, size] at hsize
    rcases NameSet.mem_union.1 h with h | h
    · have := size_le_of_mem (v := v) h
      omega
    · have := size_le_of_mem (v := v) h
      omega
  | base | tuple | arrow | data => simp [freeVars] at h

/-- A step of unification keeps the solutions of an equation: its parts have the same
ones, a variable that is found stands for the type in its place, and where it fails there
are none. -/
def Step.Solves (step : Step) (t u : Ty) : Prop :=
  match step with
  | .split eqs => (∀ eq ∈ eqs, eq.1.HeadsRooted ∧ eq.2.HeadsRooted) ∧
      ∀ v : Assignment, (∀ eq ∈ eqs, eq.1.value v = eq.2.value v) ↔ t.value v = u.value v
  | .bind x b => b.HeadsRooted ∧ ∀ v : Assignment, v x = b.value v ↔ t.value v = u.value v
  | .fail _ => ∀ v : Assignment, t.value v ≠ u.value v

theorem Step.Solves.symm {step : Step} (h : step.Solves t u) : step.Solves u t := by
  cases step with
  | split eqs | bind x b => exact ⟨h.1, fun v => (h.2 v).trans eq_comm⟩
  | fail e => exact fun v heq => h v heq.symm

theorem bindStep_solves (loc : Loc) (x : Name) {n : Ty} (hn : ∀ v, n.value v = v x.text)
    (ht : t.HeadsRooted) : (bindStep loc x t).Solves n t := by
  unfold bindStep
  split
  · next y =>
    split
    · next hyx => exact ⟨by simp, fun v => by simp [hn, value, hyx]⟩
    · exact ⟨trivial, fun v => by rw [hn]⟩
  · next y =>
    split
    · next hyx => exact ⟨by simp, fun v => by simp [hn, value, hyx]⟩
    · exact ⟨trivial, fun v => by rw [hn]⟩
  · next hrigid hmeta =>
    split
    · next hmem =>
      intro v
      rw [hn]
      exact ne_value_of_mem hmem (hrigid _) (hmeta _)
    · exact ⟨ht, fun v => by rw [hn]⟩

theorem step_solves (loc : Loc) (ht : t.HeadsRooted) (hu : u.HeadsRooted) :
    (step loc t u).Solves t u := by
  unfold step
  split
  · next a _ b _ =>
    split
    · next hab => exact ⟨by simp, fun v => by simp [value, hab]⟩
    · next hab => exact fun v heq => hab (base.inj heq).1
  · exact ⟨by simpa using ⟨ht, hu⟩, fun v => by simp [value]⟩
  · refine ⟨by simpa using ⟨⟨trivial, hu.2.1.2.2⟩, ht, hu.2.2⟩, fun v => ?_⟩
    simp [value]
  · refine ⟨by simpa using ⟨⟨trivial, ht.2.1.2.2⟩, hu, ht.2.2⟩, fun v => ?_⟩
    simp only [List.forall_mem_cons, List.not_mem_nil, value, app.injEq]
    grind
  · split
    · next hnm => exact ⟨by simp, fun v => by simp [value, hnm]⟩
    · next hnm => exact fun v heq => hnm (tuple.inj heq).1
  · exact ⟨by simp, fun v => by simp [value]⟩
  · split
    · next hab => exact ⟨by simp, fun v => by simp [value, hab]⟩
    · next hab => exact fun v heq => hab (by simpa [value, Name.bare] using heq)
  · refine ⟨by simpa using ⟨⟨ht.2.1, hu.2.1⟩, ht.2.2, hu.2.2⟩, fun v => ?_⟩
    simp [value]
  · exact bindStep_solves loc _ (fun _ => rfl) hu
  · exact bindStep_solves loc _ (fun _ => rfl) hu
  · exact (bindStep_solves loc _ (fun _ => rfl) ht).symm
  · exact (bindStep_solves loc _ (fun _ => rfl) ht).symm
  · next hr hm hr' hm' hbase harray hleft hright htuple harrow hdata happ =>
    -- two constructors that are different, or a type that is no function beside an array
    intro v heq
    cases t with
    | rigid x => exact hr x rfl
    | metavar x => exact hm x rfl
    | base a l =>
      cases u with
      | rigid y => exact hr' y rfl
      | metavar y => exact hm' y rfl
      | base b l' => exact hbase a l b l' rfl rfl
      | array | tuple | arrow | app | data => cases heq
    | tuple a l =>
      cases u with
      | rigid y => exact hr' y rfl
      | metavar y => exact hm' y rfl
      | tuple b l' => exact htuple a l b l' rfl rfl
      | base | array | arrow | app | data => cases heq
    | arrow l =>
      cases u with
      | rigid y => exact hr' y rfl
      | metavar y => exact hm' y rfl
      | arrow l' => exact harrow l l' rfl rfl
      | base | array | tuple | app | data => cases heq
    | data a =>
      cases u with
      | rigid y => exact hr' y rfl
      | metavar y => exact hm' y rfl
      | data b => exact hdata a b rfl rfl
      | base | array | tuple | arrow | app => cases heq
    | array i a l =>
      cases u with
      | rigid y => exact hr' y rfl
      | metavar y => exact hm' y rfl
      | array j b l' => exact harray i a l j b l' rfl rfl
      | app f b l' =>
        refine value_app_ne hu.1 hu.2.1 (fun l₁ dom l₂ hf => ?_) heq
        exact hleft i a l l₁ dom l₂ b l' rfl (hf ▸ rfl)
      | base | tuple | arrow | data => cases heq
    | app f a l =>
      cases u with
      | rigid y => exact hr' y rfl
      | metavar y => exact hm' y rfl
      | app g b l' => exact happ f a l g b l' rfl rfl
      | array j b l' =>
        refine value_app_ne ht.1 ht.2.1 (fun l₁ dom l₂ hf => ?_) heq.symm
        exact hright l₁ dom l₂ a l j b l' (hf ▸ rfl) rfl
      | base | tuple | arrow | data => cases heq

/-- Solving finds all solutions of the equations among those of what has been found
already, and fails only if there are none. -/
theorem solve_principal (loc : Loc) {eqs : List Equation} {s : Subst}
    (heqs : ∀ eq ∈ eqs, eq.1.HeadsRooted ∧ eq.2.HeadsRooted) (hs : s.HeadsRooted)
    (hnew : ∀ x ∈ equationVars eqs, s.get? x = none) :
    match solve loc eqs s with
    | .ok r => r.HeadsRooted ∧ ∀ v : Assignment, r.Holds v ↔
        s.Holds v ∧ ∀ eq ∈ eqs, eq.1.value v = eq.2.value v
    | .error _ => ∀ v : Assignment, s.Holds v → ¬ ∀ eq ∈ eqs, eq.1.value v = eq.2.value v := by
  induction eqs, s using solve.induct loc with
  | case1 s =>
    rw [solve]
    exact ⟨hs, by simp⟩
  | case2 s t u rest parts hstep ih =>
    rw [solve_cons_of_split hstep]
    obtain ⟨htu, hrest⟩ := List.forall_mem_cons.1 heqs
    obtain ⟨hparts, hsolves⟩ : (Step.split parts).Solves t u :=
      hstep ▸ step_solves loc htu.1 htu.2
    have hvars : ∀ x ∈ equationVars (parts ++ rest), s.get? x = none := by
      intro x hx
      refine hnew x ?_
      simp only [mem_equationVars_append, equationVars, NameSet.mem_union] at hx ⊢
      exact hx.imp_left fun hx => NameSet.mem_union.1 ((step_split hstep).2 x hx)
    have hsame : ∀ v : Assignment, (∀ eq ∈ parts ++ rest, eq.1.value v = eq.2.value v) ↔
        ∀ eq ∈ (t, u) :: rest, eq.1.value v = eq.2.value v := by
      intro v
      rw [List.forall_mem_append, List.forall_mem_cons, hsolves v]
    simpa only [hsame] using ih (List.forall_mem_append.2 ⟨hparts, hrest⟩) hs hvars
  | case3 s t u rest x b hstep found =>
    rename_i ih
    rw [solve_cons_of_bind hstep]
    obtain ⟨htu, hrest⟩ := List.forall_mem_cons.1 heqs
    obtain ⟨hb, hsolves⟩ : (Step.bind x b).Solves t u := hstep ▸ step_solves loc htu.1 htu.2
    obtain ⟨hx, hxb, hvars⟩ := step_bind hstep
    have hfound : found.HeadsRooted := by
      intro y c hc
      rw [NameMap.get?_singleton] at hc
      split at hc
      · cases hc
        exact hb
      · cases hc
    have hequations : ∀ eq ∈ substEquations found rest, eq.1.HeadsRooted ∧ eq.2.HeadsRooted := by
      intro eq heq
      obtain ⟨eq', heq', rfl⟩ := List.mem_map.1 heq
      exact ⟨(hrest eq' heq').1.subst hfound, (hrest eq' heq').2.subst hfound⟩
    have hleft : ∀ y ∈ equationVars (substEquations found rest),
        (found.compose s).get? y = none := by
      intro y hy
      obtain ⟨hyx, hy⟩ := mem_equationVars_subst hxb hy
      have hsy : s.get? y = none := by
        refine hnew y ?_
        simp only [equationVars, NameSet.mem_union]
        rcases hy with hy | hy
        · exact .inr hy
        · exact .inl (NameSet.mem_union.1 (hvars y hy))
      simp [found, hyx, hsy]
    have hsx : s.get? x = none := by
      refine hnew x ?_
      simp only [equationVars, NameSet.mem_union]
      exact .inl (NameSet.mem_union.1 hx)
    have hdisjoint : ∀ y c, s.get? y = some c → found.get? y = none := by
      intro y c hc
      have hyx : y ≠ x := by
        rintro rfl
        simp [hsx] at hc
      simp [found, hyx]
    have hsame : ∀ v : Assignment, ((found.compose s).Holds v ∧
        ∀ eq ∈ substEquations found rest, eq.1.value v = eq.2.value v) ↔
          s.Holds v ∧ ∀ eq ∈ (t, u) :: rest, eq.1.value v = eq.2.value v := by
      intro v
      rw [Subst.holds_compose hdisjoint, Subst.holds_singleton, List.forall_mem_cons,
        hsolves v, and_assoc, and_congr_right_iff, and_congr_right_iff]
      intro _ htu
      have hv : found.Holds v := Subst.holds_singleton.2 ((hsolves v).2 htu)
      simp only [substEquations, List.forall_mem_map, hv.value_subst]
    have hih := ih hequations (hfound.compose hs) hleft
    simpa only [hsame, ← not_and] using hih
  | case4 s t u rest e hstep =>
    rw [solve_cons_of_fail hstep]
    obtain ⟨htu, -⟩ := List.forall_mem_cons.1 heqs
    have hfail : (Step.fail e).Solves t u := hstep ▸ step_solves loc htu.1 htu.2
    exact fun v _ heqs => hfail v (heqs _ List.mem_cons_self)

/-- Unification returns what holds under exactly those assignments that give both types
the same value, and fails only if there is no such assignment. -/
theorem unify_principal (loc : Loc) (ht : t.HeadsRooted) (hu : u.HeadsRooted) :
    match t.unify u loc with
    | .ok s => s.HeadsRooted ∧ ∀ v : Assignment, s.Holds v ↔ t.value v = u.value v
    | .error _ => ∀ v : Assignment, t.value v ≠ u.value v := by
  have heqs : ∀ eq ∈ [(t, u)], eq.1.HeadsRooted ∧ eq.2.HeadsRooted := by simpa using ⟨ht, hu⟩
  have hsolve := solve_principal loc heqs Subst.headsRooted_empty (by simp)
  simpa [unify, Subst.holds_empty] using hsolve

end Ty

end GuardedCommands
