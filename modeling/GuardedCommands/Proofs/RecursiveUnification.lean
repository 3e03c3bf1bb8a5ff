import GuardedCommands.Proofs.Composition
import GuardedCommands.Stmt

/-!
# Unification as recursion on two types

Two applications are unified by unifying their heads and then their arguments, with what
was found for the heads put into the arguments.  The same is done for an array and a
function, whose domain comes first.  The second call is not on parts of the types: what is
put in may make them larger than the whole was.  But it is free of every name that was
found, and what is put in has no other names than the two types had.  So each call leaves
fewer names, or, where nothing was found, as many names at most and smaller types.

The recursion is written down as a relation between two types and the result for them, one
rule for each way in which it goes on, so that a derivation is a run that ends.  It leads
to the same substitutions and to the same errors as solving a list of equations does.
-/

namespace GuardedCommands

namespace Ty

/-! ## What is found -/

namespace Subst

variable {s r : Subst} {K K' : NameSet} {x : String} {v : Ty}

/-- All names that are replaced are of a set, and what is put in has other names of it only. -/
structure Confined (s : Subst) (K : NameSet) : Prop where
  bound : ∀ x w, s.get? x = some w → x ∈ K
  free : ∀ x w, s.get? x = some w → ∀ y ∈ w.freeVars, y ∈ K ∧ s.get? y = none

theorem Confined.empty : Confined ∅ K := ⟨by simp, by simp⟩

theorem Confined.mono (h : s.Confined K) (hK : ∀ y ∈ K, y ∈ K') : s.Confined K' :=
  ⟨fun x w hw => hK x (h.bound x w hw), fun x w hw y hy =>
    ⟨hK y (h.free x w hw y hy).1, (h.free x w hw y hy).2⟩⟩

theorem Confined.singleton (hx : x ∈ K) (hxv : x ∉ v.freeVars) (hv : ∀ y ∈ v.freeVars, y ∈ K) :
    Confined (.singleton x v) K := by
  have hfound : ∀ y w, (NameMap.singleton x v).get? y = some w → y = x ∧ w = v := by
    intro y w hw
    rw [NameMap.get?_singleton, Option.ite_none_right_eq_some] at hw
    exact ⟨hw.1, (Option.some.inj hw.2).symm⟩
  refine ⟨fun y w hw => (hfound y w hw).1 ▸ hx, fun y w hw z hz => ?_⟩
  obtain ⟨rfl, rfl⟩ := hfound y w hw
  have hzy : z ≠ y := fun heq => hxv (heq ▸ hz)
  exact ⟨hv z hz, by simp [hzy]⟩

theorem Confined.mem_freeVars (h : s.Confined K) {t : Ty} (ht : ∀ y ∈ t.freeVars, y ∈ K)
    {y : String} (hy : y ∈ (t.subst s).freeVars) : y ∈ K ∧ s.get? y = none := by
  rcases mem_freeVars_subst hy with ⟨hy, hnone⟩ | ⟨x, w, hw, hy⟩
  · exact ⟨ht y hy, hnone⟩
  · exact h.free x w hw y hy

theorem Confined.disjoint (h : r.Confined K') (hK : ∀ y ∈ K', s.get? y = none) :
    r.Disjoint s := by
  refine NameMap.disjoint_iff.2 fun x => ?_
  cases hx : r.get? x with
  | none => exact .inl rfl
  | some w => exact .inr (hK x (h.bound x w hx))

theorem Confined.compose (hs : s.Confined K) (hr : r.Confined K')
    (hK : ∀ y ∈ K', y ∈ K ∧ s.get? y = none) : (r.compose s).Confined K := by
  have hleft : ∀ y ∈ K', r.get? y = none → y ∈ K ∧ (r.compose s).get? y = none := by
    intro y hy hnone
    exact ⟨(hK y hy).1, by simp [hnone, (hK y hy).2]⟩
  refine ⟨fun x w hw => ?_, fun x w hw y hy => ?_⟩
  · rcases of_get?_compose hw with hw | ⟨v, hv, -⟩
    · exact (hK x (hr.bound x w hw)).1
    · exact hs.bound x v hv
  · rcases of_get?_compose hw with hw | ⟨v, hv, rfl⟩
    · obtain ⟨hyK, hnone⟩ := hr.free x w hw y hy
      exact hleft y hyK hnone
    · rcases mem_freeVars_subst hy with ⟨hy, hnone⟩ | ⟨z, u, hu, hy⟩
      · obtain ⟨hyK, hnone'⟩ := hs.free x v hv y hy
        exact ⟨hyK, by simp [hnone, hnone']⟩
      · obtain ⟨hyK, hnone⟩ := hr.free z u hu y hy
        exact hleft y hyK hnone

theorem compose_empty (s : Subst) : s.compose ∅ = s :=
  NameMap.ext_get? fun x => by simp

end Subst

/-! ## Solving in parts -/

variable {loc : Loc} {t u : Ty} {eqs rest : List Equation} {s r : Subst}

theorem substEquations_append (s : Subst) (eqs rest : List Equation) :
    substEquations s (eqs ++ rest) = substEquations s eqs ++ substEquations s rest :=
  List.map_append

theorem substEquations_empty (eqs : List Equation) : substEquations ∅ eqs = eqs := by
  simp [substEquations]

theorem substEquations_compose (h : r.Disjoint s) (eqs : List Equation) :
    substEquations (r.compose s) eqs = substEquations r (substEquations s eqs) := by
  simp [substEquations, subst_compose h]

variable {eqs' parts : List Equation} {part part' eq : Equation}

theorem mem_equationVars {y : String} :
    y ∈ equationVars eqs ↔ ∃ eq ∈ eqs, y ∈ eq.1.freeVars ∨ y ∈ eq.2.freeVars := by
  induction eqs with
  | nil => simp [equationVars]
  | cons eq eqs ih => simp [equationVars, ih]

theorem equationVars_subset (h : eqs ⊆ eqs') : ∀ x ∈ equationVars eqs, x ∈ equationVars eqs' := by
  intro x hx
  obtain ⟨eq, heq, hx⟩ := mem_equationVars.1 hx
  exact mem_equationVars.2 ⟨eq, h heq, hx⟩

theorem Subst.Confined.get?_of_mem {K : NameSet} (h : s.Confined K) {y : String}
    (hy : y ∈ equationVars (substEquations s eqs)) : s.get? y = none := by
  obtain ⟨eq, heq, hy⟩ := mem_equationVars.1 hy
  obtain ⟨eq, -, rfl⟩ := List.mem_map.1 heq
  rcases hy with hy | hy <;> rcases mem_freeVars_subst hy with ⟨-, hnone⟩ | ⟨x, w, hw, hy⟩
  · exact hnone
  · exact (h.free x w hw y hy).2
  · exact hnone
  · exact (h.free x w hw y hy).2

@[elab_as_elim]
theorem equations_induction (loc : Loc) {P : List Equation → Prop} (eqs : List Equation)
    (nil : P [])
    (split : ∀ t u rest parts, step loc t u = .split parts → P (parts ++ rest) →
      P ((t, u) :: rest))
    (bind : ∀ t u rest x v, step loc t u = .bind x v →
      P (substEquations (.singleton x v) rest) → P ((t, u) :: rest))
    (fail : ∀ t u rest e, step loc t u = .fail e → P ((t, u) :: rest)) : P eqs := by
  suffices h : ∀ _ : Subst, P eqs from h ∅
  intro s
  induction eqs, s using solve.induct loc with
  | case1 => exact nil
  | case2 s t u rest parts hstep ih => exact split t u rest parts hstep ih
  | case3 s t u rest x v hstep found ih => exact bind t u rest x v hstep ih
  | case4 s t u rest e hstep => exact fail t u rest e hstep

theorem confined_of_bind {x : String} {v : Ty} (hstep : step loc t u = .bind x v) :
    Subst.Confined (.singleton x v) (t.freeVars ∪ u.freeVars) := by
  obtain ⟨hx, hxv, hvars⟩ := step_bind hstep
  exact .singleton hx hxv hvars

/-- What is found does not depend on what was known before, and is confined to the names of the
equations. -/
structure SolvedApart (loc : Loc) (eqs : List Equation) : Prop where
  accumulates : ∀ s, solve loc eqs s = (solve loc eqs ∅).map (Subst.compose · s)
  confined : ∀ r, solve loc eqs ∅ = .ok r → r.Confined (equationVars eqs)

theorem SolvedApart.split (hstep : step loc t u = .split parts)
    (h : SolvedApart loc (parts ++ rest)) : SolvedApart loc ((t, u) :: rest) := by
  constructor
  · simpa only [solve_cons_of_split hstep] using h.accumulates
  · intro r hr
    rw [solve_cons_of_split hstep] at hr
    refine (h.confined r hr).mono fun y hy => ?_
    simp only [mem_equationVars_append, equationVars, NameSet.mem_union] at hy ⊢
    exact hy.imp_left fun hy => NameSet.mem_union.1 ((step_split hstep).2 y hy)

theorem SolvedApart.bind {x : String} {v : Ty} (hstep : step loc t u = .bind x v)
    (h : SolvedApart loc (substEquations (.singleton x v) rest)) :
    SolvedApart loc ((t, u) :: rest) := by
  obtain ⟨-, hxv, hvars⟩ := step_bind hstep
  have hhead : ∀ y ∈ t.freeVars ∪ u.freeVars, y ∈ equationVars ((t, u) :: rest) := by
    intro y hy
    simp only [equationVars, NameSet.mem_union] at hy ⊢
    exact .inl hy
  have hfound := (confined_of_bind hstep).mono hhead
  have hleft : ∀ y ∈ equationVars (substEquations (.singleton x v) rest),
      y ∈ equationVars ((t, u) :: rest) ∧ (NameMap.singleton x v).get? y = none := by
    intro y hy
    refine ⟨?_, hfound.get?_of_mem hy⟩
    rcases (mem_equationVars_subst hxv hy).2 with hy | hy
    · simp [equationVars, hy]
    · exact hhead y (hvars y hy)
  -- what is found for the rest comes after the binding, whatever was known before
  have hall : ∀ s, solve loc ((t, u) :: rest) s =
      (solve loc (substEquations (.singleton x v) rest) ∅).map
        (Subst.compose · (Subst.compose (.singleton x v) s)) := by
    intro s
    rw [solve_cons_of_bind hstep, h.accumulates]
  constructor
  · intro s
    rw [hall s, hall ∅, Subst.compose_empty]
    cases hrest : solve loc (substEquations (.singleton x v) rest) ∅ with
    | error e => rfl
    | ok r =>
      have hdisjoint := (h.confined r hrest).disjoint fun y hy => (hleft y hy).2
      exact congrArg Except.ok (Subst.compose_assoc hdisjoint s).symm
  · intro r hr
    rw [hall ∅, Subst.compose_empty] at hr
    cases hrest : solve loc (substEquations (.singleton x v) rest) ∅ with
    | error e =>
      rw [hrest] at hr
      cases hr
    | ok r' =>
      rw [hrest] at hr
      cases hr
      exact hfound.compose (h.confined r' hrest) hleft

theorem solvedApart (loc : Loc) (eqs : List Equation) : SolvedApart loc eqs := by
  induction eqs using equations_induction loc with
  | nil =>
    constructor
    · intro s
      have hs : Subst.compose ∅ s = s := NameMap.ext_get? fun x => by
        cases hx : s.get? x <;> simp [hx]
      rw [solve, solve, Except.map, hs]
    · intro r hr
      rw [solve] at hr
      cases hr
      exact .empty
  | split t u rest parts hstep ih => exact .split hstep ih
  | bind t u rest x v hstep ih => exact .bind hstep ih
  | fail t u rest e hstep =>
    constructor
    · intro s
      rw [solve_cons_of_fail hstep, solve_cons_of_fail hstep, Except.map]
    · intro r hr
      rw [solve_cons_of_fail hstep] at hr
      cases hr

theorem solve_append (loc : Loc) (eqs rest : List Equation) :
    solve loc (eqs ++ rest) ∅ = (solve loc eqs ∅).bind fun s =>
      (solve loc (substEquations s rest) ∅).map (Subst.compose · s) := by
  induction eqs using equations_induction loc generalizing rest with
  | nil =>
    have hnil : solve loc [] ∅ = .ok ∅ := by rw [solve]
    rw [hnil, List.nil_append, Except.bind, substEquations_empty]
    cases solve loc rest ∅ with
    | error e => rfl
    | ok r => rw [Except.map, Subst.compose_empty]
  | split t u eqs parts hstep ih =>
    rw [List.cons_append, solve_cons_of_split hstep, solve_cons_of_split hstep,
      ← List.append_assoc, ih]
  | bind t u eqs x v hstep ih =>
    let found : Subst := .singleton x v
    rw [List.cons_append, solve_cons_of_bind hstep, solve_cons_of_bind hstep,
      Subst.compose_empty, (solvedApart loc _).accumulates, substEquations_append, ih,
      (solvedApart loc (substEquations found eqs)).accumulates found]
    cases hs : solve loc (substEquations found eqs) ∅ with
    | error e => rfl
    | ok s =>
      have hsconfined := (solvedApart loc _).confined s hs
      have hdisjoint : s.Disjoint found :=
        hsconfined.disjoint fun y hy => (confined_of_bind hstep).get?_of_mem hy
      simp only [Except.bind, Except.map, substEquations_compose hdisjoint]
      cases hr : solve loc (substEquations s (substEquations found rest)) ∅ with
      | error e => rfl
      | ok r =>
        have hlater : r.Disjoint s := ((solvedApart loc _).confined r hr).disjoint fun y hy =>
          hsconfined.get?_of_mem hy
        exact congrArg Except.ok (Subst.compose_assoc hlater found)
  | fail t u eqs e hstep =>
    rw [List.cons_append, solve_cons_of_fail hstep, solve_cons_of_fail hstep]
    rfl

/-! ## The recursion -/

/-- An equation that comes to two others: one of applications, and one of an array and a
function.  The second of the two is solved after the first. -/
inductive Parts (loc : Loc) : Equation → Equation → Equation → Prop
  | app {f g a b : Ty} {l m : Loc} : Parts loc (.app f a l, .app g b m) (f, g) (a, b)
  | indexed {i : Interval} {elem dom cod : Ty} {l k m n : Loc} :
      Parts loc (.array i elem l, .app (.app (.arrow k) dom m) cod n)
        (.base .int loc, dom) (elem, cod)
  | indexing {i : Interval} {elem dom cod : Ty} {l k m n : Loc} :
      Parts loc (.app (.app (.arrow k) dom m) cod n, .array i elem l)
        (.base .int loc, dom) (elem, cod)

/-- The runs of unification as recursion on two types, with their results. -/
inductive Unified (loc : Loc) : Ty → Ty → Except ElaborationError Subst → Prop
  | equal {t u : Ty} (h : step loc t u = .split []) : Unified loc t u (.ok ∅)
  | bound {t u v : Ty} {x : String} (h : step loc t u = .bind x v) :
      Unified loc t u (.ok (.singleton x v))
  | failed {t u : Ty} {e : ElaborationError} (h : step loc t u = .fail e) :
      Unified loc t u (.error e)
  | arrays {i j : Interval} {a b : Ty} {l m : Loc} {r : Except ElaborationError Subst}
      (h : Unified loc a b r) : Unified loc (.array i a l) (.array j b m) r
  | firstFailed {t u a b c d : Ty} {e : ElaborationError} (hparts : Parts loc (t, u) (a, b) (c, d))
      (h : Unified loc a b (.error e)) : Unified loc t u (.error e)
  | both {t u a b c d : Ty} {s : Subst} {r : Except ElaborationError Subst}
      (hparts : Parts loc (t, u) (a, b) (c, d)) (h : Unified loc a b (.ok s))
      (h' : Unified loc (c.subst s) (d.subst s) r) :
      Unified loc t u (r.map (Subst.compose · s))

/-- The equations that an equation calls for. -/
inductive Calls (loc : Loc) : Equation → Equation → Prop
  | elements {i j : Interval} {a b : Ty} {l m : Loc} :
      Calls loc (a, b) (.array i a l, .array j b m)
  | first {eq part part' : Equation} (h : Parts loc eq part part') : Calls loc part eq
  | second {eq : Equation} {a b c d : Ty} {s : Subst} (h : Parts loc eq (a, b) (c, d))
      (hs : Unified loc a b (.ok s)) : Calls loc (c.subst s, d.subst s) eq

variable {a b c d : Ty}

theorem Parts.step_eq (h : Parts loc (t, u) part part') : step loc t u = .split [part, part'] := by
  cases h with
  | app => rw [step]
  | indexed | indexing => rfl

theorem split_cases (h : step loc t u = .split parts) :
    parts = [] ∨ (∃ i a l j b m, t = .array i a l ∧ u = .array j b m) ∨
      ∃ part part', Parts loc (t, u) part part' := by
  unfold step at h
  split at h
  · split at h
    · cases h
      exact .inl rfl
    · cases h
  · exact .inr (.inl ⟨_, _, _, _, _, _, rfl, rfl⟩)
  · exact .inr (.inr ⟨_, _, .indexed⟩)
  · exact .inr (.inr ⟨_, _, .indexing⟩)
  · split at h
    · cases h
      exact .inl rfl
    · cases h
  · cases h
    exact .inl rfl
  · split at h
    · cases h
      exact .inl rfl
    · cases h
  · exact .inr (.inr ⟨_, _, .app⟩)
  · exact .inl (bindStep_split h)
  · exact .inl (bindStep_split h)
  · exact .inl (bindStep_split h)
  · exact .inl (bindStep_split h)
  · cases h

theorem unify_arrays (i j : Interval) (a b : Ty) (l m : Loc) :
    (array i a l).unify (array j b m) loc = a.unify b loc := by
  rw [unify, solve_cons_of_split rfl]
  rfl

theorem Parts.unify_eq (h : Parts loc (t, u) (a, b) (c, d)) :
    t.unify u loc = (a.unify b loc).bind fun s =>
      ((c.subst s).unify (d.subst s) loc).map (Subst.compose · s) := by
  rw [unify, solve_cons_of_split h.step_eq]
  exact solve_append loc [(a, b)] [(c, d)]

theorem Unified.unify_eq {r : Except ElaborationError Subst} (h : Unified loc t u r) :
    t.unify u loc = r := by
  induction h with
  | equal h =>
    rw [unify, solve_cons_of_split h, List.append_nil, solve]
  | bound h =>
    rw [unify, solve_cons_of_bind h, Subst.compose_empty, substEquations, List.map_nil, solve]
  | failed h => rw [unify, solve_cons_of_fail h]
  | arrays h ih => rw [unify_arrays, ih]
  | firstFailed hparts h ih => rw [hparts.unify_eq, ih, Except.bind]
  | both hparts h h' ih ih' => rw [hparts.unify_eq, ih, Except.bind, ih']

/-- What is found for the second of two equations has no name that was found for the first, so
the recursion composes substitutions with disjoint domains only, also where it fails later. -/
theorem Unified.disjoint {r : Subst} (h : Unified loc a b (.ok s))
    (h' : Unified loc (c.subst s) (d.subst s) (.ok r)) : r.Disjoint s := by
  have hs := (solvedApart loc [(a, b)]).confined s h.unify_eq
  have hr := (solvedApart loc (substEquations s [(c, d)])).confined r h'.unify_eq
  exact hr.disjoint fun y hy => hs.get?_of_mem hy

/-! ## The measure -/

theorem measure_lt_of_subset (hvars : ∀ x ∈ equationVars eqs, x ∈ equationVars eqs')
    (hsize : equationSize eqs < equationSize eqs') :
    Prod.Lex (· < ·) (· < ·) (equationMeasure eqs) (equationMeasure eqs') :=
  lex_of_le (NameSet.size_le_of_subset hvars) hsize

theorem Parts.smaller (h : Parts loc eq part part') :
    equationSize [part, part'] < equationSize [eq] ∧
      ∀ x ∈ equationVars [part, part'], x ∈ equationVars [eq] := by
  obtain ⟨t, u⟩ := eq
  obtain ⟨hsize, hvars⟩ := step_split h.step_eq
  refine ⟨by simpa [equationSize] using hsize, fun x hx => ?_⟩
  simpa [equationVars] using hvars x hx

/-- The second part has lost the names that were found for the first; if there are none it is
as it was. -/
theorem Parts.second_smaller (h : Parts loc eq (a, b) (c, d)) (hs : a.unify b loc = .ok s) :
    Prod.Lex (· < ·) (· < ·) (equationMeasure [(c.subst s, d.subst s)]) (equationMeasure [eq]) := by
  obtain ⟨hsize, hvars⟩ := h.smaller
  have hconfined : s.Confined (equationVars [eq]) :=
    ((solvedApart loc [(a, b)]).confined s hs).mono fun x hx =>
      hvars x (equationVars_subset (by simp) x hx)
  have hleft : ∀ x ∈ equationVars [(c.subst s, d.subst s)],
      x ∈ equationVars [eq] ∧ s.get? x = none := by
    intro x hx
    obtain ⟨part, hpart, hx⟩ := mem_equationVars.1 hx
    cases List.mem_singleton.1 hpart
    rcases hx with hx | hx <;> refine hconfined.mem_freeVars (fun y hy => hvars y ?_) hx
    · exact mem_equationVars.2 ⟨(c, d), by simp, .inl hy⟩
    · exact mem_equationVars.2 ⟨(c, d), by simp, .inr hy⟩
  by_cases hempty : ∀ x, s.get? x = none
  · refine measure_lt_of_subset (fun x hx => (hleft x hx).1) ?_
    rw [subst_eq_self fun x _ => hempty x, subst_eq_self fun x _ => hempty x]
    simp only [equationSize] at hsize ⊢
    omega
  · obtain ⟨x, hx⟩ := not_forall.1 hempty
    obtain ⟨w, hw⟩ := Option.ne_none_iff_exists'.1 hx
    exact .left _ _ (NameSet.size_lt_of_subset (fun y hy => (hleft y hy).1)
      (hconfined.bound x w hw) fun hmem => hx (hleft x hmem).2)

theorem Calls.measure_lt {eq' : Equation} (h : Calls loc eq eq') :
    Prod.Lex (· < ·) (· < ·) (equationMeasure [eq]) (equationMeasure [eq']) := by
  cases h with
  | elements =>
    refine measure_lt_of_subset (by simp [equationVars, freeVars]) ?_
    simp only [equationSize, size]
    omega
  | first h =>
    obtain ⟨hsize, hvars⟩ := h.smaller
    refine measure_lt_of_subset (fun x hx => hvars x (equationVars_subset (by simp) x hx)) ?_
    simp only [equationSize] at hsize ⊢
    omega
  | second h hs => exact h.second_smaller hs.unify_eq

theorem wellFounded_calls (loc : Loc) : WellFounded (Calls loc) :=
  Subrelation.wf (fun h => Calls.measure_lt h)
    (InvImage.wf (fun eq => equationMeasure [eq]) (Prod.lex Nat.lt_wfRel Nat.lt_wfRel).wf)

theorem exists_unified (loc : Loc) (eq : Equation) : ∃ r, Unified loc eq.1 eq.2 r := by
  induction eq using (wellFounded_calls loc).induction with
  | _ eq ih =>
  obtain ⟨t, u⟩ := eq
  cases hstep : step loc t u with
  | bind x v => exact ⟨_, .bound hstep⟩
  | fail e => exact ⟨_, .failed hstep⟩
  | split parts =>
    rcases split_cases hstep with rfl | ⟨i, a, l, j, b, m, rfl, rfl⟩ | ⟨⟨a, b⟩, ⟨c, d⟩, hparts⟩
    · exact ⟨_, .equal hstep⟩
    · obtain ⟨r, hr⟩ := ih _ .elements
      exact ⟨r, .arrays hr⟩
    · obtain ⟨r, hr⟩ := ih _ (.first hparts)
      cases r with
      | error e => exact ⟨_, .firstFailed hparts hr⟩
      | ok s =>
        obtain ⟨r', hr'⟩ := ih _ (.second hparts hr)
        exact ⟨_, .both hparts hr hr'⟩

theorem unified_unify (loc : Loc) (t u : Ty) : Unified loc t u (t.unify u loc) := by
  obtain ⟨r, hr⟩ := exists_unified loc (t, u)
  rw [hr.unify_eq]
  exact hr

/-- Unification ends on all types, and does what the recursion does.  Every call that the
recursion makes, also the second one of two, is on types that have fewer names together, or as
many and a smaller size; so no sequence of calls goes on for ever. -/
theorem unify_terminates (loc : Loc) :
    (∀ t u r, Unified loc t u r ↔ t.unify u loc = r) ∧
      (∀ eq eq', Calls loc eq eq' →
        Prod.Lex (· < ·) (· < ·) (equationMeasure [eq]) (equationMeasure [eq'])) ∧
      WellFounded (Calls loc) := by
  refine ⟨fun t u r => ⟨Unified.unify_eq, ?_⟩, fun _ _ => Calls.measure_lt, wellFounded_calls loc⟩
  rintro rfl
  exact unified_unify loc t u

end Ty

end GuardedCommands
