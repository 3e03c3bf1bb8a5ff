import GuardedCommands.Elaboration.Error
import GuardedCommands.Ty.Subst

/-!
# Unification of types

Two types are unified by working through a list of equations.  A step takes the
first equation apart, or finds the type a variable has to be, or fails; a
variable that has been found is replaced in all equations that remain.  Every
step leaves fewer variables, or as many variables and smaller types, so the work
ends.  An array type meets a function type as a function from the integers.
-/

namespace GuardedCommands

namespace Ty

abbrev Equation := Ty × Ty

inductive Step
  | split (eqs : List Equation)
  | bind (x : String) (t : Ty)
  | fail (e : ElaborationError)

/-- Equates a variable with a type that it does not occur in. -/
def bindStep (loc : Loc) (x : Name) (t : Ty) : Step :=
  match t with
  | .rigid y | .metavar y =>
    if y.text = x.text then .split [] else .bind x.text t
  | _ => if x.text ∈ t.freeVars then .fail (.recursiveType x.text t loc) else .bind x.text t

def step (loc : Loc) (t u : Ty) : Step :=
  match t, u with
  | .base a _, .base b _ => if a = b then .split [] else .fail (.unifyFailed t u loc)
  | .array _ a _, .array _ b _ => .split [(a, b)]
  | .array _ a _, .app (.app (.arrow _) dom _) cod _ => .split [(.base .int loc, dom), (a, cod)]
  | .app (.app (.arrow _) dom _) cod _, .array _ a _ => .split [(.base .int loc, dom), (a, cod)]
  | .tuple n _, .tuple m _ => if n = m then .split [] else .fail (.unifyFailed t u loc)
  | .arrow _, .arrow _ => .split []
  | .data a, .data b => if a.text = b.text then .split [] else .fail (.unifyFailed t u loc)
  | .app f a _, .app g b _ => .split [(f, g), (a, b)]
  | .rigid x, _ | .metavar x, _ => bindStep loc x u
  | _, .rigid y | _, .metavar y => bindStep loc y t
  | _, _ => .fail (.unifyFailed t u loc)

def equationVars : List Equation → NameSet
  | [] => ∅
  | (t, u) :: eqs => t.freeVars ∪ u.freeVars ∪ equationVars eqs

def equationSize : List Equation → Nat
  | [] => 0
  | (t, u) :: eqs => t.size + u.size + equationSize eqs

def substEquations (s : Subst) (eqs : List Equation) : List Equation :=
  eqs.map fun eq => (eq.1.subst s, eq.2.subst s)

theorem size_pos (t : Ty) : 0 < t.size := by
  cases t <;> simp [size]

@[simp] theorem equationSize_append (a b : List Equation) :
    equationSize (a ++ b) = equationSize a + equationSize b := by
  induction a with
  | nil => simp [equationSize]
  | cons eq a ih => simp only [List.cons_append, equationSize, ih]; omega

@[simp] theorem mem_equationVars_append {a b : List Equation} {z : String} :
    z ∈ equationVars (a ++ b) ↔ z ∈ equationVars a ∨ z ∈ equationVars b := by
  induction a with
  | nil => simp [equationVars]
  | cons eq a ih => simp only [List.cons_append, equationVars, NameSet.mem_union, ih]; grind

theorem bindStep_split {loc : Loc} {x : Name} {t : Ty} {eqs : List Equation}
    (h : bindStep loc x t = .split eqs) : eqs = [] := by
  unfold bindStep at h
  grind

theorem bindStep_bind {loc : Loc} {x : Name} {t u : Ty} {y : String}
    (h : bindStep loc x t = .bind y u) : y = x.text ∧ u = t ∧ x.text ∉ t.freeVars := by
  unfold bindStep at h
  split at h
  · next z =>
    split at h
    · cases h
    · next hne =>
      cases h
      exact ⟨rfl, rfl, by simpa [freeVars] using Ne.symm hne⟩
  · next z =>
    split at h
    · cases h
    · next hne =>
      cases h
      exact ⟨rfl, rfl, by simpa [freeVars] using Ne.symm hne⟩
  · split at h
    · cases h
    · next hx =>
      cases h
      exact ⟨rfl, rfl, hx⟩

/-- Taking an equation apart gives smaller equations and no new variables. -/
theorem step_split {loc : Loc} {t u : Ty} {eqs : List Equation} (h : step loc t u = .split eqs) :
    equationSize eqs < t.size + u.size ∧
      ∀ z ∈ equationVars eqs, z ∈ t.freeVars ∪ u.freeVars := by
  have hnil : eqs = [] → equationSize eqs < t.size + u.size ∧
      ∀ z ∈ equationVars eqs, z ∈ t.freeVars ∪ u.freeVars := by
    rintro rfl
    have := size_pos t
    exact ⟨by simp only [equationSize]; omega, by simp [equationVars]⟩
  unfold step at h
  split at h
  · split at h
    · cases h; exact hnil rfl
    · cases h
  · cases h
    exact ⟨by simp only [equationSize, size]; omega,
      by simp only [equationVars, freeVars, NameSet.mem_union, NameSet.not_mem_empty]; grind⟩
  · cases h
    exact ⟨by simp only [equationSize, size]; omega,
      by simp only [equationVars, freeVars, NameSet.mem_union, NameSet.not_mem_empty]; grind⟩
  · cases h
    exact ⟨by simp only [equationSize, size]; omega,
      by simp only [equationVars, freeVars, NameSet.mem_union, NameSet.not_mem_empty]; grind⟩
  · split at h
    · cases h; exact hnil rfl
    · cases h
  · cases h; exact hnil rfl
  · split at h
    · cases h; exact hnil rfl
    · cases h
  · cases h
    exact ⟨by simp only [equationSize, size]; omega,
      by simp only [equationVars, freeVars, NameSet.mem_union, NameSet.not_mem_empty]; grind⟩
  · exact hnil (bindStep_split h)
  · exact hnil (bindStep_split h)
  · exact hnil (bindStep_split h)
  · exact hnil (bindStep_split h)
  · cases h

/-- A variable is found to be a type of the equation that it does not occur in. -/
theorem step_bind {loc : Loc} {t u v : Ty} {x : String} (h : step loc t u = .bind x v) :
    x ∈ t.freeVars ∪ u.freeVars ∧ x ∉ v.freeVars ∧
      ∀ z ∈ v.freeVars, z ∈ t.freeVars ∪ u.freeVars := by
  have hleft : ∀ y : Name, y.text ∈ t.freeVars → bindStep loc y u = .bind x v →
      x ∈ t.freeVars ∪ u.freeVars ∧ x ∉ v.freeVars ∧
        ∀ z ∈ v.freeVars, z ∈ t.freeVars ∪ u.freeVars := by
    intro y hy hb
    obtain ⟨rfl, rfl, hx⟩ := bindStep_bind hb
    exact ⟨NameSet.mem_union.2 (.inl hy), hx, fun z hz => NameSet.mem_union.2 (.inr hz)⟩
  have hright : ∀ y : Name, y.text ∈ u.freeVars → bindStep loc y t = .bind x v →
      x ∈ t.freeVars ∪ u.freeVars ∧ x ∉ v.freeVars ∧
        ∀ z ∈ v.freeVars, z ∈ t.freeVars ∪ u.freeVars := by
    intro y hy hb
    obtain ⟨rfl, rfl, hx⟩ := bindStep_bind hb
    exact ⟨NameSet.mem_union.2 (.inr hy), hx, fun z hz => NameSet.mem_union.2 (.inl hz)⟩
  unfold step at h
  split at h
  · split at h <;> cases h
  · cases h
  · cases h
  · cases h
  · split at h <;> cases h
  · cases h
  · split at h <;> cases h
  · cases h
  · exact hleft _ (by simp [freeVars]) h
  · exact hleft _ (by simp [freeVars]) h
  · exact hright _ (by simp [freeVars]) h
  · exact hright _ (by simp [freeVars]) h
  · cases h

theorem mem_equationVars_subst {x z : String} {u : Ty} {eqs : List Equation}
    (hx : x ∉ u.freeVars) (hz : z ∈ equationVars (substEquations (.singleton x u) eqs)) :
    z ≠ x ∧ (z ∈ equationVars eqs ∨ z ∈ u.freeVars) := by
  induction eqs with
  | nil => simp [substEquations, equationVars] at hz
  | cons eq eqs ih =>
    simp only [substEquations, List.map_cons, equationVars, NameSet.mem_union] at hz ⊢
    rcases hz with (hz | hz) | hz
    · have := mem_freeVars_subst_singleton hx hz
      grind
    · have := mem_freeVars_subst_singleton hx hz
      grind
    · have := ih hz
      grind

def equationMeasure (eqs : List Equation) : Nat × Nat :=
  ((equationVars eqs).size, equationSize eqs)

theorem measure_split {loc : Loc} {t u : Ty} {parts rest : List Equation}
    (h : step loc t u = .split parts) :
    Prod.Lex (· < ·) (· < ·) (equationMeasure (parts ++ rest))
      (equationMeasure ((t, u) :: rest)) := by
  have ⟨hsize, hvars⟩ := step_split h
  have hle : (equationVars (parts ++ rest)).size ≤ (equationVars ((t, u) :: rest)).size := by
    refine NameSet.size_le_of_subset fun z hz => ?_
    simp only [mem_equationVars_append, equationVars, NameSet.mem_union] at hz ⊢
    rcases hz with hz | hz
    · exact .inl (NameSet.mem_union.1 (hvars z hz))
    · exact .inr hz
  have hlt : equationSize (parts ++ rest) < equationSize ((t, u) :: rest) := by
    simp only [equationSize_append, equationSize]
    omega
  unfold equationMeasure
  rcases Nat.lt_or_eq_of_le hle with hlt' | heq
  · exact Prod.Lex.left _ _ hlt'
  · rw [heq]
    exact Prod.Lex.right _ hlt

theorem measure_bind {loc : Loc} {t u v : Ty} {x : String} {rest : List Equation}
    (h : step loc t u = .bind x v) :
    Prod.Lex (· < ·) (· < ·) (equationMeasure (substEquations (.singleton x v) rest))
      (equationMeasure ((t, u) :: rest)) := by
  have ⟨hx, hxv, hvars⟩ := step_bind h
  refine Prod.Lex.left _ _ (NameSet.size_lt_of_subset (x := x) (fun z hz => ?_) ?_ ?_)
  · have ⟨_, hz⟩ := mem_equationVars_subst hxv hz
    simp only [equationVars, NameSet.mem_union] at hz ⊢
    rcases hz with hz | hz
    · exact .inr hz
    · exact .inl (NameSet.mem_union.1 (hvars z hz))
  · simp only [equationVars, NameSet.mem_union]
    exact .inl (NameSet.mem_union.1 hx)
  · intro hmem
    exact (mem_equationVars_subst hxv hmem).1 rfl

/-- Solves equations in order, after a substitution that has been found already. -/
def solve (loc : Loc) (eqs : List Equation) (s : Subst) : Except ElaborationError Subst :=
  match eqs with
  | [] => .ok s
  | (t, u) :: rest =>
    match _h : step loc t u with
    | .split parts => solve loc (parts ++ rest) s
    | .bind x v =>
      let found : Subst := .singleton x v
      solve loc (substEquations found rest) (found.compose s)
    | .fail e => .error e
termination_by equationMeasure eqs
decreasing_by
  · exact measure_split _h
  · exact measure_bind _h

/-- The most general substitution that makes two types equal, reported at `loc` if
there is none. -/
def unify (t u : Ty) (loc : Loc) : Except ElaborationError Subst := solve loc [(t, u)] ∅

end Ty

end GuardedCommands
