import GuardedCommands.Proofs.Unification
import GuardedCommands.Kind

/-!
# Kinding rules

A type has a kind when the names in it have been given kinds.  The rules say which
applications are allowed besides, because unification does not look at kinds: it
takes the applications of two variables apart as it takes those of two
constructors.  Where a variable is applied, the kind of the argument has to follow
from the kind of the result.  A discipline that sees to this is uniform, and under
a uniform discipline unification solves variables by types of their kinds.
-/

namespace GuardedCommands

abbrev Kinding := String → Option Kind

/-- Which applications are allowed: of a type that begins with a constructor or with a
variable, to an argument of a kind, with a result of a kind. -/
abbrev Discipline := (rooted : Bool) → (arg result : Kind) → Prop

namespace Discipline

def free : Discipline := fun _ _ _ => True

def constructors : Discipline := fun rooted _ _ => rooted = true

def firstOrder : Discipline := fun _ arg _ => arg = .star

/-- There are functions between types of values. -/
def Functional (A : Discipline) : Prop := A true .star (.arrow .star .star) ∧ A true .star .star

/-- The argument of a variable is of the kind that all arguments have with that result, and
functions are allowed. -/
structure Uniform (A : Discipline) : Prop where
  rooted : ∀ {arg result}, A false arg result → A true arg result
  determined : ∀ {r arg arg' result}, A false arg result → A r arg' result → arg' = arg
  func : A.Functional

theorem Uniform.same_arg {A : Discipline} (hA : A.Uniform) {r r' : Bool} {l l' k k' : Kind}
    (h : A r l k) (h' : A r' l' k') (hk : k = k' ∨ (r = true ∧ r' = true)) :
    Kind.arrow l k = .arrow l' k' ∨ (r = true ∧ r' = true) := by
  rcases hk with rfl | hroot
  · cases r with
    | false => exact .inl (by rw [hA.determined h h'])
    | true =>
      cases r' with
      | false => exact .inl (by rw [hA.determined h' h])
      | true => exact .inr ⟨rfl, rfl⟩
  · exact .inr hroot

theorem uniform_constructors : Uniform constructors where
  rooted h := nomatch h
  determined h := nomatch h
  func := ⟨rfl, rfl⟩

theorem uniform_firstOrder : Uniform firstOrder where
  rooted h := h
  determined h h' := h'.trans h.symm
  func := ⟨rfl, rfl⟩

end Discipline

namespace Ty

def rooted : Ty → Bool
  | .app f _ _ => f.rooted
  | .rigid _ | .metavar _ => false
  | .base .. | .array .. | .tuple .. | .arrow _ | .data _ => true

def HeadsRooted : Ty → Prop
  | .app f a _ => f.rooted = true ∧ f.HeadsRooted ∧ a.HeadsRooted
  | .array _ t _ => t.HeadsRooted
  | .base .. | .tuple .. | .arrow _ | .data _ | .rigid _ | .metavar _ => True

def dataNames : Ty → NameSet
  | .data n => {n.text}
  | .array _ t _ => t.dataNames
  | .app f a _ => f.dataNames ∪ a.dataNames
  | .rigid _ | .metavar _ | .base .. | .tuple .. | .arrow _ => ∅

inductive HasKind (A : Discipline) (κ : Kinding) : Ty → Kind → Prop
  | base {b loc} : HasKind A κ (.base b loc) .star
  | array {i t loc} (h : HasKind A κ t .star) : HasKind A κ (.array i t loc) .star
  | tuple {n loc} : HasKind A κ (.tuple n loc) (.starArity n.toNat)
  | arrow {loc} : HasKind A κ (.arrow loc) (.starArity 2)
  | data {n k} (h : κ n.text = some k) : HasKind A κ (.data n) k
  | rigid {n k} (h : κ n.text = some k) : HasKind A κ (.rigid n) k
  | metavar {n k} (h : κ n.text = some k) : HasKind A κ (.metavar n) k
  | app {f a loc l k} (hf : HasKind A κ f (.arrow l k)) (ha : HasKind A κ a l)
      (hA : A f.rooted l k) : HasKind A κ (.app f a loc) k

end Ty

/-! ## Assignments of kinds -/

namespace Kinding

def Sub (κ κ' : Kinding) : Prop := ∀ x k, κ x = some k → κ' x = some k

theorem Sub.refl (κ : Kinding) : κ.Sub κ := fun _ _ h => h

theorem Sub.trans {κ κ' κ'' : Kinding} (h : κ.Sub κ') (h' : κ'.Sub κ'') : κ.Sub κ'' :=
  fun x k hx => h' x k (h x k hx)

end Kinding

namespace Ty

open Discipline (Uniform)

variable {A : Discipline} {κ κ' : Kinding} {t u : Ty} {k l : Kind} {s : Subst}

namespace HasKind

theorem unique (h : HasKind A κ t k) (h' : HasKind A κ t l) : k = l := by
  induction h generalizing l with
  | base | array | tuple | arrow =>
    cases h'
    rfl
  | data h =>
    cases h' with
    | data h' => exact Option.some.inj (h.symm.trans h')
  | rigid h =>
    cases h' with
    | rigid h' => exact Option.some.inj (h.symm.trans h')
  | metavar h =>
    cases h' with
    | metavar h' => exact Option.some.inj (h.symm.trans h')
  | app _ _ _ ihf _ =>
    cases h' with
    | app hf _ _ => exact (Kind.arrow.inj (ihf hf)).2

theorem of_names (h : HasKind A κ t k)
    (hκ : ∀ x ∈ t.freeVars ∪ t.dataNames, ∀ l, κ x = some l → κ' x = some l) :
    HasKind A κ' t k := by
  induction h with
  | base => exact .base
  | array _ ih => exact .array (ih hκ)
  | tuple => exact .tuple
  | arrow => exact .arrow
  | data h => exact .data (hκ _ (by simp [freeVars, dataNames]) _ h)
  | rigid h => exact .rigid (hκ _ (by simp [freeVars, dataNames]) _ h)
  | metavar h => exact .metavar (hκ _ (by simp [freeVars, dataNames]) _ h)
  | app _ _ hA ihf iha =>
    refine .app (ihf fun x hx => hκ x ?_) (iha fun x hx => hκ x ?_) hA
    · simp only [freeVars, dataNames, NameSet.mem_union] at hx ⊢
      exact hx.imp .inl .inl
    · simp only [freeVars, dataNames, NameSet.mem_union] at hx ⊢
      exact hx.imp .inr .inr

theorem mono (h : HasKind A κ t k) (hκ : κ.Sub κ') : HasKind A κ' t k :=
  h.of_names fun x _ => hκ x

theorem weaken {A' : Discipline} (h : HasKind A κ t k) (hA : ∀ r l k, A r l k → A' r l k) :
    HasKind A' κ t k := by
  induction h with
  | base => exact .base
  | array _ ih => exact .array ih
  | tuple => exact .tuple
  | arrow => exact .arrow
  | data h => exact .data h
  | rigid h => exact .rigid h
  | metavar h => exact .metavar h
  | app _ _ hallowed ihf iha => exact .app ihf iha (hA _ _ _ hallowed)

theorem isSome (h : HasKind A κ t k) : ∀ x ∈ t.freeVars ∪ t.dataNames, (κ x).isSome := by
  induction h with
  | base | tuple | arrow => simp [freeVars, dataNames]
  | array _ ih => exact ih
  | data h | rigid h | metavar h =>
    intro x hx
    simp only [freeVars, dataNames, NameSet.mem_union, NameSet.mem_singleton,
      NameSet.not_mem_empty, or_false, false_or] at hx
    simp [hx, h]
  | app _ _ _ ihf iha =>
    intro x hx
    simp only [freeVars, dataNames, NameSet.mem_union] at hx
    rcases hx with (hx | hx) | (hx | hx)
    · exact ihf x (NameSet.mem_union.2 (.inl hx))
    · exact iha x (NameSet.mem_union.2 (.inl hx))
    · exact ihf x (NameSet.mem_union.2 (.inr hx))
    · exact iha x (NameSet.mem_union.2 (.inr hx))

theorem func (hA : A.Functional) (ht : HasKind A κ t .star) (hu : HasKind A κ u .star) :
    HasKind A κ (.func t u) .star :=
  .app (.app .arrow ht hA.1) hu hA.2

theorem funcs (hA : A.Functional) {args : List Ty} (hargs : ∀ a ∈ args, HasKind A κ a .star)
    (ht : HasKind A κ t .star) : HasKind A κ (.funcs args t) .star := by
  unfold Ty.funcs
  induction args with
  | nil => exact ht
  | cons a args ih =>
    obtain ⟨ha, hargs⟩ := List.forall_mem_cons.1 hargs
    exact .func hA ha (ih hargs)

theorem of_func {dom cod : Ty} {l₁ l₂ l₃ : Loc}
    (h : HasKind A κ (.app (.app (.arrow l₁) dom l₂) cod l₃) k) :
    HasKind A κ dom .star ∧ HasKind A κ cod .star ∧ k = .star := by
  cases h with
  | app hf hcod _ =>
    cases hf with
    | app harrow hdom _ =>
      cases harrow
      exact ⟨hdom, hcod, rfl⟩

end HasKind

/-! ## Substitution -/

theorem rooted_subst (h : t.rooted = true) (s : Subst) : (t.subst s).rooted = true := by
  induction t with
  | app f a loc ihf _ => exact ihf h
  | rigid | metavar => cases h
  | base | array | tuple | arrow | data => rfl

theorem HasKind.subst_of (hA : A.Uniform) (h : HasKind A κ t k)
    (hsome : ∀ x u l, s.get? x = some u → κ x = some l → HasKind A κ' u l)
    (hnone : ∀ x ∈ t.freeVars, s.get? x = none → ∀ l, κ x = some l → κ' x = some l)
    (hdata : ∀ x ∈ t.dataNames, ∀ l, κ x = some l → κ' x = some l) :
    HasKind A κ' (t.subst s) k := by
  induction h with
  | base => exact .base
  | array _ ih => exact .array (ih hnone hdata)
  | tuple => exact .tuple
  | arrow => exact .arrow
  | data h => exact .data (hdata _ (by simp [dataNames]) _ h)
  | @rigid n k h =>
    cases hn : s.get? n.text with
    | none =>
      simp only [subst, hn, Option.getD_none]
      exact .rigid (hnone _ (by simp [freeVars]) hn _ h)
    | some u =>
      simp only [subst, hn, Option.getD_some]
      exact hsome _ _ _ hn h
  | @metavar n k h =>
    cases hn : s.get? n.text with
    | none =>
      simp only [subst, hn, Option.getD_none]
      exact .metavar (hnone _ (by simp [freeVars]) hn _ h)
    | some u =>
      simp only [subst, hn, Option.getD_some]
      exact hsome _ _ _ hn h
  | @app f a loc l k _ _ hallowed ihf iha =>
    simp only [freeVars, dataNames, NameSet.mem_union] at hnone hdata
    refine .app (ihf (fun x hx => hnone x (.inl hx)) fun x hx => hdata x (.inl hx))
      (iha (fun x hx => hnone x (.inr hx)) fun x hx => hdata x (.inr hx)) ?_
    -- A head that began with a variable may begin with a constructor now.
    cases hroot : f.rooted with
    | true =>
      rw [rooted_subst hroot]
      rwa [hroot] at hallowed
    | false =>
      rw [hroot] at hallowed
      cases (f.subst s).rooted with
      | true => exact hA.rooted hallowed
      | false => exact hallowed

def Subst.Respects (A : Discipline) (κ : Kinding) (s : Subst) : Prop :=
  ∀ x t, s.get? x = some t → ∃ k, κ x = some k ∧ HasKind A κ t k

theorem HasKind.subst (hA : A.Uniform) (h : HasKind A κ t k) (hs : s.Respects A κ) :
    HasKind A κ (t.subst s) k := by
  refine h.subst_of hA (fun x u l hu hl => ?_) (fun _ _ _ _ hl => hl) fun _ _ _ hl => hl
  obtain ⟨k, hk, ht⟩ := hs x u hu
  cases hk.symm.trans hl
  exact ht

namespace Subst.Respects

variable {r : Subst}

theorem empty : (∅ : Subst).Respects A κ := by
  intro x t h
  simp at h

theorem mono (h : s.Respects A κ) (hκ : κ.Sub κ') : s.Respects A κ' := by
  intro x t ht
  obtain ⟨k, hk, hkind⟩ := h x t ht
  exact ⟨k, hκ x k hk, hkind.mono hκ⟩

theorem singleton {x : String} (hx : κ x = some k) (ht : HasKind A κ t k) :
    Subst.Respects A κ (.singleton x t) := by
  intro y u hu
  rw [NameMap.get?_singleton] at hu
  split at hu
  · next heq =>
    cases hu
    exact ⟨k, heq ▸ hx, ht⟩
  · cases hu

theorem compose (hA : A.Uniform) (hs : s.Respects A κ) (hr : r.Respects A κ) :
    (s.compose r).Respects A κ := by
  intro x t ht
  rcases Subst.of_get?_compose ht with ht | ⟨u, hu, rfl⟩
  · exact hs x t ht
  · obtain ⟨k, hk, hkind⟩ := hr x u hu
    exact ⟨k, hk, hkind.subst hA hs⟩

end Subst.Respects

/-! ## Unification -/

/-- Equations that unification can be given.  Both sides have the same kind, unless both begin
with constructors; and then the equations behind matter only if the kinds are the same. -/
def Fits (A : Discipline) (κ : Kinding) : List Equation → Prop
  | [] => True
  | (t, u) :: eqs => ∃ k l, HasKind A κ t k ∧ HasKind A κ u l ∧
      (k = l ∨ (t.rooted = true ∧ u.rooted = true)) ∧ (k = l → Fits A κ eqs)

theorem Fits.substEquations (hA : A.Uniform) (hs : s.Respects A κ) {eqs : List Equation}
    (h : Fits A κ eqs) : Fits A κ (substEquations s eqs) := by
  induction eqs with
  | nil => trivial
  | cons eq eqs ih =>
    obtain ⟨k, l, ht, hu, hkl, hrest⟩ := h
    refine ⟨k, l, ht.subst hA hs, hu.subst hA hs, hkl.imp_right fun hroot => ?_,
      fun heq => ih (hrest heq)⟩
    exact ⟨rooted_subst hroot.1 s, rooted_subst hroot.2 s⟩

/-- Equal constructors have equal kinds, and applications are taken apart head first. -/
theorem Fits.split (hA : A.Uniform) {loc : Loc} {parts eqs : List Equation}
    (h : Fits A κ ((t, u) :: eqs)) (hstep : step loc t u = .split parts) :
    Fits A κ (parts ++ eqs) := by
  obtain ⟨k, l, ht, hu, hkl, hrest⟩ := h
  have hsame : k = l → parts = [] → Fits A κ (parts ++ eqs) := by
    rintro heq rfl
    exact hrest heq
  -- A variable and a type beside it have the same kind.
  have hvariable : t.rooted = false ∨ u.rooted = false → parts = [] → Fits A κ (parts ++ eqs) := by
    intro hroot
    refine hsame (hkl.resolve_right fun hboth => ?_)
    simp [hboth] at hroot
  unfold step at hstep
  split at hstep
  · cases ht
    cases hu
    split at hstep
    · cases hstep
      exact hsame rfl rfl
    · cases hstep
  · cases hstep
    cases ht with
    | array ha =>
      cases hu with
      | array hb => exact ⟨_, _, ha, hb, .inl rfl, fun _ => hrest rfl⟩
  · cases hstep
    cases ht with
    | array ha =>
      obtain ⟨hdom, hcod, rfl⟩ := hu.of_func
      exact ⟨_, _, .base, hdom, .inl rfl, fun _ => ⟨_, _, ha, hcod, .inl rfl, fun _ => hrest rfl⟩⟩
  · cases hstep
    cases hu with
    | array ha =>
      obtain ⟨hdom, hcod, rfl⟩ := ht.of_func
      exact ⟨_, _, .base, hdom, .inl rfl, fun _ => ⟨_, _, ha, hcod, .inl rfl, fun _ => hrest rfl⟩⟩
  · split at hstep
    · next heq =>
      cases hstep
      subst heq
      cases ht
      cases hu
      exact hsame rfl rfl
    · cases hstep
  · cases hstep
    cases ht
    cases hu
    exact hsame rfl rfl
  · split at hstep
    · next heq =>
      cases hstep
      cases ht with
      | data ha =>
        cases hu with
        | data hb =>
          rw [heq] at ha
          exact hsame (Option.some.inj (ha.symm.trans hb)) rfl
    · cases hstep
  · cases hstep
    cases ht with
    | app hf ha hallowed =>
      cases hu with
      | app hg hb hallowed' =>
        refine ⟨_, _, hf, hg, hA.same_arg hallowed hallowed' hkl, fun heq => ?_⟩
        obtain ⟨rfl, rfl⟩ := Kind.arrow.inj heq
        exact ⟨_, _, ha, hb, .inl rfl, fun _ => hrest rfl⟩
  · exact hvariable (.inl rfl) (bindStep_split hstep)
  · exact hvariable (.inl rfl) (bindStep_split hstep)
  · exact hvariable (.inr rfl) (bindStep_split hstep)
  · exact hvariable (.inr rfl) (bindStep_split hstep)
  · cases hstep

theorem Fits.bind {loc : Loc} {eqs : List Equation} {x : String} {v : Ty}
    (h : Fits A κ ((t, u) :: eqs)) (hstep : step loc t u = .bind x v) :
    Subst.Respects A κ (.singleton x v) ∧ Fits A κ eqs := by
  obtain ⟨k, l, ht, hu, hkl, hrest⟩ := h
  have hleft : ∀ y : Name, t.rooted = false → κ y.text = some k → bindStep loc y u = .bind x v →
      Subst.Respects A κ (.singleton x v) ∧ Fits A κ eqs := by
    intro y hroot hy hbind
    obtain ⟨rfl, rfl, -⟩ := bindStep_bind hbind
    obtain rfl : k = l := hkl.resolve_right fun hboth => by simp [hroot] at hboth
    exact ⟨.singleton hy hu, hrest rfl⟩
  have hright : ∀ y : Name, u.rooted = false → κ y.text = some l → bindStep loc y t = .bind x v →
      Subst.Respects A κ (.singleton x v) ∧ Fits A κ eqs := by
    intro y hroot hy hbind
    obtain ⟨rfl, rfl, -⟩ := bindStep_bind hbind
    obtain rfl : k = l := hkl.resolve_right fun hboth => by simp [hroot] at hboth
    exact ⟨.singleton hy ht, hrest rfl⟩
  unfold step at hstep
  split at hstep
  · split at hstep <;> cases hstep
  · cases hstep
  · cases hstep
  · cases hstep
  · split at hstep <;> cases hstep
  · cases hstep
  · split at hstep <;> cases hstep
  · cases hstep
  · cases ht with
    | rigid hx => exact hleft _ rfl hx hstep
  · cases ht with
    | metavar hx => exact hleft _ rfl hx hstep
  · cases hu with
    | rigid hx => exact hright _ rfl hx hstep
  · cases hu with
    | metavar hx => exact hright _ rfl hx hstep
  · cases hstep

theorem solve_respects (hA : A.Uniform) {loc : Loc} {eqs : List Equation} {s r : Subst}
    (heqs : Fits A κ eqs) (hs : s.Respects A κ) (h : solve loc eqs s = .ok r) :
    r.Respects A κ := by
  fun_induction solve loc eqs s with
  | case1 s =>
    cases h
    exact hs
  | case2 s t u rest parts hstep ih => exact ih (heqs.split hA hstep) hs h
  | case3 s t u rest x v hstep found ih =>
    obtain ⟨hfound, hrest⟩ := heqs.bind hstep
    exact ih (hrest.substEquations hA hfound) (hfound.compose hA hs) h
  | case4 => cases h

theorem unify_respects (hA : A.Uniform) {loc : Loc} {s : Subst} (ht : HasKind A κ t k)
    (hu : HasKind A κ u k) (h : unify t u loc = .ok s) : s.Respects A κ := by
  have hfits : Fits A κ [(t, u)] := ⟨k, k, ht, hu, .inl rfl, fun _ => trivial⟩
  exact solve_respects hA hfits .empty h

end Ty

end GuardedCommands
