import GuardedCommands.Proofs.Kinding
import GuardedCommands.Proofs.Nesting
import GuardedCommands.Proofs.StatementTyping

/-!
# Inferred types have kinds

Inference starts from names whose types have kinds and gives a kind to every
variable that it makes.  So the assignment of kinds grows with the supply of names:
new names have none yet, and old ones keep theirs.  A name that is used at many
types is generic: its type has a kind when its own variables are given kinds, and a
use of it gives the new variables the kinds of those that they stand for.
-/

namespace GuardedCommands

open Ty (HasKind Subst)

/-! ## Kinds for new names -/

def Reserved (x : String) : Prop := x.toList.head? = some '?'

instance (x : String) : Decidable (Reserved x) :=
  inferInstanceAs (Decidable (x.toList.head? = some '?'))

theorem reserved_next (s : Supply) (hint : String) : Reserved (s.next hint).text := by
  simp [Reserved, Supply.next, Name.bare]

namespace Kinding

structure Grows (κ κ' : Kinding) : Prop where
  sub : κ.Sub κ'
  same : ∀ x, ¬ Reserved x → κ' x = κ x

theorem Grows.refl (κ : Kinding) : κ.Grows κ := ⟨.refl κ, fun _ _ => rfl⟩

variable {κ : Kinding} {s : Supply}

theorem Grows.trans {κ₁ κ₂ : Kinding} (h : κ.Grows κ₁) (h' : κ₁.Grows κ₂) : κ.Grows κ₂ :=
  ⟨h.sub.trans h'.sub, fun x hx => (h'.same x hx).trans (h.same x hx)⟩

def Below (κ : Kinding) (s : Supply) : Prop :=
  ∀ hint ∈ ["t", "a"], ∀ i, s.issued ≤ i → κ (Supply.next ⟨i⟩ hint).text = none

theorem Below.mono {s' : Supply} (h : κ.Below s) (hs : s.issued ≤ s'.issued) : κ.Below s' :=
  fun hint hhint i hi => h hint hhint i (hs.trans hi)

def assign (κ : Kinding) (x : String) (k : Kind) : Kinding := Function.update κ x (some k)

@[simp] theorem assign_self (κ : Kinding) (x : String) (k : Kind) : κ.assign x k x = some k :=
  Function.update_self ..

theorem Below.grows_assign {hint : String} (h : κ.Below s) (hhint : hint ∈ ["t", "a"]) (k : Kind) :
    κ.Grows (κ.assign (s.next hint).text k) := by
  have hnone : κ (s.next hint).text = none := h hint hhint s.issued le_rfl
  constructor
  · intro x l hx
    have hne : x ≠ (s.next hint).text := by
      rintro rfl
      rw [hnone] at hx
      cases hx
    rwa [assign, Function.update_of_ne hne]
  · intro x hx
    have hne : x ≠ (s.next hint).text := fun heq => hx (heq ▸ reserved_next s hint)
    rw [assign, Function.update_of_ne hne]

theorem Below.assign {κ : Kinding} {s : Supply} {hint : String} (h : κ.Below s)
    (hhint : hint ∈ ["t", "a"]) (k : Kind) :
    (κ.assign (s.next hint).text k).Below s.advance := by
  intro hint' hhint' i hi
  have hlt : s.issued < i := hi
  have hne : (Supply.next ⟨i⟩ hint').text ≠ (s.next hint).text := by
    intro heq
    by_cases hsame : hint' = hint
    · subst hsame
      have hs : s = ⟨s.issued⟩ := rfl
      rw [hs] at heq
      have := Supply.next_injective heq
      omega
    · simp only [List.mem_cons, List.not_mem_nil, or_false] at hhint hhint'
      have hlists := congrArg String.toList heq
      simp only [Supply.next, Name.bare, String.toList_append] at hlists
      rcases hhint with rfl | rfl <;> rcases hhint' with rfl | rfl <;> simp_all
  rw [Kinding.assign, Function.update_of_ne hne]
  exact h hint' hhint' i hlt.le

end Kinding

/-! ## Assigning kinds on the way -/

/-- While the functions `P` are being elaborated, the new names that a computation takes can be
given kinds so that its result is as wanted. -/
def Assigns (P : Set String) (κ : Kinding) {α : Type} (m : ElaborationM α)
    (Q : Kinding → α → Prop) : Prop :=
  ∀ st a st', (∀ x ∈ st.inProgress, x ∈ P) → κ.Below st.supply → m st = .ok a st' →
    (∀ x ∈ st'.inProgress, x ∈ P) ∧ ∃ κ', κ.Grows κ' ∧ κ'.Below st'.supply ∧ Q κ' a

namespace Assigns

variable {P : Set String} {κ : Kinding} {α β : Type} {m : ElaborationM α} {f : α → ElaborationM β}
  {Q : Kinding → α → Prop} {R : Kinding → β → Prop}

theorem bind (hm : Assigns P κ m Q)
    (hf : ∀ κ' a, κ.Grows κ' → Q κ' a → Assigns P κ' (f a) R) : Assigns P κ (m >>= f) R := by
  intro st b st' hst hκ h
  obtain ⟨a, st₁, hms, hfs⟩ := EStateM.ok_of_bind h
  obtain ⟨hst₁, κ₁, hgrows, hκ₁, ha⟩ := hm st a st₁ hst hκ hms
  obtain ⟨hst', κ', hgrows', hκ', hb⟩ := hf κ₁ a hgrows ha st₁ b st' hst₁ hκ₁ hfs
  exact ⟨hst', κ', hgrows.trans hgrows', hκ', hb⟩

theorem pure {a : α} (h : Q κ a) : Assigns P κ (Pure.pure a : ElaborationM α) Q := by
  intro st b st' hst hκ hs
  cases hs
  exact ⟨hst, κ, .refl κ, hκ, h⟩

theorem throw {e : ElaborationError} :
    Assigns P κ (MonadExcept.throw e : ElaborationM α) Q := by
  intro st b st' _ _ hs
  cases hs

theorem ofExcept {x : Except ElaborationError α} (h : ∀ a, x = .ok a → Q κ a) :
    Assigns P κ (MonadExcept.ofExcept x : ElaborationM α) Q := by
  intro st a st' hst hκ hs
  obtain ⟨hx, rfl⟩ := EStateM.ok_of_ofExcept hs
  exact ⟨hst, κ, .refl κ, hκ, h a hx⟩

theorem of_extends (h : ∀ st a st', m st = .ok a st' → st.Extends st') :
    Assigns P κ m fun _ _ => True := by
  intro st a st' hst hκ hs
  have hext := h st a st' hs
  exact ⟨hext.inProgress ▸ hst, κ, .refl κ, hκ.mono hext.supply, trivial⟩

theorem fresh {hint : String} (hhint : hint ∈ ["t", "a"]) (k : Kind) :
    Assigns P κ (ElaborationM.fresh hint) fun κ' n => κ' n.text = some k := by
  intro st n st' hst hκ h
  cases h
  exact ⟨hst, _, hκ.grows_assign hhint k, hκ.assign hhint k, Kinding.assign_self ..⟩

end Assigns

/-! ## Generic types -/

namespace Ty

variable {A : Discipline} {κ κ' : Kinding} {t : Ty} {s : Subst}

def fixedNames : Ty → NameSet
  | .data n | .metavar n => {n.text}
  | .array _ t _ => t.fixedNames
  | .app f a _ => f.fixedNames ∪ a.fixedNames
  | .rigid _ | .base .. | .tuple .. | .arrow _ => ∅

theorem fixedNames_subset (t : Ty) : ∀ x ∈ t.fixedNames, x ∈ t.freeVars ∪ t.dataNames := by
  induction t with
  | app f a l ihf iha =>
    simp only [fixedNames, freeVars, dataNames, NameSet.mem_union] at ihf iha ⊢
    rintro x (hx | hx)
    · exact (ihf x hx).imp .inl .inl
    · exact (iha x hx).imp .inr .inr
  | array i t l ih => exact ih
  | data | metavar | rigid | base | tuple | arrow => simp [fixedNames, freeVars, dataNames]

theorem mem_fixedNames_of_data {x : String} (h : x ∈ t.dataNames) : x ∈ t.fixedNames := by
  induction t with
  | app f a l ihf iha =>
    simp only [fixedNames, dataNames, NameSet.mem_union] at h ⊢
    exact h.imp ihf iha
  | array i t l ih => exact ih h
  | data => exact h
  | metavar | rigid | base | tuple | arrow => simp [dataNames] at h

theorem rigid_or_fixed {x : String} (h : x ∈ t.freeVars) : x ∈ t.rigidVars ∨ x ∈ t.fixedNames := by
  induction t with
  | app f a l ihf iha =>
    simp only [freeVars, rigidVars, fixedNames, NameSet.mem_union] at h ⊢
    rcases h with h | h
    · exact (ihf h).imp .inl .inl
    · exact (iha h).imp .inr .inr
  | array i t l ih => exact ih h
  | rigid => exact .inl h
  | metavar => exact .inr h
  | data | base | tuple | arrow => simp [freeVars] at h

theorem mem_fixedNames_subst {x : String} (h : x ∈ (t.subst s).fixedNames) :
    x ∈ t.fixedNames ∨ ∃ y u, s.get? y = some u ∧ x ∈ u.fixedNames := by
  induction t with
  | app f a l ihf iha =>
    simp only [subst, fixedNames, NameSet.mem_union] at h ⊢
    rcases h with h | h
    · exact (ihf h).imp_left .inl
    · exact (iha h).imp_left .inr
  | array i t l ih => exact ih h
  | rigid n | metavar n =>
    cases hn : s.get? n.text with
    | none =>
      rw [subst, hn, Option.getD_none] at h
      exact .inl h
    | some u =>
      rw [subst, hn, Option.getD_some] at h
      exact .inr ⟨_, u, hn, h⟩
  | data | base | tuple | arrow => exact .inl h

/-- A type of values once its own variables are given kinds. -/
structure Generic (A : Discipline) (κ : Kinding) (t : Ty) : Prop where
  fixed : ∀ x ∈ t.fixedNames, (κ x).isSome
  kinded : ∃ κ', κ.Sub κ' ∧ (∀ x, Reserved x → κ' x = κ x) ∧ HasKind A κ' t .star

theorem HasKind.generic (h : HasKind A κ t .star) : t.Generic A κ where
  fixed x hx := h.isSome x (t.fixedNames_subset x hx)
  kinded := ⟨κ, .refl κ, fun _ _ => rfl, h⟩

theorem Generic.mono (h : t.Generic A κ) (hκ : κ.Grows κ') : t.Generic A κ' := by
  obtain ⟨hfixed, μ, hsub, hreserved, hkind⟩ := h
  refine ⟨fun x hx => ?_, fun x => (κ' x).or (μ x), fun x k hx => by simp [hx],
    fun x hx => ?_, hkind.of_names fun x _ l hl => ?_⟩
  · obtain ⟨k, hk⟩ := Option.isSome_iff_exists.1 (hfixed x hx)
    simp [hκ.sub x k hk]
  · dsimp only
    cases hx' : κ' x with
    | some k => rfl
    | none =>
      rw [Option.none_or, hreserved x hx]
      cases hκx : κ x with
      | none => rfl
      | some k =>
        rw [hκ.sub x k hκx] at hx'
        cases hx'
  · by_cases hx : Reserved x
    · rw [hreserved x hx] at hl
      simp [hκ.sub x l hl]
    · rw [hκ.same x hx]
      cases hκx : κ x with
      | none => simpa using hl
      | some k =>
        rw [hsub x k hκx] at hl
        simpa using hl

theorem Generic.subst (hA : A.Uniform) (h : t.Generic A κ) (hs : s.Respects A κ) :
    (t.subst s).Generic A κ := by
  obtain ⟨hfixed, κ', hsub, hreserved, hkind⟩ := h
  refine ⟨fun x hx => ?_, κ', hsub, hreserved, ?_⟩
  · rcases mem_fixedNames_subst hx with hx | ⟨y, u, hu, hx⟩
    · exact hfixed x hx
    · obtain ⟨k, -, hu⟩ := hs y u hu
      exact hu.isSome x (u.fixedNames_subset x hx)
  · refine hkind.subst_of hA (fun x u l hu hl => ?_) (fun _ _ _ _ hl => hl) fun _ _ _ hl => hl
    obtain ⟨k, hk, hu⟩ := hs x u hu
    cases (hsub x k hk).symm.trans hl
    exact hu.mono hsub

end Ty

/-! ## Environments -/

/-- The types of an environment are generic.  Those that are used as they are, because the name
can be assigned to or is being elaborated, are types of values. -/
def TypeEnv.Kinded (A : Discipline) (P : Set String) (κ : Kinding) (env : TypeEnv) : Prop :=
  ∀ x info, env.lookup? x = some info → info.ty.Generic A κ ∧
    (info.isMutable = true ∨ x ∈ P → HasKind A κ info.ty .star)

namespace TypeEnv.Kinded

variable {A : Discipline} {P : Set String} {κ κ' : Kinding} {env : TypeEnv} {s : Subst}

theorem mono (h : env.Kinded A P κ) (hκ : κ.Grows κ') : env.Kinded A P κ' := by
  intro x info hinfo
  obtain ⟨hgeneric, hfixed⟩ := h x info hinfo
  exact ⟨hgeneric.mono hκ, fun hx => (hfixed hx).mono hκ.sub⟩

theorem subst (hA : A.Uniform) (h : env.Kinded A P κ) (hs : s.Respects A κ) :
    (env.subst s).Kinded A P κ := by
  intro x info hinfo
  rw [lookup?_subst] at hinfo
  obtain ⟨info', hinfo', rfl⟩ := Option.map_eq_some_iff.1 hinfo
  obtain ⟨hgeneric, hfixed⟩ := h x info' hinfo'
  exact ⟨hgeneric.subst hA hs, fun hx => (hfixed hx).subst hA hs⟩

variable {entries : List (Name × TypeInfo)} {info : TypeInfo}

theorem append (h : env.Kinded A P κ) (hentries : ∀ e ∈ entries, HasKind A κ e.2.ty .star) :
    TypeEnv.Kinded A P κ ⟨env.entries ++ entries⟩ := by
  intro x info hinfo
  rw [lookup?_append] at hinfo
  cases hnew : (⟨entries⟩ : TypeEnv).lookup? x with
  | none =>
    rw [hnew, Option.none_or] at hinfo
    exact h x info hinfo
  | some info' =>
    rw [hnew, Option.some_or] at hinfo
    cases hinfo
    obtain ⟨e, he, rfl⟩ := mem_of_lookup? hnew
    exact ⟨(hentries e he).generic, fun _ => hentries e he⟩

theorem insert (h : env.Kinded A P κ) {x : Name} (hinfo : HasKind A κ info.ty .star) :
    (env.insert x info).Kinded A P κ :=
  h.append (by simpa using hinfo)

theorem insertAll (h : env.Kinded A P κ) {xs : List Name} (hinfo : HasKind A κ info.ty .star) :
    (env.insertAll xs info).Kinded A P κ :=
  h.append (by simpa using fun _ _ => hinfo)

theorem of_entries (h : ∀ e ∈ env.entries, e.2.ty.Generic A κ ∧
    (e.2.isMutable = true → HasKind A κ e.2.ty .star)) : env.Kinded A ∅ κ := by
  intro x info hinfo
  obtain ⟨e, he, rfl⟩ := mem_of_lookup? hinfo
  obtain ⟨hgeneric, hmutable⟩ := h e he
  exact ⟨hgeneric, fun hx => hx.elim hmutable fun hx => absurd hx (Set.notMem_empty x)⟩

theorem start (h : env.Kinded A ∅ κ) (hentries : ∀ e ∈ entries, HasKind A κ e.2.ty .star)
    (hP : ∀ x ∈ P, ∃ e ∈ entries, e.1.text = x) :
    TypeEnv.Kinded A P κ ⟨env.entries ++ entries⟩ := by
  intro x info hinfo
  obtain ⟨hgeneric, hfixed⟩ := h.append hentries x info hinfo
  refine ⟨hgeneric, fun hx => hx.elim (fun hmutable => hfixed (.inl hmutable)) fun hx => ?_⟩
  obtain ⟨e, he, rfl⟩ := hP x hx
  have hnew : ((⟨entries⟩ : TypeEnv).lookup? e.1.text).isSome := by
    simpa [lookup?] using ⟨e.1, ⟨e.2, he⟩, rfl⟩
  obtain ⟨info', hnew⟩ := Option.isSome_iff_exists.1 hnew
  rw [lookup?_append, hnew, Option.some_or] at hinfo
  cases hinfo
  obtain ⟨e', he', rfl⟩ := mem_of_lookup? hnew
  exact hentries e' he'

end TypeEnv.Kinded

/-! ## The steps that rules are made of -/

section Steps

variable {A : Discipline} {P : Set String} {κ : Kinding} {env : TypeEnv}

namespace ElaborationM

variable {u : Ty} {k : Kind}

theorem assigns_unify (hA : A.Uniform) {t : Ty} (loc : Loc) (ht : HasKind A κ t k)
    (hu : HasKind A κ u k) : Assigns P κ (unify t u loc) fun κ' s => s.Respects A κ' :=
  .ofExcept fun _ hs => Ty.unify_respects hA ht hu hs

theorem assigns_unify_bind (hA : A.Uniform) {t : Ty} (loc : Loc) (ht : HasKind A κ t k)
    (hu : HasKind A κ u k) {α : Type} {f : Subst → ElaborationM α} {Q : Kinding → α → Prop}
    (hf : ∀ s, s.Respects A κ → Assigns P κ (f s) Q) : Assigns P κ (unify t u loc >>= f) Q := by
  intro st a st' hst hκ h
  obtain ⟨s, st₁, hunify, h⟩ := EStateM.ok_of_bind h
  obtain ⟨hs, rfl⟩ := EStateM.ok_of_ofExcept hunify
  exact hf s (Ty.unify_respects hA ht hu hs) st a st' hst hκ h

theorem assigns_freshMeta (A : Discipline) (k : Kind) :
    Assigns P κ freshMeta fun κ' t => HasKind A κ' t k :=
  (Assigns.fresh (by simp) k).bind fun _ _ _ hn => .pure (.metavar hn)

theorem assigns_chainOpTy (hA : A.Uniform) (o : ChainOp) :
    Assigns P κ (chainOpTy o) fun κ' t => HasKind A κ' t .star := by
  have hfixed : ∀ {t u : Ty}, HasKind A κ t .star → HasKind A κ u .star →
      HasKind A κ (.funcs [t, t] u) .star :=
    fun ht hu => .funcs hA.func (by simpa using ht) hu
  intro st t st' hst hκ h
  cases o with
  | eq | neq =>
    cases h
    have hhint : "t" ∈ ["t", "a"] := by simp
    refine ⟨hst, _, hκ.grows_assign hhint .star, hκ.assign hhint .star, ?_⟩
    have hmeta : HasKind A (κ.assign (st.supply.next "t").text .star) st.supply.nextMeta .star :=
      .metavar (Kinding.assign_self ..)
    exact .funcs hA.func (by simpa using hmeta) .base
  | lt | lte | gt | gte | eqProp =>
    cases h
    exact ⟨hst, κ, .refl κ, hκ, hfixed .base .base⟩

theorem assigns_freshMetas (kinds : String → Kind) (names : List String) :
    Assigns P κ (freshMetas names) fun κ' metas =>
      metas.map (·.1) = names ∧ ∀ e ∈ metas, HasKind A κ' e.2 (kinds e.1) := by
  induction names generalizing κ with
  | nil => exact .pure (by simp)
  | cons x names ih =>
    have hhead : Assigns P κ (do return (x, ← freshMeta)) fun κ' e =>
        e.1 = x ∧ HasKind A κ' e.2 (kinds e.1) :=
      (assigns_freshMeta A (kinds x)).bind fun _ _ _ ht => .pure ⟨rfl, ht⟩
    unfold freshMetas at ih ⊢
    rw [List.mapM_cons]
    refine hhead.bind fun κ₁ e _ he => ih.bind fun κ₂ metas hgrows hmetas => .pure ?_
    obtain ⟨rfl, he⟩ := he
    refine ⟨by simp [hmetas.1], ?_⟩
    exact List.forall_mem_cons.2 ⟨he.mono hgrows.sub, hmetas.2⟩

theorem assigns_instance (hA : A.Uniform) {t : Ty} (ht : t.Generic A κ) :
    Assigns P κ (freshMetas t.rigidVars.toList) fun κ' metas =>
      HasKind A κ' (t.subst (.ofList metas)) .star := by
  obtain ⟨hfixed, μ, hsub, -, hkind⟩ := ht
  have hmetas := assigns_freshMetas (A := A) (P := P) (κ := κ) (fun x => (μ x).getD .star)
    t.rigidVars.toList
  intro st metas st' hst hκ h
  obtain ⟨hst', κ', hgrows, hκ', hnames, hkinds⟩ := hmetas st metas st' hst hκ h
  refine ⟨hst', κ', hgrows, hκ', hkind.subst_of hA (fun x u l hu hl => ?_)
    (fun x hx hnone l hl => ?_) fun x hx l hl => ?_⟩
  · rw [NameMap.get?_ofList] at hu
    have hmem := List.mem_reverse.1 (NameMap.mem_of_lookup hu)
    simpa [hl] using hkinds _ hmem
  · have hfix : x ∈ t.fixedNames := by
      refine (Ty.rigid_or_fixed hx).resolve_left fun hrigid => ?_
      rw [NameMap.get?_ofList, NameMap.lookup_eq_none, List.map_reverse, List.mem_reverse,
        hnames] at hnone
      exact hnone hrigid
    obtain ⟨k, hk⟩ := Option.isSome_iff_exists.1 (hfixed x hfix)
    rw [hsub x k hk] at hl
    cases hl
    exact hgrows.sub x _ hk
  · obtain ⟨k, hk⟩ := Option.isSome_iff_exists.1 (hfixed x (Ty.mem_fixedNames_of_data hx))
    rw [hsub x k hk] at hl
    cases hl
    exact hgrows.sub x _ hk

theorem assigns_instantiate (hA : A.Uniform) {x : String} {t : Ty} (ht : t.Generic A κ)
    (hx : x ∈ P → HasKind A κ t .star) :
    Assigns P κ (instantiate x t) fun κ' u => HasKind A κ' u .star := by
  intro st u st' hst hκ h
  rw [instantiate_apply] at h
  split at h
  · next hmem =>
    cases h
    exact ⟨hst, κ, .refl κ, hκ, hx (hst x hmem)⟩
  · have hnew : Assigns P κ (freshMetas t.rigidVars.toList >>= fun metas =>
        pure (t.subst (.ofList metas))) fun κ' u => HasKind A κ' u .star :=
      (assigns_instance hA ht).bind fun _ _ _ hu => .pure hu
    exact hnew st u st' hst hκ h

end ElaborationM

namespace Expr

open ElaborationM

theorem assigns_nameTy (hA : A.Uniform) (henv : env.Kinded A P κ) (x : Name) (loc : Loc) :
    Assigns P κ (nameTy env x loc) fun κ' t => HasKind A κ' t .star := by
  unfold nameTy
  cases hinfo : env.lookup? x.text with
  | none => exact .throw
  | some info =>
    obtain ⟨hgeneric, hfixed⟩ := henv _ _ hinfo
    exact assigns_instantiate hA hgeneric fun hx => hfixed (.inr hx)

theorem assigns_resultOf (hA : A.Uniform) {f a : Ty} (loc : Loc) (hf : HasKind A κ f .star)
    (ha : HasKind A κ a .star) :
    Assigns P κ (resultOf f a loc) fun κ' r => HasKind A κ' r.1 .star ∧ r.2.Respects A κ' := by
  unfold resultOf
  refine (assigns_freshMeta A .star).bind fun κ₁ t hκ₁ ht => ?_
  have hfunc := HasKind.func hA.func (ha.mono hκ₁.sub) ht
  exact assigns_unify_bind hA loc (hf.mono hκ₁.sub) hfunc fun s hs => .pure ⟨ht.subst hA hs, hs⟩

theorem assigns_bindAll (henv : env.Kinded A P κ) (xs : List Name) :
    Assigns P κ (bindAll env xs) fun κ' r =>
      r.1.Kinded A P κ' ∧ ∀ b ∈ r.2, HasKind A κ' b.ty .star := by
  induction xs generalizing κ env with
  | nil => exact .pure ⟨henv, by simp⟩
  | cons x xs ih =>
    unfold bindAll
    refine (assigns_freshMeta A .star).bind fun κ₁ t hκ₁ ht => ?_
    refine (ih ((henv.mono hκ₁).insert ht)).bind fun κ₂ r hκ₂ hr => .pure ⟨hr.1, ?_⟩
    exact List.forall_mem_cons.2 ⟨ht.mono hκ₂.sub, hr.2⟩

end Expr

end Steps

/-! ## Expressions -/

namespace TypedExpr

mutual

def annotations : TypedExpr → List Ty
  | .lit _ t _ | .var _ t _ | .const _ t _ | .op _ t _ => [t]
  | .chain head links t _ => t :: (head.annotations ++ linkAnnotations links)
  | .app f a t _ | .index f a t _ => t :: (f.annotations ++ a.annotations)
  | .lam b body t _ => t :: b.ty :: body.annotations
  | .quant q bs range body t _ =>
    t :: (bs.map (·.ty) ++ q.annotations ++ range.annotations ++ body.annotations)
  | .update a i v t _ => t :: (a.annotations ++ i.annotations ++ v.annotations)

def linkAnnotations : List (TypedLink TypedExpr) → List Ty
  | [] => []
  | l :: ls => l.opTy :: (l.rhs.annotations ++ linkAnnotations ls)

end

theorem ty_mem_annotations (e : TypedExpr) : e.ty ∈ e.annotations := by
  cases e <;> simp [ty, annotations]

@[simp] theorem annotations_substTy (s : Subst) (e : TypedExpr) :
    (e.substTy s).annotations = e.annotations.map (Ty.subst s) := by
  induction e using nested_induction
      (L := fun ls => linkAnnotations (substTyLinks s ls) =
        (linkAnnotations ls).map (Ty.subst s)) with
  | quant q bs r body _ _ ihq ihr ihbody =>
    simp only [substTy, annotations, ihq, ihr, ihbody, List.map_cons, List.map_append, List.map_map,
      Function.comp_def, Binder.subst]
  | _ =>
    simp_all only [substTy, substTyLinks, annotations, linkAnnotations, List.map_nil, List.map_cons,
      List.map_append, Binder.subst]

end TypedExpr

def AllValues (A : Discipline) (κ : Kinding) (ts : List Ty) : Prop := ∀ t ∈ ts, HasKind A κ t .star

namespace AllValues

variable {A : Discipline} {κ κ' : Kinding} {t : Ty} {ts us : List Ty} {s : Subst}

@[simp] theorem nil : AllValues A κ [] := by simp [AllValues]

@[simp] theorem cons_iff :
    AllValues A κ (t :: ts) ↔ HasKind A κ t .star ∧ AllValues A κ ts := by
  simp [AllValues]

@[simp] theorem append_iff :
    AllValues A κ (ts ++ us) ↔ AllValues A κ ts ∧ AllValues A κ us := by
  simp [AllValues, or_imp, forall_and]

theorem mono (h : AllValues A κ ts) (hκ : κ.Grows κ') : AllValues A κ' ts :=
  fun t ht => (h t ht).mono hκ.sub

theorem subst (hA : A.Uniform) (h : AllValues A κ ts) (hs : s.Respects A κ) :
    AllValues A κ (ts.map (Ty.subst s)) := by
  intro t ht
  obtain ⟨u, hu, rfl⟩ := List.mem_map.1 ht
  exact (h u hu).subst hA hs

theorem ty {e : TypedExpr} (h : AllValues A κ e.annotations) : HasKind A κ e.ty .star :=
  h _ e.ty_mem_annotations

end AllValues

namespace Expr

open ElaborationM

variable {A : Discipline} {P : Set String}

theorem hasKind_lit {κ : Kinding} (l : Lit) : HasKind A κ l.ty .star := by
  cases l <;> exact .base

theorem hasKind_arith (hA : A.Uniform) {κ : Kinding} (o : ArithOp) : HasKind A κ o.ty .star := by
  have hbinary : ∀ b c, HasKind A κ (.funcs [.base b .none, .base b .none] (.base c .none)) .star :=
    fun b c => .funcs hA.func (by simpa using .base) .base
  cases o with
  | neg | negNum | hash => exact .func hA.func .base .base
  | implies | conj | disj | sepConj | sepImp => exact hbinary .bool .bool
  | add | sub | mul | div | mod | max | min | exp => exact hbinary .int .int
  | pointsTo => exact hbinary .int .bool

mutual

/-- Whatever an expression is annotated with is a type of values. -/
theorem assigns_infer (hA : A.Uniform) {κ : Kinding} {env : TypeEnv} (henv : env.Kinded A P κ) :
    (e : Expr) → Assigns P κ (e.infer env) fun κ' r =>
      AllValues A κ' r.1.annotations ∧ r.2.Respects A κ'
  | .lit l loc => by
    rw [infer]
    exact .pure ⟨by simpa [TypedExpr.annotations] using hasKind_lit l, .empty⟩
  | .var x loc | .const x loc => by
    rw [infer]
    refine (assigns_nameTy hA henv x loc).bind fun κ₁ t _ ht => .pure ⟨?_, .empty⟩
    simpa [TypedExpr.annotations] using ht
  | .op (.arith o) loc => by
    rw [infer]
    exact .pure ⟨by simpa [TypedExpr.annotations] using hasKind_arith hA o, .empty⟩
  | .op (.chain o) loc => by
    rw [infer]
    refine (assigns_chainOpTy hA o).bind fun κ₁ t _ ht => .pure ⟨?_, .empty⟩
    simpa [TypedExpr.annotations] using ht
  | .chain head links loc => by
    rw [infer]
    refine (assigns_infer hA henv head).bind fun κ₁ ⟨head', s₁⟩ hκ₁ ⟨hhead, hs₁⟩ => ?_
    refine (assigns_inferLinks hA (henv.mono hκ₁) loc hhead.ty hs₁ links).bind
      fun κ₂ ⟨links', s₂⟩ hκ₂ ⟨hlinks, hs₂⟩ => .pure ⟨?_, hs₂⟩
    simp only [TypedExpr.annotations, AllValues.cons_iff, AllValues.append_iff]
    exact ⟨.base, hhead.mono hκ₂, hlinks⟩
  | .app f a loc | .index f a loc => by
    rw [infer]
    refine (assigns_infer hA henv f).bind fun κ₁ ⟨f', s₁⟩ hκ₁ ⟨hf, hs₁⟩ => ?_
    refine (assigns_infer hA ((henv.mono hκ₁).subst hA hs₁) a).bind
      fun κ₂ ⟨a', s₂⟩ hκ₂ ⟨ha, hs₂⟩ => ?_
    refine (assigns_resultOf hA loc ((hf.mono hκ₂).ty.subst hA hs₂) ha.ty).bind
      fun κ₃ ⟨t, s₃⟩ hκ₃ ⟨ht, hs₃⟩ => .pure ⟨?_, ?_⟩
    · simp only [TypedExpr.annotations, AllValues.cons_iff, AllValues.append_iff]
      exact ⟨ht, hf.mono (hκ₂.trans hκ₃), ha.mono hκ₃⟩
    · exact hs₃.compose hA ((hs₂.mono hκ₃.sub).compose hA (hs₁.mono (hκ₂.trans hκ₃).sub))
  | .lam x body loc => by
    rw [infer]
    refine (assigns_freshMeta A .star).bind fun κ₁ param hκ₁ hparam => ?_
    refine (assigns_infer hA ((henv.mono hκ₁).insert hparam) body).bind
      fun κ₂ ⟨body', s⟩ hκ₂ ⟨hbody, hs⟩ => .pure ⟨?_, hs⟩
    have hparam' := (hparam.mono hκ₂.sub).subst hA hs
    simp only [TypedExpr.annotations, AllValues.cons_iff]
    exact ⟨.func hA.func hparam' hbody.ty, hparam', hbody⟩
  | .quant q xs range body loc => by
    rw [infer]
    refine (assigns_bindAll henv xs).bind fun κ₁ ⟨inner, binders⟩ hκ₁ ⟨hinner, hbinders⟩ => ?_
    refine (assigns_infer hA hinner range).bind fun κ₂ ⟨range', s₁⟩ hκ₂ ⟨hrange, hs₁⟩ => ?_
    refine assigns_unify_bind hA _ hrange.ty .base fun s₂ hs₂ => ?_
    have hs := hs₂.compose hA hs₁
    refine (assigns_infer hA ((hinner.mono hκ₂).subst hA hs) body).bind
      fun κ₃ ⟨body', s₃⟩ hκ₃ ⟨hbody, hs₃⟩ => ?_
    have hs := hs₃.compose hA (hs.mono hκ₃.sub)
    have hκ := hκ₁.trans (hκ₂.trans hκ₃)
    refine (assigns_infer hA ((henv.mono hκ).subst hA hs) q).bind
      fun κ₄ ⟨q', s₄⟩ hκ₄ ⟨hq, hs₄⟩ => ?_
    have hs := hs₄.compose hA (hs.mono hκ₄.sub)
    have hquant : ∀ {κ' : Kinding} {t : Ty} {s : Subst}, κ₄.Grows κ' → HasKind A κ' t .star →
        s.Respects A κ' → AllValues A κ'
          (TypedExpr.quant q' (binders.map (·.subst s)) range' body' t loc).annotations := by
      intro κ' t s hκ' ht hs
      simp only [TypedExpr.annotations, AllValues.cons_iff, AllValues.append_iff]
      refine ⟨ht, ⟨⟨?_, hq.mono hκ'⟩, hrange.mono (hκ₃.trans (hκ₄.trans hκ'))⟩,
        hbody.mono (hκ₄.trans hκ')⟩
      intro u hu
      rw [List.map_map] at hu
      obtain ⟨b, hb, rfl⟩ := List.mem_map.1 hu
      exact ((hbinders b hb).mono (hκ₂.trans (hκ₃.trans (hκ₄.trans hκ'))).sub).subst hA hs
    have hbody' := (hbody.mono hκ₄).ty
    dsimp only
    split
    · refine assigns_unify_bind hA _ (hbody'.subst hA hs) .base fun s₅ hs₅ => ?_
      have hs := hs₅.compose hA hs
      exact .pure ⟨hquant (.refl _) .base hs, hs⟩
    · refine (assigns_freshMeta A .star).bind fun κ₅ a hκ₅ ha => ?_
      have hs := hs.mono hκ₅.sub
      refine assigns_unify_bind hA _ ((hq.mono hκ₅).ty.subst hA hs)
        (.funcs hA.func (by simpa using ha) ha) fun s₅ hs₅ => ?_
      have hs := hs₅.compose hA hs
      refine assigns_unify_bind hA _ (ha.subst hA hs) ((hbody'.mono hκ₅.sub).subst hA hs)
        fun s₆ hs₆ => ?_
      have hs := hs₆.compose hA hs
      exact .pure ⟨hquant hκ₅ (ha.subst hA hs) hs, hs⟩
  | .update a i v loc => by
    rw [infer]
    refine (assigns_infer hA henv a).bind fun κ₁ ⟨a', s₁⟩ hκ₁ ⟨ha, hs₁⟩ => ?_
    refine (assigns_infer hA ((henv.mono hκ₁).subst hA hs₁) i).bind
      fun κ₂ ⟨i', s₂⟩ hκ₂ ⟨hi, hs₂⟩ => ?_
    have hs := hs₂.compose hA (hs₁.mono hκ₂.sub)
    refine (assigns_infer hA ((henv.mono (hκ₁.trans hκ₂)).subst hA hs) v).bind
      fun κ₃ ⟨v', s₃⟩ hκ₃ ⟨hv, hs₃⟩ => ?_
    have hs := hs₃.compose hA (hs.mono hκ₃.sub)
    have ha := ha.mono (hκ₂.trans hκ₃)
    have hi := hi.mono hκ₃
    refine assigns_unify_bind hA loc (ha.ty.subst hA hs)
      (.func hA.func (hi.ty.subst hA hs) hv.ty) fun s₄ hs₄ => .pure ?_
    have hs := hs₄.compose hA hs
    simp only [TypedExpr.annotations, AllValues.cons_iff, AllValues.append_iff]
    exact ⟨⟨ha.ty.subst hA hs, ⟨ha, hi⟩, hv⟩, hs⟩
  | .tuple es loc | .caseOf e cs loc => by
    rw [infer]
    exact .throw

theorem assigns_inferLinks (hA : A.Uniform) {κ : Kinding} {env : TypeEnv}
    (henv : env.Kinded A P κ) (loc : Loc) {prev : Ty} {s : Subst} (hprev : HasKind A κ prev .star)
    (hs : s.Respects A κ) :
    (links : List (ChainLink Expr)) → Assigns P κ (inferLinks env loc prev s links) fun κ' r =>
      AllValues A κ' (TypedExpr.linkAnnotations r.1) ∧ r.2.Respects A κ'
  | [] => by
    rw [inferLinks]
    exact .pure ⟨by simp [TypedExpr.linkAnnotations], hs⟩
  | link :: rest => by
    rw [inferLinks]
    refine (assigns_infer hA (henv.subst hA hs) link.rhs).bind
      fun κ₁ ⟨rhs, s₁⟩ hκ₁ ⟨hrhs, hs₁⟩ => ?_
    have hs := hs₁.compose hA (hs.mono hκ₁.sub)
    refine (assigns_chainOpTy hA link.op).bind fun κ₂ opTy hκ₂ hopTy => ?_
    refine (assigns_freshMeta A .star).bind fun κ₃ result hκ₃ hresult => ?_
    have hκ := hκ₂.trans hκ₃
    have hs := hs.mono hκ.sub
    have hprev := (hprev.mono (hκ₁.trans hκ).sub).subst hA hs
    have hrhs := hrhs.mono hκ
    have hopTy := hopTy.mono hκ₃.sub
    refine assigns_unify_bind hA _ hopTy
      (.funcs hA.func (by simpa using ⟨hprev, hrhs.ty⟩) hresult) fun s₂ hs₂ => ?_
    have hs := hs₂.compose hA hs
    refine assigns_unify_bind hA _ (hresult.subst hA hs) .base fun s₃ hs₃ => ?_
    have hs := hs₃.compose hA hs
    refine (assigns_inferLinks hA (henv.mono (hκ₁.trans hκ)) loc (hrhs.ty.subst hA hs) hs
      rest).bind fun κ₄ ⟨links, s'⟩ hκ₄ ⟨hlinks, hs'⟩ => .pure ⟨?_, hs'⟩
    simp only [TypedExpr.linkAnnotations, AllValues.cons_iff, AllValues.append_iff]
    exact ⟨(hopTy.subst hA hs).mono hκ₄.sub, hrhs.mono hκ₄, hlinks⟩

end

variable {κ : Kinding} {env : TypeEnv}

variable {expected : Ty}

theorem assigns_expect (hA : A.Uniform) (henv : env.Kinded A P κ)
    (hexpected : HasKind A κ expected .star) (e : Expr) :
    Assigns P κ (e.expect env expected) fun κ' r =>
      AllValues A κ' r.1.annotations ∧ r.2.Respects A κ' := by
  unfold expect
  refine (assigns_infer hA henv e).bind fun κ₁ ⟨typed, s₁⟩ hκ₁ ⟨htyped, hs₁⟩ => ?_
  exact assigns_unify_bind hA _ ((hexpected.mono hκ₁.sub).subst hA hs₁) htyped.ty
    fun s₂ hs₂ => .pure ⟨htyped, hs₂.compose hA hs₁⟩

theorem assigns_expectEach (hA : A.Uniform) (henv : env.Kinded A P κ) {s : Subst}
    (hs : s.Respects A κ) {es : List (Ty × Expr)} (hes : ∀ e ∈ es, HasKind A κ e.1 .star) :
    Assigns P κ (expectEach env s es) fun κ' r =>
      AllValues A κ' (r.1.flatMap (·.annotations)) ∧ r.2.Respects A κ' := by
  induction es generalizing κ s with
  | nil => exact .pure ⟨by simp, hs⟩
  | cons e es ih =>
    obtain ⟨he, hes⟩ := List.forall_mem_cons.1 hes
    unfold expectEach
    refine (assigns_expect hA (henv.subst hA hs) (he.subst hA hs) e.2).bind
      fun κ₁ typed hκ₁ htyped => ?_
    obtain ⟨htyped, hs₁⟩ := htyped
    refine (ih (henv.mono hκ₁) (hs₁.compose hA (hs.mono hκ₁.sub))
      fun e he => (hes e he).mono hκ₁.sub).bind fun κ₂ others hκ₂ hothers =>
        .pure ⟨?_, hothers.2⟩
    rw [List.flatMap_cons, AllValues.append_iff]
    exact ⟨htyped.mono hκ₂, hothers.1⟩

theorem assigns_expectAll (hA : A.Uniform) (henv : env.Kinded A P κ)
    (hexpected : HasKind A κ expected .star) (es : List Expr) :
    Assigns P κ (expectAll env expected es) fun κ' r =>
      AllValues A κ' (r.1.flatMap (·.annotations)) ∧ r.2.Respects A κ' :=
  assigns_expectEach hA henv .empty (by simpa using fun _ _ => hexpected)

theorem assigns_expectOption (hA : A.Uniform) (henv : env.Kinded A P κ)
    (hexpected : HasKind A κ expected .star) (e : Option Expr) :
    Assigns P κ (expectOption env expected e) fun κ' r =>
      AllValues A κ' (r.1.toList.flatMap (·.annotations)) ∧ r.2.Respects A κ' := by
  cases e with
  | none => exact .pure ⟨by simp, .empty⟩
  | some e =>
    unfold expectOption
    exact (assigns_expect hA henv hexpected e).bind fun κ₁ r _ hr =>
      .pure ⟨by simpa using hr.1, hr.2⟩

end Expr

/-! ## Statements -/

def Declaration.annotations (d : TypedDeclaration) : List Ty :=
  d.ty :: d.prop.toList.flatMap (·.annotations)

def TypedDefinition.annotations : TypedDefinition → List Ty
  | .datatype .. => []
  | .signature _ _ prop _ => prop.toList.flatMap (·.annotations)
  | .function _ t body _ => t :: body.annotations

namespace Stmt

mutual

def annotations : TypedStmt → List Ty
  | .skip _ | .abort _ | .hole .. => []
  | .assign _ es _ | .alloc _ es _ => es.flatMap (·.annotations)
  | .arrayAssign a i v _ => a.annotations ++ i.annotations ++ v.annotations
  | .assert e _ | .lookup _ e _ | .dispose e _ => e.annotations
  | .invariant e bound _ => e.annotations ++ bound.toList.flatMap (·.annotations)
  | .mutate c v _ => c.annotations ++ v.annotations
  | .loop cs _ | .cond cs _ => cmdsAnnotations cs
  | .block b _ => b.defns.flatMap (·.annotations) ++ b.decls.flatMap (·.annotations) ++
      b.props.flatMap (·.annotations) ++ listAnnotations b.stmts

def cmdsAnnotations : List TypedCmd → List Ty
  | [] => []
  | c :: cs => c.guard.annotations ++ listAnnotations c.body ++ cmdsAnnotations cs

def listAnnotations : List TypedStmt → List Ty
  | [] => []
  | t :: ts => t.annotations ++ listAnnotations ts

end

end Stmt

section Statements

open ElaborationM

variable {A : Discipline} {P : Set String} {κ : Kinding} {env : TypeEnv}

namespace TypeEnv

theorem assigns_mutableTy (henv : env.Kinded A P κ) (x : Name) :
    Assigns P κ (env.mutableTy x) fun κ' t => HasKind A κ' t .star := by
  unfold mutableTy
  cases hinfo : env.lookup? x.text with
  | none => exact .throw
  | some info =>
    dsimp only
    split
    · next hmutable => exact .pure ((henv _ _ hinfo).2 (.inl hmutable))
    · exact .throw

theorem assigns_expectCell (hA : A.Uniform) (henv : env.Kinded A P κ) (x : Name) (loc : Loc) :
    Assigns P κ (env.expectCell x loc) fun κ' s => s.Respects A κ' := by
  unfold expectCell
  exact (assigns_mutableTy henv x).bind fun κ₁ t _ ht => assigns_unify hA _ ht .base

end TypeEnv

namespace Declaration

variable {ds : List (Declaration Expr)}

theorem assigns_declareAll (henv : env.Kinded A P κ) (hds : AllValues A κ (ds.map (·.ty))) :
    Assigns P κ (declareAll env ds) fun κ' env' => env'.Kinded A P κ' := by
  induction ds generalizing κ env with
  | nil => exact .pure henv
  | cons d ds ih =>
    rw [List.map_cons, AllValues.cons_iff] at hds
    unfold declareAll
    refine (Assigns.of_extends fun st _ st' h => (checkClosed_spec h).1).bind
      fun κ₁ _ hκ₁ _ => ?_
    exact ih ((henv.mono hκ₁).insertAll (hds.1.mono hκ₁.sub)) (hds.2.mono hκ₁)

theorem assigns_inferProps (hA : A.Uniform) (henv : env.Kinded A P κ) {s : Subst}
    (hs : s.Respects A κ) (hds : AllValues A κ (ds.map (·.ty))) :
    Assigns P κ (inferProps env s ds) fun κ' r =>
      AllValues A κ' (r.1.flatMap (·.annotations)) ∧ r.2.Respects A κ' := by
  induction ds generalizing κ s with
  | nil => exact .pure ⟨by simp, hs⟩
  | cons d ds ih =>
    rw [List.map_cons, AllValues.cons_iff] at hds
    unfold inferProps
    refine (Expr.assigns_expectOption hA (henv.subst hA hs) .base d.prop).bind
      fun κ₁ prop hκ₁ hprop => ?_
    obtain ⟨hprop, hs₁⟩ := hprop
    refine (ih (henv.mono hκ₁) (hs₁.compose hA (hs.mono hκ₁.sub)) (hds.2.mono hκ₁)).bind
      fun κ₂ others hκ₂ hothers => .pure ⟨?_, hothers.2⟩
    simp only [List.flatMap_cons, annotations, AllValues.append_iff, AllValues.cons_iff]
    exact ⟨⟨hds.1.mono (hκ₁.trans hκ₂).sub, hprop.mono hκ₂⟩, hothers.1⟩

end Declaration

namespace Stmt

theorem assigns_inferAssign (hA : A.Uniform) (henv : env.Kinded A P κ) (xs : List Name)
    (es : List Expr) (loc : Loc) :
    Assigns P κ (inferAssign env xs es loc) fun κ' r =>
      AllValues A κ' r.1.annotations ∧ r.2.Respects A κ' := by
  have htargets : Assigns P κ (xs.mapM env.mutableTy) fun κ' ts => AllValues A κ' ts := by
    clear es
    induction xs generalizing κ with
    | nil => exact .pure .nil
    | cons x xs ih =>
      rw [List.mapM_cons]
      refine (TypeEnv.assigns_mutableTy henv x).bind fun κ₁ t hκ₁ ht => ?_
      refine (ih (henv.mono hκ₁)).bind fun κ₂ ts hκ₂ hts => .pure ?_
      exact AllValues.cons_iff.2 ⟨ht.mono hκ₂.sub, hts⟩
  unfold inferAssign
  refine htargets.bind fun κ₁ targets hκ₁ htargets => ?_
  dsimp only
  split
  · exact .bind .throw fun _ _ _ h => h
  · split
    · exact .bind .throw fun _ _ _ h => h
    · refine (Expr.assigns_expectEach hA (henv.mono hκ₁) .empty fun e he => ?_).bind
        fun κ₂ ⟨es', s⟩ _ ⟨hes, hs⟩ => .pure ⟨?_, hs⟩
      · exact htargets _ (List.of_mem_zip he).1
      · simpa [annotations] using hes

theorem assigns_inferArrayAssign (hA : A.Uniform) (henv : env.Kinded A P κ) (a i v : Expr)
    (loc : Loc) :
    Assigns P κ (inferArrayAssign env a i v loc) fun κ' r =>
      AllValues A κ' r.1.annotations ∧ r.2.Respects A κ' := by
  unfold inferArrayAssign
  split
  on_goal 1 =>
    rename_i x _
    have hname : Assigns P κ (discard (env.mutableTy x)) fun _ _ => True :=
      (TypeEnv.assigns_mutableTy henv x).bind fun _ _ _ _ => .pure trivial
    refine hname.bind fun κ _ hκ _ => ?_
    replace henv := henv.mono hκ
  all_goals
    refine (Expr.assigns_infer hA henv a).bind fun κ₁ ⟨a', s₁⟩ hκ₁ ⟨ha, hs₁⟩ => ?_
    refine (Expr.assigns_infer hA ((henv.mono hκ₁).subst hA hs₁) i).bind
      fun κ₂ ⟨i', s₂⟩ hκ₂ ⟨hi, hs₂⟩ => ?_
    have hs := hs₂.compose hA (hs₁.mono hκ₂.sub)
    refine (Expr.assigns_infer hA ((henv.mono (hκ₁.trans hκ₂)).subst hA hs) v).bind
      fun κ₃ ⟨v', s₃⟩ hκ₃ ⟨hv, hs₃⟩ => ?_
    have hs := hs₃.compose hA (hs.mono hκ₃.sub)
    have ha := ha.mono (hκ₂.trans hκ₃)
    have hi := hi.mono hκ₃
    refine assigns_unify_bind hA loc (ha.ty.subst hA hs)
      (.func hA.func (hi.ty.subst hA hs) hv.ty) fun s₄ hs₄ => .pure ?_
    simp only [annotations, AllValues.append_iff]
    exact ⟨⟨⟨ha, hi⟩, hv⟩, hs₄.compose hA hs⟩

/-! ### The recursion over statements -/

mutual

theorem assigns_infer (hA : A.Uniform) {κ : Kinding} {env : TypeEnv} (henv : env.Kinded A P κ) :
    (t : SourceStmt) → AllValues A κ t.declaredTypes → Assigns P κ (infer env t) fun κ' r =>
      AllValues A κ' r.1.annotations ∧ r.2.Respects A κ'
  | .skip loc, _ | .abort loc, _ | .hole text _ loc, _ => by
    rw [infer]
    exact .pure ⟨by simp [annotations], .empty⟩
  | .assign xs es loc, _ => by
    rw [infer]
    exact assigns_inferAssign hA henv xs es loc
  | .arrayAssign a i v loc, _ => by
    rw [infer]
    exact assigns_inferArrayAssign hA henv a i v loc
  | .assert e loc, _ | .dispose e loc, _ => by
    rw [infer]
    refine (Expr.assigns_expect hA henv .base e).bind fun κ₁ r _ hr => .pure ?_
    simpa [annotations] using hr
  | .invariant inv bound loc, _ => by
    rw [infer]
    refine (Expr.assigns_expect hA henv .base inv).bind fun κ₁ ⟨inv', s⟩ hκ₁ ⟨hinv, hs⟩ => ?_
    refine (Expr.assigns_expectOption hA ((henv.mono hκ₁).subst hA hs) .base bound).bind
      fun κ₂ ⟨bound', s₁⟩ hκ₂ ⟨hbound, hs₁⟩ => .pure ?_
    simp only [annotations, AllValues.append_iff]
    exact ⟨⟨hinv.mono hκ₂, hbound⟩, hs₁.compose hA (hs.mono hκ₂.sub)⟩
  | .loop cs loc, h | .cond cs loc, h => by
    rw [infer]
    rw [declaredTypes] at h
    refine (assigns_inferCmds hA henv .empty cs h).bind fun κ₁ r _ hr => .pure ?_
    simpa [annotations] using hr
  | .alloc x es loc, _ => by
    rw [infer]
    refine (TypeEnv.assigns_expectCell hA henv x loc).bind fun κ₁ s₁ hκ₁ hs₁ => ?_
    refine (Expr.assigns_expectAll hA ((henv.mono hκ₁).subst hA hs₁) .base es).bind
      fun κ₂ ⟨es', s₂⟩ hκ₂ ⟨hes, hs₂⟩ => .pure ⟨?_, hs₂.compose hA (hs₁.mono hκ₂.sub)⟩
    simpa [annotations] using hes
  | .lookup x e loc, _ => by
    rw [infer]
    refine (TypeEnv.assigns_expectCell hA henv x loc).bind fun κ₁ s₁ hκ₁ hs₁ => ?_
    refine (Expr.assigns_expect hA ((henv.mono hκ₁).subst hA hs₁) .base e).bind
      fun κ₂ ⟨e', s₂⟩ hκ₂ ⟨he, hs₂⟩ => .pure ⟨?_, hs₂.compose hA (hs₁.mono hκ₂.sub)⟩
    simpa [annotations] using he
  | .mutate c v loc, _ => by
    rw [infer]
    refine (Expr.assigns_expect hA henv .base c).bind fun κ₁ ⟨c', s₁⟩ hκ₁ ⟨hc, hs₁⟩ => ?_
    refine (Expr.assigns_expect hA ((henv.mono hκ₁).subst hA hs₁) .base v).bind
      fun κ₂ ⟨v', s₂⟩ hκ₂ ⟨hv, hs₂⟩ => .pure ⟨?_, hs₂.compose hA (hs₁.mono hκ₂.sub)⟩
    simp only [annotations, AllValues.append_iff]
    exact ⟨hc.mono hκ₂, hv⟩
  | .block b loc, h => by
    rw [infer]
    rw [declaredTypes, AllValues.append_iff] at h
    have hcheck : Assigns P κ (checkBlock env b) fun _ _ => True :=
      .of_extends fun st _ st' hst => by
        rw [state_of_checkBlock hst]
        exact .refl st'
    refine hcheck.bind fun κ₁ _ hκ₁ _ => ?_
    refine (Declaration.assigns_declareAll (henv.mono hκ₁) (h.1.mono hκ₁)).bind
      fun κ₂ inner hκ₂ hinner => ?_
    have hdecls := h.1.mono (hκ₁.trans hκ₂)
    refine (Declaration.assigns_inferProps hA hinner .empty hdecls).bind
      fun κ₃ ⟨decls, s⟩ hκ₃ ⟨hdecls, hs⟩ => ?_
    refine (Expr.assigns_expectAll hA ((hinner.mono hκ₃).subst hA hs) .base b.props).bind
      fun κ₄ ⟨props, s₁⟩ hκ₄ ⟨hprops, hs₁⟩ => ?_
    have hs := hs₁.compose hA (hs.mono hκ₄.sub)
    have hκ := hκ₃.trans hκ₄
    refine (assigns_inferList hA ((hinner.mono hκ).subst hA hs) .empty b.stmts
      (h.2.mono (hκ₁.trans (hκ₂.trans hκ)))).bind fun κ₅ ⟨stmts, s₂⟩ hκ₅ ⟨hstmts, hs₂⟩ =>
        .pure ⟨?_, hs₂.compose hA (hs.mono hκ₅.sub)⟩
    simp only [annotations, AllValues.append_iff, List.flatMap_nil]
    exact ⟨⟨⟨.nil, hdecls.mono (hκ₄.trans hκ₅)⟩, hprops.mono hκ₅⟩, hstmts⟩

theorem assigns_inferCmds (hA : A.Uniform) {κ : Kinding} {env : TypeEnv}
    (henv : env.Kinded A P κ) {s : Subst} (hs : s.Respects A κ) :
    (cs : List SourceCmd) → AllValues A κ (cmdsTypes cs) →
      Assigns P κ (inferCmds env s cs) fun κ' r =>
        AllValues A κ' (cmdsAnnotations r.1) ∧ r.2.Respects A κ'
  | [], _ => by
    rw [inferCmds]
    exact .pure ⟨by simp [cmdsAnnotations], hs⟩
  | c :: cs, h => by
    rw [inferCmds]
    rw [cmdsTypes, AllValues.append_iff] at h
    refine (Expr.assigns_expect hA (henv.subst hA hs) .base c.guard).bind
      fun κ₁ ⟨guard, s₁⟩ hκ₁ ⟨hguard, hs₁⟩ => ?_
    have henv' := ((henv.subst hA hs).mono hκ₁).subst hA hs₁
    refine (assigns_inferList hA henv' .empty c.body (h.1.mono hκ₁)).bind
      fun κ₂ ⟨body, s₂⟩ hκ₂ ⟨hbody, hs₂⟩ => ?_
    have hκ := hκ₁.trans hκ₂
    have hs := (hs₂.compose hA (hs₁.mono hκ₂.sub)).compose hA (hs.mono hκ.sub)
    refine (assigns_inferCmds hA (henv.mono hκ) hs cs (h.2.mono hκ)).bind
      fun κ₃ ⟨others, s'⟩ hκ₃ ⟨hothers, hs'⟩ => .pure ⟨?_, hs'⟩
    simp only [cmdsAnnotations, AllValues.append_iff]
    exact ⟨⟨hguard.mono (hκ₂.trans hκ₃), hbody.mono hκ₃⟩, hothers⟩

theorem assigns_inferList (hA : A.Uniform) {κ : Kinding} {env : TypeEnv}
    (henv : env.Kinded A P κ) {s : Subst} (hs : s.Respects A κ) :
    (ts : List SourceStmt) → AllValues A κ (listTypes ts) →
      Assigns P κ (inferList env s ts) fun κ' r =>
        AllValues A κ' (listAnnotations r.1) ∧ r.2.Respects A κ'
  | [], _ => by
    rw [inferList]
    exact .pure ⟨by simp [listAnnotations], hs⟩
  | t :: ts, h => by
    rw [inferList]
    rw [listTypes, AllValues.append_iff] at h
    refine (assigns_infer hA (henv.subst hA hs) t h.1).bind
      fun κ₁ ⟨t', s₁⟩ hκ₁ ⟨ht, hs₁⟩ => ?_
    have hs := hs₁.compose hA (hs.mono hκ₁.sub)
    refine (assigns_inferList hA (henv.mono hκ₁) hs ts (h.2.mono hκ₁)).bind
      fun κ₂ ⟨others, s'⟩ hκ₂ ⟨hothers, hs'⟩ => .pure ⟨?_, hs'⟩
    simp only [listAnnotations, AllValues.append_iff]
    exact ⟨ht.mono hκ₂, hothers⟩

end

end Stmt

end Statements

/-! ## Applying a substitution that respects kinds -/

section Substitution

variable {A : Discipline} {κ : Kinding} {s : Subst}

theorem TypedExpr.annotations_map_substTy (s : Subst) (es : List TypedExpr) :
    (es.map (·.substTy s)).flatMap (·.annotations) =
      (es.flatMap (·.annotations)).map (Ty.subst s) := by
  simp only [List.flatMap_map, List.map_flatMap, annotations_substTy]

theorem TypedExpr.annotations_option_substTy (s : Subst) (e : Option TypedExpr) :
    (e.map (·.substTy s)).toList.flatMap (·.annotations) =
      (e.toList.flatMap (·.annotations)).map (Ty.subst s) := by
  cases e <;> simp

theorem Declaration.allValues_substTy (hA : A.Uniform) (hs : s.Respects A κ)
    {ds : List TypedDeclaration} (h : AllValues A κ (ds.flatMap (·.annotations))) :
    AllValues A κ ((ds.map (·.substTy s)).flatMap (·.annotations)) := by
  induction ds with
  | nil => exact .nil
  | cons d ds ih =>
    simp only [List.map_cons, List.flatMap_cons, annotations, AllValues.append_iff,
      AllValues.cons_iff, Declaration.substTy, TypedExpr.annotations_option_substTy] at h ⊢
    exact ⟨⟨h.1.1, h.1.2.subst hA hs⟩, ih h.2⟩

theorem TypedDefinition.allValues_substTy (hA : A.Uniform) (hs : s.Respects A κ)
    {ds : List TypedDefinition} (h : AllValues A κ (ds.flatMap (·.annotations))) :
    AllValues A κ ((ds.map (·.substTy s)).flatMap (·.annotations)) := by
  induction ds with
  | nil => exact .nil
  | cons d ds ih =>
    rw [List.flatMap_cons, AllValues.append_iff] at h
    rw [List.map_cons, List.flatMap_cons, AllValues.append_iff]
    refine ⟨?_, ih h.2⟩
    cases d with
    | datatype d k => exact .nil
    | signature n t prop loc =>
      rw [substTy, annotations, TypedExpr.annotations_option_substTy]
      exact h.1.subst hA hs
    | function n t body loc =>
      simp only [substTy, annotations, AllValues.cons_iff,
        TypedExpr.annotations_substTy] at h ⊢
      exact ⟨h.1.1.subst hA hs, h.1.2.subst hA hs⟩

namespace Stmt

open TypedExpr (annotations_substTy annotations_map_substTy annotations_option_substTy)

theorem allValues_substTyList (hA : A.Uniform) (hs : s.Respects A κ) (ts : List TypedStmt)
    (h : AllValues A κ (listAnnotations ts)) :
    AllValues A κ (listAnnotations (substTyList s ts)) := by
  induction ts using nested_induction
      (S := fun t => AllValues A κ t.annotations → AllValues A κ (t.substTy s).annotations)
      (C := fun cs => AllValues A κ (cmdsAnnotations cs) →
        AllValues A κ (cmdsAnnotations (substTyCmds s cs))) with
  | simple t ht h =>
    have hmap : (t.substTy s).annotations = t.annotations.map (Ty.subst s) := by
      cases t with
      | loop | cond | block => cases ht
      | _ => simp [substTy, annotations, annotations_map_substTy, annotations_option_substTy]
    rw [hmap]
    exact h.subst hA hs
  | loop cs _ ih h | cond cs _ ih h =>
    rw [annotations] at h
    rw [substTy, annotations]
    exact ih h
  | block b _ ih h =>
    simp only [annotations, AllValues.append_iff] at h
    obtain ⟨⟨⟨hdefns, hdecls⟩, hprops⟩, hstmts⟩ := h
    simp only [substTy, annotations, AllValues.append_iff, annotations_map_substTy]
    exact ⟨⟨⟨TypedDefinition.allValues_substTy hA hs hdefns,
      Declaration.allValues_substTy hA hs hdecls⟩, hprops.subst hA hs⟩, ih hstmts⟩
  | noCmds h | nil => exact h
  | cmds c cs ihbody ihrest h =>
    simp only [cmdsAnnotations, AllValues.append_iff] at h
    simp only [substTyCmds, cmdsAnnotations, AllValues.append_iff, annotations_substTy]
    exact ⟨⟨h.1.1.subst hA hs, ihbody h.1.2⟩, ihrest h.2⟩
  | cons t ts iht ihts =>
    simp only [substTyList, listAnnotations, AllValues.append_iff] at h ⊢
    exact ⟨iht h.1, ihts h.2⟩

end Stmt

end Substitution

end GuardedCommands
