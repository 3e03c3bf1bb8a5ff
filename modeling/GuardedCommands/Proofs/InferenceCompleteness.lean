import GuardedCommands.Proofs.FunctionSolutions
import GuardedCommands.Proofs.ProgramTyping
import GuardedCommands.Proofs.Unifiers

/-!
# Inference misses no typing

A typed tree that satisfies the typing rules shows a type that its source expression
admits.  Inference finds whatever is admitted.  So it succeeds on the source of every
such tree, and the tree is an instance of what it finds: one substitution gives the
type of the tree from the type that was inferred, and what was put in for the
metavariables from what they were solved by.
-/

namespace GuardedCommands

open Ty (Subst Assignment equiv_iff_canonical)

/-! ## Typed trees show what is admitted -/

def Scope.uses (Γ : Scope) : Uses := fun x τ => ∃ t, Γ.Gives x t ∧ t.canonical = τ

namespace Scope

variable {Γ : Scope}

theorem gives_bind {x : Name} {t u : Ty} {y : String} :
    (Γ.bind x t).Gives y u ↔ if y = x.text then u = t else Γ.Gives y u := by
  by_cases hy : y = x.text
  · have hlookup : (Γ.bind x t).fixed.lookup? y = some ⟨.const, t⟩ := by
      simp [bind, TypeEnv.lookup?_insert, hy]
    rw [if_pos hy]
    constructor
    · intro hu
      cases hu with
      | fixed h =>
        rw [hlookup] at h
        cases h
        rfl
      | scheme h =>
        rw [hlookup] at h
        cases h
    · rintro rfl
      exact .fixed hlookup
  · have hfixed : (Γ.bind x t).fixed.lookup? y = Γ.fixed.lookup? y := by
      simp [bind, TypeEnv.lookup?_insert, hy]
    rw [if_neg hy]
    constructor
    · intro hu
      cases hu with
      | fixed h => exact .fixed (hfixed ▸ h)
      | scheme hidden h ht => exact .scheme (hfixed ▸ hidden) h ht
    · intro hu
      cases hu with
      | fixed h => exact .fixed (hfixed.symm ▸ h)
      | scheme hidden h ht => exact .scheme (hfixed.symm ▸ hidden) h ht

theorem uses_bind (Γ : Scope) (x : Name) (t : Ty) :
    (Γ.bind x t).uses = Γ.uses.bind x.text t.canonical := by
  funext y τ
  by_cases hy : y = x.text
  · simp [uses, Uses.bind, gives_bind, hy, eq_comm]
  · simp [uses, Uses.bind, gives_bind, hy]

theorem uses_bindAll (Γ : Scope) (bs : List Binder) :
    (Γ.bindAll bs).uses = Γ.uses.bindAll (bs.map fun b => (b.name.text, b.ty.canonical)) := by
  induction bs generalizing Γ with
  | nil => rfl
  | cons b bs ih =>
    have hcons : Γ.bindAll (b :: bs) = (Γ.bind b.name b.ty).bindAll bs := rfl
    rw [hcons, ih, uses_bind]
    rfl

end Scope

theorem Ty.canonical_eq_fn {t a b : Ty} (h : t ≈ .func a b) :
    t.canonical = .fn a.canonical b.canonical := equiv_iff_canonical.1 h

theorem ChainOp.admits_of_hasTy {o : ChainOp} {t : Ty} (h : o.HasTy t) : o.Admits t.canonical := by
  cases o with
  | eq | neq =>
    obtain ⟨a, ha⟩ := h
    exact ⟨a.canonical, equiv_iff_canonical.1 ha⟩
  | lt | lte | gt | gte | eqProp => exact equiv_iff_canonical.1 h

namespace TypedExpr

mutual

theorem admits_of_wellTyped {Γ : Scope} {e : TypedExpr} :
    e.WellTyped Γ → e.erase.Admits Γ.uses e.ty.canonical
  | .lit (l := l) h => by
    have hl : l.ty.canonical = l.ty := by cases l <;> rfl
    exact (equiv_iff_canonical.1 h).trans hl
  | .var h | .const h => ⟨_, h, rfl⟩
  | .arith h => equiv_iff_canonical.1 h
  | .comparison h => ChainOp.admits_of_hasTy h
  | .chain hhead hlinks h =>
    ⟨equiv_iff_canonical.1 h, _, admits_of_wellTyped hhead, linksAdmit_of_linksTyped hlinks⟩
  | .app hf ha h | .index hf ha h =>
    ⟨_, Ty.canonical_eq_fn h ▸ admits_of_wellTyped hf, admits_of_wellTyped ha⟩
  | .lam hbody h => ⟨_, _, Scope.uses_bind .. ▸ admits_of_wellTyped hbody, Ty.canonical_eq_fn h⟩
  | .count hcounts hq hrange hbool hbody hprop h => by
    refine ⟨_, ?_,
      Scope.uses_bindAll .. ▸ equiv_iff_canonical.1 hbool ▸ admits_of_wellTyped hrange,
      _, Scope.uses_bindAll .. ▸ admits_of_wellTyped hbody, _, admits_of_wellTyped hq, ?_⟩
    · simp
    · rw [Expr.Quantifies, if_pos hcounts]
      exact ⟨equiv_iff_canonical.1 hprop, equiv_iff_canonical.1 h⟩
  | .fold hcounts hq hop hrange hbool hbody hvalue h => by
    refine ⟨_, ?_,
      Scope.uses_bindAll .. ▸ equiv_iff_canonical.1 hbool ▸ admits_of_wellTyped hrange,
      _, Scope.uses_bindAll .. ▸ admits_of_wellTyped hbody, _, admits_of_wellTyped hq, ?_⟩
    · simp
    · rw [Expr.Quantifies, if_neg (by simp [hcounts]), ← equiv_iff_canonical.1 hvalue]
      exact ⟨equiv_iff_canonical.1 hop, equiv_iff_canonical.1 h⟩
  | .update ha hi hv harray h => by
    rw [erase, ty, equiv_iff_canonical.1 h]
    exact ⟨admits_of_wellTyped ha, _, _, admits_of_wellTyped hi, admits_of_wellTyped hv,
      Ty.canonical_eq_fn harray⟩

theorem linksAdmit_of_linksTyped {Γ : Scope} {left : Ty} {links : List (TypedLink TypedExpr)} :
    LinksTyped Γ left links → Expr.LinksAdmit Γ.uses left.canonical (eraseLinks links)
  | .nil => trivial
  | .cons hrhs hop h hlinks => by
    have hop := ChainOp.admits_of_hasTy hop
    rw [equiv_iff_canonical.1 h] at hop
    exact ⟨_, admits_of_wellTyped hrhs, hop, linksAdmit_of_linksTyped hlinks⟩

end

end TypedExpr

/-! ## More uses of names -/

theorem Uses.bind_mono {Γ Δ : Uses} (h : ∀ x τ, Γ x τ → Δ x τ) (x : String) (a : Ty) :
    ∀ y τ, Γ.bind x a y τ → Δ.bind x a y τ := by
  intro y τ hy
  by_cases hyx : y = x
  · simpa [bind, hyx] using hy
  · simp only [bind, hyx, if_false] at hy ⊢
    exact h y τ hy

theorem Uses.bindAll_mono {Γ Δ : Uses} (h : ∀ x τ, Γ x τ → Δ x τ) (bs : List (String × Ty)) :
    ∀ y τ, Γ.bindAll bs y τ → Δ.bindAll bs y τ := by
  induction bs generalizing Γ Δ with
  | nil => exact h
  | cons b bs ih => exact ih (bind_mono h b.1 b.2)

namespace Expr

mutual

theorem Admits.mono {Γ Δ : Uses} (h : ∀ x τ, Γ x τ → Δ x τ) :
    (e : Expr) → {τ : Ty} → e.Admits Γ τ → e.Admits Δ τ
  | .lit .., _, he | .op (.arith _) _, _, he | .op (.chain _) _, _, he => he
  | .var x _, τ, he | .const x _, τ, he => h x.text τ he
  | .chain head links _, _, he => by
    obtain ⟨hbool, a, hhead, hlinks⟩ := he
    exact ⟨hbool, a, Admits.mono h head hhead, LinksAdmit.mono h links hlinks⟩
  | .app f e _, _, he | .index f e _, _, he => by
    obtain ⟨a, hf, ha⟩ := he
    exact ⟨a, Admits.mono h f hf, Admits.mono h e ha⟩
  | .lam x body _, _, he => by
    obtain ⟨a, b, hbody, hfn⟩ := he
    exact ⟨a, b, Admits.mono (Uses.bind_mono h x.text a) body hbody, hfn⟩
  | .quant q xs range body _, _, he => by
    obtain ⟨bs, hbs, hrange, a, hbody, c, hq, hquant⟩ := he
    exact ⟨bs, hbs, Admits.mono (Uses.bindAll_mono h bs) range hrange, a,
      Admits.mono (Uses.bindAll_mono h bs) body hbody, c, Admits.mono h q hq, hquant⟩
  | .update e i d _, _, he => by
    obtain ⟨he, a, b, hi, hd, hfn⟩ := he
    exact ⟨Admits.mono h e he, a, b, Admits.mono h i hi, Admits.mono h d hd, hfn⟩

theorem LinksAdmit.mono {Γ Δ : Uses} (h : ∀ x τ, Γ x τ → Δ x τ) :
    (links : List (ChainLink Expr)) → {left : Ty} → LinksAdmit Γ left links →
      LinksAdmit Δ left links
  | [], _, _ => trivial
  | link :: rest, _, hlinks => by
    obtain ⟨right, hrhs, hop, hrest⟩ := hlinks
    exact ⟨right, Admits.mono h link.rhs hrhs, hop, LinksAdmit.mono h rest hrest⟩

end

end Expr

/-! ## Instances of an environment -/

namespace Ty

variable {t : Ty} {U M : Set String} {σ θ : Subst} {w : Assignment} {x : String}

theorem Subst.reading_congr (h : σ.get? x = θ.get? x) : σ.reading M x = θ.reading M x := by
  unfold reading
  split <;> simp [Ty.subst, h, Name.bare]

theorem canonical_subst (h : ∀ x ∈ t.freeVars, σ.get? x = some (w x)) :
    (t.subst σ).canonical = (t.value w).canonical := by
  induction t with
  | rigid n | metavar n => simp [Ty.subst, value, h n.text (by simp [freeVars])]
  | array i t l ih => simp only [Ty.subst, value, canonical, ih h]
  | app f a l ihf iha =>
    have hf := ihf fun x hx => h x (NameSet.mem_union.2 (.inl hx))
    have ha := iha fun x hx => h x (NameSet.mem_union.2 (.inr hx))
    simp only [Ty.subst, value, canonical, hf, ha]
  | base | tuple | arrow | data => rfl

theorem subst_override (h : ∀ x u, θ.get? x = some u → u.subst σ = u) :
    (t.subst θ).subst σ = t.subst (θ.override σ) := by
  induction t with
  | rigid n | metavar n =>
    cases hn : θ.get? n.text with
    | none => simp [Ty.subst, hn]
    | some u => simp [Ty.subst, hn, h _ u hn]
  | array i t l ih => simp only [Ty.subst, ih]
  | app f a l ihf iha => simp only [Ty.subst, ihf, iha]
  | base | tuple | arrow | data => rfl

theorem mem_rigidVars_subst (hθ : ∀ x u, θ.get? x = some u → ∀ y, y ∉ u.rigidVars)
    (h : x ∈ (t.subst θ).rigidVars) : x ∈ t.rigidVars := by
  induction t with
  | rigid n | metavar n =>
    cases hn : θ.get? n.text with
    | none => simpa [Ty.subst, hn] using h
    | some u => exact absurd (by simpa [Ty.subst, hn] using h) (hθ _ u hn x)
  | array i t l ih => exact ih h
  | app f a l ihf iha =>
    rcases NameSet.mem_union.1 h with h | h
    · exact NameSet.mem_union.2 (.inl (ihf h))
    · exact NameSet.mem_union.2 (.inr (iha h))
  | base | tuple | arrow | data => exact h

theorem canonical_canonical (t : Ty) : t.canonical.canonical = t.canonical :=
  (equiv_iff.1 t.equiv_canonical).symm

end Ty

/-- A type at which an environment offers a name, when a substitution says what its metavariables
stand for; rigid variables stand for anything. -/
def TypeEnv.Offers (env : TypeEnv) (θ : Subst) (x : String) (t : Ty) : Prop :=
  ∃ info, env.lookup? x = some info ∧
    ∃ σ : Subst, (∀ m ∈ info.ty.metavars, σ.get? m = θ.get? m) ∧ t = info.ty.subst σ

/-- The scope in which a substitution has been put into the types of an environment lets names be
used at what the environment offers, if the substitution puts in no rigid variables and no names
of rigid variables. -/
theorem TypeEnv.offers_of_gives {env : TypeEnv} {θ : Subst} {x : String} {t : Ty}
    (hsorts : ∀ en ∈ env.entries, ∀ y ∈ en.2.ty.rigidVars, y ∉ en.2.ty.metavars)
    (hθ : ∀ y u, θ.get? y = some u → ∀ z, z ∉ u.rigidVars)
    (hnames : ∀ y u, θ.get? y = some u → ∀ en ∈ env.entries, ∀ z ∈ en.2.ty.rigidVars,
      z ∉ u.freeVars)
    (h : Scope.Gives ⟨env.subst θ, .empty⟩ x t) : env.Offers θ x t := by
  cases h with
  | fixed h => cases h
  | scheme _ hinfo ht =>
    rw [lookup?_subst] at hinfo
    obtain ⟨info, hfound, rfl⟩ := Option.map_eq_some_iff.1 hinfo
    obtain ⟨en, hen, rfl⟩ := mem_of_lookup? hfound
    obtain ⟨σ, hkeys, rfl⟩ := ht
    have hrigid : ∀ y, y ∉ en.2.ty.rigidVars → σ.get? y = none := by
      intro y hy
      rw [← Option.not_isSome_iff_eq_none, ← NameMap.mem_keys_iff]
      exact fun hmem => hy (Ty.mem_rigidVars_subst hθ (hkeys y hmem))
    refine ⟨en.2, hfound, θ.override σ, fun m hm => ?_, ?_⟩
    · rw [NameMap.get?_override, hrigid m fun hmem => hsorts en hen m hmem hm, Option.or_none]
    · refine Ty.subst_override fun y u hu => Ty.subst_eq_self fun z hz => hrigid z fun hmem => ?_
      exact hnames y u hu en hen z hmem hz

theorem TypeEnv.Ready.uses_of_offers {env : TypeEnv} {U : Set String} {st : ElaborationState}
    (henv : env.Ready U st) {θ : Subst} {x : String} {t : Ty} (h : env.Offers θ x t) :
    env.uses (θ.reading metaNames) x t.canonical := by
  obtain ⟨info, hinfo, σ, hσ, rfl⟩ := h
  obtain ⟨e, he, rfl⟩ := mem_of_lookup? hinfo
  have hmetas : U ⊆ metaNames := henv.known.trans (issued_subset_metaNames _ _)
  have hsorted := (henv.sorted e he).mono hmetas
  have hby : e.2.ty.SortedBy metaNames :=
    Ty.sortedBy_of_mem hsorted.mem hsorted.not_mem_metaNames
  refine ⟨e.2, hinfo, σ.reading metaNames, ?_⟩
  rw [← hby.value_reading]
  refine Ty.value_congr fun y hy => ?_
  rcases Ty.mem_metavars_or_rigidVars hy with hy | hy
  · rw [Assignment.join_of_mem (hsorted.mem y hy), Ty.Subst.reading_congr (hσ y hy)]
  · rw [Assignment.join_of_not_mem (hsorted.not_mem_metaNames y hy)]

/-- Inference is complete, and what it finds is principal.  Let no definition be in progress, let
the metavariables of an environment have been issued and let no variable be applied in its types.
If a typed tree over an expression obeys the typing rules in a scope that lets names be used only at
what the environment offers, when `θ` says what its metavariables stand for, then inference accepts
the expression.  One substitution turns the inferred type into the type of the tree, and what
inference has found for the metavariables into what `θ` says of them. -/
theorem inferred_type_principal {env : TypeEnv} {st : ElaborationState} {e : Expr} {θ : Subst}
    {Γ : Scope} {te : TypedExpr} {τ : Ty} (hidle : ∀ x, x ∉ st.inProgress)
    (hissued : ∀ en ∈ env.entries, ∀ x ∈ en.2.ty.metavars, x ∈ issued 0 st.supply.issued)
    (hrigid : ∀ en ∈ env.entries, ∀ x ∈ en.2.ty.rigidVars, x ∉ metaNames)
    (hheads : ∀ en ∈ env.entries, en.2.ty.HeadsRooted)
    (hΓ : ∀ x t, Γ.Gives x t → env.Offers θ x t) (herase : te.erase = e) (hte : te.HasTy Γ τ) :
    ∃ typed s st', e.infer env st = .ok (typed, s) st' ∧
      ∃ δ : Subst, τ ≈ typed.ty.subst δ ∧
        ∀ en ∈ env.entries, ∀ m : Name, m.text ∈ en.2.ty.metavars →
          (Ty.metavar m).subst θ ≈ ((Ty.metavar m).subst s).subst δ := by
  have henv : env.Ready (issued 0 st.supply.issued) st :=
    ⟨subset_rfl, fun en hen => Ty.sorted_of_mem (hissued en hen) (hrigid en hen), hheads,
      fun x hx => absurd hx (hidle x)⟩
  have hadmits : e.Admits (env.uses (θ.reading metaNames)) τ.canonical := by
    have htree := TypedExpr.admits_of_wellTyped hte.1
    rw [herase, equiv_iff_canonical.1 hte.2] at htree
    refine htree.mono ?_ e
    rintro x - ⟨t, ht, rfl⟩
    exact henv.uses_of_offers (hΓ x t ht)
  obtain ⟨⟨typed, s⟩, st', hrun, U', hprogress, -, -, hcomplete⟩ :=
    (Expr.infer_principal e henv).exists_ok fun _ hnone => hnone _ _ hadmits
  obtain ⟨w, hw, hholds, hvalue⟩ := hcomplete _ _ hadmits
  obtain ⟨δ, -, hδ⟩ := Ty.exists_subst (typed.ty.freeVars ∪ NameSet.unionMap
    (fun en => NameSet.unionMap (fun x => ((Ty.metavar (.bare x)).subst s).freeVars)
      en.2.ty.metavars.toList) env.entries) w
  refine ⟨typed, s, st', hrun, δ, ?_, fun en hen m hm => ?_⟩
  · have hty := Ty.canonical_subst fun x hx => hδ x (NameSet.mem_union.2 (.inl hx))
    rw [equiv_iff_canonical, hty, hvalue, Ty.canonical_canonical]
  · have hvars : ∀ x ∈ ((Ty.metavar m).subst s).freeVars, δ.get? x = some (w x) := by
      intro x hx
      refine hδ x (NameSet.mem_union.2 (.inr (NameSet.mem_unionMap.2 ⟨en, hen, ?_⟩)))
      refine NameSet.mem_unionMap.2 ⟨m.text, hm, ?_⟩
      cases hs : s.get? m.text <;> simpa [Ty.subst, Ty.freeVars, Name.bare, hs] using hx
    have hmeta : m.text ∈ metaNames := issued_subset_metaNames _ _ (hissued en hen _ hm)
    have hsorted : (Ty.metavar m).SortedBy metaNames := hmeta
    have hknown : w m.text = θ.reading metaNames m.text :=
      hw m.text (not_mem_unissued (hissued en hen _ hm))
    have hsolved : ((Ty.metavar m).subst s).value w = ((Ty.metavar m).subst θ).canonical := by
      rw [hholds.value_subst, ← hsorted.value_reading]
      exact hknown
    rw [equiv_iff_canonical, Ty.canonical_subst hvars, hsolved, Ty.canonical_canonical]

namespace Passing

def unknown : Name := Supply.next ⟨0⟩ "t"

def env : TypeEnv := ⟨[(.bare "x", ⟨.const, .metavar unknown⟩),
  (.bare "same", ⟨.const, .func (.rigid (.bare "a")) (.rigid (.bare "a"))⟩)]⟩

def state : ElaborationState := { ElaborationState.initial with supply := ⟨1⟩ }

def solution : Subst := .singleton unknown.text (.func .int .bool)

/-- The identity passes on what the predicate says of a number. -/
def tree : TypedExpr :=
  .app (.const (.bare "same") (.func .bool .bool) .none)
    (.app (.var (.bare "x") (.func .int .bool) .none) (.lit (.num 3) .int .none) .bool .none)
    .bool .none

def scope : Scope := ⟨env.subst solution, .empty⟩

theorem wellTyped : tree.HasTy scope .bool := by
  refine ⟨.app (.const (.scheme rfl rfl ⟨.singleton "a" .bool, ?_, rfl⟩))
    (.app (.var (.scheme rfl rfl ⟨∅, ?_, ?_⟩)) (.lit (Setoid.refl _)) (Setoid.refl _))
    (Setoid.refl _), Setoid.refl _⟩
  · intro x hx
    rw [NameMap.mem_keys_singleton.1 hx]
    decide
  · simp [NameMap.mem_keys_iff]
  · rw [Ty.subst_empty]
    rfl

theorem solution_eq {y : String} {u : Ty} (h : solution.get? y = some u) :
    u = .func .int .bool := by
  rw [solution, NameMap.get?_singleton] at h
  split at h
  · exact (Option.some.inj h).symm
  · cases h

theorem rigid_mem : ∀ en ∈ env.entries, ∀ y ∈ en.2.ty.rigidVars, y = "a" := by
  decide

theorem unknown_mem : ∀ en ∈ env.entries, ∀ y ∈ en.2.ty.metavars, y = unknown.text := by
  decide

theorem offers : ∀ x t, scope.Gives x t → env.Offers solution x t := by
  refine fun x t => TypeEnv.offers_of_gives ?_ (fun y u hu => ?_) fun y u hu en hen z hz => ?_
  · decide
  · intro z hz
    rw [solution_eq hu] at hz
    exact NameSet.not_mem_empty z hz
  · rw [solution_eq hu, rigid_mem en hen z hz]
    decide

theorem inferred_type_principal_tree :
    tree.HasTy scope .bool ∧ (∀ x t, scope.Gives x t → env.Offers solution x t) ∧
      ∃ typed s st', tree.erase.infer env state = .ok (typed, s) st' ∧
        ∃ δ : Subst, Ty.bool ≈ typed.ty.subst δ ∧
          ((Ty.metavar unknown).subst solution ≈ ((Ty.metavar unknown).subst s).subst δ) := by
  have hissued : ∀ en ∈ env.entries, ∀ x ∈ en.2.ty.metavars, x ∈ issued 0 state.supply.issued := by
    intro en hen x hx
    exact ⟨0, le_rfl, one_pos, unknown_mem en hen x hx⟩
  have hrigid : ∀ en ∈ env.entries, ∀ x ∈ en.2.ty.rigidVars, x ∉ metaNames := by
    intro en hen x hx
    rw [rigid_mem en hen x hx]
    exact Program.not_mem_metaNames (by decide)
  have hheads : ∀ en ∈ env.entries, en.2.ty.HeadsRooted := by
    simp [env, Ty.func, Ty.HeadsRooted, Ty.rooted]
  have hidle : ∀ x, x ∉ state.inProgress := by
    simp [state, ElaborationState.initial]
  obtain ⟨typed, s, st', hrun, δ, hty, hmetas⟩ :=
    inferred_type_principal hidle hissued hrigid hheads offers rfl wellTyped
  exact ⟨wellTyped, offers, typed, s, st', hrun, δ, hty, hmetas _ (.head _) unknown (by decide)⟩

end Passing

end GuardedCommands
