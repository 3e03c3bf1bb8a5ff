import GuardedCommands.Proofs.PrincipalTypes

/-!
# Solutions of a group of functions

The functions of a program are typed together.  Types for them solve the group if every body
admits the type of its function while all functions are used at these types only, and if the
type is an instance of the signature, where there is one.  Inference finds all solutions:
under the assignments that the found substitution leaves, the placeholders have the types of
a solution, and every solution is met.  The variables of a signature have stayed different
unknowns exactly if some solution has the signature itself for a type, and the general types
allow what the solutions give.
-/

namespace GuardedCommands

open Ty (Subst Assignment)

open ElaborationM

namespace Ty

variable {t u τ : Ty} {v w : Assignment} {s : Subst} {U V : Set String}

/-! ## What a type allows -/

def Allows (t τ : Ty) : Prop := ∃ v : Assignment, t.value v = τ

def atoms : Assignment := fun x => .rigid (.bare x)

theorem Closed.sorted (ht : t.Closed) : t.Sorted U := by
  induction t with
  | rigid n => exact ht
  | metavar n => exact ht.elim
  | array i t l ih => exact ih ht
  | app f a l ihf iha => exact ⟨ihf ht.1, iha ht.2⟩
  | base | tuple | arrow | data => trivial

theorem Over.mem_metavars {x : String} (ht : t.Over U) (hx : x ∈ t.freeVars) : x ∈ t.metavars := by
  refine (mem_metavars_or_rigidVars hx).resolve_right fun hr => ?_
  have hr : x ∈ t.rigidVars.toList := hr
  simp [ht.rigidVars_toList] at hr

theorem Over.subst_ne_rigid (ht : t.Over U) (hs : ∀ x u, s.get? x = some u → u.Over V) (n : Name) :
    t.subst s ≠ .rigid n := by
  intro h
  cases t with
  | rigid m => exact ht
  | metavar m =>
    cases hm : s.get? m.text with
    | none => simp [Ty.subst, hm] at h
    | some u =>
      have hu := hs _ u hm
      simp only [Ty.subst, hm, Option.getD_some] at h
      exact (h ▸ hu : (rigid n).Over V)
  | _ => simp [Ty.subst] at h

theorem Closed.gives_iff (ht : t.Closed) : t.Gives v τ ↔ t.Allows τ := by
  have hsame : ∀ w, t.value (v.join w) = t.value w := fun w =>
    value_congr fun x hx => Assignment.join_of_not_mem (ht.not_mem_metaNames x hx)
  simp only [Gives, Allows, hsame]

theorem value_value (t : Ty) (v w : Assignment) :
    (t.value v).value w = t.value fun x => (v x).value w := by
  induction t with
  | rigid n | metavar n => rfl
  | array i t l ih => simp only [value, ih]
  | app f a l ihf iha => simp only [value, ihf, iha]
  | base | tuple | arrow | data => rfl

theorem value_canonical (t : Ty) (v : Assignment) : t.canonical.value v = t.value v := by
  induction t with
  | array i t l ih => simp only [canonical, value, ih]
  | app f a l ihf iha => simp only [canonical, value, ihf, iha]
  | rigid | metavar | base | tuple | arrow | data => rfl

theorem value_of_equiv (h : t ≈ u) (v : Assignment) : t.value v = u.value v := by
  rw [← value_canonical t, ← value_canonical u, equiv_iff_canonical.1 h]

theorem canonical_eq_value_atoms (h : ∀ x, x ∉ t.metavars) : t.canonical = t.value atoms := by
  induction t with
  | metavar n => exact absurd (NameSet.mem_singleton.2 rfl) (h n.text)
  | array i t l ih => simp only [canonical, value, ih h]
  | app f a l ihf iha =>
    have hf := ihf fun x hx => h x (NameSet.mem_union.2 (.inl hx))
    have ha := iha fun x hx => h x (NameSet.mem_union.2 (.inr hx))
    simp only [canonical, value, hf, ha]
  | rigid | base | tuple | arrow | data => rfl

theorem not_mem_metavars_atoms (t : Ty) (x : String) : x ∉ (t.value atoms).metavars := by
  induction t with
  | array i t l ih => simpa [value, metavars] using ih
  | app f a l ihf iha => simp [value, metavars, ihf, iha]
  | rigid | metavar | base | tuple | arrow | data => simp [value, atoms, metavars]

theorem metavars_subset_value {x y : String} (hx : x ∈ t.freeVars) (hy : y ∈ (v x).metavars) :
    y ∈ (t.value v).metavars := by
  induction t with
  | rigid n | metavar n => rwa [NameSet.mem_singleton.1 hx] at hy
  | array i t l ih => exact NameSet.mem_union.2 (.inr (ih hx))
  | app f a l ihf iha =>
    rcases NameSet.mem_union.1 hx with hx | hx
    · exact NameSet.mem_union.2 (.inl (ihf hx))
    · exact NameSet.mem_union.2 (.inr (iha hx))
  | base | tuple | arrow | data => simp [freeVars] at hx

theorem eq_variable_of_value {n : Name} (h : t.value v = .rigid n) :
    ∃ m, (t = .rigid m ∨ t = .metavar m) ∧ v m.text = .rigid n := by
  cases t with
  | rigid m => exact ⟨m, .inl rfl, h⟩
  | metavar m => exact ⟨m, .inr rfl, h⟩
  | _ => simp [value] at h

theorem not_mem_metavars_subst (ht : ∀ x, x ∉ t.metavars)
    (hs : ∀ x ∈ t.rigidVars, ∃ a, s.get? x = some (.rigid a)) (x : String) :
    x ∉ (t.subst s).metavars := by
  induction t with
  | rigid n =>
    obtain ⟨a, ha⟩ := hs n.text (NameSet.mem_singleton.2 rfl)
    simp [subst, ha, metavars]
  | metavar n => exact absurd (NameSet.mem_singleton.2 rfl) (ht n.text)
  | array i t l ih => exact ih ht hs
  | app f a l ihf iha =>
    have hf := ihf (fun x hx => ht x (NameSet.mem_union.2 (.inl hx)))
      fun x hx => hs x (NameSet.mem_union.2 (.inl hx))
    have ha := iha (fun x hx => ht x (NameSet.mem_union.2 (.inr hx)))
      fun x hx => hs x (NameSet.mem_union.2 (.inr hx))
    simp [subst, metavars, hf, ha]
  | base | tuple | arrow | data => simp [subst, metavars]

theorem exists_subst (names : NameSet) (w : Assignment) :
    ∃ θ : Subst, (∀ x ∈ θ.keys, x ∈ names) ∧ ∀ x ∈ names, θ.get? x = some (w x) := by
  refine ⟨.ofList (names.toList.map fun x => (x, w x)), fun x hx => ?_, fun x hx => ?_⟩
  · obtain ⟨t, ht⟩ := Option.isSome_iff_exists.1 (NameMap.mem_keys_iff.1 hx)
    have hmem := List.mem_reverse.1 (NameMap.mem_of_lookup (NameMap.get?_ofList _ x ▸ ht))
    obtain ⟨y, hy, heq⟩ := List.mem_map.1 hmem
    cases heq
    exact hy
  · refine NameMap.get?_ofList_of_mem (List.mem_map_of_mem hx) fun e he heq => ?_
    obtain ⟨y, -, rfl⟩ := List.mem_map.1 he
    exact congrArg w heq

/-- Two closed types that allow the same differ in the names of their variables only. -/
theorem isRenaming_of_allows (ht : t.Closed) (hu : u.Closed) (h : ∀ τ, t.Allows τ ↔ u.Allows τ) :
    t.IsRenaming u := by
  have htmetas : ∀ x, x ∉ t.metavars := by simp [ht.metavars_eq]
  have humetas : ∀ x, x ∉ u.metavars := by simp [hu.metavars_eq]
  obtain ⟨w, hw⟩ := (h _).2 ⟨atoms, rfl⟩
  obtain ⟨w', hw'⟩ := (h _).1 ⟨atoms, rfl⟩
  -- going there and back leaves every variable of `t` as it is
  have hback : ∀ x ∈ t.freeVars, (w x).value w' = .rigid (.bare x) := by
    refine eq_of_value_eq (v := fun x => (w x).value w') (w := atoms) ?_
    calc t.value (fun x => (w x).value w') = (u.value atoms).value w' := by rw [← value_value, hw]
      _ = u.value w' := value_value u atoms w'
      _ = t.value atoms := hw'
  have hvariable : ∀ x ∈ t.rigidVars, ∃ a, w x = .rigid a ∧ w' a.text = .rigid (.bare x) := by
    intro x hx
    have hx := rigidVars_subset_freeVars t x hx
    obtain ⟨a, ha | ha, hw'a⟩ := eq_variable_of_value (hback x hx)
    · exact ⟨a, ha, hw'a⟩
    · have hmem : a.text ∈ (u.value atoms).metavars :=
        hw ▸ metavars_subset_value hx (by simp [ha, metavars])
      exact absurd hmem (not_mem_metavars_atoms u _)
  obtain ⟨θ, -, hθ⟩ := exists_subst t.rigidVars w
  have hrigid : ∀ x ∈ t.rigidVars, ∃ a, θ.get? x = some (.rigid a) := by
    intro x hx
    obtain ⟨a, ha, -⟩ := hvariable x hx
    exact ⟨a, (hθ x hx).trans (congrArg some ha)⟩
  refine ⟨θ, hrigid, fun x hx y hy a b ha hb hab => ?_, ?_⟩
  · obtain ⟨a', ha', hx'⟩ := hvariable x hx
    obtain ⟨b', hb', hy'⟩ := hvariable y hy
    rw [hθ x hx, ha'] at ha
    rw [hθ y hy, hb'] at hb
    cases ha
    cases hb
    rw [hab, hy'] at hx'
    cases hx'
    rfl
  · rw [equiv_iff_canonical, canonical_eq_value_atoms humetas,
      canonical_eq_value_atoms (not_mem_metavars_subst htmetas hrigid)]
    have hafter : ∀ x ∈ t.freeVars, atoms.after θ x = (w x).value atoms := by
      intro x hx
      have hx := (mem_metavars_or_rigidVars hx).resolve_left (htmetas x)
      simp [Assignment.after, hθ x hx]
    calc u.value atoms = (u.value atoms).value atoms := (value_value u atoms atoms).symm
      _ = t.value (fun x => (w x).value atoms) := by rw [← hw, value_value]
      _ = t.value (atoms.after θ) := (value_congr hafter).symm
      _ = (t.subst θ).value atoms := (value_subst t θ atoms).symm

end Ty

theorem exists_assignment {α : Type} {R : α → String → Prop} {g : α → Ty}
    (h : ∀ a b x, R a x → R b x → g a = g b) : ∃ w : Assignment, ∀ a x, R a x → w x = g a := by
  have hone : ∀ x, ∃ t, ∀ a, R a x → t = g a := by
    intro x
    by_cases hx : ∃ a, R a x
    · obtain ⟨a, ha⟩ := hx
      exact ⟨g a, fun b hb => h a b x ha hb⟩
    · exact ⟨.bool, fun a ha => absurd ⟨a, ha⟩ hx⟩
  choose w hw using hone
  exact ⟨w, fun a x => hw x a⟩

/-! ## Groups of functions -/

def Uses.fix (Γ : Uses) (names : List String) (T : Assignment) : Uses := fun x τ =>
  if x ∈ names then τ = T x else Γ x τ

theorem Uses.fix_bind (Γ : Uses) (x : String) (names : List String) (T : Assignment) :
    (Γ.bind x (T x)).fix names T = Γ.fix (x :: names) T := by
  funext y τ
  by_cases hy : y ∈ names
  · simp [fix, hy]
  · by_cases hyx : y = x <;> simp [fix, bind, hy, hyx]

def TypeEnv.allows (env : TypeEnv) : Uses := fun x τ =>
  ∃ info, env.lookup? x = some info ∧ info.ty.Allows τ

theorem TypeEnv.uses_eq_allows {env : TypeEnv} (henv : ∀ e ∈ env.entries, e.2.ty.Closed)
    (v : Assignment) : env.uses v = env.allows := by
  funext x τ
  refine propext (exists_congr fun info => and_congr_right fun hinfo => ?_)
  obtain ⟨e, he, rfl⟩ := mem_of_lookup? hinfo
  exact (henv e he).gives_iff

/-- Functions that are defined together, with the types that are written for them. -/
structure FunctionGroup where
  signatures : NameMap Ty
  bodies : List (String × Expr)

namespace FunctionGroup

def names (G : FunctionGroup) : List String := G.bodies.map (·.1)

/-- Types for the functions of a group, each of which its body and its signature allow. -/
def Solves (G : FunctionGroup) (Γ : Uses) (T : Assignment) : Prop :=
  ∀ f ∈ G.bodies, f.2.Admits (Γ.fix G.names T) (T f.1) ∧
    ∀ t, G.signatures.get? f.1 = some t → t.Allows (T f.1)

/-- A group has solutions, and for every signature one that has it for a type. -/
structure Typable (G : FunctionGroup) (Γ : Uses) : Prop where
  solvable : ∃ T, G.Solves Γ T
  general : ∀ f ∈ G.bodies, ∀ t, G.signatures.get? f.1 = some t →
    ∃ T, G.Solves Γ T ∧ T f.1 = t.value Ty.atoms

end FunctionGroup

namespace Program

def bodiesByName (ds : List Definition) : List (String × Expr) :=
  ds.filterMap fun
    | .function n (body :: _) _ => some (n.text, body)
    | _ => none

def functionGroup (p : Program) : FunctionGroup := ⟨p.signatures, bodiesByName p.defns⟩

variable {U V M : Set String} {st st₁ : ElaborationState} {s s' : Subst} {v : Assignment}

/-! ## Placeholders -/

theorem startFunctions_ends (ds : List Definition) : Ends (startFunctions ds) st
    (fun ps st' => st'.context = st.context ∧
      ps.map (fun p => (p.name.text, p.body)) = bodiesByName ds ∧
      (∀ p ∈ ps, p.placeholder.HeadsRooted) ∧
      ∀ v T : Assignment, ∃ w : Assignment,
        w.Agrees st.supply.issued v ∧ ∀ p ∈ ps, p.placeholder.value w = T p.name.text)
    fun _ => False := by
  fun_induction startFunctions ds generalizing st with
  | case1 => exact ⟨rfl, rfl, by simp, fun v T => ⟨v, .refl v, by simp⟩⟩
  | case2 n body rest loc ds ih =>
    refine Ends.bind (Q := fun t st₁ => t = .metavar (st.supply.next "t") ∧
      st₁ = { st with supply := st.supply.advance }) ⟨rfl, rfl⟩ ?_
    rintro _ _ ⟨rfl, rfl⟩
    refine .modify (ih.bind fun ps st' hps => ?_)
    obtain ⟨hcontext, hbodies, hroots, hchoice⟩ := hps
    refine ⟨hcontext, ?_, List.forall_mem_cons.2 ⟨trivial, hroots⟩, fun v T => ?_⟩
    · simpa [bodiesByName] using hbodies
    · obtain ⟨w, hw, hrest⟩ := hchoice (Function.update v (st.supply.next "t").text (T n.text)) T
      refine ⟨w, hw.trans (Nat.le_succ _) (Ty.Assignment.agrees_update v _ _),
        List.forall_mem_cons.2 ⟨?_, hrest⟩⟩
      have hfirst : (st.supply.next "t").text ∈ issued 0 (st.supply.issued + 1) :=
        mem_issued (Nat.zero_le _) (Nat.lt_succ_self _)
      exact (hw _ (not_mem_unissued hfirst)).trans (Function.update_self ..)
  | case3 d ds hd ih =>
    have hbodies : bodiesByName (d :: ds) = bodiesByName ds := by
      cases d with
      | function n clauses loc =>
        cases clauses with
        | nil => rfl
        | cons body rest => exact absurd rfl (hd n body rest loc)
      | datatype | signature => rfl
    rw [hbodies]
    exact ih

section Scope

variable {env : TypeEnv} {ps : List Pending} {T : Assignment}

def bodyEnv (env : TypeEnv) (ps : List Pending) : TypeEnv :=
  ps.foldl (fun env p => env.insert p.name ⟨.const, p.placeholder⟩) env

theorem uses_bodyEnv (hU : U ⊆ metaNames) (hps : ∀ p ∈ ps, p.placeholder.Over U)
    (hT : ∀ p ∈ ps, p.placeholder.value v = T p.name.text) :
    (bodyEnv env ps).uses v = (env.uses v).fix (ps.map (·.name.text)) T := by
  induction ps generalizing env with
  | nil =>
    funext x τ
    simp [bodyEnv, Uses.fix]
  | cons p ps ih =>
    rw [List.forall_mem_cons] at hps hT
    have hrest := @ih (env.insert p.name ⟨.const, p.placeholder⟩) hps.2 hT.2
    rw [TypeEnv.uses_insert hps.1 hU, hT.1, Uses.fix_bind] at hrest
    exact hrest

theorem lookup?_bodyEnv {x : String} (hx : ∃ p ∈ ps, p.name.text = x) :
    ∃ p ∈ ps, (bodyEnv env ps).lookup? x = some ⟨.const, p.placeholder⟩ := by
  induction ps using List.reverseRecOn with
  | nil => simp at hx
  | append_singleton ps p ih =>
    have hlast : bodyEnv env (ps ++ [p]) =
        (bodyEnv env ps).insert p.name ⟨.const, p.placeholder⟩ := by simp [bodyEnv]
    rw [hlast, TypeEnv.lookup?_insert]
    by_cases hp : x = p.name.text
    · exact ⟨p, by simp, if_pos hp⟩
    · obtain ⟨q, hq, rfl⟩ := hx
      have hq : q ∈ ps := by
        rcases List.mem_append.1 hq with hq | hq
        · exact hq
        · rw [List.mem_singleton.1 hq] at hp
          exact absurd rfl hp
      obtain ⟨q', hq', hlookup⟩ := ih ⟨q, hq, rfl⟩
      exact ⟨q', by simp [hq'], by rw [if_neg hp, hlookup]⟩

theorem ready_bodyEnv (hclosed : ∀ e ∈ env.entries, e.2.ty.Closed)
    (hroots : ∀ e ∈ env.entries, e.2.ty.HeadsRooted) (hU : U ⊆ issued 0 st.supply.issued)
    (hps : ∀ p ∈ ps, p.placeholder.Simple U)
    (hpending : ∀ x ∈ st.inProgress, ∃ p ∈ ps, p.name.text = x) : (bodyEnv env ps).Ready U st := by
  have hentries := entries_foldl_insert (·.name) (fun p : Pending => ⟨.const, p.placeholder⟩) env ps
  constructor
  · exact hU
  · intro e he
    rw [bodyEnv, hentries] at he
    rcases List.mem_append.1 he with he | he
    · exact (hclosed e he).sorted
    · obtain ⟨p, hp, rfl⟩ := List.mem_map.1 he
      exact (hps p hp).vars.sorted subset_rfl
  · intro e he
    rw [bodyEnv, hentries] at he
    rcases List.mem_append.1 he with he | he
    · exact hroots e he
    · obtain ⟨p, hp, rfl⟩ := List.mem_map.1 he
      exact (hps p hp).headsRooted
  · intro x hx info hinfo
    obtain ⟨p, hp, hlookup⟩ := lookup?_bodyEnv (hpending x hx)
    obtain rfl := Option.some.inj (hlookup.symm.trans hinfo)
    exact (hps p hp).vars

end Scope

/-! ## Bodies -/

def SignatureAllows (signatures : NameMap Ty) (v : Assignment) (p : Pending) : Prop :=
  ∀ t, signatures.get? p.name.text = some t → t.Allows (p.placeholder.value v)

def BodiesAdmit (signatures : NameMap Ty) (Γ : Uses) (v : Assignment) (ps : List Pending) : Prop :=
  ∀ p ∈ ps, p.body.Admits Γ (p.placeholder.value v) ∧ SignatureAllows signatures v p

section Bodies

variable {signatures : NameMap Ty} {env : TypeEnv} {ps : List Pending} {w : Assignment}

theorem signatureAllows_congr {p : Pending} (hU : U ⊆ issued 0 st.supply.issued)
    (hp : p.placeholder.Simple U) (hw : w.Agrees st.supply.issued v) :
    SignatureAllows signatures w p ↔ SignatureAllows signatures v p := by
  rw [SignatureAllows, SignatureAllows, hw.value (hp.vars.mono hU)]

theorem bodiesAdmit_congr (henv : env.Ready U st) (hps : ∀ p ∈ ps, p.placeholder.Simple U)
    (hw : w.Agrees st.supply.issued v) :
    BodiesAdmit signatures (env.uses w) w ps ↔ BodiesAdmit signatures (env.uses v) v ps := by
  rw [henv.uses_congr hw]
  refine forall₂_congr fun p hp => ?_
  rw [signatureAllows_congr henv.known (hps p hp) hw,
    hw.value ((hps p hp).vars.mono henv.known)]

theorem inferBodies_principal {U₁ : Set String}
    (hclosed : ∀ x t, signatures.get? x = some t → t.Closed)
    (hroots : ∀ x t, signatures.get? x = some t → t.HeadsRooted) (henv : env.Ready U st)
    (hps : ∀ p ∈ ps, p.placeholder.Simple U) (hs : Progress U st s U₁ st₁) :
    Finds (fun _ => .bool) U st st₁ (inferBodies signatures env s ps) fun v τ =>
      s.Holds v ∧ (τ = .bool ∧ BodiesAdmit signatures (env.uses v) v ps) := by
  induction ps generalizing s U₁ st₁ with
  | nil => exact .pure hs Ty.simple_bool fun v τ _ => by simp [BodiesAdmit, Ty.value_bool]
  | cons p ps ih =>
    obtain ⟨hp, hps⟩ := List.forall_mem_cons.1 hps
    unfold inferBodies
    refine .inferAfter (Q := fun v a τ => p.placeholder.value v = a ∧
      SignatureAllows signatures v p ∧ τ = .bool ∧ BodiesAdmit signatures (env.uses v) v ps)
      (Expr.infer_principal p.body) henv hs (fun v τ hv => ?_) (fun hw => ?_)
      fun body s₁ U₂ st₂ hs₁ hbody => ?_
    · simp only [BodiesAdmit, List.forall_mem_cons]
      constructor
      · rintro ⟨hτ, ⟨hbody, hsignature⟩, hrest⟩
        exact ⟨_, hbody, rfl, hsignature, hτ, hrest⟩
      · rintro ⟨_, hbody, rfl, hsignature, hτ, hrest⟩
        exact ⟨hτ, ⟨hbody, hsignature⟩, hrest⟩
    · have hw := hw.mono hs.supply
      funext a τ
      rw [hw.value (hp.vars.mono henv.known), signatureAllows_congr henv.known hp hw,
        bodiesAdmit_congr henv hps hw]
    have hs' := hs.compose hs₁
    refine .unify (Q := fun v τ => SignatureAllows signatures v p ∧ τ = .bool ∧
      BodiesAdmit signatures (env.uses v) v ps) hs' (hs'.simple_subst hp)
      (hs'.simple_later hs' (.refl _) hbody) (fun v τ hv => ?_) fun s₂ U₃ hs₂ => ?_
    · rw [hv.value_subst, hv.value_subst]
    have hs₂' := hs'.compose hs₂
    dsimp only
    cases hsignature : signatures.get? p.name.text with
    | none =>
      refine ((ih hps hs₂').map ?_).congr fun v τ => and_congr_right fun hv => ?_
      · rintro ⟨bodies, skolems⟩ s
        exact ⟨_, rfl, rfl⟩
      · simp [SignatureAllows, hsignature]
    | some t =>
      have ht := hclosed _ t hsignature
      refine .choose (Q := fun v a τ => a = p.placeholder.value v ∧ τ = .bool ∧
        BodiesAdmit signatures (env.uses v) v ps)
        (Expr.chooses_skolemize hs₂'.finish ht.sorted (hroots _ t hsignature)) hs₂'
        (fun v τ _ => ?_) (fun hw => ?_) fun skolemized st₃ hissues hsimple => ?_
      · simp [SignatureAllows, hsignature, ht.gives_iff]
      · have hw := hw.mono hs₂'.supply
        funext a τ
        rw [hw.value (hp.vars.mono henv.known), bodiesAdmit_congr henv hps hw]
      have hs₃ := hs₂'.extend hissues
      refine .unify (Q := fun v τ => τ = .bool ∧ BodiesAdmit signatures (env.uses v) v ps) hs₃
        (hs₃.simple_later hs₃ (.refl _) hsimple) (hs₃.simple_subst hp)
        (fun v τ hv => ?_) fun s₃ U₄ hs₄ => ?_
      · rw [hv.value_subst, hv.value_subst]
      · refine (ih hps (hs₃.compose hs₄)).map ?_
        rintro ⟨bodies, skolems⟩ s
        exact ⟨_, rfl, rfl⟩

variable {G : FunctionGroup} {T : Assignment}

theorem bodiesAdmit_iff (hU : U ⊆ metaNames) (hclosed : ∀ e ∈ env.entries, e.2.ty.Closed)
    (hps : ∀ p ∈ ps, p.placeholder.Simple U)
    (hbodies : ps.map (fun p => (p.name.text, p.body)) = G.bodies)
    (hT : ∀ p ∈ ps, p.placeholder.value v = T p.name.text) :
    BodiesAdmit G.signatures ((bodyEnv env ps).uses v) v ps ↔ G.Solves env.allows T := by
  have hnames : ps.map (·.name.text) = G.names := by
    rw [FunctionGroup.names, ← hbodies, List.map_map]
    rfl
  rw [uses_bodyEnv hU (fun p hp => (hps p hp).vars) hT, TypeEnv.uses_eq_allows hclosed, hnames,
    FunctionGroup.Solves, ← hbodies, List.forall_mem_map]
  refine forall₂_congr fun p hp => ?_
  rw [SignatureAllows, hT p hp]

theorem inferBodies_solutions (hU : U ⊆ issued 0 st.supply.issued)
    (hclosed : ∀ e ∈ env.entries, e.2.ty.Closed)
    (hroots : ∀ e ∈ env.entries, e.2.ty.HeadsRooted)
    (hsigned : ∀ x t, G.signatures.get? x = some t → t.Closed)
    (hsignedRoots : ∀ x t, G.signatures.get? x = some t → t.HeadsRooted)
    (hps : ∀ p ∈ ps, p.placeholder.Simple U)
    (hbodies : ps.map (fun p => (p.name.text, p.body)) = G.bodies)
    (hpending : ∀ x ∈ st.inProgress, ∃ p ∈ ps, p.name.text = x)
    (hchoice : ∀ T : Assignment, ∃ v : Assignment,
      ∀ p ∈ ps, p.placeholder.value v = T p.name.text) :
    Ends (inferBodies G.signatures (bodyEnv env ps) ∅ ps) st
      (fun r st' => ∃ U', Progress U st r.2 U' st' ∧ ∀ T, G.Solves env.allows T ↔
        ∃ v, r.2.Holds v ∧ ∀ p ∈ ps, p.placeholder.value v = T p.name.text)
      fun _ => ∀ T, ¬ G.Solves env.allows T := by
  have hmeta := hU.trans (issued_subset_metaNames _ _)
  have henv := ready_bodyEnv hclosed hroots hU hps hpending
  refine (inferBodies_principal hsigned hsignedRoots henv hps (.empty hU)).imp
    (fun r st' hr => ?_) fun st' hnone T hT => ?_
  · obtain ⟨U', hprogress, -, hsound, hcomplete⟩ := hr
    refine ⟨U', hprogress, fun T => ⟨fun hT => ?_, ?_⟩⟩
    · obtain ⟨v, hv⟩ := hchoice T
      have hadmit := (bodiesAdmit_iff hmeta hclosed hps hbodies hv).2 hT
      obtain ⟨w, hw, hholds, -⟩ := hcomplete v .bool ⟨Ty.Subst.holds_empty, rfl, hadmit⟩
      refine ⟨w, hholds, fun p hp => ?_⟩
      rw [hw.value ((hps p hp).vars.mono hU), hv p hp]
    · rintro ⟨v, hholds, hv⟩
      exact (bodiesAdmit_iff hmeta hclosed hps hbodies hv).1 (hsound v hholds).2.2
  · obtain ⟨v, hv⟩ := hchoice T
    have hadmit := (bodiesAdmit_iff hmeta hclosed hps hbodies hv).2 hT
    exact hnone v .bool ⟨Ty.Subst.holds_empty, rfl, hadmit⟩

end Bodies

/-! ## Signatures -/

theorem check_of_distinct {loc : Loc} {images : NameSet} {metas : List (String × Ty)}
    (hunknown : ∀ e ∈ metas, ∃ n, e.2.subst s = .metavar n ∧ n.text ∉ images)
    (hdifferent : metas.Pairwise fun a b => ∀ n m, a.2.subst s = .metavar n →
      b.2.subst s = .metavar m → n.text ≠ m.text) : Skolems.check s loc images metas = .ok () := by
  induction metas generalizing images with
  | nil => rfl
  | cons e rest ih =>
    obtain ⟨x, m⟩ := e
    rw [List.forall_mem_cons] at hunknown
    rw [List.pairwise_cons] at hdifferent
    obtain ⟨⟨n, hn, hnew⟩, hrest⟩ := hunknown
    have hn : m.subst s = .metavar n := hn
    simp only [Skolems.check, hn, if_neg hnew]
    refine ih (fun e he => ?_) hdifferent.2
    obtain ⟨k, hk, hk'⟩ := hrest e he
    refine ⟨k, hk, fun hmem => ?_⟩
    rcases NameSet.mem_insert.1 hmem with heq | hmem
    · exact hdifferent.1 e he n k hn hk heq.symm
    · exact hk' hmem

theorem checkGeneral_iff {k : Skolems} (hs : s.Resolved) (hnames : (k.metas.map (·.1)).Nodup)
    (hmetas : ∀ e ∈ k.metas, ∀ n, e.2.subst s ≠ .rigid n) :
    k.checkGeneral s = .ok () ↔
      ∃ v, s.Holds v ∧ ∀ e ∈ k.metas, e.2.value v = .rigid (.bare e.1) := by
  have hsymm : Std.Symm fun a b : String × Ty => ∀ n m, a.2.subst s = .metavar n →
      b.2.subst s = .metavar m → n.text ≠ m.text := ⟨fun _ _ h n m hn hm => (h m n hm hn).symm⟩
  constructor
  · intro h
    obtain ⟨hunknown, hdifferent⟩ := check_spec h
    obtain ⟨w, hw⟩ := exists_assignment (g := fun e : String × Ty => .rigid (.bare e.1))
      (R := fun e x => e ∈ k.metas ∧ ∃ n, e.2.subst s = .metavar n ∧ n.text = x) (by
        rintro a b _ ⟨ha, n, hn, rfl⟩ ⟨hb, m, hm, heq⟩
        by_contra hne
        have hab : a ≠ b := fun hab => hne (by rw [hab])
        exact hdifferent.forall ha hb hab n m hn hm heq.symm)
    refine ⟨w.after s, hs.holds_after w, fun e he => ?_⟩
    obtain ⟨n, hn, -⟩ := hunknown e he
    rw [← Ty.value_subst, hn]
    exact hw e n.text ⟨he, n, hn, rfl⟩
  · rintro ⟨v, hv, hvalues⟩
    have hvariable : ∀ e ∈ k.metas, ∃ n, e.2.subst s = .metavar n ∧
        v n.text = .rigid (.bare e.1) := by
      intro e he
      have hvalue : (e.2.subst s).value v = .rigid (.bare e.1) := by
        rw [hv.value_subst, hvalues e he]
      obtain ⟨n, hn | hn, hvn⟩ := Ty.eq_variable_of_value hvalue
      · exact absurd hn (hmetas e he n)
      · exact ⟨n, hn, hvn⟩
    refine check_of_distinct (fun e he => ?_) ?_
    · obtain ⟨n, hn, -⟩ := hvariable e he
      exact ⟨n, hn, by simp⟩
    · rw [List.Nodup, List.pairwise_map] at hnames
      refine hnames.imp_of_mem fun {a b} ha hb hab n m hn hm heq => ?_
      obtain ⟨n', hn', hvn⟩ := hvariable a ha
      obtain ⟨m', hm', hvm⟩ := hvariable b hb
      rw [hn] at hn'
      rw [hm] at hm'
      cases hn'
      cases hm'
      rw [heq, hvm] at hvn
      exact hab (congrArg Name.text (Ty.rigid.inj hvn)).symm

theorem checkGeneral_iff_value {k : Skolems} {t placeholder : Ty} (hs : s.Resolved)
    (hover : ∀ x u, s.get? x = some u → u.Over U) (ht : t.Closed)
    (hagrees : Agrees s t placeholder k) (hmetas : ∀ e ∈ k.metas, e.2.Over metaNames) :
    k.checkGeneral s = .ok () ↔ ∃ v, s.Holds v ∧ placeholder.value v = t.value Ty.atoms := by
  obtain ⟨hnames, hequiv⟩ := hagrees
  have hnodup : (k.metas.map (·.1)).Nodup := hnames ▸ NameSet.nodup _
  have hget : ∀ e ∈ k.metas, (NameMap.ofList k.metas).get? e.1 = some e.2 := fun e he =>
    NameMap.get?_ofList_of_mem he fun e' he' heq =>
      congrArg Prod.snd (List.inj_on_of_nodup_map hnodup he' he heq)
  have hmem : ∀ x, x ∈ t.freeVars ↔ ∃ e ∈ k.metas, e.1 = x := by
    intro x
    rw [← List.mem_map, hnames]
    constructor
    · intro hx
      exact (Ty.mem_metavars_or_rigidVars hx).resolve_left (by simp [ht.metavars_eq])
    · exact Ty.rigidVars_subset_freeVars t x
  have hinstance : ∀ v, s.Holds v →
      t.value (v.after (.ofList k.metas)) = placeholder.value v := by
    intro v hv
    rw [← Ty.value_subst, ← hv.value_subst, ← hv.value_subst placeholder,
      Ty.value_of_equiv (hequiv s hs.absorbs_self)]
  rw [checkGeneral_iff hs hnodup fun e he => (hmetas e he).subst_ne_rigid hover]
  refine exists_congr fun v => and_congr_right fun hv => ?_
  rw [← hinstance v hv]
  constructor
  · intro h
    refine Ty.value_congr fun x hx => ?_
    obtain ⟨e, he, rfl⟩ := (hmem x).1 hx
    simp [Ty.Assignment.after, hget e he, h e he, Ty.atoms]
  · intro h e he
    have := Ty.eq_of_value_eq h e.1 ((hmem e.1).2 ⟨e, he, rfl⟩)
    simpa [Ty.Assignment.after, hget e he, Ty.atoms] using this

/-! ## General types -/

section Schemes

variable {n : Nat} {placeholder scheme : Ty}

theorem SchemeOf.eq_subst (h : SchemeOf s s' placeholder scheme) (hgen : Generalizes M s s' n) :
    scheme = (placeholder.subst s).subst s' := by
  rw [(hgen.absorbed hgen.resolved.absorbs_self).subst, ← h.subst s' hgen.resolved.absorbs_self,
    h.closed.subst_eq_self fun x u hu => hgen.known (hgen.metas hu)]

theorem SchemeOf.allows_iff {τ : Ty} (h : SchemeOf s s' placeholder scheme)
    (hgen : Generalizes M s s' n) (hs : s.Resolved) (hp : (placeholder.subst s).Over U) :
    scheme.Allows τ ↔ ∃ v, s.Holds v ∧ placeholder.value v = τ := by
  constructor
  · rintro ⟨w, rfl⟩
    have hholds := hgen.resolved.holds_after w
    have hearlier : s.Holds (w.after s') := by
      intro x u hu
      rw [hholds x _ (hgen.absorbed hgen.resolved.absorbs_self x u hu), hholds.value_subst]
    refine ⟨w.after s', hearlier, ?_⟩
    rw [h.eq_subst hgen, Ty.value_subst, hearlier.value_subst]
  · rintro ⟨v, hv, rfl⟩
    -- every metavariable that is left has a rigid variable of its own
    obtain ⟨w, hw⟩ := exists_assignment (g := v) (R := fun x y => s.get? x = none ∧
      ∃ i, s'.get? x = some (.rigid (rigidName i)) ∧ (rigidName i).text = y) (by
        rintro x y _ ⟨hx, i, hi, rfl⟩ ⟨hy, j, hj, heq⟩
        obtain rfl := rigidName_injective heq
        rw [hgen.injective hx hy hi hj])
    refine ⟨w, ?_⟩
    rw [h.eq_subst hgen, Ty.value_subst, ← hv.value_subst]
    refine Ty.value_congr fun x hx => ?_
    obtain ⟨i, hi⟩ := h.rigid x (hp.mem_metavars hx)
    have hwx := hw x _ ⟨hs.get?_eq_none hx, i, hi, rfl⟩
    simp [Ty.Assignment.after, hi, Ty.value, hwx]

theorem SchemeOf.headsRooted (h : SchemeOf s s' placeholder scheme) (hgen : Generalizes M s s' n)
    (hp : (placeholder.subst s).Simple U) : scheme.HeadsRooted := by
  rw [h.eq_subst hgen]
  refine hp.headsRooted.subst_of_mem fun x hx u hu => ?_
  obtain ⟨i, hi⟩ := h.rigid x (hp.vars.mem_metavars hx)
  obtain rfl := Option.some.inj (hi.symm.trans hu)
  trivial

end Schemes

theorem generalize_ends (env : TypeEnv) (t : Ty) : Ends (generalize env t) st
    (fun _ st' => st'.context = st.context) fun _ => False := by
  unfold generalize
  refine Ends.bind (Q := fun _ st' => st'.context = st.context) ?_ fun _ _ h => ?_
  · exact Ends.mapM (I := fun st' : ElaborationState => st'.context = st.context)
      (fun x _ st' hst' => hst') rfl
  · exact h

theorem generalizeAll_ends (ambient : TypeEnv) (ps : List Pending) :
    Ends (generalizeAll ambient s ps) st (fun _ st' => st'.context = st.context)
      fun _ => False := by
  induction ps generalizing s st with
  | nil => exact rfl
  | cons p ps ih =>
    refine (generalize_ends ambient _).bind fun g st₁ hg => ih.bind fun r st₂ hr => ?_
    exact hr.trans hg

/-! ## The group of all functions -/

section Group

variable {G : FunctionGroup} {Γ : Uses} {ps : List Pending} {skolems : List Skolems}

theorem exists_solution_iff {p : Pending} {τ : Ty} (hnodup : (ps.map (·.name.text)).Nodup)
    (hsolves : ∀ T, G.Solves Γ T ↔
      ∃ v, s.Holds v ∧ ∀ p ∈ ps, p.placeholder.value v = T p.name.text) (hp : p ∈ ps) :
    (∃ v, s.Holds v ∧ p.placeholder.value v = τ) ↔ ∃ T, G.Solves Γ T ∧ T p.name.text = τ := by
  constructor
  · rintro ⟨v, hv, rfl⟩
    obtain ⟨T, hT⟩ := exists_assignment (g := fun q : Pending => q.placeholder.value v)
      (R := fun q x => q ∈ ps ∧ q.name.text = x) (by
        rintro q r _ ⟨hq, rfl⟩ ⟨hr, heq⟩
        rw [List.inj_on_of_nodup_map hnodup hq hr heq.symm])
    exact ⟨T, (hsolves T).2 ⟨v, hv, fun q hq => (hT q _ ⟨hq, rfl⟩).symm⟩, hT p _ ⟨hp, rfl⟩⟩
  · rintro ⟨T, hT, rfl⟩
    obtain ⟨v, hv, hvalues⟩ := (hsolves T).1 hT
    exact ⟨v, hv, hvalues p hp⟩

theorem typable_iff (hnodup : (ps.map (·.name.text)).Nodup)
    (hbodies : ps.map (fun p => (p.name.text, p.body)) = G.bodies)
    (hsolves : ∀ T, G.Solves Γ T ↔
      ∃ v, s.Holds v ∧ ∀ p ∈ ps, p.placeholder.value v = T p.name.text)
    (hps : ps ≠ []) (hs : s.Resolved) (hover : ∀ x u, s.get? x = some u → u.Over U)
    (hclosed : ∀ x t, G.signatures.get? x = some t → t.Closed)
    (hsigned : ∀ p ∈ ps, ∀ t, G.signatures.get? p.name.text = some t →
      ∃ k ∈ skolems, Agrees s t p.placeholder k)
    (hskolems : ∀ k ∈ skolems, (∀ e ∈ k.metas, e.2.Over metaNames) ∧
      ∃ p ∈ ps, ∃ t, G.signatures.get? p.name.text = some t ∧ Agrees s t p.placeholder k) :
    G.Typable Γ ↔ ∀ k ∈ skolems, k.checkGeneral s = .ok () := by
  have hgeneral : ∀ {p k t}, p ∈ ps → k ∈ skolems → G.signatures.get? p.name.text = some t →
      Agrees s t p.placeholder k → (k.checkGeneral s = .ok () ↔
        ∃ T, G.Solves Γ T ∧ T p.name.text = t.value Ty.atoms) := by
    intro p k t hp hk ht hagrees
    rw [checkGeneral_iff_value hs hover (hclosed _ t ht) hagrees (hskolems k hk).1,
      exists_solution_iff hnodup hsolves hp]
  constructor
  · intro h k hk
    obtain ⟨-, p, hp, t, ht, hagrees⟩ := hskolems k hk
    refine (hgeneral hp hk ht hagrees).2 (h.general (p.name.text, p.body) ?_ t ht)
    exact hbodies ▸ List.mem_map_of_mem hp
  · intro h
    constructor
    · obtain ⟨p, hp⟩ := List.exists_mem_of_ne_nil ps hps
      obtain ⟨T, hT, -⟩ := (exists_solution_iff hnodup hsolves hp).1
        ⟨_, hs.holds_after Ty.atoms, rfl⟩
      exact ⟨T, hT⟩
    · intro f hf t ht
      rw [← hbodies] at hf
      obtain ⟨p, hp, rfl⟩ := List.mem_map.1 hf
      obtain ⟨k, hk, hagrees⟩ := hsigned p hp t ht
      exact (hgeneral hp hk ht hagrees).1 (h k hk)

end Group

/-- The functions of a program are accepted if and only if they can be typed, and their
general types allow what the solutions give. -/
theorem inferFunctions_solutions {p : Program} {given : TypeEnv}
    (hgiven : Scope.Ready ⟨given, .empty⟩ ∅ st)
    (hroots : ∀ e ∈ given.entries, e.2.ty.HeadsRooted)
    (hsigned : ∀ x t, p.signatures.get? x = some t → t.Closed)
    (hsignedRoots : ∀ x t, p.signatures.get? x = some t → t.HeadsRooted)
    (hnodup : p.functionGroup.names.Nodup) :
    Ends (p.inferFunctions given) st
      (fun r st' => p.functionGroup.Typable given.allows ∧ st'.context = st.context ∧
        ∀ f ∈ r.1.1, f.ty.HeadsRooted ∧ ∀ τ, f.ty.Allows τ ↔
          ∃ T, p.functionGroup.Solves given.allows T ∧ T f.name.text = τ)
      fun _ => ¬ p.functionGroup.Typable given.allows := by
  have hnone : ∀ x, x ∉ st.inProgress := by
    intro x hx
    simpa [TypeEnv.visible, TypeEnv.names, TypeEnv.empty] using hgiven.pending x hx
  unfold inferFunctions
  refine (startFunctions_ends p.defns).andThen (fun _ h => h.elim) fun ps st₁ hstart hps => ?_
  obtain ⟨hcontext, hbodies, hheads, hchoice⟩ := hps
  obtain ⟨hsupply, -, hprogress, hplaceholders⟩ := startFunctions_spec hstart
  dsimp only
  split
  · next hempty =>
    obtain rfl := List.isEmpty_iff.1 hempty
    have hnil : p.functionGroup.bodies = [] := hbodies.symm
    exact ⟨⟨⟨Ty.atoms, by simp [FunctionGroup.Solves, hnil]⟩, by simp [hnil]⟩, hcontext, by simp⟩
  · next hnonempty =>
    have hnodup' : (ps.map (·.name.text)).Nodup := by
      have hnames : ps.map (·.name.text) = p.functionGroup.names := by
        rw [FunctionGroup.names, functionGroup, ← hbodies, List.map_map]
        rfl
      exact hnames ▸ hnodup
    have hprogress : ∀ x ∈ st₁.inProgress, ∃ p ∈ ps, p.name.text = x := fun x hx =>
      ((hprogress x).1 hx).resolve_left (hnone x)
    have hknown : issued st.supply.issued st₁.supply.issued ⊆ issued 0 st₁.supply.issued :=
      issued_mono (Nat.zero_le _) le_rfl
    have hsimple : ∀ p ∈ ps, p.placeholder.Simple (issued st.supply.issued st₁.supply.issued) :=
      fun p hp => ⟨hplaceholders p hp, hheads p hp⟩
    have hΓ := ready_bodyScope hgiven hknown hplaceholders hprogress
    refine (inferBodies_solutions (G := p.functionGroup) hknown hgiven.schemes hroots
      hsigned hsignedRoots hsimple hbodies hprogress fun T => ?_).andThen
      (fun _ hnosolution htypable => ?_) fun r st₂ hok hr => ?_
    · obtain ⟨v, -, hv⟩ := hchoice Ty.atoms T
      exact ⟨v, hv⟩
    · obtain ⟨T, hT⟩ := htypable.solvable
      exact hnosolution T hT
    obtain ⟨⟨bodies, skolems⟩, s⟩ := r
    obtain ⟨U', hs, hsolves⟩ := hr
    have hok : inferBodies p.signatures (bodyScope given ps).env ∅ ps st₁ =
        .ok ((bodies, skolems), s) st₂ := by rw [env_bodyScope]; exact hok
    obtain ⟨U₂, -, -, htyped, hskolems⟩ :=
      inferBodies_sound hΓ hsigned (.of_maps (.empty _) hknown) hplaceholders hok
    have htypable : p.functionGroup.Typable given.allows ↔
        ∀ k ∈ skolems, k.checkGeneral s = .ok () :=
      typable_iff hnodup' hbodies hsolves (by simpa using hnonempty) hs.maps.resolved
        (fun x u hu => (hs.maps.solved hu).2.2) hsigned
        (forall_mem_of_forall₂ htyped.flip fun _ _ h => h.2) hskolems
    refine .ofExcept (fun _ hcheck => ?_) fun e herror h => ?_
    · refine .modify ((generalizeAll_ends _ ps).andThen (fun _ h => h.elim)
        fun r st₃ hschemes hcontext' => ?_)
      obtain ⟨schemes, s'⟩ := r
      obtain ⟨-, hgen, -, hscheme⟩ := generalizeAll_spec
        (not_mem_metaNames_of_closed hgiven.schemes fun x u hu => hs.mem_metaNames hu)
        hs.maps.resolved (fun p hp => (hplaceholders p hp).sorted
          (issued_mono (Nat.zero_le _) hs.supply)) (.of_solving hs.toSolving _) hschemes
      refine ⟨htypable.2 (Except.ok_of_forM hcheck), hcontext'.trans (hs.context.trans hcontext),
        forall_mem_of_forall₂ (forall₂_functions (fun _ => ⟨rfl, rfl, rfl⟩)
          ((List.forall₂_and_left _ _).2 ⟨fun q hq => hq, hscheme⟩) htyped) fun q f hf => ?_⟩
      obtain ⟨hname, ⟨hq, hscheme⟩, -⟩ := hf
      have hsimple := hs.simple_subst (hsimple q hq)
      refine ⟨hscheme.headsRooted hgen hsimple, fun τ => ?_⟩
      rw [hscheme.allows_iff hgen hs.maps.resolved hsimple.vars,
        exists_solution_iff hnodup' hsolves hq, hname]
    · rw [Except.forM_eq_ok (htypable.1 h)] at herror
      cases herror

end Program

end GuardedCommands
