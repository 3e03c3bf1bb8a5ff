import GuardedCommands.Proofs.InferredKinds
import GuardedCommands.Proofs.ProgramTyping

/-!
# Kinds in elaborated programs

The functions of a program are elaborated as one group.  A placeholder is a type of
values, and when a type is made general its new variables get the kinds of the
metavariables that they replace, so schemes are types of values as well.

If the types that are written in a program are types of values under a uniform
discipline, then one assignment of kinds does for all types in the elaborated tree.
-/

namespace GuardedCommands

open Ty (HasKind Subst)

open ElaborationM

/-! ## Functions -/

section Functions

variable {A : Discipline} {P : Set String} {κ : Kinding} {env : TypeEnv} {s : Subst}

namespace ElaborationM

theorem assigns_rigid (A : Discipline) {names : List String} (h : ∀ x ∈ names, (κ x).isSome) :
    Assigns P κ (names.mapM fun m => return (m, Ty.rigid (← fresh "a"))) fun κ' es =>
      ∀ e ∈ es, ∃ k, κ' e.1 = some k ∧ HasKind A κ' e.2 k := by
  induction names generalizing κ with
  | nil => exact .pure (by simp)
  | cons x names ih =>
    obtain ⟨hx, hnames⟩ := List.forall_mem_cons.1 h
    obtain ⟨k, hk⟩ := Option.isSome_iff_exists.1 hx
    have hhead : Assigns P κ (do return (x, Ty.rigid (← fresh "a"))) fun κ' e =>
        κ' e.1 = some k ∧ HasKind A κ' e.2 k :=
      (Assigns.fresh (by simp) k).bind fun κ₁ n hκ₁ hn => .pure ⟨hκ₁.sub x k hk, .rigid hn⟩
    rw [List.mapM_cons]
    refine hhead.bind fun κ₁ e hκ₁ he => ?_
    have hnames : ∀ y ∈ names, (κ₁ y).isSome := by
      intro y hy
      obtain ⟨l, hl⟩ := Option.isSome_iff_exists.1 (hnames y hy)
      simp [hκ₁.sub y l hl]
    refine (ih hnames).bind fun κ₂ es hκ₂ hes => .pure (List.forall_mem_cons.2 ⟨?_, hes⟩)
    exact ⟨k, hκ₂.sub _ k he.1, he.2.mono hκ₂.sub⟩

theorem assigns_generalize (ambient : TypeEnv) {t : Ty} {k : Kind} (ht : HasKind A κ t k) :
    Assigns P κ (generalize ambient t) fun κ' g => g.Respects A κ' := by
  unfold generalize
  refine (assigns_rigid A fun x hx => ?_).bind fun κ₁ es _ hes => .pure fun x u hu => ?_
  · have hfree : x ∈ t.metavars := (NameSet.mem_sdiff.1 hx).1
    exact ht.isSome x (NameSet.mem_union.2 (.inl (t.metavars_subset_freeVars x hfree)))
  · rw [NameMap.get?_ofList] at hu
    exact hes _ (List.mem_reverse.1 (NameMap.mem_of_lookup hu))

end ElaborationM

namespace Program

theorem kinded_startFunctions {ds : List Definition} {ps : List Pending}
    {st st' : ElaborationState} (hκ : κ.Below st.supply)
    (h : startFunctions ds st = .ok ps st') :
    ∃ κ', κ.Grows κ' ∧ κ'.Below st'.supply ∧ ∀ q ∈ ps, HasKind A κ' q.placeholder .star := by
  fun_induction startFunctions ds generalizing κ st ps with
  | case1 =>
    cases h
    exact ⟨κ, .refl κ, hκ, by simp⟩
  | case2 n body rest loc ds ih =>
    obtain ⟨t, st₁, ht, h⟩ := EStateM.ok_of_bind h
    obtain ⟨_, st₂, hmodify, h⟩ := EStateM.ok_of_bind h
    obtain ⟨ps', st₃, hps, h⟩ := EStateM.ok_of_bind h
    cases h
    cases hmodify
    obtain ⟨-, κ₁, hκ₁, hbelow₁, ht⟩ :=
      assigns_freshMeta (P := Set.univ) A .star st t st₁ (by simp) hκ ht
    obtain ⟨κ₂, hκ₂, hbelow₂, hps⟩ := ih (by exact hbelow₁) hps
    exact ⟨κ₂, hκ₁.trans hκ₂, hbelow₂, List.forall_mem_cons.2 ⟨ht.mono hκ₂.sub, hps⟩⟩
  | case3 d ds hd ih => exact ih hκ h

theorem assigns_inferBodies (hA : A.Uniform) {signatures : NameMap Ty}
    (hsignatures : ∀ x t, signatures.get? x = some t → t.Generic A κ)
    (henv : env.Kinded A P κ) (hs : s.Respects A κ) {ps : List Pending}
    (hps : ∀ q ∈ ps, HasKind A κ q.placeholder .star) :
    Assigns P κ (inferBodies signatures env s ps) fun κ' r =>
      (∀ body ∈ r.1.1, AllValues A κ' body.annotations) ∧ r.2.Respects A κ' := by
  induction ps generalizing κ s with
  | nil => exact .pure ⟨by simp, hs⟩
  | cons q ps ih =>
    obtain ⟨hq, hps⟩ := List.forall_mem_cons.1 hps
    unfold inferBodies
    refine (Expr.assigns_infer hA (henv.subst hA hs) q.body).bind
      fun κ₁ body hκ₁ hbody => ?_
    obtain ⟨hbody, hs₁⟩ := hbody
    have hs := hs₁.compose hA (hs.mono hκ₁.sub)
    have hq := hq.mono hκ₁.sub
    refine assigns_unify_bind hA _ (hq.subst hA hs) (hbody.ty.subst hA hs) fun s₂ hs₂ => ?_
    have hs := hs₂.compose hA hs
    -- what remains to be done for the other functions, after any further names
    have hrest : ∀ {κ₂ : Kinding} {s : Subst}, κ₁.Grows κ₂ → s.Respects A κ₂ →
        Assigns P κ₂ (inferBodies signatures env s ps) fun κ' r =>
          (∀ body ∈ r.1.1, AllValues A κ' body.annotations) ∧ r.2.Respects A κ' := by
      intro κ₂ s hκ₂ hs
      have hκ := hκ₁.trans hκ₂
      exact ih (fun x t ht => (hsignatures x t ht).mono hκ) (henv.mono hκ) hs
        fun p hp => (hps p hp).mono hκ.sub
    dsimp only
    cases hsignature : signatures.get? q.name.text with
    | none =>
      exact (hrest (.refl _) hs).bind fun κ₂ others hκ₂ hothers =>
        .pure ⟨List.forall_mem_cons.2 ⟨hbody.mono hκ₂, hothers.1⟩, hothers.2⟩
    | some t =>
      have hskolemize : Assigns P κ₁ (skolemize t) fun κ' r => HasKind A κ' r.1 .star :=
        (assigns_instance hA ((hsignatures _ t hsignature).mono hκ₁)).bind
          fun κ₂ metas _ ht => .pure ht
      refine hskolemize.bind fun κ₂ skolemized hκ₂ ht => ?_
      have hs := hs.mono hκ₂.sub
      refine assigns_unify_bind hA _ (ht.subst hA hs) ((hq.mono hκ₂.sub).subst hA hs)
        fun s₃ hs₃ => ?_
      exact (hrest hκ₂ (hs₃.compose hA hs)).bind fun κ₃ others hκ₃ hothers =>
        .pure ⟨List.forall_mem_cons.2 ⟨hbody.mono (hκ₂.trans hκ₃), hothers.1⟩, hothers.2⟩

theorem assigns_generalizeAll (hA : A.Uniform) (ambient : TypeEnv) (hs : s.Respects A κ)
    {ps : List Pending} (hps : ∀ q ∈ ps, HasKind A κ q.placeholder .star) :
    Assigns P κ (generalizeAll ambient s ps) fun κ' r =>
      AllValues A κ' r.1 ∧ r.2.Respects A κ' := by
  induction ps generalizing κ s with
  | nil => exact .pure ⟨.nil, hs⟩
  | cons q ps ih =>
    obtain ⟨hq, hps⟩ := List.forall_mem_cons.1 hps
    unfold generalizeAll
    have ht := hq.subst hA hs
    refine (assigns_generalize ambient ht).bind fun κ₁ g hκ₁ hg => ?_
    refine (ih (hg.compose hA (hs.mono hκ₁.sub)) fun p hp => (hps p hp).mono hκ₁.sub).bind
      fun κ₂ schemes hκ₂ hschemes => .pure ⟨?_, hschemes.2⟩
    rw [AllValues.cons_iff]
    exact ⟨((ht.mono hκ₁.sub).subst hA hg).mono hκ₂.sub, hschemes.1⟩

def FunctionType.annotations (f : FunctionType) : List Ty := f.ty :: f.body.annotations

theorem assigns_inferFunctions (hA : A.Uniform) {p : Program}
    (hsignatures : ∀ x t, p.signatures.get? x = some t → t.Generic A κ)
    (henv : env.Kinded A ∅ κ) :
    Assigns ∅ κ (p.inferFunctions env) fun κ' r => r.1.2.Kinded A ∅ κ' ∧
      AllValues A κ' (r.1.1.flatMap (·.annotations)) ∧ r.2.Respects A κ' := by
  intro st r st' hst hκ h
  obtain ⟨pending, st₁, hpending, h⟩ := EStateM.ok_of_bind h
  obtain ⟨-, -, hprogress, -⟩ := startFunctions_spec hpending
  obtain ⟨κ₁, hκ₁, hbelow₁, hplaceholders⟩ := kinded_startFunctions (A := A) hκ hpending
  have hprogress : ∀ x ∈ st₁.inProgress, ∃ q ∈ pending, q.name.text = x := fun x hx =>
    ((hprogress x).1 hx).resolve_left (hst x)
  split at h
  · next hempty =>
    cases h
    obtain rfl := List.isEmpty_iff.1 hempty
    refine ⟨fun x hx => ?_, κ₁, hκ₁, hbelow₁, henv.mono hκ₁, by simp, .empty⟩
    simpa using hprogress x hx
  · obtain ⟨⟨⟨bodies, skolems⟩, s⟩, st₂, hbodies, h⟩ := EStateM.ok_of_bind h
    obtain ⟨_, st₃, hcheck, h⟩ := EStateM.ok_of_bind h
    obtain ⟨-, rfl⟩ := EStateM.ok_of_ofExcept hcheck
    obtain ⟨_, st₄, hmodify, h⟩ := EStateM.ok_of_bind h
    obtain ⟨⟨schemes, s'⟩, st₅, hschemes, h⟩ := EStateM.ok_of_bind h
    cases h
    cases hmodify
    have hinner : (bodyScope env pending).env.Kinded A {x | ∃ q ∈ pending, q.name.text = x} κ₁ :=
      (henv.mono hκ₁).start (by simpa [bodyScope] using hplaceholders) fun x ⟨q, hq, hx⟩ =>
        ⟨_, List.mem_map_of_mem hq, hx⟩
    rw [← env_bodyScope] at hbodies
    obtain ⟨hpending₂, κ₂, hκ₂, hbelow₂, hbodies, hs⟩ :=
      assigns_inferBodies hA (fun x t ht => (hsignatures x t ht).mono hκ₁) hinner .empty
        hplaceholders st₁ _ _ hprogress hbelow₁ hbodies
    have hnone : ∀ x ∈ pending.foldl (fun ns q => ns.erase q.name.text) st₂.inProgress,
        x ∈ (∅ : Set String) := by
      intro x hx
      obtain ⟨hx, hne⟩ := mem_foldl_erase.1 hx
      obtain ⟨q, hq, hname⟩ := hpending₂ x hx
      exact absurd hname (hne q hq)
    obtain ⟨hnone, κ₃, hκ₃, hbelow₃, hschemes, hs'⟩ :=
      assigns_generalizeAll hA _ hs (fun q hq => (hplaceholders q hq).mono hκ₂.sub) _ _ _
        (by exact hnone) (by exact hbelow₂) hschemes
    have hfunctions : ∀ q ∈ pending.zip (schemes.zip bodies),
        HasKind A κ₃ q.2.1 .star ∧ AllValues A κ₃ q.2.2.annotations := by
      intro q hq
      have hparts := List.of_mem_zip (List.of_mem_zip hq).2
      exact ⟨hschemes _ hparts.1, (hbodies _ hparts.2).mono hκ₃⟩
    refine ⟨hnone, κ₃, hκ₁.trans (hκ₂.trans hκ₃), hbelow₃, ?_, ?_, hs'⟩
    · dsimp only
      rw [TypeEnv.eq_of_entries (entries_foldl_insert (fun f : FunctionType => f.name)
        (fun f => ⟨.const, f.ty⟩) env _)]
      refine (henv.mono (hκ₁.trans (hκ₂.trans hκ₃))).append fun e he => ?_
      obtain ⟨f, hf, rfl⟩ := List.mem_map.1 he
      obtain ⟨q, hq, rfl⟩ := List.mem_map.1 hf
      exact (hfunctions q hq).1
    · intro t ht
      obtain ⟨f, hf, ht⟩ := List.mem_flatMap.1 ht
      obtain ⟨q, hq, rfl⟩ := List.mem_map.1 hf
      obtain ⟨hty, hbody⟩ := hfunctions q hq
      rcases List.mem_cons.1 ht with rfl | ht
      · exact hty
      · exact hbody t ht

theorem assigns_inferSignatureProps (hA : A.Uniform) (henv : env.Kinded A P κ)
    (hs : s.Respects A κ) (ds : List Definition) :
    Assigns P κ (inferSignatureProps env s ds) fun κ' r =>
      (∀ prop ∈ r.1, AllValues A κ' (prop.toList.flatMap (·.annotations))) ∧
        r.2.Respects A κ' := by
  fun_induction inferSignatureProps env s ds generalizing κ with
  | case1 s => exact .pure ⟨by simp, hs⟩
  | case2 s n t prop loc ds ih =>
    refine (Expr.assigns_expectOption hA (henv.subst hA hs) .base prop).bind
      fun κ₁ typed hκ₁ htyped => ?_
    obtain ⟨hprop, hs₁⟩ := htyped
    exact (ih typed.2 (henv.mono hκ₁) (hs₁.compose hA (hs.mono hκ₁.sub))).bind
      fun κ₂ others hκ₂ hothers =>
        .pure ⟨List.forall_mem_cons.2 ⟨hprop.mono hκ₂, hothers.1⟩, hothers.2⟩
  | case3 s d ds hd ih => exact ih henv hs

end Program

end Functions

/-! ## Programs -/

def Program.closedTypes (p : Program) : List Ty :=
  p.decls.map (·.ty) ++ Stmt.listTypes p.stmts

def Program.openTypes (p : Program) : List Ty :=
  p.datatypes.flatMap (fun d => d.ctors.map fun c => .funcs c.args d.result) ++
    p.defns.filterMap (fun
      | .signature _ t _ _ => some t
      | _ => none)

namespace TypedProgram

def annotations (p : TypedProgram) : List Ty :=
  p.defns.flatMap (·.annotations) ++ p.decls.flatMap (·.annotations) ++
    p.props.flatMap (·.annotations) ++ Stmt.listAnnotations p.stmts

def signatureTypes (p : TypedProgram) : List Ty :=
  p.defns.filterMap fun
    | .signature _ t _ _ => some t
    | _ => none

end TypedProgram

namespace Program

variable {A : Discipline} {κ : Kinding} {p : Program} {ds : List Definition}
  {props : List (Option TypedExpr)} {fs : List FunctionType} {ts : List TypedDefinition}
  {S : Subst} {st' : ElaborationState}

theorem mem_openTypes_of_signature {n : Name} {t : Ty} {prop : Option Expr} {loc : Loc}
    (h : .signature n t prop loc ∈ p.defns) : t ∈ p.openTypes :=
  List.mem_append_right _ (List.mem_filterMap.2 ⟨_, h, rfl⟩)

theorem mem_openTypes_of_signatures {x : String} {t : Ty} (h : p.signatures.get? x = some t) :
    t ∈ p.openTypes := by
  have hmem := NameMap.mem_of_lookup (NameMap.get?_ofList _ x ▸ h)
  obtain ⟨d, hd, hsome⟩ := List.mem_filterMap.1 (List.mem_reverse.1 hmem)
  cases d <;> cases hsome
  exact mem_openTypes_of_signature hd

theorem Aligned.allValues (h : Aligned ds props fs ts)
    (hprops : ∀ prop ∈ props, AllValues A κ (prop.toList.flatMap (·.annotations)))
    (hfs : AllValues A κ (fs.flatMap (·.annotations))) :
    AllValues A κ (ts.flatMap (·.annotations)) := by
  induction h with
  | nil => exact .nil
  | datatype _ ih => exact ih hprops hfs
  | signature _ ih =>
    rw [List.forall_mem_cons] at hprops
    rw [List.flatMap_cons, AllValues.append_iff]
    exact ⟨hprops.1, ih hprops.2 hfs⟩
  | function _ _ ih =>
    rw [List.flatMap_cons, AllValues.append_iff] at hfs
    rw [List.flatMap_cons, AllValues.append_iff]
    exact ⟨hfs.1, ih hprops hfs.2⟩
  | undefined _ ih => exact ih hprops hfs

theorem Aligned.exists_signature (h : Aligned ds props fs ts) {n : Name} {t : Ty}
    {prop : Option TypedExpr} {loc : Loc} (hmem : .signature n t prop loc ∈ ts) :
    ∃ prop', .signature n t prop' loc ∈ ds := by
  induction h with
  | nil => cases hmem
  | datatype _ ih | function _ _ ih =>
    rcases List.mem_cons.1 hmem with heq | hmem
    · cases heq
    · exact (ih hmem).imp fun _ h => .tail _ h
  | signature _ ih =>
    rcases List.mem_cons.1 hmem with heq | hmem
    · cases heq
      exact ⟨_, .head _⟩
    · exact (ih hmem).imp fun _ h => .tail _ h
  | undefined _ ih => exact (ih hmem).imp fun _ h => .tail _ h

theorem kinded_given (hclosed : AllValues A κ p.closedTypes)
    (hopen : ∀ t ∈ p.openTypes, t.Generic A κ) : p.given.Kinded A ∅ κ := by
  refine .of_entries (forall_given (P := fun info => info.ty.Generic A κ ∧
    (info.isMutable = true → HasKind A κ info.ty .star)) (fun d hd c hc => ?_) (fun d hd => ?_)
      fun n t prop loc h => ?_)
  · refine ⟨hopen _ (List.mem_append_left _ ?_), by simp [TypeInfo.isMutable]⟩
    exact List.mem_flatMap.2 ⟨d, hd, List.mem_map_of_mem hc⟩
  · have hty : HasKind A κ d.ty .star :=
      hclosed _ (List.mem_append_left _ (List.mem_map_of_mem hd))
    exact ⟨hty.generic, fun _ => hty⟩
  · exact ⟨hopen _ (mem_openTypes_of_signature h), by simp [TypeInfo.isMutable]⟩

/-- If the written types are types of values under a uniform discipline, then all types in the
tree are. -/
theorem kinded_infer (hA : A.Uniform) (hreserved : ∀ x, Reserved x → κ x = none)
    (hclosed : AllValues A κ p.closedTypes) (hopen : ∀ t ∈ p.openTypes, t.Generic A κ)
    {typed : TypedProgram} (h : p.infer .initial = .ok typed st') :
    ∃ κ', κ.Grows κ' ∧ AllValues A κ' typed.annotations ∧
      ∀ t ∈ typed.signatureTypes, t.Generic A κ' := by
  obtain ⟨-, -, kinds, st₃, h₃, env, st₄, h₄, st₅, h₅, functions, outer, s, st₆, h₆, decls, s₁,
    st₇, h₇, es, s₂, st₈, h₈, sigProps, s₃, st₉, h₉, stmts, s₄, h₁₀, rfl⟩ := infer_cases h
  obtain ⟨hprogress, hnodup, -⟩ := inferKinds_spec h₃
  obtain ⟨hext₄, rfl, -⟩ := Declaration.declareAll_spec h₄
  have hext₅ := checkSignatures_extends (hext₄.annotated ▸ hnodup) h₅
  have hnone₅ : ∀ x ∈ st₅.inProgress, x ∈ (∅ : Set String) := by
    simp [hext₅.inProgress, hext₄.inProgress, hprogress]
  have hbelow₅ : κ.Below st₅.supply := fun hint _ i _ => hreserved _ (reserved_next _ hint)
  have hgiven := kinded_given hclosed hopen
  rw [closedTypes, AllValues.append_iff] at hclosed
  -- from here on, every step adds kinds for new names and finds a substitution that respects them
  obtain ⟨hnone₆, κ₆, hκ₆, hbelow₆, houter, hfunctions, hs⟩ := assigns_inferFunctions hA
    (fun x t ht => hopen t (mem_openTypes_of_signatures ht)) hgiven _ _ _ hnone₅ hbelow₅ h₆
  obtain ⟨hnone₇, κ₇, hκ₇, hbelow₇, hdecls, hs₁⟩ := Declaration.assigns_inferProps hA
    (houter.subst hA hs) .empty (hclosed.1.mono hκ₆) _ _ _ hnone₆ hbelow₆ h₇
  have houter := houter.mono hκ₇
  have hs := hs₁.compose hA (hs.mono hκ₇.sub)
  obtain ⟨hnone₈, κ₈, hκ₈, hbelow₈, hes, hs₂⟩ := Expr.assigns_expectAll hA
    (houter.subst hA hs) .base p.props _ _ _ hnone₇ hbelow₇ h₈
  have houter := houter.mono hκ₈
  have hs := hs₂.compose hA (hs.mono hκ₈.sub)
  obtain ⟨hnone₉, κ₉, hκ₉, hbelow₉, hprops, hs⟩ := assigns_inferSignatureProps hA houter hs
    p.defns _ _ _ hnone₈ hbelow₈ h₉
  have houter := houter.mono hκ₉
  have hκ := hκ₆.trans (hκ₇.trans (hκ₈.trans hκ₉))
  obtain ⟨-, κ₁₀, hκ₁₀, -, hstmts, hs₄⟩ := Stmt.assigns_inferList hA (houter.subst hA hs) .empty
    p.stmts (hclosed.2.mono hκ) _ _ _ hnone₉ hbelow₉ h₁₀
  have hS := hs₄.compose hA (hs.mono hκ₁₀.sub)
  have hnames := (inferFunctions_names p _ _ _ _ h₆).1
  have haligned : Aligned p.defns sigProps functions
      (typedDefinitions p.defns kinds sigProps functions) :=
    aligned_typedDefinitions _ _ _ _ (length_inferKinds p _ _ _ h₃)
      (length_inferSignatureProps _ _ _ _ _ _ h₉) hnames
  have hdefns := haligned.allValues (fun prop hprop => (hprops prop hprop).mono hκ₁₀)
    (hfunctions.mono (hκ₇.trans (hκ₈.trans (hκ₉.trans hκ₁₀))))
  refine ⟨κ₁₀, hκ.trans hκ₁₀, ?_, ?_⟩
  · simp only [TypedProgram.annotations, TypedProgram.substTy, AllValues.append_iff,
      TypedExpr.annotations_map_substTy]
    refine ⟨⟨⟨TypedDefinition.allValues_substTy hA hS hdefns, ?_⟩, ?_⟩, ?_⟩
    · exact Declaration.allValues_substTy hA hS (hdecls.mono (hκ₈.trans (hκ₉.trans hκ₁₀)))
    · exact (hes.mono (hκ₉.trans hκ₁₀)).subst hA hS
    · exact Stmt.allValues_substTyList hA hS stmts hstmts
  · intro t ht
    obtain ⟨_, hmem, hsome⟩ := List.mem_filterMap.1 ht
    obtain ⟨d, hd, rfl⟩ := List.mem_map.1 hmem
    cases d with
    | signature n u prop loc =>
      cases hsome
      obtain ⟨prop', hsignature⟩ := haligned.exists_signature hd
      exact ((hopen u (mem_openTypes_of_signature hsignature)).mono
        (hκ.trans hκ₁₀)).subst hA hS
    | datatype | function => cases hsome

end Program

end GuardedCommands
