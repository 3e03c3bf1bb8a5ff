import GuardedCommands.Proofs.DefinitionOrder
import GuardedCommands.Proofs.InferenceCompleteness

/-!
# What a signature promises

A function that has a signature and a definition is recorded with a general type.  The type is
made from unknowns that stood for the variables of the signature while all functions were
elaborated together, so that any of the bodies might have fixed one of them or made two of them
the same.  As this is ruled out, the type that is recorded is the signature with other names for
its variables, and both have the same instances.  These are the types at which the rest of the
program may use the function.
-/

namespace GuardedCommands

open Ty (Subst Assignment equiv_iff_canonical)

/-! ## Instances of renamed types -/

namespace Ty

variable {t u τ : Ty}

theorem IsRenaming.allows_iff (h : u.IsRenaming t) (hu : u.Closed) : u.Allows τ ↔ t.Allows τ := by
  obtain ⟨ρ, hrigid, hdifferent, ht⟩ := h
  have hvalue : ∀ v, t.value v = u.value (v.after ρ) := fun v => by
    rw [value_of_equiv ht, value_subst]
  constructor
  · rintro ⟨v, rfl⟩
    -- different variables have different new names, so these may stand for what the old ones do
    obtain ⟨w, hw⟩ : ∃ w : Assignment, ∀ x y, (x ∈ u.rigidVars ∧
        ∃ a, ρ.get? x = some (.rigid a) ∧ a.text = y) → w y = v x := by
      refine exists_assignment ?_
      rintro x x' y ⟨hx, a, ha, rfl⟩ ⟨hx', b, hb, hab⟩
      rw [hdifferent x hx x' hx' a b ha hb hab.symm]
    refine ⟨w, (hvalue w).trans (value_congr fun x hx => ?_)⟩
    have hx := (mem_metavars_or_rigidVars hx).resolve_left (by simp [hu.metavars_eq])
    obtain ⟨a, ha⟩ := hrigid x hx
    simp [Assignment.after, ha, value, hw x a.text ⟨hx, a, ha, rfl⟩]
  · rintro ⟨v, rfl⟩
    exact ⟨v.after ρ, (hvalue v).symm⟩

theorem Closed.instance_iff (ht : t.Closed) :
    (∃ t', t.IsInstance t' ∧ t' ≈ τ) ↔ t.Allows τ.canonical := by
  have hrigid : ∀ x ∈ t.freeVars, x ∈ t.rigidVars := fun x hx =>
    (mem_metavars_or_rigidVars hx).resolve_left (by simp [ht.metavars_eq])
  constructor
  · rintro ⟨-, ⟨θ, -, rfl⟩, hτ⟩
    have hsorted : t.SortedBy metaNames := sortedBy_of_mem (by simp [ht.metavars_eq])
      fun x hx => ht.not_mem_metaNames x (rigidVars_subset_freeVars t x hx)
    exact ⟨θ.reading metaNames, by rw [hsorted.value_reading, equiv_iff_canonical.1 hτ]⟩
  · rintro ⟨v, hv⟩
    obtain ⟨θ, hkeys, hθ⟩ := exists_subst t.rigidVars v
    refine ⟨t.subst θ, ⟨θ, hkeys, rfl⟩, ?_⟩
    rw [equiv_iff_canonical, canonical_subst fun x hx => hθ x (hrigid x hx), hv,
      canonical_canonical]

end Ty

theorem Scope.gives_iff {env : TypeEnv} {x : String} {info : TypeInfo} {t : Ty}
    (h : env.lookup? x = some info) :
    Scope.Gives ⟨env, .empty⟩ x t ↔ info.ty.IsInstance t := by
  constructor
  · intro hgives
    cases hgives with
    | fixed hfixed => cases hfixed
    | scheme _ hinfo ht =>
      obtain rfl := Option.some.inj (h.symm.trans hinfo)
      exact ht
  · exact .scheme rfl h

theorem TypedProgram.defines_iff {q : TypedProgram} {n : Name} {t : Ty} :
    q.Defines n t ↔ (n, ⟨.const, t⟩) ∈ q.defined.entries := by
  constructor
  · rintro ⟨body, loc, hmem⟩
    exact List.mem_filterMap.2 ⟨_, hmem, rfl⟩
  · intro hmem
    obtain ⟨d, hd, hsome⟩ := List.mem_filterMap.1 hmem
    cases d with
    | function n' t' body loc =>
      cases hsome
      exact ⟨body, loc, hd⟩
    | datatype | signature => cases hsome

theorem eq_of_nodup_filterMap {α β : Type} {f : α → Option β} {l : List α} {a b : α} {x : β}
    (h : (l.filterMap f).Nodup) (ha : a ∈ l) (hb : b ∈ l) (hax : f a = some x)
    (hbx : f b = some x) : a = b := by
  by_contra hne
  have : Std.Symm fun a b => ∀ x, f a = some x → ∀ y, f b = some y → x ≠ y :=
    ⟨fun _ _ h x hx y hy => (h y hy x hx).symm⟩
  exact (List.pairwise_filterMap.1 h).forall ha hb hne x hax x hbx rfl

namespace Program

variable {p : Program} {typed : TypedProgram} {st : ElaborationState}

/-! ## Names that are kept apart -/

theorem Distinct.signature (h : p.Distinct) {n : Name} {u : Ty} {prop : Option Expr} {loc : Loc}
    (hmem : .signature n u prop loc ∈ p.defns) : p.signatures.get? n.text = some u := by
  refine NameMap.get?_ofList_of_mem (List.mem_filterMap.2 ⟨_, hmem, rfl⟩) fun e he heq => ?_
  obtain ⟨d, hd, hsome⟩ := List.mem_filterMap.1 he
  cases d with
  | signature n' t prop' loc' =>
    cases hsome
    have hnodup : p.signed.Nodup := h.values.of_append_right
    have hsame := eq_of_nodup_filterMap hnodup hd hmem (congrArg some heq) rfl
    cases hsame
    rfl
  | datatype | function => cases hsome

theorem Distinct.not_mem_functions (h : p.Distinct) :
    ∀ e ∈ p.given.entries, e.1.text ∉ p.functionNames := by
  intro e he
  rw [given, entries_insertDeclared, TypeEnv.entries_declare, entries_insertCtors] at he
  have hapart : ∀ x ∈ p.localNames ++ p.constructors, x ∉ p.functionNames := fun x hx hmem =>
    h.functions x (NameSet.mem_ofList.1 hmem) hx
  rcases List.mem_append.1 he with he | he
  · rcases List.mem_append.1 he with he | he
    · obtain ⟨d, hd, he⟩ := List.mem_flatMap.1 he
      obtain ⟨c, hc, rfl⟩ := List.mem_map.1 he
      obtain ⟨defn, hdefn, hsome⟩ := List.mem_filterMap.1 hd
      cases defn <;> cases hsome
      exact hapart _ (List.mem_append_right _
        (List.mem_flatMap.2 ⟨_, hdefn, List.mem_map_of_mem hc⟩))
    · obtain ⟨d, hd, he⟩ := List.mem_flatMap.1 he
      obtain ⟨x, hx, rfl⟩ := List.mem_map.1 he
      exact hapart _ (List.mem_append_left _
        (List.mem_map_of_mem (List.mem_flatMap.2 ⟨d, hd, hx⟩)))
  · obtain ⟨d, -, hsome⟩ := List.mem_filterMap.1 he
    cases d with
    | signature n t prop loc =>
      rw [declaredEntry] at hsome
      split at hsome
      · cases hsome
      · next hn =>
        cases hsome
        exact hn
    | datatype | function => cases hsome

theorem mem_definedFunctions (h : p.checkClauses = .ok ()) {n : Name} {clauses : List Expr}
    {loc : Loc} (hmem : .function n clauses loc ∈ p.defns) : n ∈ definedFunctions p.defns := by
  have hclauses := Except.ok_of_forM h _ hmem
  cases clauses with
  | nil => cases hclauses
  | cons body rest => exact List.mem_filterMap.2 ⟨_, hmem, rfl⟩

/-! ## The names of an accepted program -/

theorem inferParts_spec {env : TypeEnv} {s S : Subst} {st' : ElaborationState}
    {decls : List TypedDeclaration} {props : List TypedExpr} {sigProps : List (Option TypedExpr)}
    {stmts : List TypedStmt} (hp : p.Regular) (hs : Stage env s ∅ st)
    (hannotated : st.context.annotated = p.typeNames.map (·.text))
    (h : p.inferParts env s st = .ok ((decls, props, sigProps, stmts), S) st') :
    decls.map (fun d => (d.sort, d.names, d.ty)) = p.decls.map (fun d => (d.sort, d.names, d.ty)) ∧
      sigProps.length = (signedFunctions p.defns).length ∧
      ∀ x t, S.get? x = some t → x ∈ metaNames := by
  obtain ⟨⟨decls, s₁⟩, st₁, h₁, h⟩ := EStateM.ok_of_bind h
  obtain ⟨⟨props, s₂⟩, st₂, h₂, h⟩ := EStateM.ok_of_bind h
  obtain ⟨⟨sigProps, s₃⟩, st₃, h₃, h⟩ := EStateM.ok_of_bind h
  obtain ⟨⟨stmts, s₄⟩, st₄, h₄, h⟩ := EStateM.ok_of_bind h
  cases h
  obtain ⟨hdecls, U, hend, -, -⟩ := parts_sound hp hs hannotated h₁ h₂ h₃ h₄
  exact ⟨hdecls, length_inferSignatureProps _ _ _ _ _ _ h₃, hend.mem_metaNames⟩

/-- The functions of a program have been elaborated, with the names in `given` before and those
in `after` once it was done. -/
structure Settles (p : Program) (given : TypeEnv) (fs : List FunctionType) (after : TypeEnv)
    (s : Subst) (typed : TypedProgram) : Prop where
  names : fs.map (·.name) = definedFunctions p.defns
  closed : ∀ f ∈ fs, f.ty.Closed
  conform : ∀ f ∈ fs, ∀ u, p.signatures.get? f.name.text = some u → u.IsRenaming f.ty
  entries : after.entries = given.entries ++ functionEntries fs
  solved : after.subst s = after
  defined : typed.defined = ⟨functionEntries fs⟩
  scope : typed.scope = ⟨after, .empty⟩

theorem settles_of_infer (hp : p.Regular) (h : p.infer .initial = .ok typed st) :
    p.checkClauses = .ok () ∧ ∃ kinds st₁ fs after s st₂,
      p.inferGiven .initial = .ok (kinds, p.given) st₁ ∧
      p.inferFunctions p.given st₁ = .ok ((fs, after), s) st₂ ∧
      p.Settles p.given fs after s typed := by
  rw [infer_eq] at h
  obtain ⟨⟨kinds, given⟩, st₁, h₁, h⟩ := EStateM.ok_of_bind h
  obtain ⟨⟨⟨fs, after⟩, s⟩, st₂, h₂, h⟩ := EStateM.ok_of_bind h
  obtain ⟨⟨⟨decls, props, sigProps, stmts⟩, S⟩, st₃, h₃, h⟩ := EStateM.ok_of_bind h
  cases h
  obtain ⟨rfl, hgiven⟩ := givenFound_of_inferGiven hp h₁
  obtain ⟨-, hannotated, hnone, hfound, hafter, hfunctions⟩ :=
    inferFunctions_sound hgiven.ready (fun x t ht => hp.closed_signatures ht) h₂
  have hnames := (inferFunctions_names p _ _ _ _ h₂).1
  have hstage : Stage after s ∅ st₂ :=
    ⟨hfound, ready_outer hgiven.ready hnone hafter hfunctions.closed⟩
  obtain ⟨hdecls, hlength, hmetas⟩ :=
    inferParts_spec hp hstage (hannotated.trans hgiven.annotated) h₃
  obtain ⟨-, hprogram, hdefined⟩ := names_substTy (q := ⟨typedDefinitions p.defns kinds sigProps fs,
      decls, props, stmts, p.loc⟩) hp hgiven.clauses
    (aligned_typedDefinitions _ _ _ _ hgiven.length hlength hnames) hnames hdecls
    hfunctions.closed hmetas
  refine ⟨hgiven.clauses, kinds, st₁, fs, after, s, st₂, h₁, h₂, hnames, hfunctions.closed,
    hfunctions.conform, hafter, ?_, hdefined, ?_⟩
  · exact TypeEnv.subst_eq_self hstage.ready.schemes hstage.mem_metaNames
  · rw [TypedProgram.scope, hprogram, hdefined, ← hafter]

namespace Settles

variable {given after : TypeEnv} {fs : List FunctionType} {s : Subst} {x : String}

theorem defines_iff (h : p.Settles given fs after s typed) {n : Name} {t : Ty} :
    typed.Defines n t ↔ ∃ f ∈ fs, f.name = n ∧ f.ty = t := by
  rw [TypedProgram.defines_iff, h.defined]
  simp [functionEntries]

theorem mem_names (h : p.Settles given fs after s typed) (hclauses : p.checkClauses = .ok ()) :
    x ∈ p.functionNames ↔ x ∈ fs.map (·.name.text) := by
  rw [mem_functionNames hclauses, ← h.names, List.map_map]
  rfl

theorem lookup?_eq (h : p.Settles given fs after s typed) :
    after.lookup? x = ((⟨functionEntries fs⟩ : TypeEnv).lookup? x).or (given.lookup? x) := by
  rw [TypeEnv.eq_of_entries h.entries, TypeEnv.lookup?_append]

theorem lookup?_of_not_mem (h : p.Settles given fs after s typed)
    (hclauses : p.checkClauses = .ok ()) (hx : x ∉ p.functionNames) :
    after.lookup? x = given.lookup? x := by
  rw [h.mem_names hclauses, ← contains_functionEntries, TypeEnv.contains,
    Option.not_isSome_iff_eq_none] at hx
  rw [h.lookup?_eq, hx, Option.none_or]

theorem exists_lookup? (h : p.Settles given fs after s typed)
    (hclauses : p.checkClauses = .ok ()) (hx : x ∈ p.functionNames) :
    ∃ f ∈ fs, f.name.text = x ∧ after.lookup? x = some ⟨.const, f.ty⟩ := by
  rw [h.mem_names hclauses, ← contains_functionEntries] at hx
  obtain ⟨info, hinfo⟩ := Option.isSome_iff_exists.1 hx
  obtain ⟨f, hf, hname, rfl⟩ := exists_of_lookup?_functionEntries hinfo
  exact ⟨f, hf, hname, by rw [h.lookup?_eq, hinfo, Option.some_or]⟩

/-- A function that has a signature may be used at the instances of the signature, and at nothing
else. -/
theorem gives_iff (h : p.Settles given fs after s typed) (hp : p.Regular)
    (hclauses : p.checkClauses = .ok ()) (hx : x ∈ p.functionNames) {u τ : Ty}
    (hu : p.signatures.get? x = some u) :
    (∃ t, typed.scope.Gives x t ∧ t ≈ τ) ↔ ∃ t, u.IsInstance t ∧ t ≈ τ := by
  obtain ⟨f, hf, rfl, hlookup⟩ := h.exists_lookup? hclauses hx
  have hclosed := hp.closed_signatures hu
  have hrenaming := h.conform f hf u hu
  rw [h.scope]
  simp only [Scope.gives_iff hlookup]
  rw [(h.closed f hf).instance_iff, hclosed.instance_iff, hrenaming.allows_iff hclosed]

end Settles

end Program

/-- Signatures are honoured exactly.  The functions of an accepted program are elaborated all at
once, from the names that were there before.  These names are found afterwards as they were, and
nothing is left to be solved in their types.  A function with a signature is recorded with the
signature up to the names of its variables.  The rest of the program may use it at every instance
of its signature, and at no other type. -/
theorem signatures_honoured {p : Program} {typed : TypedProgram} (hp : p.Regular)
    (h : p.elaborate = .ok typed) :
    ∃ kinds st functions after s st', p.inferGiven .initial = .ok (kinds, p.given) st ∧
      p.inferFunctions p.given st = .ok ((functions, after), s) st' ∧
      after.entries = p.given.entries ++ Program.functionEntries functions ∧
      after.subst s = after ∧ typed.scope = ⟨after, .empty⟩ ∧
      (∀ e ∈ p.given.entries, after.lookup? e.1.text = p.given.lookup? e.1.text) ∧
      ∀ n clauses loc m u prop loc', .function n clauses loc ∈ p.defns →
        .signature m u prop loc' ∈ p.defns → m.text = n.text →
          (∃ t, typed.Defines n t) ∧ (∀ t, typed.Defines n t → u.IsRenaming t) ∧
          ∀ τ, (∃ t, typed.scope.Gives n.text t ∧ t ≈ τ) ↔ ∃ t, u.IsInstance t ∧ t ≈ τ := by
  obtain ⟨st, hinfer⟩ := Program.infer_of_elaborate h
  have hdistinct : p.Distinct := Program.infer_distinct p _ _ _ hinfer
  obtain ⟨hclauses, kinds, st₁, fs, after, s, st₂, hgiven, hfunctions, hend⟩ :=
    Program.settles_of_infer hp hinfer
  refine ⟨kinds, st₁, fs, after, s, st₂, hgiven, hfunctions, hend.entries, hend.solved,
    hend.scope, fun e he => hend.lookup?_of_not_mem hclauses (hdistinct.not_mem_functions e he), ?_⟩
  intro n clauses loc m u prop loc' hdefined hsigned hname
  have hu : p.signatures.get? n.text = some u := hname ▸ hdistinct.signature hsigned
  have hn := Program.mem_definedFunctions hclauses hdefined
  refine ⟨?_, fun t ht => ?_, fun τ => hend.gives_iff hp hclauses ?_ hu⟩
  · rw [← hend.names] at hn
    obtain ⟨f, hf, hfn⟩ := List.mem_map.1 hn
    exact ⟨f.ty, hend.defines_iff.2 ⟨f, hf, hfn, rfl⟩⟩
  · obtain ⟨f, hf, rfl, rfl⟩ := hend.defines_iff.1 ht
    exact hend.conform f hf u hu
  · exact (Program.mem_functionNames hclauses).2 (List.mem_map_of_mem hn)

namespace Boxes

/-- The function of the program passes on numbers, and does not make truth values of them. -/
theorem signatures_honoured_same : source.Regular ∧ ∃ typed, source.elaborate = .ok typed ∧
    (∃ t, typed.Defines (.bare "same") t) ∧
    (∃ t, typed.scope.Gives "same" t ∧ t ≈ .func .int .int) ∧
    ¬ ∃ t, typed.scope.Gives "same" t ∧ t ≈ .func .int .bool := by
  obtain ⟨typed, h⟩ := exists_typed
  obtain ⟨_, _, _, _, _, _, -, -, -, -, -, -, hsignatures⟩ := signatures_honoured regular h
  obtain ⟨hdefines, -, hgives⟩ := hsignatures (.bare "same") _ _ _ _ _ _
    (.tail _ (.tail _ (.head _))) (.tail _ (.head _)) rfl
  refine ⟨regular, typed, h, hdefines, (hgives _).2 ?_, fun hbool => ?_⟩
  · refine ⟨_, ⟨.singleton "b" .int, fun x hx => ?_, rfl⟩, Setoid.refl _⟩
    rw [NameMap.mem_keys_singleton.1 hx]
    decide
  · obtain ⟨t, ⟨θ, -, rfl⟩, hequiv⟩ := (hgives _).1 hbool
    have hvalue := Ty.value_of_equiv hequiv Ty.atoms
    rw [Ty.value_subst, Ty.value_func, Ty.value_func, Ty.fn_inj] at hvalue
    cases hvalue.1.symm.trans hvalue.2

end Boxes

end GuardedCommands
