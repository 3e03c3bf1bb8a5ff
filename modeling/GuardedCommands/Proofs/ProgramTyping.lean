import GuardedCommands.Proofs.FunctionTyping

/-!
# Elaborated programs are well typed

A program is regular if its types are written without metavariables and its type
variables are named neither like metavariables nor like its datatypes.  What the
elaboration of such a program accepts is well typed.

The names of the program have closed types before the first statement is looked at:
declared names have no variables at all, because their type names must be in scope,
and the types of functions have been made general.  In the end the substitution
that has been found absorbs all its parts, and the tree is well typed once this
substitution has been applied.
-/

namespace GuardedCommands

open Ty (Subst)

open TypedExpr (HasTy)

/-! ## Regular programs -/

namespace Program

def writtenTypes (p : Program) : List Ty :=
  p.datatypes.flatMap (fun d => d.ctors.flatMap (·.args)) ++ p.decls.map (·.ty) ++
    p.defns.filterMap (fun
      | .signature _ t _ _ => some t
      | _ => none) ++
    Stmt.listTypes p.stmts

def typeVariables (p : Program) : List String :=
  p.writtenTypes.flatMap (·.rigidVars.toList) ++ p.datatypes.flatMap (·.params.map (·.text))

structure Regular (p : Program) : Prop where
  metavars : ∀ t ∈ p.writtenTypes, t.metavars = ∅
  notMeta : ∀ x ∈ p.typeVariables, x.toList.head? ≠ some '?'
  notDatatype : ∀ x ∈ p.typeVariables, x ∉ p.typeNames.map (·.text)

theorem not_mem_metaNames {x : String} (h : x.toList.head? ≠ some '?') : x ∉ metaNames := by
  rintro ⟨i, rfl⟩
  simp [Supply.next, Name.bare] at h

theorem closed_of_variables {t : Ty} (hmetas : ∀ x, x ∉ t.metavars)
    (hrigid : ∀ x ∈ t.rigidVars, x ∉ metaNames) : t.Closed := by
  induction t with
  | rigid n => exact hrigid n.text (by simp [Ty.rigidVars])
  | metavar n => exact hmetas n.text (by simp [Ty.metavars])
  | array i t l ih => exact ih hmetas hrigid
  | app f a l ihf iha =>
    constructor
    · exact ihf (fun x hx => hmetas x (NameSet.mem_union.2 (.inl hx)))
        fun x hx => hrigid x (NameSet.mem_union.2 (.inl hx))
    · exact iha (fun x hx => hmetas x (NameSet.mem_union.2 (.inr hx)))
        fun x hx => hrigid x (NameSet.mem_union.2 (.inr hx))
  | base | tuple | arrow | data => trivial

theorem closed_funcs {args : List Ty} {result : Ty} (hargs : ∀ a ∈ args, a.Closed)
    (hresult : result.Closed) : (Ty.funcs args result).Closed := by
  unfold Ty.funcs
  induction args with
  | nil => exact hresult
  | cons a args ih =>
    rw [List.forall_mem_cons] at hargs
    exact ⟨⟨trivial, hargs.1⟩, ih hargs.2⟩

theorem closed_result {d : Datatype} (h : ∀ n ∈ d.params, n.text ∉ metaNames) :
    d.result.Closed := by
  have happly : ∀ (params : List Name) (t : Ty), t.Closed → (∀ n ∈ params, n.text ∉ metaNames) →
      (params.foldl (fun t n => t.apply (.rigid n)) t).Closed := by
    intro params
    induction params with
    | nil => exact fun t ht _ => ht
    | cons n params ih =>
      intro t ht hparams
      rw [List.forall_mem_cons] at hparams
      exact ih _ ⟨ht, hparams.1⟩ hparams.2
  exact happly d.params _ trivial h

namespace Regular

variable {p : Program} {t : Ty}

theorem mem_typeVariables (ht : t ∈ p.writtenTypes) {x : String} (hx : x ∈ t.rigidVars) :
    x ∈ p.typeVariables :=
  List.mem_append.2 (.inl (List.mem_flatMap.2 ⟨t, ht, hx⟩))

theorem closed (hp : p.Regular) (ht : t ∈ p.writtenTypes) : t.Closed := by
  apply closed_of_variables
  · intro x
    rw [hp.metavars t ht]
    exact NameSet.not_mem_empty x
  · exact fun x hx => not_mem_metaNames (hp.notMeta x (mem_typeVariables ht hx))

theorem plain (hp : p.Regular) (ht : t ∈ p.writtenTypes) :
    t.Plain {x | x ∈ p.typeNames.map (·.text)} :=
  ⟨hp.metavars t ht, fun x hx => hp.notDatatype x (mem_typeVariables ht hx)⟩

theorem closed_ctor (hp : p.Regular) {d : Datatype} (hd : d ∈ p.datatypes) {c : Ctor}
    (hc : c ∈ d.ctors) : (Ty.funcs c.args d.result).Closed := by
  apply closed_funcs
  · intro a ha
    apply hp.closed
    simp only [writtenTypes, List.mem_append]
    exact .inl (.inl (.inl (List.mem_flatMap.2 ⟨d, hd, List.mem_flatMap.2 ⟨c, hc, ha⟩⟩)))
  · refine closed_result fun n hn => not_mem_metaNames (hp.notMeta _ ?_)
    exact List.mem_append.2 (.inr (List.mem_flatMap.2 ⟨d, hd, List.mem_map_of_mem hn⟩))

theorem closed_signature (hp : p.Regular) {n : Name} {prop : Option Expr} {loc : Loc}
    (h : .signature n t prop loc ∈ p.defns) : t.Closed := by
  apply hp.closed
  simp only [writtenTypes, List.mem_append]
  exact .inl (.inr (List.mem_filterMap.2 ⟨_, h, rfl⟩))

theorem closed_signatures (hp : p.Regular) {x : String} (h : p.signatures.get? x = some t) :
    t.Closed := by
  have hmem := NameMap.mem_of_lookup (NameMap.get?_ofList _ x ▸ h)
  obtain ⟨d, hd, hsome⟩ := List.mem_filterMap.1 (List.mem_reverse.1 hmem)
  cases d <;> cases hsome
  exact hp.closed_signature hd

end Regular

/-! ## What stands where -/

variable {p : Program} {ds : List Definition} {props : List (Option TypedExpr)}
  {fs : List FunctionType} {ts : List TypedDefinition} {S : Subst}

def FunctionType.substBody (S : Subst) (f : FunctionType) : FunctionType :=
  { f with body := f.body.substTy S }

namespace Aligned

theorem substTy (h : Aligned ds props fs ts)
    (hsignatures : ∀ n t prop loc, .signature n t prop loc ∈ ds → t.subst S = t)
    (hfs : ∀ f ∈ fs, f.ty.subst S = f.ty) :
    Aligned ds (props.map (·.map (·.substTy S))) (fs.map (·.substBody S))
      (ts.map (·.substTy S)) := by
  induction h with
  | nil => exact .nil
  | datatype _ ih =>
    exact .datatype (ih (fun n t prop loc h => hsignatures n t prop loc (.tail _ h)) hfs)
  | signature _ ih =>
    have hsame := hsignatures _ _ _ _ (.head _)
    rw [List.map_cons, List.map_cons, TypedDefinition.substTy, hsame]
    exact .signature (ih (fun n t prop loc h => hsignatures n t prop loc (.tail _ h)) hfs)
  | function hname _ ih =>
    rw [List.forall_mem_cons] at hfs
    rw [List.map_cons, List.map_cons, TypedDefinition.substTy, hfs.1]
    exact .function (f := FunctionType.substBody S _) hname
      (ih (fun n t prop loc h => hsignatures n t prop loc (.tail _ h)) hfs.2)
  | undefined _ ih =>
    exact .undefined (ih (fun n t prop loc h => hsignatures n t prop loc (.tail _ h)) hfs)

theorem mem_function (h : Aligned ds props fs ts) {n : Name} {t : Ty} {body : TypedExpr} {loc : Loc}
    (hmem : .function n t body loc ∈ ts) : ∃ f ∈ fs, f.name = n ∧ f.ty = t ∧ f.body = body := by
  induction h with
  | nil => cases hmem
  | datatype _ ih | signature _ ih =>
    rcases List.mem_cons.1 hmem with heq | hmem
    · cases heq
    · exact ih hmem
  | function _ _ ih =>
    rcases List.mem_cons.1 hmem with heq | hmem
    · cases heq
      exact ⟨_, .head _, rfl, rfl, rfl⟩
    · obtain ⟨f, hf, hparts⟩ := ih hmem
      exact ⟨f, .tail _ hf, hparts⟩
  | undefined _ ih => exact ih hmem

theorem mem_signature (h : Aligned ds props fs ts) {n : Name} {t : Ty} {prop : Option TypedExpr}
    {loc : Loc} (hmem : .signature n t prop loc ∈ ts) : prop ∈ props := by
  induction h with
  | nil => cases hmem
  | datatype _ ih | function _ _ ih =>
    rcases List.mem_cons.1 hmem with heq | hmem
    · cases heq
    · exact ih hmem
  | signature _ ih =>
    rcases List.mem_cons.1 hmem with heq | hmem
    · cases heq
      exact .head _
    · exact .tail _ (ih hmem)
  | undefined _ ih => exact ih hmem

theorem filterMap_eq {α : Type} (h : Aligned ds props fs ts) {get : Definition → Option α}
    {get' : TypedDefinition → Option α}
    (hdatatype : ∀ d k, get' (.datatype d k) = get (.datatype d))
    (hsignature : ∀ n t prop prop' loc, get' (.signature n t prop' loc) =
      get (.signature n t prop loc))
    (hfunction : ∀ n clauses loc, get (.function n clauses loc) = none)
    (hfunction' : ∀ n t body loc, get' (.function n t body loc) = none) :
    ts.filterMap get' = ds.filterMap get := by
  induction h with
  | nil => rfl
  | datatype _ ih => simp only [List.filterMap_cons, hdatatype, ih]
  | @signature _ _ _ _ n t prop _ _ _ ih =>
    simp only [List.filterMap_cons, hsignature n t prop, ih]
  | function _ _ ih => simp only [List.filterMap_cons, hfunction, hfunction', ih]
  | undefined _ ih => simp only [List.filterMap_cons, hfunction, ih]

theorem defined_eq {q : TypedProgram} (h : Aligned ds props fs q.defns) :
    TypedProgram.defined q = ⟨functionEntries fs⟩ := by
  apply congrArg TypeEnv.mk
  generalize q.defns = ts at h
  induction h with
  | nil => rfl
  | datatype _ ih | signature _ ih | undefined _ ih => simpa using ih
  | function _ _ ih => simpa [functionEntries] using ih

end Aligned

theorem mem_functionNames (h : p.checkClauses = .ok ()) {x : String} :
    x ∈ p.functionNames ↔ x ∈ (definedFunctions p.defns).map (·.text) := by
  rw [functionNames, NameSet.mem_ofList, definedFunctions, List.map_filterMap]
  refine iff_of_eq (congrArg (x ∈ ·) (List.filterMap_congr fun d hd => ?_))
  have hd := Except.ok_of_forM h d hd
  cases d with
  | function n clauses loc =>
    cases clauses with
    | nil => cases hd
    | cons body rest => rfl
  | datatype | signature => rfl

def declaredEntry (names : NameSet) : Definition → Option (Name × TypeInfo)
  | .signature n t _ _ => if n.text ∈ names then none else some (n, ⟨.const, t⟩)
  | .datatype _ | .function .. => none

theorem entries_insertDeclared (p : Program) (env : TypeEnv) :
    (p.insertDeclared env).entries =
      env.entries ++ p.defns.filterMap (declaredEntry p.functionNames) := by
  unfold insertDeclared
  generalize p.functionNames = names
  generalize p.defns = ds
  induction ds generalizing env with
  | nil => simp
  | cons d ds ih =>
    rw [List.foldl_cons, ih]
    cases d with
    | signature n t prop loc =>
      by_cases hn : n.text ∈ names <;> simp [declaredEntry, TypeEnv.insert, hn]
    | datatype | function => rfl

def given (p : Program) : TypeEnv :=
  p.insertDeclared ((p.datatypes.foldl Datatype.insertCtors .empty).declare p.decls)

theorem Aligned.given_eq {q : TypedProgram} (h : Aligned p.defns props fs q.defns)
    (hclauses : p.checkClauses = .ok ()) (hnames : fs.map (·.name) = definedFunctions p.defns)
    (hdecls : q.decls.map (fun d => (d.sort, d.names, d.ty)) =
      p.decls.map fun d => (d.sort, d.names, d.ty)) :
    TypedProgram.given q = p.given := by
  apply TypeEnv.eq_of_entries
  have hdatatypes : TypedProgram.datatypes q = p.datatypes :=
    h.filterMap_eq (fun _ _ => rfl) (fun _ _ _ _ _ => rfl) (fun _ _ _ => rfl) fun _ _ _ _ => rfl
  have hcontains : ∀ x : String, (TypedProgram.defined q).contains x = true ↔
      x ∈ p.functionNames := by
    intro x
    rw [h.defined_eq, TypeEnv.contains_iff, mem_functionNames hclauses, ← hnames]
    simp [TypeEnv.visible, TypeEnv.names, functionEntries]
  rw [given, entries_insertDeclared, TypedProgram.given, hdatatypes]
  dsimp only
  congr 1
  · rw [TypeEnv.declare_congr hdecls]
  · refine h.filterMap_eq (fun _ _ => rfl) (fun n t prop prop' loc => ?_) (fun _ _ _ => rfl)
      fun _ _ _ _ => rfl
    simp only [declaredEntry, hcontains]

/-! ## Before the functions -/

variable {st st' : ElaborationState}

theorem map_typeNames (p : Program) : p.typeNames.map (·.text) = p.datatypes.map (·.name.text) := by
  simp only [typeNames, datatypes, List.map_filterMap]
  refine List.filterMap_congr fun d _ => ?_
  cases d <;> rfl

theorem inferKinds_spec {kinds : List Kind} (h : p.inferKinds .initial = .ok kinds st') :
    st'.inProgress = ∅ ∧ st'.context.annotated.Nodup ∧
      st'.context.annotated = p.typeNames.map (·.text) := by
  rw [map_typeNames]
  unfold inferKinds at h
  cases hds : p.datatypes with
  | nil =>
    rw [hds] at h
    cases h
    exact ⟨rfl, List.nodup_nil, rfl⟩
  | cons d ds =>
    rw [hds] at h
    obtain ⟨kindState, hkinds, rfl⟩ := ElaborationM.ofKinds_spec h
    exact ⟨rfl, (Datatype.annotated_of_inferGroup rfl hkinds).2⟩

theorem checkSignatures_extends (hst : st.context.annotated.Nodup)
    (h : p.checkSignatures st = .ok () st') : st.Extends st' := by
  refine EStateM.rel_of_forM
    (R := fun st st' : ElaborationState => st.context.annotated.Nodup → st.Extends st')
    (fun _ _ => .refl _) (fun h h' hst => (h hst).trans (h' ((h hst).annotated ▸ hst)))
    (fun {d _ _} h hst => ?_) h hst
  cases d with
  | signature n t prop loc => exact ElaborationM.checkOpen_extends hst h
  | datatype | function =>
    cases h
    exact .refl _

theorem entries_insertCtors (env : TypeEnv) (ds : List Datatype) :
    (ds.foldl Datatype.insertCtors env).entries = env.entries ++
      ds.flatMap fun d => d.ctors.map fun c => (c.name, ⟨.ctor, .funcs c.args d.result⟩) := by
  induction ds generalizing env with
  | nil => simp
  | cons d ds ih =>
    rw [List.foldl_cons, ih, Datatype.insertCtors, entries_foldl_insert]
    simp

theorem forall_given {P : TypeInfo → Prop}
    (hctors : ∀ d ∈ p.datatypes, ∀ c ∈ d.ctors, P ⟨.ctor, .funcs c.args d.result⟩)
    (hdecls : ∀ d ∈ p.decls, P ⟨d.sort.role, d.ty⟩)
    (hsignatures : ∀ n t prop loc, .signature n t prop loc ∈ p.defns → P ⟨.const, t⟩) :
    ∀ e ∈ p.given.entries, P e.2 := by
  intro e he
  rw [given, entries_insertDeclared, TypeEnv.entries_declare, entries_insertCtors] at he
  rcases List.mem_append.1 he with he | he
  · rcases List.mem_append.1 he with he | he
    · obtain ⟨d, hd, he⟩ := List.mem_flatMap.1 he
      obtain ⟨c, hc, rfl⟩ := List.mem_map.1 he
      exact hctors d hd c hc
    · obtain ⟨d, hd, he⟩ := List.mem_flatMap.1 he
      obtain ⟨x, -, rfl⟩ := List.mem_map.1 he
      exact hdecls d hd
  · obtain ⟨d, hd, hsome⟩ := List.mem_filterMap.1 he
    cases d with
    | signature n t prop loc =>
      rw [declaredEntry] at hsome
      split at hsome
      · cases hsome
      · cases hsome
        exact hsignatures n t prop loc hd
    | datatype | function => cases hsome

theorem Regular.over_decl (hp : p.Regular) {d : Declaration Expr} (hd : d ∈ p.decls)
    (hrigid : ∀ x ∈ d.ty.rigidVars, x ∈ p.typeNames.map (·.text)) : d.ty.Over ∅ := by
  have hwritten : d.ty ∈ p.writtenTypes := by
    simp only [writtenTypes, List.mem_append]
    exact .inl (.inl (.inr (List.mem_map_of_mem hd)))
  exact (hp.plain hwritten).over_empty (fun x hx => hx) hrigid

theorem ready_given (hp : p.Regular) (hprogress : st.inProgress = ∅)
    (hdecls : ∀ d ∈ p.decls, ∀ x ∈ d.ty.rigidVars, x ∈ p.typeNames.map (·.text)) :
    Scope.Ready ⟨p.given, .empty⟩ ∅ st := by
  have hentries : ∀ e ∈ p.given.entries,
      e.2.ty.Closed ∧ (e.2.isMutable = true → e.2.ty.Over ∅) := by
    refine forall_given (P := fun info => info.ty.Closed ∧ (info.isMutable = true → info.ty.Over ∅))
      (fun d hd c hc => ?_) (fun d hd => ?_) fun n t prop loc h => ?_
    · exact ⟨hp.closed_ctor hd hc, by simp [TypeInfo.isMutable]⟩
    · have hover := hp.over_decl hd (hdecls d hd)
      exact ⟨hover.closed, fun _ => hover⟩
    · exact ⟨hp.closed_signature h, by simp [TypeInfo.isMutable]⟩
  constructor
  · exact Set.empty_subset _
  · exact fun e he => (hentries e he).1
  · exact fun e he => (hentries e he).2
  · simp [TypeEnv.empty]
  · simp [hprogress]

/-! ## After the functions -/

structure Stage (env : TypeEnv) (s : Subst) (U : Set String) (st : ElaborationState) : Prop
    extends Found s U st where
  ready : Scope.Ready ⟨env, .empty⟩ U st

namespace Stage

variable {env : TypeEnv} {s r : Subst} {U U' : Set String}

theorem mem_metaNames (h : Stage env s U st) (x : String) (t : Ty) (hx : s.get? x = some t) :
    x ∈ metaNames :=
  issued_subset_metaNames _ _ (h.solved hx).1

theorem env_subst (h : Stage env s U st) : env.subst s = (⟨env, .empty⟩ : Scope).env := by
  rw [TypeEnv.subst_eq_self h.ready.schemes h.mem_metaNames]
  exact TypeEnv.eq_of_entries (List.append_nil _).symm

theorem step (h : Stage env s U st) (hr : Solving U st r U' st') :
    Stage env (r.compose s) U' st' ∧
      ∀ S : Subst, S.Absorbs (r.compose s) → S.Absorbs s ∧ S.Absorbs r := by
  obtain ⟨hfound, habsorbs⟩ := h.toFound.compose hr
  exact ⟨⟨hfound, h.ready.after hr⟩, habsorbs⟩

end Stage

theorem ready_outer {given outer : TypeEnv} (hgiven : Scope.Ready ⟨given, .empty⟩ ∅ st)
    (hprogress : ∀ x, x ∉ st'.inProgress)
    (houter : outer.entries = given.entries ++ functionEntries fs)
    (hclosed : ∀ f ∈ fs, f.ty.Closed) : Scope.Ready ⟨outer, .empty⟩ ∅ st' := by
  constructor
  · exact Set.empty_subset _
  · intro e he
    rcases List.mem_append.1 (houter ▸ he) with he | he
    · exact hgiven.schemes e he
    · obtain ⟨f, hf, rfl⟩ := List.mem_map.1 he
      exact hclosed f hf
  · intro e he hmutable
    rcases List.mem_append.1 (houter ▸ he) with he | he
    · exact hgiven.mutables e he hmutable
    · obtain ⟨f, hf, rfl⟩ := List.mem_map.1 he
      simp [TypeInfo.isMutable] at hmutable
  · exact hgiven.fixed
  · exact fun x hx => absurd hx (hprogress x)

theorem inferSignatureProps_sound {env : TypeEnv} {s s' : Subst} {U : Set String}
    (hs : Stage env s U st) (h : inferSignatureProps env s ds st = .ok (props, s') st') :
    ∃ U', Stage env s' U' st' ∧ st.Extends st' ∧ ∀ S : Subst, S.Absorbs s' → S.Absorbs s ∧
      ∀ prop ∈ props, ∀ e ∈ prop, HasTy ⟨env, .empty⟩ (e.substTy S) .bool := by
  fun_induction inferSignatureProps env s ds generalizing U st props with
  | case1 s =>
    cases h
    exact ⟨U, hs, .refl _, fun S hS => ⟨hS, by simp⟩⟩
  | case2 s n t prop loc ds ih =>
    obtain ⟨⟨prop', s₁⟩, st₁, h₁, h⟩ := EStateM.ok_of_bind h
    obtain ⟨⟨others, s₂⟩, st₂, h₂, h⟩ := EStateM.ok_of_bind h
    cases h
    rw [hs.env_subst] at h₁
    obtain ⟨U₁, hs₁, htyped⟩ := Expr.expectOption_sound hs.ready Ty.over_bool h₁
    obtain ⟨hstage, habsorbs⟩ := hs.step hs₁
    obtain ⟨U₂, hstage', hext, hothers⟩ := ih s₁ hstage h₂
    refine ⟨U₂, hstage', hs₁.toExtends.trans hext, fun S hS => ?_⟩
    obtain ⟨hS₁, hothers⟩ := hothers S hS
    obtain ⟨hS₀, hS₁⟩ := habsorbs S hS₁
    exact ⟨hS₀, List.forall_mem_cons.2 ⟨htyped S hS₁, hothers⟩⟩
  | case3 s d ds hd ih => exact ih hs h

structure PartsTyped (Γ : Scope) (S : Subst) (decls : List TypedDeclaration)
    (props : List TypedExpr) (sigProps : List (Option TypedExpr)) (stmts : List TypedStmt) :
    Prop where
  declProps : ∀ d ∈ decls, ∀ e ∈ d.prop, HasTy Γ (e.substTy S) .bool
  props : ∀ e ∈ props, HasTy Γ (e.substTy S) .bool
  signatureProps : ∀ prop ∈ sigProps, ∀ e ∈ prop, HasTy Γ (e.substTy S) .bool
  stmts : Stmt.ListTyped Γ (Stmt.substTyList S stmts)

theorem parts_sound {env : TypeEnv} {s s₁ s₂ s₃ s₄ : Subst} {st₁ st₂ st₃ : ElaborationState}
    {decls : List TypedDeclaration} {es : List TypedExpr} {stmts : List TypedStmt}
    (hp : p.Regular) (hs : Stage env s ∅ st)
    (hannotated : st.context.annotated = p.typeNames.map (·.text))
    (h₁ : Declaration.inferProps (env.subst s) ∅ p.decls st = .ok (decls, s₁) st₁)
    (h₂ : Expr.expectAll (env.subst (s₁.compose s)) .bool p.props st₁ = .ok (es, s₂) st₂)
    (h₃ : inferSignatureProps env (s₂.compose (s₁.compose s)) p.defns st₂ = .ok (props, s₃) st₃)
    (h₄ : Stmt.inferList (env.subst s₃) ∅ p.stmts st₃ = .ok (stmts, s₄) st') :
    decls.map (fun d => (d.sort, d.names, d.ty)) = p.decls.map (fun d => (d.sort, d.names, d.ty)) ∧
      ∃ U, Stage env (s₄.compose s₃) U st' ∧ (s₄.compose s₃).Absorbs s ∧
        PartsTyped ⟨env, .empty⟩ (s₄.compose s₃) decls es props stmts := by
  rw [hs.env_subst] at h₁
  obtain ⟨hheads, U₁, hs₁, hdecls⟩ :=
    Declaration.inferProps_sound hs.ready (.of_maps (.empty ∅) hs.ready.known) h₁
  obtain ⟨hstage₁, habsorbs₁⟩ := hs.step hs₁
  rw [hstage₁.env_subst] at h₂
  obtain ⟨U₂, hs₂, hprops⟩ := Expr.expectAll_sound hstage₁.ready Ty.over_bool h₂
  obtain ⟨hstage₂, habsorbs₂⟩ := hstage₁.step hs₂
  obtain ⟨U₃, hstage₃, hext, hsigProps⟩ := inferSignatureProps_sound hstage₂ h₃
  have hsettled : Scope.Settled {x | x ∈ p.typeNames.map (·.text)} ⟨env, .empty⟩ U₃ st₃ := by
    refine ⟨hstage₃.ready, fun x hx => ?_⟩
    rwa [hext.annotated, hs₂.annotated, hs₁.annotated, hannotated] at hx
  rw [hstage₃.env_subst] at h₄
  have hplain : ∀ t ∈ Stmt.listTypes p.stmts, t.Plain {x | x ∈ p.typeNames.map (·.text)} := by
    intro t ht
    apply hp.plain
    simp only [writtenTypes, List.mem_append]
    exact .inr ht
  obtain ⟨U₄, hs₄, hstmts⟩ := Stmt.inferList_sound _ p.stmts hplain hsettled
    (.of_maps (.empty U₃) hstage₃.ready.known) h₄
  obtain ⟨hstage₄, habsorbs₄⟩ := hstage₃.step hs₄
  -- in the end everything that was found on the way is built in
  obtain ⟨hS₃, hS₄⟩ := habsorbs₄ _ hstage₄.resolved.absorbs_self
  obtain ⟨hS₂, hsig⟩ := hsigProps _ hS₃
  obtain ⟨hS₁, hS₂⟩ := habsorbs₂ _ hS₂
  obtain ⟨hS₀, hS₁⟩ := habsorbs₁ _ hS₁
  have hfixed : Scope.FixedBy ⟨env, .empty⟩ (s₄.compose s₃) :=
    TypeEnv.subst_eq_self hstage₄.ready.schemes hstage₄.mem_metaNames
  exact ⟨hheads, U₄, hstage₄, hS₀, (hdecls _ hS₁).2, hprops _ hS₂, hsig, (hstmts _ hS₄ hfixed).2⟩

theorem names_substTy {q : TypedProgram} (hp : p.Regular) (hclauses : p.checkClauses = .ok ())
    (haligned : Aligned p.defns props fs q.defns)
    (hnames : fs.map (·.name) = definedFunctions p.defns)
    (hdecls : q.decls.map (fun d => (d.sort, d.names, d.ty)) =
      p.decls.map fun d => (d.sort, d.names, d.ty))
    (hclosed : ∀ f ∈ fs, f.ty.Closed) (hmetas : ∀ x t, S.get? x = some t → x ∈ metaNames) :
    Aligned p.defns (props.map (·.map (·.substTy S))) (fs.map (·.substBody S))
        (TypedProgram.substTy S q).defns ∧
      TypedProgram.given (TypedProgram.substTy S q) = p.given ∧
      TypedProgram.defined (TypedProgram.substTy S q) = ⟨functionEntries fs⟩ := by
  have haligned : Aligned p.defns (props.map (·.map (·.substTy S))) (fs.map (·.substBody S))
      (TypedProgram.substTy S q).defns :=
    haligned.substTy (fun n t prop loc h => (hp.closed_signature h).subst_eq_self hmetas)
      fun f hf => (hclosed f hf).subst_eq_self hmetas
  refine ⟨haligned, haligned.given_eq hclauses ?_ ?_, ?_⟩
  · rw [← hnames, List.map_map]
    rfl
  · rw [← hdecls, TypedProgram.substTy, List.map_map]
    rfl
  · rw [haligned.defined_eq]
    simp [functionEntries, FunctionType.substBody]

theorem wellTyped_of_parts {q : TypedProgram} {given outer : TypeEnv} (hp : p.Regular)
    (hclauses : p.checkClauses = .ok ()) (haligned : Aligned p.defns props fs q.defns)
    (hnames : fs.map (·.name) = definedFunctions p.defns)
    (hdecls : q.decls.map (fun d => (d.sort, d.names, d.ty)) =
      p.decls.map fun d => (d.sort, d.names, d.ty))
    (hgiven : given = p.given)
    (houter : outer.entries = given.entries ++ functionEntries fs) {s : Subst}
    (hfunctions : FunctionsTyped p.signatures given fs s) (hS : S.Absorbs s)
    (hmetas : ∀ x t, S.get? x = some t → x ∈ metaNames)
    (hparts : PartsTyped ⟨outer, .empty⟩ S q.decls q.props props q.stmts) :
    (TypedProgram.substTy S q).WellTyped := by
  obtain ⟨haligned, hprogram, hdefined⟩ :=
    names_substTy hp hclauses haligned hnames hdecls hfunctions.closed hmetas
  have hgiven : TypedProgram.given (TypedProgram.substTy S q) = given := hprogram.trans hgiven.symm
  have hscope : TypedProgram.scope (TypedProgram.substTy S q) = ⟨outer, .empty⟩ := by
    rw [TypedProgram.scope, hgiven, hdefined, ← houter]
  have hsignatures : TypedProgram.signatures (TypedProgram.substTy S q) = p.signatures :=
    congrArg NameMap.ofList (haligned.filterMap_eq (fun _ _ => rfl) (fun _ _ _ _ _ => rfl)
      (fun _ _ _ => rfl) fun _ _ _ _ => rfl)
  constructor
  · intro n t body loc hmem
    obtain ⟨_, hf, rfl, rfl, rfl⟩ := haligned.mem_function hmem
    obtain ⟨f, hf', rfl⟩ := List.mem_map.1 hf
    rw [hgiven, hdefined]
    exact ⟨(hfunctions.closed f hf').metavars_eq, hfunctions.typed S hS hmetas f hf'⟩
  · intro n t body loc u hmem hu
    obtain ⟨_, hf, rfl, rfl, rfl⟩ := haligned.mem_function hmem
    obtain ⟨f, hf', rfl⟩ := List.mem_map.1 hf
    rw [hsignatures] at hu
    exact hfunctions.conform f hf' u hu
  · intro n t prop loc hmem e he
    obtain ⟨prop', hprop, rfl⟩ := List.mem_map.1 (haligned.mem_signature hmem)
    obtain ⟨e', he', rfl⟩ := Option.mem_map.1 he
    rw [hscope]
    exact hparts.signatureProps prop' hprop e' he'
  · intro d hd e he
    obtain ⟨d', hd', rfl⟩ := List.mem_map.1 hd
    obtain ⟨e', he', rfl⟩ := Option.mem_map.1 he
    rw [hscope]
    exact hparts.declProps d' hd' e' he'
  · intro e he
    obtain ⟨e', he', rfl⟩ := List.mem_map.1 he
    rw [hscope]
    exact hparts.props e' he'
  · rw [hscope]
    exact hparts.stmts

theorem infer_sound {typed : TypedProgram} (hp : p.Regular)
    (h : p.infer .initial = .ok typed st') : typed.WellTyped := by
  obtain ⟨hclauses, -, kinds, st₃, h₃, env, st₄, h₄, st₅, h₅, functions, outer, s, st₆, h₆, decls,
    s₁, st₇, h₇, es, s₂, st₈, h₈, sigProps, s₃, st₉, h₉, stmts, s₄, h₁₀, rfl⟩ := infer_cases h
  obtain ⟨hprogress, hnodup, hannotated⟩ := inferKinds_spec h₃
  obtain ⟨hext₄, rfl, hrigid⟩ := Declaration.declareAll_spec h₄
  have hext₅ := checkSignatures_extends (hext₄.annotated ▸ hnodup) h₅
  have hext := hext₄.trans hext₅
  have hready := ready_given hp (hext.inProgress.trans hprogress) (hannotated ▸ hrigid)
  obtain ⟨-, hannotated₆, hnone, hfound, houter, hfunctions⟩ :=
    inferFunctions_sound hready (fun x t ht => hp.closed_signatures ht) h₆
  have hstage : Stage outer s ∅ st₆ := ⟨hfound, ready_outer hready hnone houter hfunctions.closed⟩
  obtain ⟨hheads, U, hend, hS, hparts⟩ := parts_sound hp hstage
    (hannotated₆.trans (hext.annotated.trans hannotated)) h₇ h₈ h₉ h₁₀
  have hnames := (inferFunctions_names p _ _ _ _ h₆).1
  exact wellTyped_of_parts hp hclauses
    (aligned_typedDefinitions _ _ _ _ (length_inferKinds p _ _ _ h₃)
      (length_inferSignatureProps _ _ _ _ _ _ h₉) hnames)
    hnames hheads rfl houter hfunctions hS hend.mem_metaNames hparts

end Program

/-- What elaboration accepts is well typed. -/
theorem elaborated_program_well_typed {p : Program} {typed : TypedProgram} (hp : p.Regular)
    (h : p.elaborate = .ok typed) : typed.WellTyped := by
  unfold Program.elaborate at h
  split at h
  · next hinfer =>
    cases h
    exact Program.infer_sound hp hinfer
  · cases h

namespace Boxes

def source : Program :=
  ⟨[.datatype ⟨.bare "Box", [.bare "a"], [⟨.bare "Full", [.rigid (.bare "a")], .none⟩], .none⟩,
      .signature (.bare "same") (.func (.rigid (.bare "b")) (.rigid (.bare "b"))) none .none,
      .function (.bare "same") [.lam (.bare "y") (.var (.bare "y") .none) .none] .none],
    [⟨.var, [.bare "x"], .int, none, .none⟩,
      ⟨.var, [.bare "box"], .apply (.data (.bare "Box")) .int, none, .none⟩,
      ⟨.const, [.bare "cells"], .arrayOf
        ⟨.including (.lit (.num 0) .none), .excluding (.lit (.num 9) .none), .none⟩
        (.apply (.data (.bare "Box")) .int), none, .none⟩],
    [],
    [.assign [.bare "x", .bare "box"]
      [.app (.const (.bare "same") .none) (.lit (.num 1) .none) .none,
        .app (.const (.bare "same") .none)
          (.index (.const (.bare "cells") .none) (.var (.bare "x") .none) .none) .none] .none],
    .none⟩

theorem regular : source.Regular := by
  constructor
  · intro t ht
    simp only [Program.writtenTypes, source, Program.datatypes, Stmt.listTypes, Stmt.declaredTypes,
      List.filterMap, List.flatMap_cons, List.flatMap_nil, List.map_cons, List.map_nil,
      List.append_nil, List.cons_append, List.nil_append, List.mem_cons, List.not_mem_nil,
      or_false] at ht
    rcases ht with rfl | rfl | rfl | rfl | rfl <;> rfl
  · decide
  · decide

theorem exists_typed : ∃ typed, source.elaborate = .ok typed := ⟨_, by cbv⟩

end Boxes

theorem boxes_well_typed : Boxes.source.Regular ∧
    ∃ typed, Boxes.source.elaborate = .ok typed ∧ typed.WellTyped := by
  obtain ⟨typed, h⟩ := Boxes.exists_typed
  exact ⟨Boxes.regular, typed, h, elaborated_program_well_typed Boxes.regular h⟩

end GuardedCommands
