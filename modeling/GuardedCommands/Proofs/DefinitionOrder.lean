import GuardedCommands.Proofs.AlikeScopes
import GuardedCommands.Proofs.DistinctNames
import GuardedCommands.Proofs.WrittenKinds

/-!
# The order of function definitions

Elaboration looks at the bodies of functions in order, and the names that it issues for their
types depend on this order.  What it finds does not.  The names that are there before the
functions are the same in any order, and so are the solutions of the group of functions:
whether there are any, and which types they give to a function, is said without an order.  So a
program and a program with its functions in other places are accepted together, and a function
has general types in them that allow the same.  Such types differ by the names of their
variables, and by writing an array for a function from integers.
-/

namespace GuardedCommands

open Ty (Subst)

open ElaborationM

/-! ## Definitions in another order -/

def Definition.isFunction : Definition → Bool
  | .function .. => true
  | .datatype _ | .signature .. => false

namespace Program

/-- The same program with its functions defined in another order. -/
structure Reordered (p p' : Program) : Prop where
  decls : p'.decls = p.decls
  props : p'.props = p.props
  stmts : p'.stmts = p.stmts
  loc : p'.loc = p.loc
  others : p'.defns.filter (!·.isFunction) = p.defns.filter (!·.isFunction)
  perm : p'.defns.Perm p.defns

variable {p p' : Program}

namespace Reordered

theorem refl (p : Program) : p.Reordered p := ⟨rfl, rfl, rfl, rfl, rfl, .refl _⟩

theorem symm (h : p.Reordered p') : p'.Reordered p :=
  ⟨h.decls.symm, h.props.symm, h.stmts.symm, h.loc.symm, h.others.symm, h.perm.symm⟩

theorem filterMap_eq {α : Type} (h : p.Reordered p') {get : Definition → Option α}
    (hget : ∀ n clauses loc, get (.function n clauses loc) = none) :
    p'.defns.filterMap get = p.defns.filterMap get := by
  have hothers : ∀ ds : List Definition,
      (ds.filter (!·.isFunction)).filterMap get = ds.filterMap get := by
    intro ds
    rw [List.filterMap_filter]
    refine List.filterMap_congr fun d _ => ?_
    cases d with
    | function n clauses loc => simp [Definition.isFunction, hget]
    | datatype | signature => rfl
  rw [← hothers, h.others, hothers]

theorem datatypes_eq (h : p.Reordered p') : p'.datatypes = p.datatypes :=
  h.filterMap_eq fun _ _ _ => rfl

theorem typeNames_eq (h : p.Reordered p') : p'.typeNames = p.typeNames :=
  h.filterMap_eq fun _ _ _ => rfl

theorem signatures_eq (h : p.Reordered p') : p'.signatures = p.signatures :=
  congrArg NameMap.ofList (h.filterMap_eq fun _ _ _ => rfl)

theorem signedNames_eq (h : p.Reordered p') : p'.signedNames = p.signedNames :=
  congrArg NameSet.ofList (h.filterMap_eq fun _ _ _ => rfl)

theorem writtenTypes_eq (h : p.Reordered p') : p'.writtenTypes = p.writtenTypes := by
  unfold writtenTypes
  rw [h.datatypes_eq, h.decls, h.stmts, h.filterMap_eq fun _ _ _ => rfl]

theorem openTypes_eq (h : p.Reordered p') : p'.openTypes = p.openTypes := by
  unfold openTypes
  rw [h.datatypes_eq, h.filterMap_eq fun _ _ _ => rfl]

theorem regular (h : p.Reordered p') (hp : p.Regular) : p'.Regular := by
  have hvariables : p'.typeVariables = p.typeVariables := by
    unfold typeVariables
    rw [h.writtenTypes_eq, h.datatypes_eq]
  constructor
  · rw [h.writtenTypes_eq]
    exact hp.metavars
  · rw [hvariables]
    exact hp.notMeta
  · rw [hvariables, h.typeNames_eq]
    exact hp.notDatatype

theorem mem_functionNames (h : p.Reordered p') {x : String} :
    x ∈ p'.functionNames ↔ x ∈ p.functionNames := by
  rw [functionNames, functionNames, NameSet.mem_ofList, NameSet.mem_ofList]
  exact (h.perm.filterMap _).mem_iff

theorem insertDeclared_eq (h : p.Reordered p') (env : TypeEnv) :
    p'.insertDeclared env = p.insertDeclared env := by
  have hentry : declaredEntry p'.functionNames = declaredEntry p.functionNames := by
    funext d
    cases d with
    | signature n t prop loc => simp only [declaredEntry, h.mem_functionNames]
    | datatype | function => rfl
  apply TypeEnv.eq_of_entries
  rw [entries_insertDeclared, entries_insertDeclared, hentry]
  exact congrArg _ (h.filterMap_eq fun _ _ _ => rfl)

theorem given_eq (h : p.Reordered p') : p'.given = p.given := by
  rw [given, h.insertDeclared_eq, h.datatypes_eq, h.decls]
  rfl

end Reordered

/-! ## Before the functions -/

def inferGiven (p : Program) : ElaborationM (List Kind × TypeEnv) := do
  ofExcept p.checkClauses
  ofExcept p.checkDistinct
  let kinds ← p.inferKinds
  let env ← Declaration.declareAll (p.datatypes.foldl Datatype.insertCtors .empty) p.decls
  p.checkSignatures
  return (kinds, p.insertDeclared env)

theorem Reordered.checkClauses (h : p.Reordered p') (hok : p.checkClauses = .ok ()) :
    p'.checkClauses = .ok () :=
  Except.forM_eq_ok fun d hd => Except.ok_of_forM hok d (h.perm.mem_iff.1 hd)

theorem Reordered.checkDistinct (h : p.Reordered p') (hok : p.checkDistinct = .ok ()) :
    p'.checkDistinct = .ok () := by
  obtain ⟨_, hvalues, htypes⟩ := Except.ok_of_bind hok
  have hperm : p'.valueNames.Perm p.valueNames := by
    unfold valueNames
    rw [h.decls, h.signedNames_eq]
    exact (h.perm.flatMap_right _).append_left _
  have hvalues' : GuardedCommands.checkDistinct p'.valueNames = .ok () :=
    checkDistinct_ok_iff.2 ((hperm.map _).nodup_iff.2 (checkDistinct_ok_iff.1 hvalues))
  rw [Program.checkDistinct, hvalues', h.typeNames_eq]
  exact htypes

theorem Reordered.checkSignatures_eq (h : p.Reordered p') :
    p'.checkSignatures = p.checkSignatures := by
  have hothers : ∀ f : Definition → ElaborationM PUnit,
      (∀ n clauses loc, f (.function n clauses loc) = pure ⟨⟩) →
        ∀ ds : List Definition, (ds.filter (!·.isFunction)).forM f = ds.forM f := by
    intro f hf ds
    induction ds with
    | nil => rfl
    | cons d ds ih =>
      cases d with
      | function n clauses loc =>
        have hcons : (Definition.function n clauses loc :: ds).forM f =
          f (.function n clauses loc) >>= fun _ => ds.forM f := rfl
        rw [hcons, hf, pure_bind]
        exact ih
      | datatype d =>
        exact congrArg (f (.datatype d) >>= fun _ => ·) ih
      | signature n t prop loc =>
        exact congrArg (f (.signature n t prop loc) >>= fun _ => ·) ih
  unfold checkSignatures
  rw [← hothers _ (fun _ _ _ => rfl) p'.defns, h.others, hothers _ fun _ _ _ => rfl]

variable {st : ElaborationState} {κ : Kinding} {fs : List FunctionType} {env' : TypeEnv}
  {s s' : Subst}

theorem Reordered.inferGiven (h : p.Reordered p') {st' : ElaborationState} {r : List Kind × TypeEnv}
    (hok : p.inferGiven st = .ok r st') : p'.inferGiven st = .ok r st' := by
  obtain ⟨_, st₁, h₁, hok⟩ := EStateM.ok_of_bind hok
  obtain ⟨_, st₂, h₂, hok⟩ := EStateM.ok_of_bind hok
  obtain ⟨hclauses, rfl⟩ := EStateM.ok_of_ofExcept h₁
  obtain ⟨hdistinct, rfl⟩ := EStateM.ok_of_ofExcept h₂
  have hkinds : p'.inferKinds = p.inferKinds := by
    unfold inferKinds
    rw [h.datatypes_eq]
  unfold Program.inferGiven
  rw [h.checkClauses hclauses, h.checkDistinct hdistinct, hkinds, h.datatypes_eq, h.decls,
    h.checkSignatures_eq]
  simp only [h.insertDeclared_eq]
  exact hok

structure AtFunctions (p : Program) (κ : Kinding) (st : ElaborationState) : Prop where
  idle : st.Idle κ
  kinds : ∀ x, (κ x).isSome ↔ x ∈ p.typeNames.map (·.text)
  ready : Scope.Ready ⟨p.given, .empty⟩ ∅ st
  headsRooted : ∀ e ∈ p.given.entries, e.2.ty.HeadsRooted

theorem Reordered.atFunctions (h : p.Reordered p') (hst : p.AtFunctions κ st) :
    p'.AtFunctions κ st := by
  obtain ⟨hidle, hkinds, hready, hroots⟩ := hst
  rw [← h.typeNames_eq] at hkinds
  rw [← h.given_eq] at hready hroots
  exact ⟨hidle, hkinds, hready, hroots⟩

/-- A regular program that applies no type variable in its datatypes and signatures, and defines
no function twice. -/
structure Reorderable (p : Program) : Prop where
  regular : p.Regular
  headsRooted : ∀ t ∈ p.openTypes, t.HeadsRooted
  functions : p.functions.Nodup

theorem Reordered.reorderable (h : p.Reordered p') (hp : p.Reorderable) : p'.Reorderable where
  regular := h.regular hp.regular
  headsRooted := h.openTypes_eq ▸ hp.headsRooted
  functions := (h.perm.filterMap _).nodup_iff.2 hp.functions

structure GivenFound (p : Program) (kinds : List Kind) (st : ElaborationState) : Prop where
  clauses : p.checkClauses = .ok ()
  length : kinds.length = p.datatypes.length
  annotated : st.context.annotated = p.typeNames.map (·.text)
  idle : ∃ κ, st.Idle κ ∧ ∀ x, (κ x).isSome ↔ x ∈ p.typeNames.map (·.text)
  ready : Scope.Ready ⟨p.given, .empty⟩ ∅ st
  declared : ∀ d ∈ p.decls, d.ty.Over ∅

theorem givenFound_of_inferGiven (hp : p.Regular) {kinds : List Kind} {env : TypeEnv}
    (h : p.inferGiven .initial = .ok (kinds, env) st) : env = p.given ∧ p.GivenFound kinds st := by
  obtain ⟨_, st₁, h₁, h⟩ := EStateM.ok_of_bind h
  obtain ⟨_, st₂, h₂, h⟩ := EStateM.ok_of_bind h
  obtain ⟨kinds', st₃, h₃, h⟩ := EStateM.ok_of_bind h
  obtain ⟨env', st₄, h₄, h⟩ := EStateM.ok_of_bind h
  obtain ⟨_, st₅, h₅, h⟩ := EStateM.ok_of_bind h
  cases h
  obtain ⟨hclauses, rfl⟩ := EStateM.ok_of_ofExcept h₁
  obtain ⟨-, rfl⟩ := EStateM.ok_of_ofExcept h₂
  obtain ⟨κ, hrecords, hκ, -⟩ := records_of_inferKinds h₃
  have hkinds : ∀ x, (κ x).isSome ↔ x ∈ p.typeNames.map (·.text) := by
    rw [map_typeNames]
    exact isSome_of_inferKinds h₃ hκ
  obtain ⟨hrecords, -⟩ := (Declaration.checks_declareAll _ p.decls).of_ok hrecords h₄
  obtain ⟨hrecords, -⟩ := checks_checkSignatures.of_ok hrecords h₅
  obtain ⟨hprogress, hnodup, hannotated⟩ := inferKinds_spec h₃
  obtain ⟨hext₄, rfl, hrigid⟩ := Declaration.declareAll_spec h₄
  have hext₅ := checkSignatures_extends (hext₄.annotated ▸ hnodup) h₅
  have hext := hext₄.trans hext₅
  have hprogress : st.inProgress = ∅ := hext.inProgress.trans hprogress
  rw [hannotated] at hrigid
  exact ⟨rfl, hclauses, length_inferKinds p _ _ _ h₃, hext.annotated.trans hannotated,
    ⟨κ, ⟨hrecords, by simp [hprogress]⟩, hkinds⟩, ready_given hp hprogress hrigid,
    fun d hd => hp.over_decl hd (hrigid d hd)⟩

theorem inferGiven_spec (hp : p.Reorderable) {kinds : List Kind} {env : TypeEnv}
    (h : p.inferGiven .initial = .ok (kinds, env) st) :
    env = p.given ∧ ∃ κ, p.AtFunctions κ st := by
  obtain ⟨rfl, hfound⟩ := givenFound_of_inferGiven hp.regular h
  obtain ⟨κ, hidle, hkinds⟩ := hfound.idle
  refine ⟨rfl, κ, hidle, hkinds, hfound.ready, ?_⟩
  refine forall_given (P := fun info => info.ty.HeadsRooted) (fun d hd c hc => ?_)
    (fun d hd => (hfound.declared d hd).headsRooted)
    fun n t prop loc hmem => hp.headsRooted t (mem_openTypes_of_signature hmem)
  refine hp.headsRooted _ (List.mem_append_left _ ?_)
  exact List.mem_flatMap.2 ⟨d, hd, List.mem_map_of_mem hc⟩

/-! ## The functions -/

namespace Reordered

theorem names_iff (h : p.Reordered p') {x : String} :
    x ∈ p'.functionGroup.names ↔ x ∈ p.functionGroup.names :=
  ((h.perm.filterMap _).map _).mem_iff

theorem solves_eq (h : p.Reordered p') : p'.functionGroup.Solves = p.functionGroup.Solves := by
  funext Γ T
  have hfix : Γ.fix p'.functionGroup.names T = Γ.fix p.functionGroup.names T := by
    funext x τ
    simp only [Uses.fix, h.names_iff]
  have hbodies : ∀ f, f ∈ p'.functionGroup.bodies ↔ f ∈ p.functionGroup.bodies :=
    fun f => (h.perm.filterMap _).mem_iff
  have hsignatures : p'.functionGroup.signatures = p.functionGroup.signatures := h.signatures_eq
  simp only [FunctionGroup.Solves, hfix, hbodies, hsignatures]

theorem typable (h : p.Reordered p') {Γ : Uses} (hp : p.functionGroup.Typable Γ) :
    p'.functionGroup.Typable Γ := by
  obtain ⟨hsolvable, hgeneral⟩ := hp
  rw [← h.solves_eq] at hsolvable hgeneral
  refine ⟨hsolvable, fun f hf t ht => hgeneral f ((h.perm.filterMap _).mem_iff.1 hf) t ?_⟩
  have ht : p'.signatures.get? f.1 = some t := ht
  rwa [h.signatures_eq] at ht

end Reordered

structure Schemes (p : Program) (fs : List FunctionType) : Prop where
  names : fs.map (·.name) = definedFunctions p.defns
  closed : ∀ f ∈ fs, f.ty.Closed
  headsRooted : ∀ f ∈ fs, f.ty.HeadsRooted
  allows_iff : ∀ f ∈ fs, ∀ τ, f.ty.Allows τ ↔
    ∃ T, p.functionGroup.Solves p.given.allows T ∧ T f.name.text = τ

theorem nodup_functionGroup (h : p.functions.Nodup) : p.functionGroup.names.Nodup := by
  refine h.sublist ?_
  unfold FunctionGroup.names functionGroup bodiesByName functions
  dsimp only
  rw [List.map_filterMap]
  generalize p.defns = ds
  induction ds with
  | nil => exact .slnil
  | cons d ds ih =>
    cases d with
    | function n clauses loc =>
      cases clauses with
      | nil => exact ih.cons _
      | cons body rest => exact ih.cons_cons _
    | datatype | signature => exact ih

theorem inferFunctions_ends (hp : p.Reorderable) (hst : p.AtFunctions κ st) :
    Ends (p.inferFunctions p.given) st
      (fun r st' => p.functionGroup.Typable p.given.allows ∧ st'.Idle κ ∧ r.2.OnMetas ∧
        r.1.2.entries = p.given.entries ++ functionEntries r.1.1 ∧ p.Schemes r.1.1)
      fun _ => ¬ p.functionGroup.Typable p.given.allows := by
  have hsigned : ∀ x t, p.signatures.get? x = some t → t.Closed :=
    fun x t ht => hp.regular.closed_signatures ht
  have hends := inferFunctions_solutions hst.ready hst.headsRooted hsigned
    (fun x t ht => hp.headsRooted t (mem_openTypes_of_signatures ht))
    (nodup_functionGroup hp.functions)
  refine hends.run.imp (fun r st' hr => ?_) fun _ h => h
  obtain ⟨hrun, htypable, hcontext, hschemes⟩ := hr
  obtain ⟨⟨fs, outer⟩, s⟩ := r
  obtain ⟨hsupply, -, hnone, hfound, houter, hfunctions⟩ :=
    inferFunctions_sound hst.ready hsigned hrun
  refine ⟨htypable, ⟨hst.idle.records.of_supply hcontext hsupply, hnone⟩, fun x t ht => ?_, houter,
    (inferFunctions_names p _ _ _ _ hrun).1, hfunctions.closed, fun f hf => (hschemes f hf).1,
    fun f hf => (hschemes f hf).2⟩
  exact issued_subset_metaNames _ _ (hfound.solved ht).1

theorem exists_of_lookup?_functionEntries {x : String} {info : TypeInfo}
    (h : (⟨functionEntries fs⟩ : TypeEnv).lookup? x = some info) :
    ∃ f ∈ fs, f.name.text = x ∧ info = ⟨.const, f.ty⟩ := by
  obtain ⟨e, he, rfl⟩ := Option.map_eq_some_iff.1 h
  obtain ⟨f, hf, rfl⟩ := List.mem_map.1 (List.mem_reverse.1 (List.mem_of_find?_eq_some he))
  exact ⟨f, hf, by simpa using List.find?_some he, rfl⟩

theorem contains_functionEntries {x : String} :
    (⟨functionEntries fs⟩ : TypeEnv).contains x = true ↔ x ∈ fs.map (·.name.text) := by
  rw [TypeEnv.contains_iff]
  simp [TypeEnv.visible, TypeEnv.names, functionEntries]

theorem Schemes.names_text (h : p.Schemes fs) :
    fs.map (·.name.text) = (definedFunctions p.defns).map (·.text) := by
  rw [← h.names, List.map_map]
  rfl

theorem Reordered.alike (h : p.Reordered p') (hst : p.AtFunctions κ st) {fs' : List FunctionType}
    (hfs : p.Schemes fs) (hfs' : p'.Schemes fs') {outer outer' : TypeEnv}
    (houter : outer.entries = p.given.entries ++ functionEntries fs)
    (houter' : outer'.entries = p'.given.entries ++ functionEntries fs') : outer.Alike outer' := by
  have hgeneral : ∀ {q : Program} {fs : List FunctionType} {outer : TypeEnv},
      q.AtFunctions κ st → q.Schemes fs →
        outer.entries = q.given.entries ++ functionEntries fs → outer.General := by
    intro q fs outer hst hfs houter e he
    rcases List.mem_append.1 (houter ▸ he) with he | he
    · exact ⟨hst.ready.schemes e he, hst.headsRooted e he⟩
    · obtain ⟨f, hf, rfl⟩ := List.mem_map.1 he
      exact ⟨hfs.closed f hf, hfs.headsRooted f hf⟩
  refine ⟨hgeneral hst hfs houter, hgeneral (h.atFunctions hst) hfs' houter', fun x => ?_⟩
  rw [TypeEnv.eq_of_entries houter, TypeEnv.eq_of_entries houter', TypeEnv.lookup?_append,
    TypeEnv.lookup?_append, h.given_eq]
  have hnames : (⟨functionEntries fs'⟩ : TypeEnv).contains x =
      (⟨functionEntries fs⟩ : TypeEnv).contains x := by
    rw [Bool.eq_iff_iff, contains_functionEntries, contains_functionEntries, hfs.names_text,
      hfs'.names_text]
    exact ((h.perm.filterMap _).map _).mem_iff
  unfold TypeEnv.contains at hnames
  cases hx : (⟨functionEntries fs⟩ : TypeEnv).lookup? x with
  | none =>
    rw [hx, Option.isSome_none, Option.isSome_eq_false_iff, Option.isNone_iff_eq_none] at hnames
    rw [hnames, Option.none_or]
    cases hinfo : (⟨p.given.entries⟩ : TypeEnv).lookup? x with
    | none => exact .none
    | some info =>
      obtain ⟨e, he, rfl⟩ := TypeEnv.mem_of_lookup? hinfo
      exact .some ⟨rfl, fun τ => Iff.rfl, fun hmutable => ⟨rfl, hst.ready.mutables e he hmutable⟩⟩
  | some info =>
    rw [hx, Option.isSome_some] at hnames
    obtain ⟨info', hx'⟩ := Option.isSome_iff_exists.1 hnames
    obtain ⟨f, hf, hname, rfl⟩ := exists_of_lookup?_functionEntries hx
    obtain ⟨f', hf', hname', rfl⟩ := exists_of_lookup?_functionEntries hx'
    rw [hx', Option.some_or, Option.some_or]
    refine .some ⟨rfl, fun τ => ?_, by simp [TypeInfo.isMutable]⟩
    rw [hfs.allows_iff f hf, hfs'.allows_iff f' hf', h.solves_eq, h.given_eq, hname, hname']

/-! ## After the functions -/

def inferParts (p : Program) (env : TypeEnv) (s : Subst) :
    ElaborationM (Inferred (List TypedDeclaration × List TypedExpr × List (Option TypedExpr) ×
      List TypedStmt)) := do
  let (decls, s₁) ← Declaration.inferProps (env.subst s) ∅ p.decls
  let s := s₁.compose s
  let (props, s₂) ← Expr.expectAll (env.subst s) .bool p.props
  let s := s₂.compose s
  let (sigProps, s) ← inferSignatureProps env s p.defns
  let (stmts, s₃) ← Stmt.inferList (env.subst s) ∅ p.stmts
  return ((decls, props, sigProps, stmts), s₃.compose s)

theorem infer_eq (p : Program) : p.infer = (do
    let (kinds, given) ← p.inferGiven
    let ((functions, outer), s) ← p.inferFunctions given
    let ((decls, props, sigProps, stmts), s) ← p.inferParts outer s
    return TypedProgram.substTy s
      ⟨typedDefinitions p.defns kinds sigProps functions, decls, props, stmts, p.loc⟩) := by
  simp only [infer, inferGiven, inferParts, bind_assoc, pure_bind]

theorem inferSignatureProps_filter (env : TypeEnv) (s : Subst) (ds : List Definition) :
    inferSignatureProps env s (ds.filter (!·.isFunction)) = inferSignatureProps env s ds := by
  induction ds generalizing s with
  | nil => rfl
  | cons d ds ih =>
    cases d with
    | function n clauses loc | datatype d => exact ih s
    | signature n t prop loc =>
      rw [List.filter_cons_of_pos rfl, inferSignatureProps, inferSignatureProps]
      simp only [ih]

theorem together_inferSignatureProps {env : TypeEnv} (h : env.Alike env') (hs : s.OnMetas)
    (hs' : s'.OnMetas) (ds : List Definition) :
    Together κ (inferSignatureProps env s ds) (inferSignatureProps env' s' ds) FoundOnMetas := by
  induction ds generalizing s s' with
  | nil => exact .pure ⟨hs, hs'⟩
  | cons d ds ih =>
    cases d with
    | signature n t prop loc =>
      rw [inferSignatureProps, inferSignatureProps, h.left.subst_eq hs, h.right.subst_eq hs']
      refine (Expr.together_expectOption h Ty.over_bool prop).bind fun r r' hr => ?_
      exact (ih (hr.1.compose hs) (hr.2.compose hs')).bind fun r r' hr => .pure hr
    | function | datatype => exact ih hs hs'

theorem Reordered.together_inferParts (h : p.Reordered p')
    (hplain : ∀ t ∈ Stmt.listTypes p.stmts, t.Plain {x | (κ x).isSome}) {env : TypeEnv}
    (henv : env.Alike env') (hs : s.OnMetas) (hs' : s'.OnMetas) :
    Together κ (p.inferParts env s) (p'.inferParts env' s') FoundOnMetas := by
  unfold inferParts
  rw [h.decls, h.props, h.stmts, henv.left.subst_eq hs, henv.right.subst_eq hs']
  refine (Declaration.together_inferProps henv Ty.Subst.onMetas_empty Ty.Subst.onMetas_empty
    p.decls).bind fun r₁ r₁' hr₁ => ?_
  have hs₁ := hr₁.1.compose hs
  have hs₁' := hr₁.2.compose hs'
  dsimp only
  rw [henv.left.subst_eq hs₁, henv.right.subst_eq hs₁']
  refine (Expr.together_expectAll henv Ty.over_bool p.props).bind fun r₂ r₂' hr₂ => ?_
  rw [← inferSignatureProps_filter env' _ p'.defns, h.others, inferSignatureProps_filter]
  refine (together_inferSignatureProps henv (hr₂.1.compose hs₁) (hr₂.2.compose hs₁')
    p.defns).bind fun r₃ r₃' hr₃ => ?_
  rw [henv.left.subst_eq hr₃.1, henv.right.subst_eq hr₃.2]
  exact ((Stmt.inferList_alike κ p.stmts).start hplain henv).bind fun r₄ r₄' hr₄ =>
    .pure ⟨hr₄.1.compose hr₃.1, hr₄.2.compose hr₃.2⟩

end Program

/-! ## Whole programs -/

def TypedProgram.Defines (q : TypedProgram) (n : Name) (t : Ty) : Prop :=
  ∃ body loc, .function n t body loc ∈ q.defns

namespace Program

variable {p p' : Program}

variable {fs : List FunctionType} {st : ElaborationState}

theorem mem_typedDefinitions {ds : List Definition} (kinds : List Kind)
    (props : List (Option TypedExpr)) (h : fs.map (·.name) = definedFunctions ds) (n : Name)
    (t : Ty) :
    (∃ body loc, .function n t body loc ∈ typedDefinitions ds kinds props fs) ↔
      ∃ f ∈ fs, f.name = n ∧ f.ty = t := by
  fun_induction typedDefinitions ds kinds props fs with
  | case1 d ds k kinds props fs ih
  | case2 n' t' prop loc ds kinds prop' props fs ih => simpa using ih h
  | case3 n' body rest loc ds kinds props f fs ih =>
    obtain ⟨-, h⟩ := List.cons.inj h
    constructor
    · rintro ⟨body', loc', hmem⟩
      rcases List.mem_cons.1 hmem with heq | hmem
      · cases heq
        exact ⟨f, .head _, rfl, rfl⟩
      · obtain ⟨g, hg, hparts⟩ := (ih h).1 ⟨body', loc', hmem⟩
        exact ⟨g, .tail _ hg, hparts⟩
    · rintro ⟨g, hg, hparts⟩
      rcases List.mem_cons.1 hg with rfl | hg
      · obtain ⟨rfl, rfl⟩ := hparts
        exact ⟨_, _, .head _⟩
      · obtain ⟨body', loc', hmem⟩ := (ih h).2 ⟨g, hg, hparts⟩
        exact ⟨body', loc', .tail _ hmem⟩
  | case4 d ds kinds props fs hdatatype hsignature hfunction ih =>
    cases d with
    | function n' clauses loc =>
      cases clauses with
      | nil => exact ih h
      | cons body rest =>
        cases fs with
        | nil => cases h
        | cons f fs => exact absurd rfl (hfunction n' body rest loc f fs rfl)
    | datatype | signature => exact ih h
  | case5 kinds props fs =>
    obtain rfl := List.map_eq_nil_iff.1 h
    simp

theorem AtFunctions.plain {κ : Kinding} (h : p.AtFunctions κ st) (hp : p.Regular) :
    ∀ t ∈ Stmt.listTypes p.stmts, t.Plain {x | (κ x).isSome} := by
  intro t ht
  have hnames : {x | (κ x).isSome} = {x | x ∈ p.typeNames.map (·.text)} := Set.ext h.kinds
  rw [hnames]
  apply hp.plain
  simp only [writtenTypes, List.mem_append]
  exact .inr ht

theorem schemes_of_infer (hp : p.Reorderable) {typed : TypedProgram}
    (h : p.infer .initial = .ok typed st) :
    ∃ fs, p.Schemes fs ∧ ∀ n t, typed.Defines n t ↔ ∃ f ∈ fs, f.name = n ∧ f.ty = t := by
  rw [infer_eq] at h
  obtain ⟨⟨kinds, given⟩, st₁, h₁, h⟩ := EStateM.ok_of_bind h
  obtain ⟨⟨⟨fs, outer⟩, s⟩, st₂, h₂, h⟩ := EStateM.ok_of_bind h
  obtain ⟨⟨⟨decls, props, sigProps, stmts⟩, S⟩, st₃, h₃, h⟩ := EStateM.ok_of_bind h
  cases h
  obtain ⟨rfl, κ, hst⟩ := inferGiven_spec hp h₁
  obtain ⟨-, hidle, hs, houter, hfs⟩ := (inferFunctions_ends hp hst).of_ok h₂
  have hself : outer.Alike outer := (Reordered.refl p).alike hst hfs hfs houter houter
  obtain ⟨_, _, -, hS, -⟩ := ((Reordered.refl p).together_inferParts (hst.plain hp.regular) hself
    hs hs).exists_ok hidle hidle h₃
  refine ⟨fs, hfs, fun n t => ?_⟩
  have hfound := mem_typedDefinitions kinds sigProps hfs.names n
  constructor
  · rintro ⟨body, loc, hmem⟩
    obtain ⟨d, hd, hsubst⟩ := List.mem_map.1 hmem
    cases d with
    | function n' u body' loc' =>
      cases hsubst
      obtain ⟨f, hf, hname, rfl⟩ := (hfound u).1 ⟨body', _, hd⟩
      exact ⟨f, hf, hname, ((hfs.closed f hf).subst_eq_self hS).symm⟩
    | datatype | signature => cases hsubst
  · rintro ⟨f, hf, hname, rfl⟩
    obtain ⟨body, loc, hmem⟩ := (hfound f.ty).2 ⟨f, hf, hname, rfl⟩
    have hsame : f.ty.subst S = f.ty := (hfs.closed f hf).subst_eq_self hS
    exact ⟨_, loc, List.mem_map.2 ⟨_, hmem, by rw [TypedDefinition.substTy, hsame]⟩⟩

theorem Schemes.exists_defines (hfs : p.Schemes fs) {q : TypedProgram} {n : Name}
    (h : ∀ n t, q.Defines n t ↔ ∃ f ∈ fs, f.name = n ∧ f.ty = t) :
    (∃ t, q.Defines n t) ↔ n ∈ definedFunctions p.defns := by
  rw [← hfs.names, List.mem_map]
  simp only [h]
  grind

/-- If a program is accepted, it is accepted with its functions in any order. -/
theorem Reordered.exists_infer (h : p.Reordered p') (hp : p.Reorderable) {typed : TypedProgram}
    (hok : p.infer .initial = .ok typed st) : ∃ typed' st', p'.infer .initial = .ok typed' st' := by
  rw [infer_eq] at hok ⊢
  obtain ⟨⟨kinds, given⟩, st₁, h₁, hok⟩ := EStateM.ok_of_bind hok
  obtain ⟨⟨⟨fs, outer⟩, s⟩, st₂, h₂, hok⟩ := EStateM.ok_of_bind hok
  obtain ⟨parts, st₃, h₃, -⟩ := EStateM.ok_of_bind hok
  obtain ⟨rfl, κ, hst⟩ := inferGiven_spec hp h₁
  obtain ⟨htypable, hidle, hs, houter, hfs⟩ := (inferFunctions_ends hp hst).of_ok h₂
  -- the functions have types in the other order too, and then everything after them goes alike
  obtain ⟨⟨⟨fs', outer'⟩, s'⟩, st₂', h₂', -, hidle', hs', houter', hfs'⟩ :=
    (inferFunctions_ends (h.reorderable hp) (h.atFunctions hst)).exists_ok fun _ hnot =>
      hnot (h.given_eq ▸ h.typable htypable)
  obtain ⟨parts', st₃', h₃', -⟩ := (h.together_inferParts (hst.plain hp.regular)
    (h.alike hst hfs hfs' houter houter') hs hs').exists_ok hidle hidle' h₃
  rw [h.given_eq] at h₂'
  rw [EStateM.bind_of_ok (h.inferGiven h₁)]
  dsimp only
  rw [EStateM.bind_of_ok h₂']
  dsimp only
  rw [EStateM.bind_of_ok h₃']
  exact ⟨_, st₃', rfl⟩

theorem infer_iff_elaborate {typed : TypedProgram} :
    (∃ st, p.infer .initial = .ok typed st) ↔ p.elaborate = .ok typed := by
  refine ⟨?_, infer_of_elaborate⟩
  rintro ⟨st, h⟩
  rw [elaborate, h]

end Program

/-- A program is accepted if and only if it is accepted with its functions defined in any other
order, and each function then has the same general type in both, up to the names of type
variables and to arrays being functions from integers. -/
theorem definition_order_irrelevant {p p' : Program} (hp : p.Reorderable) (h : p.Reordered p') :
    ((∃ typed, p.elaborate = .ok typed) ↔ ∃ typed', p'.elaborate = .ok typed') ∧
      ∀ typed typed', p.elaborate = .ok typed → p'.elaborate = .ok typed' → ∀ n,
        ((∃ t, typed.Defines n t) ↔ ∃ t', typed'.Defines n t') ∧
          ∀ t t', typed.Defines n t → typed'.Defines n t' → t.IsRenaming t' := by
  have haccepts : ∀ {p p' : Program}, p.Reorderable → p.Reordered p' →
      (∃ typed, p.elaborate = .ok typed) → ∃ typed', p'.elaborate = .ok typed' := by
    rintro p p' hp h ⟨typed, hok⟩
    obtain ⟨st, hinfer⟩ := Program.infer_of_elaborate hok
    obtain ⟨typed', st', hinfer'⟩ := h.exists_infer hp hinfer
    exact ⟨typed', Program.infer_iff_elaborate.1 ⟨st', hinfer'⟩⟩
  have hp' := h.reorderable hp
  refine ⟨⟨haccepts hp h, haccepts hp' h.symm⟩, fun typed typed' hok hok' n => ?_⟩
  obtain ⟨st, hinfer⟩ := Program.infer_of_elaborate hok
  obtain ⟨st', hinfer'⟩ := Program.infer_of_elaborate hok'
  obtain ⟨fs, hfs, hdefines⟩ := Program.schemes_of_infer hp hinfer
  obtain ⟨fs', hfs', hdefines'⟩ := Program.schemes_of_infer hp' hinfer'
  constructor
  · rw [hfs.exists_defines hdefines, hfs'.exists_defines hdefines']
    exact (h.perm.filterMap _).mem_iff.symm
  · intro t t' ht ht'
    obtain ⟨f, hf, hname, rfl⟩ := (hdefines n t).1 ht
    obtain ⟨f', hf', hname', rfl⟩ := (hdefines' n t').1 ht'
    refine Ty.isRenaming_of_allows (hfs.closed f hf) (hfs'.closed f' hf') fun τ => ?_
    rw [hfs.allows_iff f hf, hfs'.allows_iff f' hf', h.solves_eq, h.given_eq, hname, hname']

namespace Delegation

def functions : List Definition :=
  [.function (.bare "same") [.lam (.bare "x") (.var (.bare "x") .none) .none] .none,
    .function (.bare "again") [.lam (.bare "x")
      (.app (.const (.bare "same") .none) (.var (.bare "x") .none) .none) .none] .none]

def program (functions : List Definition) : Program :=
  ⟨.signature (.bare "same") (.func (.rigid (.bare "b")) (.rigid (.bare "b"))) none .none ::
      functions, [], [], [], .none⟩

theorem reorderable : (program functions).Reorderable := by
  refine ⟨⟨?_, by decide, by decide⟩, ?_, by decide⟩
  · intro t ht
    obtain rfl := List.mem_singleton.1 ht
    rfl
  · intro t ht
    obtain rfl := List.mem_singleton.1 ht
    exact ⟨rfl, ⟨rfl, trivial, trivial⟩, trivial⟩

theorem reordered : (program functions).Reordered (program functions.reverse) :=
  ⟨rfl, rfl, rfl, rfl, rfl, (List.reverse_perm _).cons _⟩

def generalTy : Ty := .func (.rigid (.bare "?a7")) (.rigid (.bare "?a7"))

theorem elaborated : ∃ typed, (program functions).elaborate = .ok typed ∧
    typed.Defines (.bare "again") generalTy := by
  refine ⟨_, by cbv, ?_⟩
  exact ⟨_, _, .tail _ (.tail _ (.head _))⟩

end Delegation

theorem delegation_order_irrelevant :
    (Delegation.program Delegation.functions).Reorderable ∧
      (Delegation.program Delegation.functions).Reordered
        (Delegation.program Delegation.functions.reverse) ∧
      ∃ typed typed', (Delegation.program Delegation.functions).elaborate = .ok typed ∧
        (Delegation.program Delegation.functions.reverse).elaborate = .ok typed' ∧
        typed.Defines (.bare "again") Delegation.generalTy ∧
        ∃ t', typed'.Defines (.bare "again") t' ∧ Delegation.generalTy.IsRenaming t' := by
  refine ⟨Delegation.reorderable, Delegation.reordered, ?_⟩
  obtain ⟨typed, hok, ht⟩ := Delegation.elaborated
  obtain ⟨haccepted, htypes⟩ :=
    definition_order_irrelevant Delegation.reorderable Delegation.reordered
  obtain ⟨typed', hok'⟩ := haccepted.1 ⟨typed, hok⟩
  obtain ⟨hdefined, hrenaming⟩ := htypes typed typed' hok hok' (.bare "again")
  obtain ⟨t', ht'⟩ := hdefined.1 ⟨_, ht⟩
  exact ⟨typed, typed', hok, hok', ht, t', ht', hrenaming _ t' ht ht'⟩

end GuardedCommands
