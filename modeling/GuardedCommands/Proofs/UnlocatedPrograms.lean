import GuardedCommands.Proofs.UnlocatedElaboration

/-!
# Programs without locations

Statements, definitions and whole programs are elaborated alike with and without
locations: names are found to be bound twice by their texts, and placeholders,
signatures and general types go the same way.
-/

namespace GuardedCommands

/-! ## Typed programs -/

namespace TypedDefinition

def unlocated : TypedDefinition → TypedDefinition
  | .datatype d k => .datatype d.unlocated k.unlocated
  | .signature n t p _ =>
    .signature n.unlocated t.unlocated (p.map TypedExpr.unlocated) .none
  | .function n t b _ => .function n.unlocated t.unlocated b.unlocated .none

theorem substTy_unlocated (s : Ty.Subst) (d : TypedDefinition) :
    d.unlocated.substTy s.unlocated = (d.substTy s).unlocated := by
  cases d with
  | datatype d k => rfl
  | signature n t p l =>
    simp [unlocated, substTy, Function.comp_def, TypedExpr.substTy_unlocated]
  | function n t b l => simp [unlocated, substTy, TypedExpr.substTy_unlocated]

end TypedDefinition

theorem Declaration.substTy_unlocated (s : Ty.Subst) (d : TypedDeclaration) :
    (d.unlocated TypedExpr.unlocated).substTy s.unlocated =
      (d.substTy s).unlocated TypedExpr.unlocated := by
  simp [unlocated, substTy, Function.comp_def, TypedExpr.substTy_unlocated]

namespace TypedStmt

abbrev unlocated (s : TypedStmt) : TypedStmt :=
  Stmt.unlocated TypedExpr.unlocated TypedDefinition.unlocated TypeEnv.unlocated s

abbrev unlocatedCmds (cs : List TypedCmd) : List TypedCmd :=
  Stmt.unlocatedCmds TypedExpr.unlocated TypedDefinition.unlocated TypeEnv.unlocated cs

abbrev unlocatedList (ss : List TypedStmt) : List TypedStmt :=
  Stmt.unlocatedList TypedExpr.unlocated TypedDefinition.unlocated TypeEnv.unlocated ss

theorem substTyList_unlocated (s : Ty.Subst) (ss : List TypedStmt) :
    Stmt.substTyList s.unlocated (unlocatedList ss) = unlocatedList (Stmt.substTyList s ss) := by
  induction ss using Stmt.nested_induction
      (S := fun t => (unlocated t).substTy s.unlocated = unlocated (t.substTy s))
      (C := fun cs => Stmt.substTyCmds s.unlocated (unlocatedCmds cs) =
        unlocatedCmds (Stmt.substTyCmds s cs)) with
  | simple t =>
    cases t <;> simp_all [Stmt.isSimple, Stmt.unlocated, Stmt.substTy, Function.comp_def,
      TypedExpr.substTy_unlocated, TypeEnv.subst_unlocated]
  | block b _ ih =>
    simp only [Stmt.unlocated, Stmt.substTy, ih, List.map_map, Function.comp_def,
      TypedDefinition.substTy_unlocated, Declaration.substTy_unlocated,
      TypedExpr.substTy_unlocated]
  | _ =>
    simp_all only [Stmt.unlocated, Stmt.unlocatedCmds, Stmt.unlocatedList, Stmt.substTy,
      Stmt.substTyCmds, Stmt.substTyList, TypedExpr.substTy_unlocated]

end TypedStmt

namespace TypedProgram

def unlocated (p : TypedProgram) : TypedProgram :=
  ⟨p.defns.map TypedDefinition.unlocated, p.decls.map (·.unlocated TypedExpr.unlocated),
    p.props.map TypedExpr.unlocated, TypedStmt.unlocatedList p.stmts, .none⟩

theorem substTy_unlocated (s : Ty.Subst) (p : TypedProgram) :
    substTy s.unlocated (unlocated p) = unlocated (substTy s p) := by
  simp only [unlocated, substTy, TypedStmt.substTyList_unlocated, List.map_map,
    Function.comp_def, TypedDefinition.substTy_unlocated, Declaration.substTy_unlocated,
    TypedExpr.substTy_unlocated]

end TypedProgram

/-! ## Names bound twice -/

theorem repeated_unlocated (seen again : NameSet) (names : List Name) :
    repeated seen again (names.map Name.unlocated) =
      (repeated seen again names).map Name.unlocated := by
  induction names generalizing seen again with
  | nil => rfl
  | cons n names ih =>
    simp only [List.map_cons, repeated, Name.text_unlocated, ih]
    split
    · split
      · rfl
      · rfl
    · rfl

theorem checkDistinct_unlocated (names : List Name) :
    checkDistinct (names.map Name.unlocated) =
      Except.mirror ElaborationError.unlocated id (checkDistinct names) := by
  simp only [checkDistinct, repeated_unlocated]
  cases repeated ∅ ∅ names with
  | nil => rfl
  | cons n ns =>
    simp [ElaborationError.unlocated, Function.comp_def]

namespace Program

theorem signedNames_unlocated (p : Program) : (unlocated p).signedNames = p.signedNames := by
  simp only [signedNames, unlocated, List.filterMap_map]
  congr 1
  apply List.filterMap_congr
  intro d _
  cases d <;> rfl

theorem valueNames_unlocated (p : Program) :
    (unlocated p).valueNames = p.valueNames.map Name.unlocated := by
  have hdefined : ∀ d : Definition, definedNames p.signedNames d.unlocated =
      (definedNames p.signedNames d).map Name.unlocated := by
    intro d
    cases d with
    | datatype d =>
      simp [Definition.unlocated, Datatype.unlocated, Ctor.unlocated, definedNames]
    | signature n t p l => rfl
    | function n cs l =>
      simp only [Definition.unlocated, definedNames]
      rw [apply_ite (List.map Name.unlocated)]
      rfl
  rw [valueNames, signedNames_unlocated, valueNames, List.map_append, List.map_flatMap,
    List.map_flatMap]
  simp only [unlocated, List.flatMap_map, Declaration.unlocated, hdefined]

theorem typeNames_unlocated (p : Program) :
    (unlocated p).typeNames = p.typeNames.map Name.unlocated := by
  simp only [typeNames, unlocated, List.filterMap_map, List.map_filterMap]
  apply List.filterMap_congr
  intro d _
  cases d <;> rfl

theorem checkDistinct_unlocated (p : Program) :
    (unlocated p).checkDistinct =
      Except.mirror ElaborationError.unlocated id p.checkDistinct := by
  simp only [checkDistinct, valueNames_unlocated, typeNames_unlocated,
    GuardedCommands.checkDistinct_unlocated]
  exact Except.mirror_bind fun _ => rfl

end Program

/-! ## Statements -/

open ElaborationM

namespace TypeEnv

theorem mutableTy_mirrors (env : TypeEnv) (x : Name) :
    ElaborationM.Mirrors Ty.unlocated (env.mutableTy x) (env.unlocated.mutableTy x.unlocated) := by
  unfold mutableTy
  rw [Name.text_unlocated, lookup?_unlocated]
  cases env.lookup? x.text with
  | none => exact .throw rfl
  | some info =>
    have hmutable : info.unlocated.isMutable = info.isMutable := rfl
    simp only [Option.map_some, hmutable]
    split
    · exact .pure rfl
    · exact .throw rfl

theorem expectCell_mirrors (env : TypeEnv) (x : Name) (loc : Loc) :
    ElaborationM.Mirrors Ty.Subst.unlocated (env.expectCell x loc)
      (env.unlocated.expectCell x.unlocated .none) := by
  apply (mutableTy_mirrors env x).bind
  intro t
  exact unify_mirrors t .int (x.loc.merge loc)

end TypeEnv

namespace Declaration

theorem declareAll_mirrors (env : TypeEnv) (ds : List (Declaration Expr)) :
    ElaborationM.Mirrors TypeEnv.unlocated (declareAll env ds)
      (declareAll env.unlocated (ds.map (·.unlocated Expr.unlocated))) := by
  induction ds generalizing env with
  | nil => exact .pure rfl
  | cons d ds ih =>
    apply (checkClosed_mirrors d.ty).bind
    intro _
    have hinner := ih (env.insertAll d.names ⟨d.sort.role, d.ty⟩)
    rw [← TypeEnv.insertAll_unlocated] at hinner
    exact hinner

theorem inferProps_mirrors (env : TypeEnv) (s : Ty.Subst) (ds : List (Declaration Expr)) :
    ElaborationM.Mirrors (Inferred.unlocated (List.map (·.unlocated TypedExpr.unlocated)))
      (inferProps env s ds)
      (inferProps env.unlocated s.unlocated (ds.map (·.unlocated Expr.unlocated))) := by
  induction ds generalizing s with
  | nil => exact .pure rfl
  | cons d ds ih =>
    rw [List.map_cons, inferProps, inferProps, TypeEnv.subst_unlocated]
    apply (Expr.expectOption_mirrors (env.subst s) .bool d.prop).bind
    rintro ⟨prop, s₁⟩
    dsimp only
    rw [Ty.Subst.compose_unlocated]
    apply (ih (s₁.compose s)).bind
    rintro ⟨others, s'⟩
    exact .pure rfl

end Declaration

namespace Stmt

theorem checkBlock_mirrors (env : TypeEnv) (p : Program) :
    ElaborationM.Mirrors id (checkBlock env p)
      (checkBlock env.unlocated (Program.unlocated p)) := by
  have hvisible : ((Program.unlocated p).decls.flatMap (·.names)).find?
      (fun x => env.unlocated.contains x.text) =
      ((p.decls.flatMap (·.names)).find? fun x => env.contains x.text).map Name.unlocated := by
    have hnames : (Program.unlocated p).decls.flatMap (·.names) =
        (p.decls.flatMap (·.names)).map Name.unlocated := by
      simp [Program.unlocated, List.flatMap_map, List.map_flatMap, Declaration.unlocated]
    rw [hnames, List.find?_map]
    simp only [Function.comp_def, Name.text_unlocated, TypeEnv.contains_unlocated]
  have hdistinct := Program.checkDistinct_unlocated p
  obtain ⟨defns, decls, props, stmts, loc⟩ := p
  unfold checkBlock
  rw [hdistinct, hvisible]
  cases defns with
  | cons d ds => exact .throw_bind (by rw [Definition.loc_unlocated]; rfl)
  | nil =>
    dsimp only [Program.unlocated, List.map_nil]
    cases (decls.flatMap (·.names)).find? fun x => env.contains x.text with
    | some x => exact .throw_bind rfl
    | none => exact .ofExcept rfl

theorem inferAssign_mirrors (env : TypeEnv) (xs : List Name) (es : List Expr) (loc : Loc) :
    ElaborationM.Mirrors (Inferred.unlocated TypedStmt.unlocated) (inferAssign env xs es loc)
      (inferAssign env.unlocated (xs.map Name.unlocated) (es.map Expr.unlocated) .none) := by
  apply (Mirrors.mapM (w := Name.unlocated) (TypeEnv.mutableTy_mirrors env) xs).bind
  intro targets
  simp only [List.length_map, ← List.map_drop, List.map_map, Function.comp_def,
    Name.text_unlocated, Expr.text_unlocated, List.zip_map]
  split
  · exact .throw_bind rfl
  · split
    · exact .throw_bind rfl
    · apply (Expr.expectEach_mirrors env ∅ (targets.zip es)).bind
      rintro ⟨es', s⟩
      exact .pure rfl

theorem inferArrayAssign_mirrors (env : TypeEnv) (a i v : Expr) (loc : Loc) :
    ElaborationM.Mirrors (Inferred.unlocated TypedStmt.unlocated) (inferArrayAssign env a i v loc)
      (inferArrayAssign env.unlocated a.unlocated i.unlocated v.unlocated .none) := by
  unfold inferArrayAssign
  rw [Expr.asName?_unlocated]
  cases a.asName?
  case' some x =>
    apply (TypeEnv.mutableTy_mirrors env x).discard.bind
    intro _
  all_goals
    apply (Expr.infer_mirrors env a).bind
    rintro ⟨a', s₁⟩
    dsimp only
    rw [TypeEnv.subst_unlocated]
    apply (Expr.infer_mirrors (env.subst s₁) i).bind
    rintro ⟨i', s₂⟩
    dsimp only
    rw [Ty.Subst.compose_unlocated, TypeEnv.subst_unlocated]
    apply (Expr.infer_mirrors (env.subst (s₂.compose s₁)) v).bind
    rintro ⟨v', s₃⟩
    simp only [Ty.Subst.compose_unlocated, TypedExpr.ty_unlocated, Ty.subst_unlocated,
      Ty.func_unlocated]
    apply (unify_mirrors _ _ loc).bind
    intro s₄
    exact .pure (by rw [Ty.Subst.compose_unlocated]; rfl)

mutual

theorem infer_mirrors (env : TypeEnv) : (t : SourceStmt) →
    ElaborationM.Mirrors (Inferred.unlocated TypedStmt.unlocated) (t.infer env)
      ((SourceStmt.unlocated t).infer env.unlocated)
  | .skip _ | .abort _ => by
    simp only [unlocated, infer]
    exact .pure rfl
  | .assign xs es loc => by
    simp only [unlocated, infer]
    exact inferAssign_mirrors env xs es loc
  | .arrayAssign a i v loc => by
    simp only [unlocated, infer]
    exact inferArrayAssign_mirrors env a i v loc
  | .assert e loc => by
    rw [SourceStmt.unlocated, unlocated, infer, infer]
    apply (Expr.expect_mirrors env .bool e).bind
    rintro ⟨e', s⟩
    exact .pure rfl
  | .invariant inv bound loc => by
    rw [SourceStmt.unlocated, unlocated, infer, infer]
    apply (Expr.expect_mirrors env .bool inv).bind
    rintro ⟨inv', s⟩
    dsimp only
    rw [TypeEnv.subst_unlocated]
    apply (Expr.expectOption_mirrors (env.subst s) .int bound).bind
    rintro ⟨bound', s₁⟩
    exact .pure (by rw [Ty.Subst.compose_unlocated]; rfl)
  | .loop cmds loc | .cond cmds loc => by
    rw [SourceStmt.unlocated, unlocated, infer, infer]
    apply (inferCmds_mirrors env ∅ cmds).bind
    rintro ⟨cmds', s⟩
    exact .pure rfl
  | .hole text _ loc => by
    simp only [unlocated, infer]
    exact .pure rfl
  | .alloc x es loc => by
    rw [SourceStmt.unlocated, unlocated, infer, infer]
    apply (TypeEnv.expectCell_mirrors env x loc).bind
    intro s₁
    rw [TypeEnv.subst_unlocated]
    apply (Expr.expectAll_mirrors (env.subst s₁) .int es).bind
    rintro ⟨es', s₂⟩
    exact .pure (by rw [Ty.Subst.compose_unlocated]; rfl)
  | .lookup x e loc => by
    rw [SourceStmt.unlocated, unlocated, infer, infer]
    apply (TypeEnv.expectCell_mirrors env x loc).bind
    intro s₁
    rw [TypeEnv.subst_unlocated]
    apply (Expr.expect_mirrors (env.subst s₁) .int e).bind
    rintro ⟨e', s₂⟩
    exact .pure (by rw [Ty.Subst.compose_unlocated]; rfl)
  | .mutate c v loc => by
    rw [SourceStmt.unlocated, unlocated, infer, infer]
    apply (Expr.expect_mirrors env .int c).bind
    rintro ⟨c', s₁⟩
    dsimp only
    rw [TypeEnv.subst_unlocated]
    apply (Expr.expect_mirrors (env.subst s₁) .int v).bind
    rintro ⟨v', s₂⟩
    exact .pure (by rw [Ty.Subst.compose_unlocated]; rfl)
  | .dispose e loc => by
    rw [SourceStmt.unlocated, unlocated, infer, infer]
    apply (Expr.expect_mirrors env .int e).bind
    rintro ⟨e', s⟩
    exact .pure rfl
  | .block b loc => by
    rw [SourceStmt.unlocated, unlocated, infer, infer]
    apply (checkBlock_mirrors env b).bind
    intro _
    apply (Declaration.declareAll_mirrors env b.decls).bind
    intro inner
    apply (Declaration.inferProps_mirrors inner ∅ b.decls).bind
    rintro ⟨decls, s⟩
    dsimp only
    rw [TypeEnv.subst_unlocated]
    apply (Expr.expectAll_mirrors (inner.subst s) .bool b.props).bind
    rintro ⟨props, s₁⟩
    dsimp only
    rw [Ty.Subst.compose_unlocated, TypeEnv.subst_unlocated]
    apply (inferList_mirrors (inner.subst (s₁.compose s)) ∅ b.stmts).bind
    rintro ⟨stmts, s₂⟩
    exact .pure (by rw [Ty.Subst.compose_unlocated]; rfl)

theorem inferCmds_mirrors (env : TypeEnv) (s : Ty.Subst) : (cs : List SourceCmd) →
    ElaborationM.Mirrors (Inferred.unlocated TypedStmt.unlocatedCmds) (inferCmds env s cs)
      (inferCmds env.unlocated s.unlocated (SourceStmt.unlocatedCmds cs))
  | [] => by
    simp only [unlocatedCmds, inferCmds]
    exact .pure rfl
  | c :: cs => by
    rw [SourceStmt.unlocatedCmds, unlocatedCmds, inferCmds, inferCmds, TypeEnv.subst_unlocated]
    apply (Expr.expect_mirrors (env.subst s) .bool c.guard).bind
    rintro ⟨guard, s₁⟩
    dsimp only
    rw [TypeEnv.subst_unlocated]
    apply (inferList_mirrors ((env.subst s).subst s₁) ∅ c.body).bind
    rintro ⟨body, s₂⟩
    dsimp only
    rw [Ty.Subst.compose_unlocated, Ty.Subst.compose_unlocated]
    apply (inferCmds_mirrors env ((s₂.compose s₁).compose s) cs).bind
    rintro ⟨others, s'⟩
    exact .pure rfl

theorem inferList_mirrors (env : TypeEnv) (s : Ty.Subst) : (ts : List SourceStmt) →
    ElaborationM.Mirrors (Inferred.unlocated TypedStmt.unlocatedList) (inferList env s ts)
      (inferList env.unlocated s.unlocated (SourceStmt.unlocatedList ts))
  | [] => by
    simp only [unlocatedList, inferList]
    exact .pure rfl
  | t :: ts => by
    rw [SourceStmt.unlocatedList, unlocatedList, inferList, inferList, TypeEnv.subst_unlocated]
    apply (infer_mirrors (env.subst s) t).bind
    rintro ⟨t', s₁⟩
    dsimp only
    rw [Ty.Subst.compose_unlocated]
    apply (inferList_mirrors env (s₁.compose s) ts).bind
    rintro ⟨others, s'⟩
    exact .pure rfl

end

end Stmt

/-! ## Definitions -/

namespace Datatype

theorem result_unlocated (d : Datatype) : d.unlocated.result = d.result.unlocated := by
  have hstart : Ty.data d.unlocated.name = (Ty.data d.name).unlocated := rfl
  unfold result
  rw [hstart, unlocated, List.foldl_map]
  apply List.foldl_hom Ty.unlocated
  intro t p
  exact Ty.apply_unlocated t (.rigid p)

theorem insertCtors_unlocated (env : TypeEnv) (d : Datatype) :
    d.unlocated.insertCtors env.unlocated = (d.insertCtors env).unlocated := by
  unfold insertCtors
  rw [result_unlocated, unlocated, List.foldl_map]
  apply List.foldl_hom TypeEnv.unlocated
  intro env c
  rw [← TypeEnv.insert_unlocated]
  simp [Ctor.unlocated, TypeInfo.unlocated]

end Datatype

def Pending.unlocated (p : Pending) : Pending :=
  ⟨p.name.unlocated, p.body.unlocated, .none, p.placeholder.unlocated⟩

namespace Skolems

def unlocated (k : Skolems) : Skolems := ⟨k.metas.map fun e => (e.1, e.2.unlocated), .none⟩

theorem check_unlocated (s : Ty.Subst) (loc : Loc) (images : NameSet)
    (metas : List (String × Ty)) :
    check s.unlocated .none images (metas.map fun e => (e.1, e.2.unlocated)) =
      Except.mirror ElaborationError.unlocated id (check s loc images metas) := by
  induction metas generalizing images with
  | nil => rfl
  | cons e metas ih =>
    simp only [List.map_cons, check, Ty.subst_unlocated]
    cases e.2.subst s with
    | metavar n =>
      simp only [Ty.unlocated, Name.text_unlocated, ih]
      split
      · rfl
      · rfl
    | _ => rfl

theorem checkGeneral_unlocated (s : Ty.Subst) (k : Skolems) :
    checkGeneral s.unlocated k.unlocated =
      Except.mirror ElaborationError.unlocated id (checkGeneral s k) :=
  check_unlocated s k.loc ∅ k.metas

end Skolems

def Program.FunctionType.unlocated (f : Program.FunctionType) : Program.FunctionType :=
  ⟨f.name.unlocated, f.ty.unlocated, f.body.unlocated, .none⟩

namespace Program

theorem datatypes_unlocated (p : Program) :
    (unlocated p).datatypes = p.datatypes.map Datatype.unlocated := by
  simp only [datatypes, unlocated, List.filterMap_map, List.map_filterMap]
  apply List.filterMap_congr
  intro d _
  cases d <;> rfl

theorem signatures_unlocated (p : Program) :
    (unlocated p).signatures = p.signatures.map Ty.unlocated := by
  unfold signatures
  rw [← NameMap.ofList_map]
  simp only [unlocated, List.filterMap_map, List.map_filterMap]
  congr 1
  apply List.filterMap_congr
  intro d _
  cases d <;> rfl

theorem functionNames_unlocated (p : Program) :
    (unlocated p).functionNames = p.functionNames := by
  simp only [functionNames, unlocated, List.filterMap_map]
  congr 1
  apply List.filterMap_congr
  intro d _
  cases d <;> rfl

theorem checkClauses_unlocated (p : Program) :
    (unlocated p).checkClauses = Except.mirror ElaborationError.unlocated id p.checkClauses := by
  apply Except.mirror_forM
  intro d
  cases d with
  | function n cs loc =>
    simp only [Definition.unlocated, List.length_map]
    split <;> rfl
  | _ => rfl

theorem inferKinds_mirrors (p : Program) :
    ElaborationM.Mirrors (List.map Kind.unlocated) p.inferKinds (unlocated p).inferKinds := by
  unfold inferKinds
  rw [datatypes_unlocated]
  cases p.datatypes with
  | nil => exact .pure rfl
  | cons d ds => exact ofKinds_mirrors (Datatype.inferGroup_mirrors (d :: ds))

theorem checkSignatures_mirrors (p : Program) :
    ElaborationM.Mirrors id p.checkSignatures (unlocated p).checkSignatures := by
  apply Mirrors.forM
  intro d
  cases d with
  | signature n t prop loc => exact checkOpen_mirrors t
  | _ => exact .pure rfl

theorem insertDeclared_unlocated (p : Program) (env : TypeEnv) :
    (unlocated p).insertDeclared env.unlocated = (p.insertDeclared env).unlocated := by
  unfold insertDeclared
  rw [functionNames_unlocated, unlocated, List.foldl_map]
  apply List.foldl_hom TypeEnv.unlocated
  intro env d
  cases d with
  | signature n t prop loc =>
    simp only [Definition.unlocated]
    rw [apply_ite TypeEnv.unlocated, ← TypeEnv.insert_unlocated]
    rfl
  | _ => rfl

theorem startFunctions_mirrors (ds : List Definition) :
    ElaborationM.Mirrors (List.map Pending.unlocated) (startFunctions ds)
      (startFunctions (ds.map Definition.unlocated)) := by
  induction ds with
  | nil => exact .pure rfl
  | cons d ds ih =>
    cases d with
    | datatype d | signature n t prop loc => exact ih
    | function n cs loc =>
      cases cs with
      | nil => exact ih
      | cons body cs =>
        apply freshMeta_mirrors.bind
        intro t
        apply Mirrors.bind (.modifies fun st => ?_)
        · intro _
          apply ih.bind
          intro pending
          exact .pure rfl
        · rfl

theorem inferBodies_mirrors (signatures : NameMap Ty) (env : TypeEnv) (s : Ty.Subst)
    (ps : List Pending) :
    ElaborationM.Mirrors (Inferred.unlocated fun r =>
        (r.1.map TypedExpr.unlocated, r.2.map Skolems.unlocated))
      (inferBodies signatures env s ps)
      (inferBodies (signatures.map Ty.unlocated) env.unlocated s.unlocated
        (ps.map Pending.unlocated)) := by
  induction ps generalizing s with
  | nil => exact .pure rfl
  | cons p ps ih =>
    rw [List.map_cons, inferBodies, inferBodies, TypeEnv.subst_unlocated]
    apply (Expr.infer_mirrors (env.subst s) p.body).bind
    rintro ⟨body, s₁⟩
    dsimp only [Pending.unlocated]
    rw [Ty.Subst.compose_unlocated, TypedExpr.ty_unlocated, Ty.subst_unlocated,
      Ty.subst_unlocated]
    apply (unify_mirrors _ _ p.loc).bind
    intro s₂
    rw [Ty.Subst.compose_unlocated, Name.text_unlocated, NameMap.get?_map]
    cases signatures.get? p.name.text with
    | none =>
      apply (ih (s₂.compose (s₁.compose s))).bind
      rintro ⟨⟨bodies, skolems⟩, s'⟩
      exact .pure rfl
    | some t =>
      apply (skolemize_mirrors t).bind
      rintro ⟨t', metas⟩
      dsimp only
      rw [Ty.subst_unlocated, Ty.subst_unlocated]
      apply (unify_mirrors _ _ p.loc).bind
      intro s₃
      rw [Ty.Subst.compose_unlocated]
      apply (ih (s₃.compose (s₂.compose (s₁.compose s)))).bind
      rintro ⟨⟨bodies, skolems⟩, s'⟩
      exact .pure rfl

theorem generalizeAll_mirrors (ambient : TypeEnv) (s : Ty.Subst) (ps : List Pending) :
    ElaborationM.Mirrors (Inferred.unlocated (List.map Ty.unlocated)) (generalizeAll ambient s ps)
      (generalizeAll ambient.unlocated s.unlocated (ps.map Pending.unlocated)) := by
  induction ps generalizing s with
  | nil => exact .pure rfl
  | cons p ps ih =>
    rw [List.map_cons, generalizeAll, generalizeAll, Pending.unlocated, Ty.subst_unlocated]
    apply (generalize_mirrors ambient (p.placeholder.subst s)).bind
    intro g
    rw [Ty.Subst.compose_unlocated]
    apply (ih (g.compose s)).bind
    rintro ⟨schemes, s'⟩
    exact .pure (by simp only [Ty.subst_unlocated]; rfl)

theorem inferSignatureProps_mirrors (env : TypeEnv) (s : Ty.Subst) (ds : List Definition) :
    ElaborationM.Mirrors (Inferred.unlocated (List.map (Option.map TypedExpr.unlocated)))
      (inferSignatureProps env s ds)
      (inferSignatureProps env.unlocated s.unlocated (ds.map Definition.unlocated)) := by
  induction ds generalizing s with
  | nil => exact .pure rfl
  | cons d ds ih =>
    cases d with
    | signature n t prop loc =>
      rw [List.map_cons, Definition.unlocated, inferSignatureProps, inferSignatureProps,
        TypeEnv.subst_unlocated]
      apply (Expr.expectOption_mirrors (env.subst s) .bool prop).bind
      rintro ⟨prop', s₁⟩
      dsimp only
      rw [Ty.Subst.compose_unlocated]
      apply (ih (s₁.compose s)).bind
      rintro ⟨others, s'⟩
      exact .pure rfl
    | datatype d | function n cs loc => exact ih s

theorem foldl_insert_unlocated {α : Type} {u : α → α} {x : α → Name} {t : α → Ty}
    (hx : ∀ a, x (u a) = (x a).unlocated) (ht : ∀ a, t (u a) = (t a).unlocated) (as : List α)
    (env : TypeEnv) :
    (as.map u).foldl (fun env a => env.insert (x a) ⟨.const, t a⟩) env.unlocated =
      (as.foldl (fun env a => env.insert (x a) ⟨.const, t a⟩) env).unlocated := by
  rw [List.foldl_map]
  apply List.foldl_hom TypeEnv.unlocated
  intro env a
  rw [hx, ht]
  exact TypeEnv.insert_unlocated env (x a) ⟨.const, t a⟩

theorem inferFunctions_mirrors (p : Program) (env : TypeEnv) :
    ElaborationM.Mirrors
      (Inferred.unlocated fun r => (r.1.map FunctionType.unlocated, r.2.unlocated))
      (p.inferFunctions env) ((unlocated p).inferFunctions env.unlocated) := by
  apply (startFunctions_mirrors p.defns).bind
  intro pending
  have hinner := foldl_insert_unlocated (u := Pending.unlocated) (x := (·.name))
    (t := (·.placeholder)) (fun _ => rfl) (fun _ => rfl) pending env
  rw [List.isEmpty_map, hinner, signatures_unlocated]
  split
  · exact .pure rfl
  · apply (inferBodies_mirrors p.signatures _ ∅ pending).bind
    rintro ⟨⟨bodies, skolems⟩, s⟩
    dsimp only
    apply Mirrors.bind (.ofExcept (Except.mirror_forM (Skolems.checkGeneral_unlocated s) skolems))
    intro _
    apply Mirrors.bind (.modifies fun st => ?_)
    · intro _
      rw [TypeEnv.subst_unlocated]
      apply (generalizeAll_mirrors (env.subst s) s pending).bind
      rintro ⟨schemes, s'⟩
      have hfunctions : ((pending.map Pending.unlocated).zip
          ((schemes.map Ty.unlocated).zip (bodies.map TypedExpr.unlocated))).map
            (fun x => FunctionType.mk x.1.name x.2.1 x.2.2 x.1.loc) =
          ((pending.zip (schemes.zip bodies)).map
            fun x => FunctionType.mk x.1.name x.2.1 x.2.2 x.1.loc).map FunctionType.unlocated := by
        rw [List.zip_map, List.zip_map, List.map_map, List.map_map]
        rfl
      have houter := fun fs => foldl_insert_unlocated (u := FunctionType.unlocated) (x := (·.name))
        (t := (·.ty)) (fun _ => rfl) (fun _ => rfl) fs env
      apply Mirrors.pure
      dsimp only
      rw [hfunctions, houter]
    · rw [List.foldl_map]
      rfl

theorem typedDefinitions_unlocated (ds : List Definition) (kinds : List Kind)
    (props : List (Option TypedExpr)) (fs : List FunctionType) :
    typedDefinitions (ds.map Definition.unlocated) (kinds.map Kind.unlocated)
        (props.map (Option.map TypedExpr.unlocated)) (fs.map FunctionType.unlocated) =
      (typedDefinitions ds kinds props fs).map TypedDefinition.unlocated := by
  induction ds generalizing kinds props fs with
  | nil => rfl
  | cons d ds ih =>
    cases d with
    | datatype d =>
      cases kinds with
      | nil => exact ih [] props fs
      | cons k kinds => exact congrArg (List.cons _) (ih kinds props fs)
    | signature n t prop loc =>
      cases props with
      | nil => exact ih kinds [] fs
      | cons prop' props => exact congrArg (List.cons _) (ih kinds props fs)
    | function n cs loc =>
      cases cs with
      | nil => exact ih kinds props fs
      | cons body cs =>
        cases fs with
        | nil => exact ih kinds props []
        | cons f fs => exact congrArg (List.cons _) (ih kinds props fs)

theorem infer_mirrors (p : Program) :
    ElaborationM.Mirrors TypedProgram.unlocated p.infer (unlocated p).infer := by
  apply Mirrors.bind (.ofExcept (checkClauses_unlocated p))
  intro _
  apply Mirrors.bind (.ofExcept (checkDistinct_unlocated p))
  intro _
  apply (inferKinds_mirrors p).bind
  intro kinds
  have hctors : (unlocated p).datatypes.foldl Datatype.insertCtors TypeEnv.empty.unlocated =
      (p.datatypes.foldl Datatype.insertCtors .empty).unlocated := by
    rw [datatypes_unlocated, List.foldl_map]
    apply List.foldl_hom TypeEnv.unlocated
    exact Datatype.insertCtors_unlocated
  have hempty : TypeEnv.empty.unlocated = .empty := rfl
  rw [hempty] at hctors
  rw [hctors]
  apply (Declaration.declareAll_mirrors _ p.decls).bind
  intro env
  apply (checkSignatures_mirrors p).bind
  intro _
  rw [insertDeclared_unlocated]
  apply (inferFunctions_mirrors p (p.insertDeclared env)).bind
  rintro ⟨⟨functions, env⟩, s⟩
  dsimp only
  rw [TypeEnv.subst_unlocated]
  apply (Declaration.inferProps_mirrors (env.subst s) ∅ p.decls).bind
  rintro ⟨decls, s₁⟩
  dsimp only
  rw [Ty.Subst.compose_unlocated, TypeEnv.subst_unlocated]
  apply (Expr.expectAll_mirrors (env.subst (s₁.compose s)) .bool p.props).bind
  rintro ⟨props, s₂⟩
  dsimp only
  rw [Ty.Subst.compose_unlocated]
  apply (inferSignatureProps_mirrors env (s₂.compose (s₁.compose s)) p.defns).bind
  rintro ⟨sigProps, s'⟩
  dsimp only
  rw [TypeEnv.subst_unlocated]
  apply (Stmt.inferList_mirrors (env.subst s') ∅ p.stmts).bind
  rintro ⟨stmts, s₃⟩
  apply Mirrors.pure
  dsimp only
  rw [← TypedProgram.substTy_unlocated, Ty.Subst.compose_unlocated, TypedProgram.unlocated,
    ← typedDefinitions_unlocated]
  rfl

/-- A program is elaborated alike with and without its locations. -/
theorem elaborate_unlocated (p : Program) :
    (unlocated p).elaborate =
      Except.mirror ElaborationError.unlocated TypedProgram.unlocated p.elaborate := by
  have hinfer := infer_mirrors p .initial
  have hinitial : ElaborationState.initial.unlocated = .initial := rfl
  rw [hinitial] at hinfer
  unfold elaborate
  rw [hinfer]
  cases p.infer .initial <;> rfl

end Program

end GuardedCommands
