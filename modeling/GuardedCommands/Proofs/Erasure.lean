import GuardedCommands.Proofs.ProgramTyping

/-!
# Erasing an elaborated program

A typed program without its types is a source program again.  Elaboration keeps
every node, its name and its place, and only adds types, kinds and environments;
so what it accepts is given back when these are forgotten.

The definitions need two more arguments.  They are put together from three lists
that were filled one after the other, which are as long as there are datatypes,
signatures and functions to take from them.  And the last substitution is applied
to the types of signatures too, which were written and have to stay: these have no
metavariables, and nothing else is ever replaced.
-/

namespace GuardedCommands

open Ty (Subst)

/-! ## Forgetting types -/

namespace TypedDefinition

def erase : TypedDefinition → Definition
  | .datatype d _ => .datatype d
  | .signature n t prop loc => .signature n t (prop.map (·.erase)) loc
  | .function n _ body loc => .function n [body.erase] loc

end TypedDefinition

def Declaration.erase (d : TypedDeclaration) : Declaration Expr :=
  ⟨d.sort, d.names, d.ty, d.prop.map (·.erase), d.loc⟩

namespace Stmt

mutual

def erase : TypedStmt → SourceStmt
  | .skip loc => .skip loc
  | .abort loc => .abort loc
  | .assign xs es loc => .assign xs (es.map (·.erase)) loc
  | .arrayAssign a i v loc => .arrayAssign a.erase i.erase v.erase loc
  | .assert e loc => .assert e.erase loc
  | .invariant e b loc => .invariant e.erase (b.map (·.erase)) loc
  | .loop cmds loc => .loop (eraseCmds cmds) loc
  | .cond cmds loc => .cond (eraseCmds cmds) loc
  | .hole text _ loc => .hole text () loc
  | .alloc x es loc => .alloc x (es.map (·.erase)) loc
  | .lookup x e loc => .lookup x e.erase loc
  | .mutate c v loc => .mutate c.erase v.erase loc
  | .dispose e loc => .dispose e.erase loc
  | .block b loc => .block
      ⟨b.defns.map (·.erase), b.decls.map (·.erase), b.props.map (·.erase),
        eraseList b.stmts, b.loc⟩ loc

def eraseCmds : List TypedCmd → List SourceCmd
  | [] => []
  | c :: cs => ⟨c.guard.erase, eraseList c.body, c.loc⟩ :: eraseCmds cs

def eraseList : List TypedStmt → List SourceStmt
  | [] => []
  | s :: ss => s.erase :: eraseList ss

end

end Stmt

namespace TypedProgram

def erase (p : TypedProgram) : Program :=
  ⟨p.defns.map (·.erase), p.decls.map (·.erase), p.props.map (·.erase),
    Stmt.eraseList p.stmts, p.loc⟩

end TypedProgram

/-! ## What is written in the tree -/

namespace Expr

theorem expect_erase (env : TypeEnv) (expected : Ty) (e : Expr) :
    Returns (e.expect env expected) fun r => r.1.erase = e := by
  unfold expect
  exact (infer_erase env e).bind fun _ he => .andThen fun _ => .pure he

theorem expectEach_erase (env : TypeEnv) (s : Subst) (es : List (Ty × Expr)) :
    Returns (expectEach env s es) fun r => r.1.map (·.erase) = es.map (·.2) := by
  induction es generalizing s with
  | nil => exact .pure rfl
  | cons e es ih =>
    unfold expectEach
    refine (expect_erase _ _ e.2).bind fun _ he => (ih _).bind fun _ hes => .pure ?_
    simp only [List.map_cons, he, hes]

theorem expectAll_erase (env : TypeEnv) (expected : Ty) (es : List Expr) :
    Returns (expectAll env expected es) fun r => r.1.map (·.erase) = es := by
  intro st r st' h
  have herase := expectEach_erase env ∅ _ st r st' h
  simpa only [List.map_map, Function.comp_def, List.map_id'] using herase

theorem expectOption_erase (env : TypeEnv) (expected : Ty) (e : Option Expr) :
    Returns (expectOption env expected e) fun r => r.1.map (·.erase) = e := by
  cases e with
  | none => exact .pure rfl
  | some e =>
    unfold expectOption
    exact (expect_erase env expected e).bind fun _ he => .pure (congrArg some he)

end Expr

theorem Declaration.inferProps_erase (env : TypeEnv) (s : Subst) (ds : List (Declaration Expr)) :
    Returns (inferProps env s ds) fun r => r.1.map (·.erase) = ds := by
  induction ds generalizing s with
  | nil => exact .pure rfl
  | cons d ds ih =>
    unfold inferProps
    refine (Expr.expectOption_erase _ _ d.prop).bind fun _ hprop => ?_
    refine (ih _).bind fun _ hds => .pure ?_
    rw [List.map_cons, hds, Declaration.erase, hprop]

namespace Stmt

theorem inferAssign_erase (env : TypeEnv) (xs : List Name) (es : List Expr) (loc : Loc) :
    Returns (inferAssign env xs es loc) fun r => r.1.erase = .assign xs es loc := by
  unfold inferAssign
  have htargets := Returns.mapM (R := fun _ _ => True) (fun x => fun _ _ _ _ => trivial)
    (g := env.mutableTy) xs
  refine htargets.bind fun targets htargets => ?_
  dsimp only
  split
  · exact .bind .throw fun _ h => h
  · split
    · exact .bind .throw fun _ h => h
    · refine (Expr.expectEach_erase env ∅ _).bind fun _ hes => .pure ?_
      have hlength : es.length ≤ targets.length := by
        have := htargets.length_eq
        omega
      rw [List.map_snd_zip hlength] at hes
      simp only [erase, hes]

theorem inferArrayAssign_erase (env : TypeEnv) (a i v : Expr) (loc : Loc) :
    Returns (inferArrayAssign env a i v loc) fun r => r.1.erase = .arrayAssign a i v loc := by
  unfold inferArrayAssign
  split
  on_goal 1 => refine .andThen fun _ => ?_
  all_goals
    refine (Expr.infer_erase env a).bind fun _ ha => ?_
    refine (Expr.infer_erase _ i).bind fun _ hi => ?_
    refine (Expr.infer_erase _ v).bind fun _ hv => .andThen fun _ => .pure ?_
    simp only [erase, ha, hi, hv]

mutual

theorem infer_erase (env : TypeEnv) :
    (s : SourceStmt) → Returns (infer env s) fun r => r.1.erase = s
  | .skip loc | .abort loc | .hole text _ loc => by
    rw [infer]
    exact .pure (by simp only [erase])
  | .assign xs es loc => by
    rw [infer]
    exact inferAssign_erase env xs es loc
  | .arrayAssign a i v loc => by
    rw [infer]
    exact inferArrayAssign_erase env a i v loc
  | .assert e loc => by
    rw [infer]
    exact (Expr.expect_erase env .bool e).bind fun _ he => .pure (by simp only [erase, he])
  | .invariant inv bound loc => by
    rw [infer]
    refine (Expr.expect_erase env .bool inv).bind fun _ hinv => ?_
    refine (Expr.expectOption_erase _ .int bound).bind fun _ hbound => .pure ?_
    simp only [erase, hinv, hbound]
  | .loop cs loc | .cond cs loc => by
    rw [infer]
    exact (inferCmds_erase env ∅ cs).bind fun _ hcs => .pure (by simp only [erase, hcs])
  | .alloc x es loc => by
    rw [infer]
    refine .andThen fun _ => (Expr.expectAll_erase _ .int es).bind fun _ hes => .pure ?_
    simp only [erase, hes]
  | .lookup x e loc => by
    rw [infer]
    refine .andThen fun _ => (Expr.expect_erase _ .int e).bind fun _ he => .pure ?_
    simp only [erase, he]
  | .mutate c v loc => by
    rw [infer]
    refine (Expr.expect_erase _ .int c).bind fun _ hc => ?_
    refine (Expr.expect_erase _ .int v).bind fun _ hv => .pure ?_
    simp only [erase, hc, hv]
  | .dispose e loc => by
    rw [infer]
    exact (Expr.expect_erase env .int e).bind fun _ he => .pure (by simp only [erase, he])
  | .block b loc => by
    rw [infer]
    refine (checkBlock_spec env b).bind fun _ hlocal => .andThen fun inner => ?_
    refine (Declaration.inferProps_erase inner ∅ b.decls).bind fun _ hdecls => ?_
    refine (Expr.expectAll_erase _ .bool b.props).bind fun _ hprops => ?_
    refine (inferList_erase _ ∅ b.stmts).bind fun _ hstmts => .pure ?_
    simp only [erase, hdecls, hprops, hstmts, List.map_nil, ← hlocal.1]

theorem inferCmds_erase (env : TypeEnv) (s : Subst) :
    (cs : List SourceCmd) → Returns (inferCmds env s cs) fun r => eraseCmds r.1 = cs
  | [] => by
    rw [inferCmds]
    exact .pure (by simp only [eraseCmds])
  | c :: cs => by
    rw [inferCmds]
    refine (Expr.expect_erase _ .bool c.guard).bind fun _ hguard => ?_
    refine (inferList_erase _ ∅ c.body).bind fun _ hbody => ?_
    refine (inferCmds_erase env _ cs).bind fun _ hcs => .pure ?_
    simp only [eraseCmds, hguard, hbody, hcs]

theorem inferList_erase (env : TypeEnv) (s : Subst) :
    (ss : List SourceStmt) → Returns (inferList env s ss) fun r => eraseList r.1 = ss
  | [] => by
    rw [inferList]
    exact .pure (by simp only [eraseList])
  | t :: ts => by
    rw [inferList]
    refine (infer_erase _ t).bind fun _ ht => ?_
    refine (inferList_erase env _ ts).bind fun _ hts => .pure ?_
    simp only [eraseList, ht, hts]

end

end Stmt

/-! ## Definitions -/

namespace Program

def signatureProps (ds : List Definition) : List (Option Expr) :=
  ds.filterMap fun
    | .signature _ _ prop _ => some prop
    | _ => none

def functionBodies (ds : List Definition) : List (Name × Expr × Loc) :=
  ds.filterMap fun
    | .function n (body :: _) loc => some (n, body, loc)
    | _ => none

theorem inferSignatureProps_erase (env : TypeEnv) (s : Subst) (ds : List Definition) :
    Returns (inferSignatureProps env s ds) fun r =>
      r.1.map (·.map (·.erase)) = signatureProps ds := by
  fun_induction inferSignatureProps env s ds with
  | case1 => exact .pure rfl
  | case2 s n t prop loc ds ih =>
    refine (Expr.expectOption_erase _ _ prop).bind fun r hprop => ?_
    refine (ih r.2).bind fun _ hds => .pure ?_
    simp only [List.map_cons, hprop, hds, signatureProps, List.filterMap_cons]
  | case3 s d ds h ih =>
    refine fun st r st' hok => (ih st r st' hok).trans ?_
    cases d with
    | signature n t prop loc => exact absurd rfl (h n t prop loc)
    | datatype | function => rfl

theorem startFunctions_bodies (ds : List Definition) :
    Returns (startFunctions ds) fun ps =>
      ps.map (fun q => (q.name, q.body, q.loc)) = functionBodies ds := by
  fun_induction startFunctions ds with
  | case1 => exact .pure rfl
  | case2 n body rest loc ds ih =>
    refine .andThen fun _ => .andThen fun _ => ih.bind fun _ hps => .pure ?_
    simp only [List.map_cons, hps, functionBodies, List.filterMap_cons]
  | case3 d ds h ih =>
    refine fun st ps st' hok => (ih st ps st' hok).trans ?_
    cases d with
    | function n clauses loc =>
      cases clauses with
      | nil => rfl
      | cons body rest => exact absurd rfl (h n body rest loc)
    | datatype | signature => rfl

theorem inferBodies_erase (signatures : NameMap Ty) (env : TypeEnv) (s : Subst)
    (ps : List Pending) :
    Returns (inferBodies signatures env s ps) fun r => r.1.1.map (·.erase) = ps.map (·.body) := by
  induction ps generalizing s with
  | nil => exact .pure rfl
  | cons p ps ih =>
    unfold inferBodies
    refine (Expr.infer_erase _ p.body).bind fun _ hbody => .andThen fun _ => ?_
    split
    · refine (ih _).bind fun _ hps => .pure ?_
      simp only [List.map_cons, hbody, hps]
    · refine .andThen fun _ => .andThen fun _ => (ih _).bind fun _ hps => .pure ?_
      simp only [List.map_cons, hbody, hps]

theorem map_erase_zip {pending : List Pending} {schemes : List Ty} {bodies : List TypedExpr}
    (hschemes : schemes.length = pending.length)
    (hbodies : bodies.map (·.erase) = pending.map (·.body)) :
    ((pending.zip (schemes.zip bodies)).map fun (q, t, body) =>
        FunctionType.mk q.name t body q.loc).map (fun f => (f.name, f.body.erase, f.loc)) =
      pending.map fun q => (q.name, q.body, q.loc) := by
  induction pending generalizing schemes bodies with
  | nil => rfl
  | cons q pending ih =>
    cases schemes with
    | nil => cases hschemes
    | cons t schemes =>
      cases bodies with
      | nil => cases hbodies
      | cons body bodies =>
        simp only [List.map_cons, List.cons.injEq] at hbodies
        simp only [List.length_cons, Nat.add_right_cancel_iff] at hschemes
        simp only [List.zip_cons_cons, List.map_cons, hbodies.1, ih hschemes hbodies.2]

theorem inferFunctions_erase (p : Program) (env : TypeEnv) :
    Returns (p.inferFunctions env) fun r =>
      r.1.1.map (fun f => (f.name, f.body.erase, f.loc)) = functionBodies p.defns := by
  unfold inferFunctions
  refine (startFunctions_bodies p.defns).bind fun pending hpending => ?_
  split
  · next hempty =>
    rw [List.isEmpty_iff] at hempty
    subst hempty
    exact .pure hpending
  · refine (inferBodies_erase _ _ _ pending).bind fun _ hbodies => ?_
    refine .andThen fun _ => .andThen fun _ => ?_
    refine (length_generalizeAll _ _ pending).bind fun _ hschemes => .pure ?_
    exact (map_erase_zip hschemes hbodies).trans hpending

theorem erase_typedDefinitions (ds : List Definition) (kinds : List Kind)
    (props : List (Option TypedExpr)) (fs : List FunctionType)
    (hclauses : ∀ n clauses loc, .function n clauses loc ∈ ds → clauses.length = 1)
    (hkinds : kinds.length = (ds.filterMap fun
      | .datatype d => some d
      | _ => none).length)
    (hprops : props.map (·.map (·.erase)) = signatureProps ds)
    (hfs : fs.map (fun f => (f.name, f.body.erase, f.loc)) = functionBodies ds) :
    (typedDefinitions ds kinds props fs).map (·.erase) = ds := by
  fun_induction typedDefinitions ds kinds props fs with
  | case1 d ds k kinds props fs ih =>
    have hclauses' := fun n clauses loc h => hclauses n clauses loc (.tail _ h)
    have hrest := ih hclauses' (by simpa using hkinds) hprops hfs
    rw [List.map_cons, hrest, TypedDefinition.erase]
  | case2 n t prop loc ds kinds prop' props fs ih =>
    obtain ⟨rfl, hothers⟩ := List.cons.inj hprops
    have hclauses' := fun n clauses loc h => hclauses n clauses loc (.tail _ h)
    have hrest := ih hclauses' hkinds hothers hfs
    rw [List.map_cons, hrest, TypedDefinition.erase]
  | case3 n body rest loc ds kinds props f fs ih =>
    obtain ⟨hf, hothers⟩ := List.cons.inj hfs
    obtain ⟨rfl, rfl, rfl⟩ : f.name = n ∧ f.body.erase = body ∧ f.loc = loc := by
      simpa using hf
    obtain rfl : rest = [] := by
      simpa using hclauses _ _ _ (.head _)
    have hclauses' := fun n clauses loc h => hclauses n clauses loc (.tail _ h)
    have hrest := ih hclauses' hkinds hprops hothers
    rw [List.map_cons, hrest, TypedDefinition.erase]
  | case4 d ds kinds props fs hdata hsig hfun ih =>
    -- a definition for which nothing is left, so that one of the three lists is too short
    cases d with
    | datatype d =>
      cases kinds with
      | nil => simp at hkinds
      | cons k kinds => exact absurd rfl (hdata d k kinds rfl)
    | signature n t prop loc =>
      cases props with
      | nil => simp [signatureProps] at hprops
      | cons prop' props => exact absurd rfl (hsig n t prop loc prop' props rfl)
    | function n clauses loc =>
      cases clauses with
      | nil => cases hclauses _ _ _ (.head _)
      | cons body rest =>
        cases fs with
        | nil => simp [functionBodies] at hfs
        | cons f fs => exact absurd rfl (hfun n body rest loc f fs rfl)
  | case5 => rfl

theorem length_of_checkClauses {p : Program} (h : p.checkClauses = .ok ()) {n : Name}
    {clauses : List Expr} {loc : Loc} (hmem : .function n clauses loc ∈ p.defns) :
    clauses.length = 1 := by
  have hone := Except.ok_of_forM h _ hmem
  by_contra hlength
  simp only [if_neg hlength] at hone
  cases hone

end Program

/-! ## The last substitution -/

theorem TypedDefinition.erase_substTy {s : Subst} {d : TypedDefinition}
    (h : ∀ n t prop loc, d = .signature n t prop loc → t.subst s = t) :
    (d.substTy s).erase = d.erase := by
  cases d with
  | datatype d k => rfl
  | signature n t prop loc =>
    simp only [substTy, erase, h n t prop loc rfl, Option.map_map, Function.comp_def,
      TypedExpr.erase_substTy]
  | function n t body loc => simp only [substTy, erase, TypedExpr.erase_substTy]

theorem Declaration.erase_substTy (s : Subst) (d : TypedDeclaration) :
    (d.substTy s).erase = d.erase := by
  simp only [substTy, erase, Option.map_map, Function.comp_def, TypedExpr.erase_substTy]

namespace Stmt

theorem eraseList_substTy (s : Subst) {Γ : Set String} (ts : List TypedStmt) (h : ListScoped Γ ts) :
    eraseList (substTyList s ts) = eraseList ts := by
  induction ts using nested_induction
      (S := fun t => ∀ Γ, t.Scoped Γ → (t.substTy s).erase = t.erase)
      (C := fun cs => ∀ Γ, CmdsScoped Γ cs → eraseCmds (substTyCmds s cs) = eraseCmds cs)
      generalizing Γ with
  | simple t ht =>
    cases t with
    | loop | cond | block => cases ht
    | _ => simp [substTy, erase, Function.comp_def]
  | loop cs _ ih Γ h | cond cs _ ih Γ h => simp only [substTy, erase, ih Γ h]
  | block b _ ih Γ h =>
    simp only [substTy, erase, h.1, ih h.2.2, List.map_nil, List.map_map, Function.comp_def,
      Declaration.erase_substTy, TypedExpr.erase_substTy]
  | noCmds | nil => rfl
  | cmds c cs ihbody ihrest Γ h =>
    simp only [substTyCmds, eraseCmds, TypedExpr.erase_substTy, ihbody h.2.1, ihrest Γ h.2.2]
  | cons t ts iht ihts => simp only [substTyList, eraseList, iht Γ h.1, ihts h.2]

end Stmt

theorem TypedProgram.erase_substTy {s : Subst} {q : TypedProgram} {Γ : Set String}
    (hsignatures : ∀ n t prop loc, .signature n t prop loc ∈ q.defns → t.subst s = t)
    (hstmts : Stmt.ListScoped Γ q.stmts) :
    (TypedProgram.substTy s q).erase = TypedProgram.erase q := by
  have hdefns : (q.defns.map (·.substTy s)).map (·.erase) = q.defns.map (·.erase) := by
    rw [List.map_map]
    refine List.map_congr_left fun d hd => TypedDefinition.erase_substTy ?_
    rintro n t prop loc rfl
    exact hsignatures n t prop loc hd
  simp only [TypedProgram.substTy, TypedProgram.erase, hdefns, Stmt.eraseList_substTy s _ hstmts,
    List.map_map, Function.comp_def, Declaration.erase_substTy, TypedExpr.erase_substTy]

/-! ## Programs -/

namespace Program

variable {p : Program} {st' : ElaborationState}

theorem infer_erase {typed : TypedProgram} (hp : p.Regular)
    (h : p.infer .initial = .ok typed st') :
    ∃ (found : TypedProgram) (s : Subst), typed = TypedProgram.substTy s found ∧
      found.erase = p ∧ typed.erase = p := by
  obtain ⟨hclauses, -, kinds, st₃, h₃, env, st₄, h₄, st₅, h₅, functions, outer, s, st₆, h₆, decls,
    s₁, st₇, h₇, es, s₂, st₈, h₈, sigProps, s₃, st₉, h₉, stmts, s₄, h₁₀, rfl⟩ := infer_cases h
  have hdefns : (typedDefinitions p.defns kinds sigProps functions).map (·.erase) = p.defns :=
    erase_typedDefinitions _ _ _ _ (fun _ _ _ => length_of_checkClauses hclauses)
      (length_inferKinds p _ _ _ h₃) (inferSignatureProps_erase _ _ _ _ _ _ h₉)
      (inferFunctions_erase p _ _ _ _ h₆)
  have hdecls : decls.map (·.erase) = p.decls := Declaration.inferProps_erase _ _ _ _ _ _ h₇
  have hprops : es.map (·.erase) = p.props := Expr.expectAll_erase _ _ _ _ _ _ h₈
  have hstmts : Stmt.eraseList stmts = p.stmts := Stmt.inferList_erase _ _ _ _ _ _ h₁₀
  have hfound : TypedProgram.erase
      ⟨typedDefinitions p.defns kinds sigProps functions, decls, es, stmts, p.loc⟩ = p := by
    rw [TypedProgram.erase, hdefns, hdecls, hprops, hstmts]
  refine ⟨_, _, rfl, hfound, ?_⟩
  -- The types of signatures stay: they are closed, and only metavariables have been found.
  obtain ⟨hprogress, hnodup, hannotated⟩ := inferKinds_spec h₃
  obtain ⟨hext₄, rfl, hrigid⟩ := Declaration.declareAll_spec h₄
  have hext₅ := checkSignatures_extends (hext₄.annotated ▸ hnodup) h₅
  have hext := hext₄.trans hext₅
  have hready := ready_given hp (hext.inProgress.trans hprogress) (hannotated ▸ hrigid)
  obtain ⟨-, hannotated₆, hnone, hfound₆, houter, hfunctions⟩ :=
    inferFunctions_sound hready (fun x t ht => hp.closed_signatures ht) h₆
  have hstage : Stage outer s ∅ st₆ := ⟨hfound₆, ready_outer hready hnone houter hfunctions.closed⟩
  obtain ⟨-, U, hend, -, -⟩ := parts_sound hp hstage
    (hannotated₆.trans (hext.annotated.trans hannotated)) h₇ h₈ h₉ h₁₀
  rw [TypedProgram.erase_substTy (fun n t prop loc hmem => ?_)
    (Stmt.inferList_seen ∅ _ _ p.stmts _ _ _ h₁₀).1.scoped]
  · exact hfound
  · have hwritten : .signature n t (prop.map (·.erase)) loc ∈ p.defns := by
      rw [← hdefns]
      exact List.mem_map_of_mem hmem
    exact (hp.closed_signature hwritten).subst_eq_self hend.mem_metaNames

end Program

/-- What elaboration accepts is given back when types are forgotten, before the last
substitution is applied and after it. -/
theorem erased_program_is_source {p : Program} {typed : TypedProgram} (hp : p.Regular)
    (h : p.elaborate = .ok typed) :
    typed.erase = p ∧
      ∃ (found : TypedProgram) (s : Subst), typed = TypedProgram.substTy s found ∧
        found.erase = p := by
  obtain ⟨st, hinfer⟩ := Program.infer_of_elaborate h
  obtain ⟨found, s, htyped, hfound, herase⟩ := Program.infer_erase hp hinfer
  exact ⟨herase, found, s, htyped, hfound⟩

namespace Shelf

/-- A function that is defined before its signature and before the datatype it is used at, and
a loop with a block and a hole in it. -/
def source : Program :=
  ⟨[.function ⟨"same", ⟨0, 4⟩⟩ [.lam ⟨"y", ⟨5, 1⟩⟩ (.var ⟨"y", ⟨9, 1⟩⟩ ⟨9, 1⟩) ⟨5, 5⟩] ⟨0, 10⟩,
      .signature ⟨"same", ⟨11, 4⟩⟩ (.func (.rigid ⟨"b", ⟨18, 1⟩⟩) (.rigid ⟨"b", ⟨23, 1⟩⟩))
        (some (.chain (.app (.const ⟨"same", ⟨27, 4⟩⟩ ⟨27, 4⟩) (.lit (.num 1) ⟨32, 1⟩) ⟨27, 6⟩)
          [⟨.eq, ⟨34, 1⟩, .lit (.num 1) ⟨36, 1⟩⟩] ⟨27, 10⟩)) ⟨11, 27⟩,
      .datatype ⟨⟨"Box", ⟨44, 3⟩⟩, [⟨"a", ⟨48, 1⟩⟩],
        [⟨⟨"Full", ⟨52, 4⟩⟩, [.rigid ⟨"a", ⟨57, 1⟩⟩], ⟨52, 6⟩⟩], ⟨39, 19⟩⟩],
    [⟨.var, [⟨"x", ⟨63, 1⟩⟩], .base .int ⟨67, 3⟩,
        some (.chain (.var ⟨"x", ⟨73, 1⟩⟩ ⟨73, 1⟩) [⟨.gte, ⟨75, 2⟩, .lit (.num 0) ⟨78, 1⟩⟩]
          ⟨73, 6⟩), ⟨59, 20⟩⟩],
    [.lit (.bool true) ⟨82, 4⟩],
    [.invariant (.chain (.var ⟨"x", ⟨92, 1⟩⟩ ⟨92, 1⟩) [⟨.gte, ⟨94, 2⟩, .lit (.num 0) ⟨97, 1⟩⟩]
        ⟨92, 6⟩) (some (.var ⟨"x", ⟨105, 1⟩⟩ ⟨105, 1⟩)) ⟨90, 17⟩,
      .loop [⟨.chain (.var ⟨"x", ⟨111, 1⟩⟩ ⟨111, 1⟩)
          [⟨.gt, ⟨113, 1⟩, .lit (.num 0) ⟨115, 1⟩⟩] ⟨111, 5⟩,
        [.block ⟨[], [⟨.var, [⟨"box", ⟨127, 3⟩⟩],
            .app (.data ⟨"Box", ⟨133, 3⟩⟩) (.base .int ⟨137, 3⟩) ⟨133, 7⟩, none, ⟨123, 17⟩⟩], [],
          [.assign [⟨"box", ⟨142, 3⟩⟩]
              [.app (.const ⟨"same", ⟨149, 4⟩⟩ ⟨149, 4⟩)
                (.app (.const ⟨"Full", ⟨155, 4⟩⟩ ⟨155, 4⟩) (.var ⟨"x", ⟨160, 1⟩⟩ ⟨160, 1⟩) ⟨155, 6⟩)
                ⟨149, 13⟩] ⟨142, 20⟩,
            .hole "unpack" () ⟨164, 12⟩], ⟨120, 60⟩⟩ ⟨120, 60⟩], ⟨111, 70⟩⟩] ⟨108, 76⟩],
    ⟨0, 184⟩⟩

theorem regular : source.Regular := by
  constructor
  · intro t ht
    simp only [Program.writtenTypes, source, Program.datatypes, Stmt.listTypes,
      Stmt.declaredTypes, Stmt.cmdsTypes, List.filterMap, List.flatMap_cons, List.flatMap_nil,
      List.map_cons, List.map_nil, List.append_nil, List.cons_append, List.nil_append,
      List.mem_cons, List.not_mem_nil, or_false] at ht
    rcases ht with rfl | rfl | rfl | rfl <;> rfl
  · decide
  · decide

theorem exists_typed : ∃ typed, source.elaborate = .ok typed := ⟨_, by cbv⟩

end Shelf

theorem shelf_erased : Shelf.source.Regular ∧ ∃ typed, Shelf.source.elaborate = .ok typed ∧
    typed.erase = Shelf.source ∧
      ∃ (found : TypedProgram) (s : Subst), typed = TypedProgram.substTy s found ∧
        found.erase = Shelf.source := by
  obtain ⟨typed, h⟩ := Shelf.exists_typed
  exact ⟨Shelf.regular, typed, h, erased_program_is_source Shelf.regular h⟩

end GuardedCommands
