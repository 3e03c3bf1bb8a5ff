import GuardedCommands.Elaboration.Duplicates
import GuardedCommands.Elaboration.Expr

/-!
# Elaboration of statements

Statements are elaborated in order, each in the environment to which all earlier
findings have been applied.  A block may declare names of its own, but none that
is visible already, and it may not define anything.
-/

namespace GuardedCommands

open ElaborationM

namespace TypeEnv

def mutableTy (env : TypeEnv) (x : Name) : ElaborationM Ty :=
  match env.lookup? x.text with
  | none => throw (.notInScope x.text x.loc)
  | some info =>
    if info.isMutable then return info.ty else throw (.assignToConst x.text x.loc)

def expectCell (env : TypeEnv) (x : Name) (loc : Loc) : ElaborationM Ty.Subst := do
  let t ← env.mutableTy x
  unify t .int (x.loc.merge loc)

end TypeEnv

def DeclSort.role : DeclSort → Role
  | .const => .const
  | .var => .var

namespace Declaration

/-- Requires declared types to be types of values and brings the names into scope. -/
def declareAll (env : TypeEnv) : List (Declaration Expr) → ElaborationM TypeEnv
  | [] => return env
  | d :: ds => do
    checkClosed d.ty
    declareAll (env.insertAll d.names ⟨d.sort.role, d.ty⟩) ds

def inferProps (env : TypeEnv) (s : Ty.Subst) :
    List (Declaration Expr) → ElaborationM (Inferred (List TypedDeclaration))
  | [] => return ([], s)
  | d :: ds => do
    let (prop, s₁) ← Expr.expectOption (env.subst s) .bool d.prop
    let (others, s) ← inferProps env (s₁.compose s) ds
    return (⟨d.sort, d.names, d.ty, prop, d.loc⟩ :: others, s)

end Declaration

namespace Expr

def asName? : Expr → Option Name
  | .var x _ | .const x _ => some x
  | _ => none

end Expr

namespace Stmt

/-- Requires a block to define nothing and to declare nothing that is visible. -/
def checkBlock (env : TypeEnv) (p : Program) : ElaborationM Unit := do
  match p.defns with
  | d :: _ => throw (.unsupported .blockDefinition d.loc)
  | [] => pure ()
  match (p.decls.flatMap (·.names)).find? fun x => env.contains x.text with
  | some x => throw (.unsupported .shadowing x.loc)
  | none => pure ()
  ofExcept p.checkDistinct

/-- Elaborates a simultaneous assignment: targets first, then the number of
expressions, then the expressions. -/
def inferAssign (env : TypeEnv) (xs : List Name) (es : List Expr) (loc : Loc) :
    ElaborationM (Inferred TypedStmt) := do
  let targets ← xs.mapM env.mutableTy
  if es.length < xs.length then
    throw (.redundantNames ((xs.drop es.length).map (·.text)) loc)
  if xs.length < es.length then
    throw (.redundantExprs ((es.drop xs.length).map (·.text)) loc)
  let (es, s) ← Expr.expectEach env ∅ (targets.zip es)
  return (.assign xs es loc, s)

def inferArrayAssign (env : TypeEnv) (a i v : Expr) (loc : Loc) :
    ElaborationM (Inferred TypedStmt) := do
  match a.asName? with
  | some x => discard (env.mutableTy x)
  | none => pure ()
  let (a, s₁) ← a.infer env
  let (i, s₂) ← i.infer (env.subst s₁)
  let s := s₂.compose s₁
  let (v, s₃) ← v.infer (env.subst s)
  let s := s₃.compose s
  let s₄ ← unify (a.ty.subst s) (.func (i.ty.subst s) v.ty) loc
  return (.arrayAssign a i v loc, s₄.compose s)

mutual

def infer (env : TypeEnv) : SourceStmt → ElaborationM (Inferred TypedStmt)
  | .skip loc => return (.skip loc, ∅)
  | .abort loc => return (.abort loc, ∅)
  | .assign xs es loc => inferAssign env xs es loc
  | .arrayAssign a i v loc => inferArrayAssign env a i v loc
  | .assert e loc => do
    let (e, s) ← e.expect env .bool
    return (.assert e loc, s)
  | .invariant inv bound loc => do
    let (inv, s) ← inv.expect env .bool
    let (bound, s₁) ← Expr.expectOption (env.subst s) .int bound
    return (.invariant inv bound loc, s₁.compose s)
  | .loop cmds loc => do
    let (cmds, s) ← inferCmds env ∅ cmds
    return (.loop cmds loc, s)
  | .cond cmds loc => do
    let (cmds, s) ← inferCmds env ∅ cmds
    return (.cond cmds loc, s)
  | .hole text _ loc => return (.hole text env loc, ∅)
  | .alloc x es loc => do
    let s₁ ← env.expectCell x loc
    let (es, s₂) ← Expr.expectAll (env.subst s₁) .int es
    return (.alloc x es loc, s₂.compose s₁)
  | .lookup x e loc => do
    let s₁ ← env.expectCell x loc
    let (e, s₂) ← e.expect (env.subst s₁) .int
    return (.lookup x e loc, s₂.compose s₁)
  | .mutate c v loc => do
    let (c, s₁) ← c.expect env .int
    let (v, s₂) ← v.expect (env.subst s₁) .int
    return (.mutate c v loc, s₂.compose s₁)
  | .dispose e loc => do
    let (e, s) ← e.expect env .int
    return (.dispose e loc, s)
  | .block b loc => do
    checkBlock env b
    let env ← Declaration.declareAll env b.decls
    let (decls, s) ← Declaration.inferProps env ∅ b.decls
    let (props, s₁) ← Expr.expectAll (env.subst s) .bool b.props
    let s := s₁.compose s
    let (stmts, s₂) ← inferList (env.subst s) ∅ b.stmts
    return (.block ⟨[], decls, props, stmts, b.loc⟩ loc, s₂.compose s)

def inferCmds (env : TypeEnv) (s : Ty.Subst) :
    List SourceCmd → ElaborationM (Inferred (List TypedCmd))
  | [] => return ([], s)
  | c :: cs => do
    let (guard, s₁) ← c.guard.expect (env.subst s) .bool
    let (body, s₂) ← inferList ((env.subst s).subst s₁) ∅ c.body
    let (others, s) ← inferCmds env ((s₂.compose s₁).compose s) cs
    return (⟨guard, body, c.loc⟩ :: others, s)

def inferList (env : TypeEnv) (s : Ty.Subst) :
    List SourceStmt → ElaborationM (Inferred (List TypedStmt))
  | [] => return ([], s)
  | t :: ts => do
    let (t, s₁) ← t.infer (env.subst s)
    let (others, s) ← inferList env (s₁.compose s) ts
    return (t :: others, s)

end

end Stmt

end GuardedCommands
