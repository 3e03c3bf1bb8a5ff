import GuardedCommands.Elaboration.Stmt

/-!
# Elaboration of programs

Datatypes come first, as one group, then declarations and signatures.  The
function definitions form one recursive group: each gets a placeholder for its
type before any body is looked at, and the types are made general when all bodies
are done.  Properties and statements follow, and in the end the substitution that
was found is applied to the whole tree.
-/

namespace GuardedCommands

open ElaborationM

namespace Datatype

def result (d : Datatype) : Ty := d.params.foldl (fun t p => t.apply (.rigid p)) (.data d.name)

def insertCtors (env : TypeEnv) (d : Datatype) : TypeEnv :=
  d.ctors.foldl (fun env c => env.insert c.name ⟨.ctor, .funcs c.args d.result⟩) env

end Datatype

/-- A function that is being elaborated, with the placeholder for its type. -/
structure Pending where
  name : Name
  body : Expr
  loc : Loc
  placeholder : Ty

/-- The metavariables that stand for the variables of a signature. -/
structure Skolems where
  metas : List (String × Ty)
  loc : Loc

namespace Skolems

/-- Requires the variables of a signature to be still unknown and still different. -/
def check (s : Ty.Subst) (loc : Loc) :
    NameSet → List (String × Ty) → Except ElaborationError Unit
  | _, [] => .ok ()
  | images, (x, m) :: rest =>
    match m.subst s with
    | .metavar n =>
      if n.text ∈ images then .error (.unifyFailed (.rigid (.bare x)) (.metavar n) loc)
      else check s loc (images.insert n.text) rest
    | found => .error (.unifyFailed (.rigid (.bare x)) found loc)

/-- Requires a function to be as general as its signature. -/
def checkGeneral (s : Ty.Subst) (k : Skolems) : Except ElaborationError Unit :=
  check s k.loc ∅ k.metas

end Skolems

namespace Program

def datatypes (p : Program) : List Datatype :=
  p.defns.filterMap fun
    | .datatype d => some d
    | _ => none

/-- The signatures of a program; of two for one name the later counts. -/
def signatures (p : Program) : NameMap Ty :=
  .ofList (p.defns.filterMap fun
    | .signature n t _ _ => some (n.text, t)
    | _ => none)

def functionNames (p : Program) : NameSet :=
  .ofList (p.defns.filterMap fun
    | .function n _ _ => some n.text
    | _ => none)

/-- Requires every function to be defined by one clause. -/
def checkClauses (p : Program) : Except ElaborationError Unit :=
  p.defns.forM fun
    | .function _ clauses loc =>
      if clauses.length = 1 then .ok () else .error (.unsupported .clauses loc)
    | _ => .ok ()

def inferKinds (p : Program) : ElaborationM (List Kind) :=
  match p.datatypes with
  | [] => return []
  | ds => ofKinds (Datatype.inferGroup ds)

/-- Requires signatures to be types of values, whatever their variables stand for. -/
def checkSignatures (p : Program) : ElaborationM Unit :=
  p.defns.forM fun
    | .signature _ t _ _ => checkOpen t
    | _ => return

/-- Brings functions into scope that have a signature and no definition. -/
def insertDeclared (p : Program) (env : TypeEnv) : TypeEnv :=
  p.defns.foldl (fun env d => match d with
    | .signature n t _ _ => if n.text ∈ p.functionNames then env else env.insert n ⟨.const, t⟩
    | _ => env) env

def startFunctions : List Definition → ElaborationM (List Pending)
  | [] => return []
  | .function n (body :: _) loc :: ds => do
    let t ← freshMeta
    modify fun st => { st with inProgress := st.inProgress.insert n.text }
    return ⟨n, body, loc, t⟩ :: (← startFunctions ds)
  | _ :: ds => startFunctions ds

/-- Elaborates the bodies of functions in order, after a substitution found already.
Each body has to have the type of its placeholder and of its signature. -/
def inferBodies (signatures : NameMap Ty) (env : TypeEnv) (s : Ty.Subst) :
    List Pending → ElaborationM (Inferred (List TypedExpr × List Skolems))
  | [] => return (([], []), s)
  | p :: ps => do
    let (body, s₁) ← p.body.infer (env.subst s)
    let s := s₁.compose s
    let s₂ ← unify (p.placeholder.subst s) (body.ty.subst s) p.loc
    let s := s₂.compose s
    match signatures.get? p.name.text with
    | none =>
      let ((bodies, skolems), s) ← inferBodies signatures env s ps
      return ((body :: bodies, skolems), s)
    | some t =>
      let (t, metas) ← skolemize t
      let s₃ ← unify (t.subst s) (p.placeholder.subst s) p.loc
      let ((bodies, skolems), s) ← inferBodies signatures env (s₃.compose s) ps
      return ((body :: bodies, ⟨metas, p.loc⟩ :: skolems), s)

def generalizeAll (ambient : TypeEnv) (s : Ty.Subst) :
    List Pending → ElaborationM (Inferred (List Ty))
  | [] => return ([], s)
  | p :: ps => do
    let t := p.placeholder.subst s
    let g ← generalize ambient t
    let (schemes, s) ← generalizeAll ambient (g.compose s) ps
    return (t.subst g :: schemes, s)

/-- A function with its general type and typed body. -/
structure FunctionType where
  name : Name
  ty : Ty
  body : TypedExpr
  loc : Loc

/-- Elaborates all functions as one recursive group.  The result has the environment
with their general types. -/
def inferFunctions (p : Program) (env : TypeEnv) :
    ElaborationM (Inferred (List FunctionType × TypeEnv)) := do
  let pending ← startFunctions p.defns
  if pending.isEmpty then return (([], env), ∅)
  let inner := pending.foldl (fun env q => env.insert q.name ⟨.const, q.placeholder⟩) env
  let ((bodies, skolems), s) ← inferBodies p.signatures inner ∅ pending
  ofExcept (skolems.forM (Skolems.checkGeneral s))
  modify fun st =>
    { st with inProgress := pending.foldl (fun ns q => ns.erase q.name.text) st.inProgress }
  let (schemes, s') ← generalizeAll (env.subst s) s pending
  let functions := (pending.zip (schemes.zip bodies)).map fun (q, t, body) =>
    FunctionType.mk q.name t body q.loc
  let outer := functions.foldl (fun env f => env.insert f.name ⟨.const, f.ty⟩) env
  return ((functions, outer), s')

/-- Elaborates the properties of signatures, after a substitution found already.  The
result lists a property or its absence for every signature. -/
def inferSignatureProps (env : TypeEnv) (s : Ty.Subst) :
    List Definition → ElaborationM (Inferred (List (Option TypedExpr)))
  | [] => return ([], s)
  | .signature _ _ prop _ :: ds => do
    let (prop, s₁) ← Expr.expectOption (env.subst s) .bool prop
    let (others, s) ← inferSignatureProps env (s₁.compose s) ds
    return (prop :: others, s)
  | _ :: ds => inferSignatureProps env s ds

/-- Puts what has been found for datatypes, signatures and functions in the places of
the definitions. -/
def typedDefinitions :
    List Definition → List Kind → List (Option TypedExpr) → List FunctionType →
      List TypedDefinition
  | .datatype d :: ds, k :: kinds, props, fs => .datatype d k :: typedDefinitions ds kinds props fs
  | .signature n t _ loc :: ds, kinds, prop :: props, fs =>
    .signature n t prop loc :: typedDefinitions ds kinds props fs
  | .function _ (_ :: _) _ :: ds, kinds, props, f :: fs =>
    .function f.name f.ty f.body f.loc :: typedDefinitions ds kinds props fs
  | _ :: ds, kinds, props, fs => typedDefinitions ds kinds props fs
  | [], _, _, _ => []

/-- Elaborates a program with the state that earlier programs have left. -/
def infer (p : Program) : ElaborationM TypedProgram := do
  ofExcept p.checkClauses
  ofExcept p.checkDistinct
  let kinds ← p.inferKinds
  let env ← Declaration.declareAll (p.datatypes.foldl Datatype.insertCtors .empty) p.decls
  p.checkSignatures
  let ((functions, env), s) ← p.inferFunctions (p.insertDeclared env)
  let (decls, s₁) ← Declaration.inferProps (env.subst s) ∅ p.decls
  let s := s₁.compose s
  let (props, s₂) ← Expr.expectAll (env.subst s) .bool p.props
  let s := s₂.compose s
  let (sigProps, s) ← inferSignatureProps env s p.defns
  let (stmts, s₃) ← Stmt.inferList (env.subst s) ∅ p.stmts
  let s := s₃.compose s
  let defns := typedDefinitions p.defns kinds sigProps functions
  return TypedProgram.substTy s ⟨defns, decls, props, stmts, p.loc⟩

def elaborate (p : Program) : Except ElaborationError TypedProgram :=
  match p.infer .initial with
  | .ok typed _ => .ok typed
  | .error e _ => .error e

end Program

end GuardedCommands
