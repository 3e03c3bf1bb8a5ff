import GuardedCommands.Kind.Inference
import GuardedCommands.Ty.Unify
import GuardedCommands.Typed.Program

/-!
# The state of elaboration

Elaboration draws names from one supply, keeps a context of kinds, and remembers
which functions are being elaborated.  What a failed elaboration has changed
stays changed.
-/

namespace GuardedCommands

structure ElaborationState extends KindState where
  /-- The functions whose types are placeholders, which must not be instantiated. -/
  inProgress : NameSet

def ElaborationState.initial : ElaborationState := ⟨.initial, ∅⟩

abbrev ElaborationM := EStateM ElaborationError ElaborationState

/-- The result of elaborating a piece of a program, with the substitution that
inference has found on the way. -/
abbrev Inferred (α : Type) := α × Ty.Subst

namespace ElaborationM

def ofKinds (m : KindM α) : ElaborationM α := fun st =>
  match m st.toKindState with
  | .ok a kinds => .ok a { st with toKindState := kinds }
  | .error e kinds => .error e { st with toKindState := kinds }

def unify (t u : Ty) (loc : Loc) : ElaborationM Ty.Subst := ofExcept (t.unify u loc)

def fresh (hint : String) : ElaborationM Name := modifyGet fun st =>
  (st.supply.next hint, { st with supply := st.supply.advance })

def freshMeta : ElaborationM Ty := return .metavar (← fresh "t")

def chainOpTy (o : ChainOp) : ElaborationM Ty := modifyGet fun st =>
  let (t, supply) := o.ty st.supply
  (t, { st with supply := supply })

def freshMetas (names : List String) : ElaborationM (List (String × Ty)) :=
  names.mapM fun x => return (x, ← freshMeta)

/-- The type of a use of a name: rigid variables become new metavariables, except in
the placeholder of a function that is being elaborated. -/
def instantiate (x : String) (t : Ty) : ElaborationM Ty := do
  if x ∈ (← get).inProgress then return t
  let metas ← freshMetas t.rigidVars.toList
  return t.subst (.ofList metas)

/-- A signature with new metavariables for its rigid variables, and these. -/
def skolemize (t : Ty) : ElaborationM (Ty × List (String × Ty)) := do
  let metas ← freshMetas t.rigidVars.toList
  return (t.subst (.ofList metas), metas)

/-- The substitution that makes a type general: its metavariables become new rigid
variables, unless they occur in the environment. -/
def generalize (env : TypeEnv) (t : Ty) : ElaborationM Ty.Subst := do
  let free := (t.metavars \ env.freeVars).toList
  let rigid ← free.mapM fun m => return (m, Ty.rigid (← fresh "a"))
  return .ofList rigid

/-- Requires a type to be a type of values; its rigid variables must be in scope. -/
def checkClosed (t : Ty) : ElaborationM Unit := ofKinds (t.checkStar t.loc)

/-- Gives the unknown ones of some type names new metavariables for kinds, and says
which these were. -/
def bindUnknown (names : List String) : KindM (List String) := do
  match names with
  | [] => return []
  | x :: rest =>
    if ((← get).context.lookup? x).isSome then bindUnknown rest
    else
      let _ ← KindM.annotateFresh (.bare x)
      return x :: (← bindUnknown rest)

/-- Runs kind inference and then forgets the kinds of some names, also if it fails. -/
def thenForget (names : List String) (m : KindM α) : KindM α := fun st =>
  let forget (st : KindState) : KindState :=
    { st with context := names.foldl KindContext.unannotate st.context }
  match m st with
  | .ok a st => .ok a (forget st)
  | .error e st => .error e (forget st)

/-- Requires a type to be a type of values, whatever its rigid variables stand for. -/
def checkOpen (t : Ty) : ElaborationM Unit := ofKinds do
  let bound ← bindUnknown t.rigidVars.toList
  thenForget bound (t.checkStar t.loc)

end ElaborationM

end GuardedCommands
