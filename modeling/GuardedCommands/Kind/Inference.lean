import GuardedCommands.Kind.Unify
import GuardedCommands.Program
import GuardedCommands.Ty.Subst

/-!
# Inference of kinds

The kind of a type follows from the kinds of the names in it.  Datatypes may
refer to each other, so a whole group gets metavariables for kinds before any
constructor is looked at; what is still unsolved in the end is `*`.
-/

namespace GuardedCommands

namespace KindM

def zonk (k : Kind) : KindM Kind := return (← get).context.zonk k

def fresh : KindM Name := modifyGet fun st =>
  (st.supply.next "k", { st with supply := st.supply.advance })

/-- Puts a new unsolved metavariable at the end of the context. -/
def pushUnsolved : KindM Name := do
  let n ← fresh
  modify fun st => { st with context := st.context.push (.unsolved n) }
  return n

def annotate (n : Name) (k : Kind) : KindM Unit := do
  if (KindContext.annotation? n.text (← get).context.entries).isSome then
    throw (.duplicatedIdentifiers [n.text] n.loc)
  modify fun st => { st with context := st.context.push (.annotated n k) }

def unannotate (x : String) : KindM Unit :=
  modify fun st => { st with context := st.context.unannotate x }

def defaultUnsolved : KindM Unit :=
  modify fun st => { st with context := st.context.defaultUnsolved }

def annotateFresh (n : Name) : KindM Name := do
  let m ← pushUnsolved
  annotate n (.metavar m)
  return m

end KindM

namespace Kind

/-- The kind of a constructor of kind `k` applied to an argument of kind `arg`.  An
unsolved metavariable in the place of `k` is split into a domain and a codomain. -/
def applied (k arg : Kind) (loc : Loc) : KindM Kind := do
  let st ← get
  match st.context.zonk k with
  | .arrow dom cod =>
    unify dom arg loc
    KindM.zonk cod
  | .metavar a =>
    match KindContext.split? a.text st.context.entries with
    | some (before, n, after) =>
      let dom ← KindM.fresh
      let cod ← KindM.fresh
      modify fun st => { st with context := ⟨before ++ [.unsolved dom, .unsolved cod,
        .solved n (.arrow (.metavar dom) (.metavar cod))] ++ after⟩ }
      unify (.metavar dom) arg loc
      KindM.zonk (.metavar cod)
    | none => throw (.kindUnifyFailed (.arrow arg .star) (.metavar a) loc)
  | .star => throw (.kindUnifyFailed (.arrow arg .star) .star loc)

end Kind

namespace Ty

def nameKind (n : Name) : KindM Kind := do
  match (← get).context.lookup? n.text with
  | some k => return k
  | none => throw (.undefinedType n.text n.loc)

def kind : Ty → KindM Kind
  | .base .. => return .star
  | .array _ elem loc => do
    let k ← elem.kind
    Kind.unify k .star loc
    return .star
  | .tuple arity _ => return .starArity arity.toNat
  | .arrow _ => return .starArity 2
  | .data n | .rigid n | .metavar n => nameKind n
  | .app head arg loc => do
    let k ← head.kind
    let l ← arg.kind
    Kind.applied k l loc

def checkStar (t : Ty) (loc : Loc) : KindM Unit := do
  let k ← t.kind
  Kind.unify k .star loc

end Ty

namespace Datatype

def strayVars (d : Datatype) (c : Ctor) : NameSet :=
  NameSet.unionMap Ty.rigidVars c.args \ NameSet.ofList (d.params.map (·.text))

def checkCtor (d : Datatype) (c : Ctor) : KindM Unit := do
  let stray := d.strayVars c
  if !stray.isEmpty then
    throw (.missingArguments stray.toList c.loc)
  c.args.forM (·.checkStar c.loc)

/-- Finds the kind of one datatype of a group, for which a metavariable stands. -/
def inferMember (d : Datatype) (m : Name) : KindM Unit := do
  let params ← d.params.mapM fun p => return Kind.metavar (← KindM.annotateFresh p)
  d.ctors.forM d.checkCtor
  Kind.unify (.metavar m) (.arrows params) d.loc
  d.params.forM (KindM.unannotate ·.text)

def inferGroup (ds : List Datatype) : KindM (List Kind) := do
  let metas ← ds.mapM (KindM.annotateFresh ·.name)
  (ds.zip metas).forM fun (d, m) => d.inferMember m
  KindM.defaultUnsolved
  metas.mapM (KindM.zonk <| .metavar ·)

end Datatype

end GuardedCommands
