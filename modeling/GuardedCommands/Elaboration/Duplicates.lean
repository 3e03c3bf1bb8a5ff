import GuardedCommands.Elaboration.Error
import GuardedCommands.Program

/-!
# Names bound twice

Declared names, constructors and functions share one space of names; datatypes
have another.  A function with a signature and a definition counts once.
-/

namespace GuardedCommands

namespace Program

def signedNames (p : Program) : NameSet :=
  .ofList (p.defns.filterMap fun
    | .signature n _ _ _ => some n.text
    | _ => none)

/-- The names that a definition adds to those usable in expressions, where a function
with a signature is added by the signature. -/
def definedNames (signed : NameSet) : Definition → List Name
  | .datatype d => d.ctors.map (·.name)
  | .signature n _ _ _ => [n]
  | .function n _ _ => if n.text ∈ signed then [] else [n]

def valueNames (p : Program) : List Name :=
  p.decls.flatMap (·.names) ++ p.defns.flatMap (definedNames p.signedNames)

def typeNames (p : Program) : List Name :=
  p.defns.filterMap fun
    | .datatype d => some d.name
    | _ => none

end Program

/-- The second occurrence of every name that occurs at least twice, in order, given the
names seen before and the repeated ones among them. -/
def repeated (seen again : NameSet) : List Name → List Name
  | [] => []
  | n :: ns =>
    if n.text ∈ seen then
      if n.text ∈ again then repeated seen again ns
      else n :: repeated seen (again.insert n.text) ns
    else repeated (seen.insert n.text) again ns

def checkDistinct (names : List Name) : Except ElaborationError Unit :=
  match repeated ∅ ∅ names with
  | [] => .ok ()
  | n :: ns => .error (.duplicatedIdentifiers ((n :: ns).map (·.text)) n.loc)

def Program.checkDistinct (p : Program) : Except ElaborationError Unit := do
  GuardedCommands.checkDistinct p.valueNames
  GuardedCommands.checkDistinct p.typeNames

end GuardedCommands
