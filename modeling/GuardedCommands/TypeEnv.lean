import GuardedCommands.Ty.Subst

/-!
# Typing environments

An environment lists the names in scope with what is known of them, oldest
first; of two entries of one name the later counts.
-/

namespace GuardedCommands

inductive Role
  | ctor | const | var
deriving DecidableEq

structure TypeInfo where
  role : Role
  ty : Ty

namespace TypeInfo

def isMutable (i : TypeInfo) : Bool := i.role == .var

end TypeInfo

structure TypeEnv where
  entries : List (Name × TypeInfo)

namespace TypeEnv

def empty : TypeEnv := ⟨[]⟩

def insert (env : TypeEnv) (x : Name) (info : TypeInfo) : TypeEnv := ⟨env.entries ++ [(x, info)]⟩

def insertAll (env : TypeEnv) (xs : List Name) (info : TypeInfo) : TypeEnv :=
  ⟨env.entries ++ xs.map fun x => (x, info)⟩

def lookup? (env : TypeEnv) (x : String) : Option TypeInfo :=
  (env.entries.reverse.find? fun e => e.1.text == x).map (·.2)

def contains (env : TypeEnv) (x : String) : Bool := (env.lookup? x).isSome

def isEmpty (env : TypeEnv) : Bool := env.entries.isEmpty

def truncate (env : TypeEnv) (n : Nat) : TypeEnv := ⟨env.entries.take n⟩

def names (env : TypeEnv) : List Name := env.entries.map (·.1)

def subst (s : Ty.Subst) (env : TypeEnv) : TypeEnv :=
  ⟨env.entries.map fun (x, info) => (x, { info with ty := info.ty.subst s })⟩

def freeVars (env : TypeEnv) : NameSet := NameSet.unionMap (·.2.ty.freeVars) env.entries

end TypeEnv

end GuardedCommands
