import GuardedCommands.Loc
import GuardedCommands.NameSet

/-!
# New names

There are two ways to a new name.  A supply counts the names it has issued and
puts the count into the next one; its names begin with a question mark, so no
source name is among them.  A search goes through `stem`, `stem0`, `stem1`, … for
the first name that is in none of some scopes.
-/

namespace GuardedCommands

/-- A supply of names, known by how many it has issued. -/
structure Supply where
  issued : Nat
deriving DecidableEq

namespace Supply

def initial : Supply := ⟨0⟩

/-- The next name of a supply, with a hint of what it is for. -/
def next (s : Supply) (hint : String) : Name := .bare ("?" ++ hint ++ Nat.repr s.issued)

def advance (s : Supply) : Supply := ⟨s.issued + 1⟩

end Supply

namespace Fresh

def taken (scopes : List NameSet) (x : String) : Bool := scopes.any (·.contains x)

/-- Tries `stem` with the numbers from `i` on, at most `tries` of them in vain. -/
def search (scopes : List NameSet) (stem : String) : (tries i : Nat) → String
  | 0, i => stem ++ Nat.repr i
  | tries + 1, i =>
    let candidate := stem ++ Nat.repr i
    if taken scopes candidate then search scopes stem tries (i + 1) else candidate

def memberCount : List NameSet → Nat
  | [] => 0
  | s :: ss => s.size + memberCount ss

/-- The first of `stem`, `stem0`, `stem1`, … that is in none of the scopes.  There are
no more names in vain than the scopes have members. -/
def inScopes (stem : String) (scopes : List NameSet) : String :=
  if taken scopes stem then search scopes stem (memberCount scopes) 0 else stem

end Fresh

end GuardedCommands
