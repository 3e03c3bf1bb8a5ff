import GuardedCommands.Loc

/-!
# Why obligations cannot be generated
-/

namespace GuardedCommands

inductive VerificationError
  /-- An assignment to an element of an array that is not a plain name. -/
  | nestedArray (loc : Loc)
  /-- A loop without an invariant right before it. -/
  | missingAssertion (loc : Loc)
deriving DecidableEq

namespace VerificationError

def loc : VerificationError → Loc
  | .nestedArray l | .missingAssertion l => l

def message : VerificationError → String
  | .nestedArray _ => "assignment through a nested array is not implemented"
  | .missingAssertion _ => "loop is not preceded by an assertion"

def code : VerificationError → String
  | .nestedArray _ => "gcl::structure::multi_dim_array_assign"
  | .missingAssertion _ => "gcl::structure::missing_assertion"

def help : VerificationError → String
  | .nestedArray _ => "assign the inner array to a variable and update that instead"
  | .missingAssertion _ => "put an invariant assertion with a bound right before `do`"

end VerificationError

end GuardedCommands
