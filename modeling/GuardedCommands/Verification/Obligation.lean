import GuardedCommands.Sha256
import GuardedCommands.TypeEnv
import GuardedCommands.Typed.Expr

/-!
# Proof obligations, holes and warnings

What is left to prove of a program, what is left to write, and what is not
checked.  An obligation is known by the digest of the texts of its two sides, so
obligations that read alike are alike, whatever their locations.
-/

namespace GuardedCommands

/-- A predicate that remembers where it comes from. -/
inductive Pred
  /-- Computed, not written. -/
  | constant (e : TypedExpr)
  | assertion (e : TypedExpr) (loc : Loc)
  | invariant (inv : TypedExpr) (bound : Option TypedExpr) (loc : Loc)

namespace Pred

def expr : Pred → TypedExpr
  | .constant e | .assertion e _ | .invariant e _ _ => e

def bound : Pred → Option TypedExpr
  | .invariant _ b _ => b
  | _ => none

def loc : Pred → Loc
  | .constant e => e.loc
  | .assertion _ l | .invariant _ _ l => l

end Pred

inductive Reason
  /-- An assertion or the postcondition is reached. -/
  | assertion
  /-- The body of a loop keeps the invariant. -/
  | preservation
  /-- The invariant with no guard left gives what follows the loop. -/
  | loopExit
  /-- The bound is not negative while the loop runs. -/
  | loopTermination
  /-- The body of a loop makes the bound smaller. -/
  | boundDecrease
deriving DecidableEq

structure Origin where
  reason : Reason
  loc : Loc

structure Obligation where
  pre : Pred
  post : Pred
  id : String
  label : Option String
  origin : Origin

/-- A hole: what is put there has to lead from `pre` to `post`. -/
structure SpecHole where
  id : Nat
  pre : Pred
  post : Pred
  env : TypeEnv
  loc : Loc

inductive Warning
  /-- A loop without a bound, which is not shown to end. -/
  | missingBound (loc : Loc)
  /-- A command of a loop whose decrease of the bound is not checked. -/
  | uncheckedDecrease (loc : Loc)

namespace Obligation

def digest (pre post : TypedExpr) : String := Sha256.digest (pre.text ++ "\n" ++ post.text)

def shortId (digest : String) (n : Nat) : String := .ofList (digest.toList.take n)

/-- The identifier of an obligation, of `n` digits if the digest has so many. -/
def idOf (pre post : TypedExpr) (n : Nat) : String := shortId (digest pre post) n

end Obligation

/-- Everything that is generated for a program. -/
structure Output where
  obligations : List Obligation
  holes : List SpecHole
  warnings : List Warning

end GuardedCommands
