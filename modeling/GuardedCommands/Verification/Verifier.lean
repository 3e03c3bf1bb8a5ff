import GuardedCommands.Verification.Structure

/-!
# Verifying programs

A verifier works through programs one after the other and collects what they
leave to prove.  Scopes entered by hand count for every later choice of a name;
the scopes of a program are left with it.
-/

namespace GuardedCommands

structure Verifier where
  options : Options
  scopes : Scopes
  ledger : Ledger

namespace Verifier

def start (o : Options) : Verifier := ⟨o, [], .empty⟩

/-- Makes names visible to every later choice of a name. -/
def enterScope (v : Verifier) (names : List String) : Verifier :=
  { v with scopes := NameSet.ofList names :: v.scopes }

def wp (v : Verifier) (ss : List TypedStmt) (post : TypedExpr) :
    Except VerificationError TypedExpr :=
  Wp.list v.options v.scopes post ss

def program (v : Verifier) (p : TypedProgram) : Except VerificationError Unit × Verifier :=
  match Structure.program v.options v.scopes p v.ledger with
  | .ok () ledger => (.ok (), { v with ledger := ledger })
  | .error e ledger => (.error e, { v with ledger := ledger })

def finish (v : Verifier) : Output := v.ledger.output

end Verifier

/-- Everything that a program leaves to prove. -/
def TypedProgram.verify (p : TypedProgram) (o : Options) : Except VerificationError Output :=
  let (result, v) := (Verifier.start o).program p
  result.map fun _ => v.finish

end GuardedCommands
