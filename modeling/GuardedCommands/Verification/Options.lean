/-!
# Options of obligation generation
-/

namespace GuardedCommands

structure Options where
  /-- Whether an obligation that has been generated before is left out. -/
  dedupe : Bool
  /-- How many digits of a digest make an identifier. -/
  idLength : Nat
  /-- The stem of the constants that keep a bound as it was. -/
  boundStem : String
  /-- The stem of the variables that heap rules introduce. -/
  heapStem : String
deriving DecidableEq

namespace Options

def default : Options := ⟨true, 16, "bnd", "v"⟩

instance : Inhabited Options := ⟨default⟩

/-- An identifier has at least one digit and at most those of a whole digest. -/
def isValid (o : Options) : Bool := 1 ≤ o.idLength && o.idLength ≤ 64

def complaint (o : Options) : String :=
  "obligation_id_len must be between 1 and 64, got " ++ Nat.repr o.idLength

def validate (o : Options) : Except String Unit :=
  if o.isValid then .ok () else .error o.complaint

end Options

end GuardedCommands
