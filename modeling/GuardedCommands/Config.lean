import GuardedCommands.Encoding.Verification
import GuardedCommands.Toml.Reader

/-!
# Configuration

The settings of a session.  All of them stand in one table, each may be left out,
and nothing else may be said.
-/

namespace GuardedCommands

structure Config where
  verify : Options
deriving DecidableEq

inductive ConfigError
  /-- The text is no settings document, or says something that is no setting. -/
  | malformed
  /-- A setting has a value that it must not have. -/
  | invalid (complaint : String)
deriving DecidableEq

namespace Options

def set (o : Options) : (key : String) → Toml.Value → Option Options
  | "dedupe_obligations", .bool b => some { o with dedupe := b }
  | "obligation_id_len", .int n => if 0 ≤ n then some { o with idLength := n.toNat } else none
  | "bound_prefix", .str s => some { o with boundStem := s }
  | "heap_prefix", .str s => some { o with heapStem := s }
  | _, _ => none

/-- The settings in the order in which an array gives them. -/
def keys : List String := ["dedupe_obligations", "obligation_id_len", "bound_prefix", "heap_prefix"]

/-- Makes all settings of a table that is written as a value.  An array gives the first
settings in order. -/
def setAll (o : Options) : Toml.Value → Option Options
  | .table entries => entries.foldlM (fun o e => match e with
      | ([key], value) => o.set key value
      | _ => none) o
  | .array items => (keys.zip items).foldlM (fun o (key, value) => o.set key value) o
  | _ => none

end Options

namespace Config

def default : Config := ⟨.default⟩

instance : Inhabited Config := ⟨default⟩

def table : String := "verify"

def set (c : Config) (e : Toml.Entry) : Option Config :=
  match e.path with
  | [t] => if t = table then mk <$> c.verify.setAll e.value else none
  | [t, key] => if t = table then mk <$> c.verify.set key e.value else none
  | _ => none

def ofDocument (d : Toml.Document) : Option Config :=
  if d.headers.all (· == [table]) then d.entries.foldlM set default else none

def parse (text : String) : Except ConfigError Config :=
  match Toml.read text >>= ofDocument with
  | none => .error .malformed
  | some c => match c.verify.validate with
    | .ok () => .ok c
    | .error complaint => .error (.invalid complaint)

def toJson (c : Config) : Json := .obj [(table, c.verify.toJson)]

end Config

end GuardedCommands
