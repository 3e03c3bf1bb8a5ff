import GuardedCommands.Config
import GuardedCommands.Elaboration.Program
import GuardedCommands.FileTree
import GuardedCommands.Verification.Verifier

/-!
# Analysing programs

An analysis elaborates a program and generates what is left to prove of it.  Programs
come as values, as JSON texts, or in files, next to which a configuration is looked
for.  Exactly one thing that went wrong is reported.
-/

namespace GuardedCommands

/-- All that is found out about a program. -/
structure Analysis where
  program : TypedProgram
  obligations : List Obligation
  holes : List SpecHole
  warnings : List Warning

inductive ParseError
  /-- The text ends too early; everything is right up to the given offset. -/
  | ended (offset : Nat)
  | refused
deriving DecidableEq

inductive AnalysisError
  | parse (e : ParseError)
  | elaboration (e : ElaborationError)
  | verification (e : VerificationError)
  | unreadable (p : TreePath)
  | config (e : ConfigError)

def AnalysisError.code : AnalysisError → String
  | .parse _ => "gcl::parse"
  | .elaboration e => e.code
  | .verification e => e.code
  | .unreadable _ => "gcl::io"
  | .config _ => "gcl::config"

namespace Program

/-- How many brackets of the text of a program may be open at once. -/
def maxDepth : Nat := 127

/-- The offset of the last byte of a text, or behind it if it is a line end. -/
def lastOffset (text : String) : Nat :=
  if text.isEmpty || text.endsWith "\n" then text.utf8ByteSize else text.utf8ByteSize - 1

def parse (text : String) : Except ParseError Program :=
  match Program.decoder.decodeText maxDepth text with
  | .ok p => .ok p
  | .ended => .error (.ended (lastOffset text))
  | .refused => .error .refused

def analyze (p : Program) (c : Config) : Except AnalysisError Analysis := do
  let typed ← p.elaborate.mapError .elaboration
  let output ← (TypedProgram.verify typed c.verify).mapError .verification
  return ⟨typed, output.obligations, output.holes, output.warnings⟩

end Program

namespace Analysis

def toJson (a : Analysis) : Json :=
  .obj [("program", TypedProgram.toJson a.program),
    ("obligations", .ofList Obligation.toJson a.obligations),
    ("specs", .ofList SpecHole.toJson a.holes), ("warnings", .ofList Warning.toJson a.warnings)]

def text (a : Analysis) : String := a.toJson.pretty

def decoder : Decoder Analysis :=
  .record (mk <$> .required "program" TypedProgram.decoder
    <*> .required "obligations" (.list Obligation.decoder)
    <*> .required "specs" (.list SpecHole.decoder) <*> .required "warnings" (.list Warning.decoder))

end Analysis

namespace FileTree

def configName : String := "gcl.toml"

def read (t : FileTree) (p : TreePath) : Except AnalysisError String :=
  match t.read? p with
  | some text => .ok text
  | none => .error (.unreadable p)

def config (t : FileTree) (p : TreePath) : Except AnalysisError Config := do
  (Config.parse (← t.read p)).mapError .config

def findConfig (t : FileTree) (start : TreePath) : Option TreePath := t.nearest? configName start

/-- The configuration in the nearest file, or the default if there is none. -/
def nearestConfig (t : FileTree) (start : TreePath) : Except AnalysisError Config :=
  match t.findConfig start with
  | some p => t.config p
  | none => .ok .default

/-- Analyses the program in a file with the nearest configuration.  An error of the
configuration goes before one of the program. -/
def analyze (t : FileTree) (p : TreePath) : Except AnalysisError Analysis := do
  let text ← t.read p
  let c ← t.nearestConfig p
  let program ← (Program.parse text).mapError .parse
  program.analyze c

end FileTree

end GuardedCommands
