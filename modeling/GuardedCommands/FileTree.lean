/-!
# File trees

A tree of directories with texts in it, as a list of the files and of the directories
that may be empty.  The directories on the way to a file need not be listed.

A place of a tree has one list of names.  A path is what somebody wrote to get there:
it may stay where it is, or go up, and it is kept as it was written.
-/

namespace GuardedCommands

/-- The names from a place up to the top of a tree. -/
abbrev TreePlace := List String

structure FileTree where
  files : List (TreePlace × String)
  dirs : List TreePlace

/-- A path from the top of a tree, by what stands between its slashes, last first. -/
abbrev TreePath := List String

namespace TreePath

def ofString (s : String) : TreePath := (s.splitOn "/").reverse

def isSilent (piece : String) : Bool := piece == "" || piece == "."

/-- The place that a path is for that does not go up. -/
def place (p : TreePath) : TreePlace := p.filter (!isSilent ·)

/-- The text of a path, from the first piece that leads anywhere. -/
def text (p : TreePath) : String := "/".intercalate (p.reverse.dropWhile isSilent)

def child (p : TreePath) (name : String) : TreePath :=
  match p with
  | "" :: above => name :: above
  | _ => name :: p

/-- The paths to the directories that a path goes through, nearest first.  They do not
end in silent pieces. -/
def ancestors : TreePath → List TreePath
  | [] => []
  | piece :: above =>
    if isSilent piece then ancestors above else above.dropWhile isSilent :: ancestors above

end TreePath

namespace FileTree

def isDir (t : FileTree) (here : TreePlace) : Bool :=
  here.isEmpty || t.dirs.any here.isSuffixOf || t.files.any fun f => here.isSuffixOf f.1.tail

/-- One step from a directory.  Going up does not lead out of the tree. -/
def step? (t : FileTree) (here : TreePlace) (piece : String) : Option TreePlace :=
  if !t.isDir here then none
  else if TreePath.isSilent piece then some here
  else if piece = ".." then here.tail?
  else some (piece :: here)

def resolve? (t : FileTree) : TreePath → Option TreePlace
  | [] => some []
  | piece :: above => do t.step? (← t.resolve? above) piece

def read? (t : FileTree) (p : TreePath) : Option String := do
  t.files.lookup (← t.resolve? p)

def isFile (t : FileTree) (p : TreePath) : Bool := (t.read? p).isSome

/-- The nearest file of a name that goes with a path: next to a file, in a directory,
or above. -/
def nearest? (t : FileTree) (name : String) (start : TreePath) : Option TreePath :=
  let dirs := if t.isFile start then start.ancestors else start :: start.ancestors
  (dirs.map (·.child name)).find? t.isFile

end FileTree

end GuardedCommands
