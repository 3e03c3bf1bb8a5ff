/-!
# Settings documents

A settings document in TOML is a list of entries, each with the section that it
stands in, and the list of the headers that open the sections.  Tables are not built:
that a document says everything once is a condition on the paths in it.

Floating numbers, dates and arrays of tables are no settings, and not represented.
-/

namespace GuardedCommands

namespace Toml

abbrev Path := List String

inductive Value
  | str (s : String)
  | int (n : Int)
  | bool (b : Bool)
  | array (items : List Value)
  /-- A table written as a value. -/
  | table (entries : List (Path × Value))

structure Entry where
  /-- The path of the header that the entry stands under. -/
  under : Path
  key : Path
  value : Value

namespace Entry

def path (e : Entry) : Path := e.under ++ e.key

/-- Whether the entry makes the table at a path by having a dot in its key. -/
def makes (e : Entry) (p : Path) : Bool :=
  e.under.isPrefixOf p && e.under != p && p.isPrefixOf e.path && p != e.path

end Entry

/-- None of the paths is the beginning of another, so each can have a value. -/
def independent : List Path → Bool
  | [] => true
  | p :: ps => ps.all (fun q => !p.isPrefixOf q && !q.isPrefixOf p) && independent ps

structure Document where
  headers : List Path
  entries : List Entry

/-- Everything is said once: a header opens a table that no other header, entry or
dotted key has made, and no entry has the path of another or a path within it. -/
def Document.isConsistent (d : Document) : Bool :=
  d.headers.eraseDups.length == d.headers.length
    && independent (d.entries.map (·.path))
    && d.headers.all fun h =>
      d.entries.all fun e => !e.path.isPrefixOf h && !e.makes h

end Toml

end GuardedCommands
