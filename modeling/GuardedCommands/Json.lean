import GuardedCommands.Expr.Printer

/-!
# JSON values and their texts

Objects keep the order of their fields.  There are two texts: a short one without
any blanks, and a long one with one item to a line, two blanks to a level.
-/

namespace GuardedCommands

inductive Json
  | null
  | bool (b : Bool)
  | int (n : Int)
  | str (s : String)
  | arr (items : List Json)
  | obj (fields : List (String × Json))

namespace Json

def hexDigit (n : Nat) : Char :=
  ['0', '1', '2', '3', '4', '5', '6', '7', '8', '9', 'a', 'b', 'c', 'd', 'e', 'f'].getD n '0'

/-- A character inside a string.  Quotes, backslashes and control characters are
escaped, the usual ones of these by a letter. -/
def escape (c : Char) : List Char :=
  if c = '"' then ['\\', '"']
  else if c = '\\' then ['\\', '\\']
  else if c = '\x08' then ['\\', 'b']
  else if c = '\t' then ['\\', 't']
  else if c = '\n' then ['\\', 'n']
  else if c = '\x0c' then ['\\', 'f']
  else if c = '\r' then ['\\', 'r']
  else if c.toNat < 0x20 then
    ['\\', 'u', '0', '0', hexDigit (c.toNat / 16), hexDigit (c.toNat % 16)]
  else [c]

def quote (s : String) : String := "\"" ++ String.ofList (s.toList.flatMap escape) ++ "\""

mutual

def compact : Json → String
  | .null => "null"
  | .bool true => "true"
  | .bool false => "false"
  | .int n => decimal n
  | .str s => quote s
  | .arr items => "[" ++ compactItems items ++ "]"
  | .obj fields => "\x7b" ++ compactFields fields ++ "\x7d"

def compactItems : List Json → String
  | [] => ""
  | [j] => j.compact
  | j :: js => j.compact ++ "," ++ compactItems js

def compactFields : List (String × Json) → String
  | [] => ""
  | [(x, j)] => quote x ++ ":" ++ j.compact
  | (x, j) :: fields => quote x ++ ":" ++ j.compact ++ "," ++ compactFields fields

end

def newline (level : Nat) : String := "\n" ++ String.ofList (List.replicate (2 * level) ' ')

mutual

/-- The text with one item to a line, for a value at a level. -/
def prettyAt (level : Nat) : Json → String
  | .null => "null"
  | .bool true => "true"
  | .bool false => "false"
  | .int n => decimal n
  | .str s => quote s
  | .arr [] => "[]"
  | .arr (j :: js) => "[" ++ prettyItems (level + 1) (j :: js) ++ newline level ++ "]"
  | .obj [] => "\x7b\x7d"
  | .obj (f :: fs) => "\x7b" ++ prettyFields (level + 1) (f :: fs) ++ newline level ++ "\x7d"

def prettyItems (level : Nat) : List Json → String
  | [] => ""
  | [j] => newline level ++ j.prettyAt level
  | j :: js => newline level ++ j.prettyAt level ++ "," ++ prettyItems level js

def prettyFields (level : Nat) : List (String × Json) → String
  | [] => ""
  | [(x, j)] => newline level ++ quote x ++ ": " ++ j.prettyAt level
  | (x, j) :: fields =>
    newline level ++ quote x ++ ": " ++ j.prettyAt level ++ "," ++ prettyFields level fields

end

def pretty (j : Json) : String := j.prettyAt 0

/-- The object with one field, by which a tree shows which case it is. -/
def tagged (tag : String) (j : Json) : Json := .obj [(tag, j)]

def ofOption (f : α → Json) : Option α → Json
  | none => .null
  | some a => f a

def ofList (f : α → Json) (items : List α) : Json := .arr (items.map f)

end Json

end GuardedCommands
