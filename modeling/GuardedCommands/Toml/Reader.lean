import GuardedCommands.Json.Document
import GuardedCommands.Toml

/-!
# Reading settings documents

Each reader takes what it reads from the beginning of a text and gives the rest.  A
line holds a header, an entry or nothing, and may end in a comment.
-/

namespace GuardedCommands

namespace Toml

/-- A reader of something at the beginning of a text. -/
abbrev Reader (α : Type) := List Char → Option (α × List Char)

def isSpace (c : Char) : Bool := c == ' ' || c == '\t'

def skipSpaces (cs : List Char) : List Char := cs.dropWhile isSpace

/-- The characters that may stand in a string or a comment: no control characters but
the tab. -/
def isPlain (c : Char) : Bool := c == '\t' || (0x20 ≤ c.toNat && c.toNat != 0x7F)

/-- What follows the end of a line, if this is one. -/
def skipNewline : List Char → Option (List Char)
  | '\n' :: rest | '\r' :: '\n' :: rest => some rest
  | _ => none

/-- What follows a line that has nothing more in it but a comment. -/
def skipLineEnd (cs : List Char) : Option (List Char) :=
  let cs := match skipSpaces cs with
    | '#' :: rest => rest.dropWhile isPlain
    | cs => cs
  if cs.isEmpty then some [] else skipNewline cs

/-! ## Strings -/

/-- The character with a number, if there is one. -/
def scalar? (n : Nat) : Option Char := if h : n.isValidChar then some (Char.ofNatAux n h) else none

def hexDigits? (cs : List Char) : Option Nat :=
  cs.foldlM (fun n c => (16 * n + ·) <$> Document.hexValue? c) 0

def letterEscape? : Char → Option Char
  | 'b' => some '\x08'
  | 't' => some '\t'
  | 'n' => some '\n'
  | 'f' => some '\x0c'
  | 'r' => some '\r'
  | '"' => some '"'
  | '\\' => some '\\'
  | _ => none

def readEscape : Reader Char
  | 'u' :: a :: b :: c :: d :: rest => do
    return (← scalar? (← hexDigits? [a, b, c, d]), rest)
  | 'U' :: a :: b :: c :: d :: e :: f :: g :: h :: rest => do
    return (← scalar? (← hexDigits? [a, b, c, d, e, f, g, h]), rest)
  | c :: rest => do return (← letterEscape? c, rest)
  | [] => none

/-- The rest of a string in double quotes.  Each step reads a character, so the length
of the text is enough for `fuel`. -/
def readBasic (acc : List Char) : (fuel : Nat) → Reader String
  | 0, _ => none
  | fuel + 1, cs =>
    match cs with
    | '"' :: rest => some (.ofList acc.reverse, rest)
    | '\\' :: rest => do
      let (c, rest) ← readEscape rest
      readBasic (c :: acc) fuel rest
    | c :: rest => if isPlain c then readBasic (c :: acc) fuel rest else none
    | [] => none

def readLiteral (cs : List Char) : Option (String × List Char) :=
  match cs.dropWhile fun c => isPlain c && c != '\'' with
  | '\'' :: rest => some (.ofList (cs.takeWhile fun c => isPlain c && c != '\''), rest)
  | _ => none

def skipBlankLines : List Char → List Char
  | '\r' :: '\n' :: rest => skipBlankLines rest
  | c :: rest => if isSpace c || c == '\n' then skipBlankLines rest else c :: rest
  | [] => []

/-- What follows a backslash at the end of a line: the line goes on at the next
character that is not blank. -/
def skipFold (cs : List Char) : Option (List Char) :=
  skipBlankLines <$> skipNewline (skipSpaces cs)

/-- The rest of a string of several lines between three quotes each.  At its end there
may be up to two quotes more, which belong to the string. -/
def readLong (quote : Char) (acc : List Char) : (fuel : Nat) → Reader String
  | 0, _ => none
  | fuel + 1, cs =>
    let quotes := (cs.takeWhile (· == quote)).length
    if 3 ≤ quotes then
      let extra := min (quotes - 3) 2
      some (.ofList (acc.reverse ++ List.replicate extra quote), cs.drop (extra + 3))
    else
      match skipNewline cs with
      | some rest => readLong quote ('\n' :: acc) fuel rest
      | none =>
        match cs with
        | [] => none
        | c :: rest =>
          if c = '\\' ∧ quote = '"' then
            match skipFold rest with
            | some rest => readLong quote acc fuel rest
            | none => do
              let (c, rest) ← readEscape rest
              readLong quote (c :: acc) fuel rest
          else if isPlain c then readLong quote (c :: acc) fuel rest
          else none

/-- A newline right after the opening quotes does not count. -/
def readLongFrom (quote : Char) (cs : List Char) : Option (String × List Char) :=
  let cs := (skipNewline cs).getD cs
  readLong quote [] (cs.length + 1) cs

/-! ## Keys -/

def isBareKey (c : Char) : Bool := c.isAlphanum || c == '_' || c == '-'

def readKeyPart : Reader String
  | '"' :: rest => readBasic [] (rest.length + 1) rest
  | '\'' :: rest => readLiteral rest
  | cs =>
    match cs.takeWhile isBareKey with
    | [] => none
    | part => some (.ofList part, cs.dropWhile isBareKey)

def readKeyAt : (fuel : Nat) → Reader Path
  | 0, _ => none
  | fuel + 1, cs => do
    let (part, rest) ← readKeyPart cs
    match skipSpaces rest with
    | '.' :: rest => do
      let (parts, rest) ← readKeyAt fuel (skipSpaces rest)
      return (part :: parts, rest)
    | rest => return ([part], rest)

def readKey (cs : List Char) : Option (Path × List Char) := readKeyAt (cs.length + 1) cs

/-! ## Values -/

/-- The number that digits in a base stand for.  An underscore may stand between two digits. -/
def digits? (base : Nat) (n : Nat) (afterDigit : Bool) : List Char → Option Nat
  | [] => if afterDigit then some n else none
  | '_' :: cs => if afterDigit then digits? base n false cs else none
  | c :: cs => do
    let d ← Document.hexValue? c
    if d < base then digits? base (base * n + d) true cs else none

/-- A number without a sign.  A zero in front of other digits is no number. -/
def decimal? : List Char → Option Nat
  | '0' :: _ :: _ => none
  | cs => digits? 10 0 false cs

def int? : List Char → Option Int
  | '+' :: cs => (↑·) <$> decimal? cs
  | '-' :: cs => (-↑·) <$> decimal? cs
  | '0' :: 'x' :: cs => (↑·) <$> digits? 16 0 false cs
  | '0' :: 'o' :: cs => (↑·) <$> digits? 8 0 false cs
  | '0' :: 'b' :: cs => (↑·) <$> digits? 2 0 false cs
  | cs => (↑·) <$> decimal? cs

/-- What a word or a number says.  Integers have 64 bits. -/
def plain? (cs : List Char) : Option Value :=
  if cs = ['t', 'r', 'u', 'e'] then some (.bool true)
  else if cs = ['f', 'a', 'l', 's', 'e'] then some (.bool false)
  else do
    let n ← int? cs
    if Int64.minValue.toInt ≤ n ∧ n ≤ Int64.maxValue.toInt then return .int n else none

def isWord (c : Char) : Bool := c.isAlphanum || c == '_' || c == '+' || c == '-'

/-- What follows blanks, line ends and comments; they may stand between the items of
an array. -/
def skipLines : (fuel : Nat) → List Char → List Char
  | 0, cs => cs
  | fuel + 1, cs =>
    match skipSpaces cs with
    | [] => []
    | cs => match skipLineEnd cs with
      | some rest => skipLines fuel rest
      | none => cs

mutual

def readValueAt : (fuel : Nat) → Reader Value
  | 0, _ => none
  | fuel + 1, cs =>
    match cs with
    | '"' :: '"' :: '"' :: rest => do
      let (s, rest) ← readLongFrom '"' rest
      return (.str s, rest)
    | '"' :: rest => do
      let (s, rest) ← readBasic [] (rest.length + 1) rest
      return (.str s, rest)
    | '\'' :: '\'' :: '\'' :: rest => do
      let (s, rest) ← readLongFrom '\'' rest
      return (.str s, rest)
    | '\'' :: rest => do
      let (s, rest) ← readLiteral rest
      return (.str s, rest)
    | '[' :: rest => do
      let (items, rest) ← readItems fuel (skipLines rest.length rest)
      return (.array items, rest)
    | '\x7b' :: rest =>
      match skipSpaces rest with
      | '\x7d' :: rest => some (.table [], rest)
      | rest => do
        let (entries, rest) ← readEntries fuel rest
        if independent (entries.map (·.1)) then return (.table entries, rest) else none
    | cs => do return (← plain? (cs.takeWhile isWord), cs.dropWhile isWord)

/-- The items of an array up to its end.  A comma may follow the last. -/
def readItems : (fuel : Nat) → Reader (List Value)
  | 0, _ => none
  | fuel + 1, cs =>
    match cs with
    | ']' :: rest => some ([], rest)
    | cs => do
      let (item, rest) ← readValueAt fuel cs
      match skipLines rest.length rest with
      | ']' :: rest => return ([item], rest)
      | ',' :: rest => do
        let (items, rest) ← readItems fuel (skipLines rest.length rest)
        return (item :: items, rest)
      | _ => none

/-- The entries of a table written as a value, up to its end. -/
def readEntries : (fuel : Nat) → Reader (List (Path × Value))
  | 0, _ => none
  | fuel + 1, cs => do
    let (key, rest) ← readKey (skipSpaces cs)
    match rest with
    | '=' :: rest => do
      let (value, rest) ← readValueAt fuel (skipSpaces rest)
      match skipSpaces rest with
      | '\x7d' :: rest => return ([(key, value)], rest)
      | ',' :: rest => do
        let (entries, rest) ← readEntries fuel rest
        return ((key, value) :: entries, rest)
      | _ => none
    | _ => none

end

def readValue (cs : List Char) : Option (Value × List Char) :=
  readValueAt (2 * cs.length + 2) cs

/-! ## Documents -/

/-- The lines from one on, under the header last read.  Every line takes a character,
so the length of the text is enough for `fuel`. -/
def readLines : (fuel : Nat) → (under : Path) → List Char → Option Document
  | 0, _, cs => if cs.isEmpty then some ⟨[], []⟩ else none
  | fuel + 1, under, cs =>
    match skipSpaces cs with
    | [] => some ⟨[], []⟩
    | '[' :: rest => do
      let (path, rest) ← readKey (skipSpaces rest)
      match rest with
      | ']' :: rest => do
        let d ← readLines fuel path (← skipLineEnd rest)
        return { d with headers := path :: d.headers }
      | _ => none
    | cs =>
      match skipLineEnd cs with
      | some rest => readLines fuel under rest
      | none => do
        let (key, rest) ← readKey cs
        match rest with
        | '=' :: rest => do
          let (value, rest) ← readValue (skipSpaces rest)
          let d ← readLines fuel under (← skipLineEnd rest)
          return { d with entries := ⟨under, key, value⟩ :: d.entries }
        | _ => none

/-- Reads a document in which everything is said once.  A byte order mark may stand in
front of it. -/
def read (text : String) : Option Document := do
  let cs := match text.toList with
    | '\ufeff' :: cs => cs
    | cs => cs
  let d ← readLines (cs.length + 1) [] cs
  if d.isConsistent then return d else none

end Toml

end GuardedCommands
