/-!
# Reading JSON

A text is read into a document as far as it goes.  Where it ends too early, or is
no JSON, the document has a break and nothing behind it; what was read before is
there, so it can still be judged.  Numbers with a fraction or an exponent are
recognised and not evaluated, and so is minus zero.
-/

namespace GuardedCommands

/-- Why there is no value at a place. -/
inductive Break
  /-- The text is over. -/
  | ended
  /-- The text ends inside a string, whose surrogates so far are paired or not. -/
  | cutText (paired : Bool)
  /-- The text ends inside one of the words `null`, `true` and `false`. -/
  | cutWord
  /-- The text ends inside a number. -/
  | cutNumber
  /-- The text is no JSON. -/
  | fault
deriving DecidableEq

/-- How a list or a record ends. -/
inductive Ending
  | closed
  /-- The text is over. -/
  | unfinished
  /-- Something else stands where a comma or the closing bracket should. -/
  | fault
deriving DecidableEq

/-- The name of a field; a string with an unpaired surrogate is no text. -/
inductive Key
  | text (s : Option String)
  | broken (b : Break)
deriving DecidableEq

inductive Document
  | null
  | bool (b : Bool)
  | int (n : Int)
  /-- A number that is not written as an integer. -/
  | real
  /-- A string; one with an unpaired surrogate is no text. -/
  | text (s : Option String)
  | list (items : List Document) (ending : Ending)
  | record (fields : List (Key × Document)) (ending : Ending)
  | broken (b : Break)

namespace Document

def isBlank (c : Char) : Bool := c == ' ' || c == '\t' || c == '\n' || c == '\r'

def skipBlanks (cs : List Char) : List Char := cs.dropWhile isBlank

def readWord (word : Document) : (letters : List Char) → List Char → Document × List Char
  | [], cs => (word, cs)
  | _ :: _, [] => (.broken .cutWord, [])
  | l :: ls, c :: cs => if c = l then readWord word ls cs else (.broken .fault, [])

def digitsValue (ds : List Char) : Nat := ds.foldl (fun n d => 10 * n + (d.toNat - '0'.toNat)) 0

def readExponent (cs : List Char) : Document × List Char :=
  let cs := match cs with
    | '+' :: rest | '-' :: rest => rest
    | cs => cs
  match cs with
  | [] => (.broken .cutNumber, [])
  | c :: rest => if c.isDigit then (.real, rest.dropWhile Char.isDigit) else (.broken .fault, [])

def readFraction (cs : List Char) : Document × List Char :=
  match cs with
  | [] => (.broken .cutNumber, [])
  | c :: rest =>
    if c.isDigit then
      match rest.dropWhile Char.isDigit with
      | 'e' :: rest | 'E' :: rest => readExponent rest
      | rest => (.real, rest)
    else (.broken .fault, [])

def readTail (negative : Bool) (n : Nat) (cs : List Char) : Document × List Char :=
  match cs with
  | '.' :: rest => readFraction rest
  | 'e' :: rest | 'E' :: rest => readExponent rest
  | rest =>
    if negative then
      if n = 0 then (.real, rest) else (.int (-(n : Int)), rest)
    else (.int n, rest)

/-- A number without its sign.  A zero in front of other digits is no number. -/
def readNumber (negative : Bool) (cs : List Char) : Document × List Char :=
  match cs with
  | [] => (.broken .cutNumber, [])
  | '0' :: rest =>
    match rest with
    | c :: _ => if c.isDigit then (.broken .fault, []) else readTail negative 0 rest
    | [] => readTail negative 0 []
  | cs =>
    match cs.takeWhile Char.isDigit with
    | [] => (.broken .fault, [])
    | ds => readTail negative (digitsValue ds) (cs.dropWhile Char.isDigit)

def hexValue? (c : Char) : Option Nat :=
  if '0' ≤ c ∧ c ≤ '9' then some (c.toNat - '0'.toNat)
  else if 'a' ≤ c ∧ c ≤ 'f' then some (c.toNat - 'a'.toNat + 10)
  else if 'A' ≤ c ∧ c ≤ 'F' then some (c.toNat - 'A'.toNat + 10)
  else none

def hexValue4? (a b c d : Char) : Option Nat := do
  let a ← hexValue? a
  let b ← hexValue? b
  let c ← hexValue? c
  let d ← hexValue? d
  return 4096 * a + 256 * b + 16 * c + d

def letterEscape? : Char → Option Char
  | '"' => some '"'
  | '\\' => some '\\'
  | '/' => some '/'
  | 'b' => some '\x08'
  | 'f' => some '\x0c'
  | 'n' => some '\n'
  | 'r' => some '\r'
  | 't' => some '\t'
  | _ => none

/-- The characters of a string so far, last first. -/
structure TextSoFar where
  chars : List Char
  /-- A leading surrogate that waits for its other half. -/
  leading : Option Nat
  paired : Bool

namespace TextSoFar

def empty : TextSoFar := ⟨[], none, true⟩

def push (t : TextSoFar) (c : Char) : TextSoFar :=
  ⟨c :: t.chars, none, t.paired && t.leading.isNone⟩

/-- Adds a unit of sixteen bits. -/
def pushUnit (t : TextSoFar) (u : Nat) : TextSoFar :=
  if 0xD800 ≤ u ∧ u < 0xDC00 then
    ⟨t.chars, some u, t.paired && t.leading.isNone⟩
  else if 0xDC00 ≤ u ∧ u < 0xE000 then
    match t.leading with
    | some l =>
      ⟨Char.ofNat (0x10000 + 0x400 * (l - 0xD800) + (u - 0xDC00)) :: t.chars, none, t.paired⟩
    | none => ⟨t.chars, none, false⟩
  else t.push (Char.ofNat u)

def finish (t : TextSoFar) : Option String :=
  if t.paired && t.leading.isNone then some (.ofList t.chars.reverse) else none

end TextSoFar

inductive TextRead
  | done (s : Option String) (rest : List Char)
  | broken (b : Break)

def readText (t : TextSoFar) : List Char → TextRead
  | [] => .broken (.cutText t.paired)
  | '"' :: rest => .done t.finish rest
  | '\\' :: 'u' :: a :: b :: c :: d :: rest =>
    match hexValue4? a b c d with
    | some u => readText (t.pushUnit u) rest
    | none => .broken .fault
  | '\\' :: 'u' :: rest =>
    if (String.ofList rest).utf8ByteSize < 4 then .broken (.cutText t.paired) else .broken .fault
  | '\\' :: e :: rest =>
    match letterEscape? e with
    | some c => readText (t.push c) rest
    | none => .broken .fault
  | ['\\'] => .broken (.cutText t.paired)
  | c :: rest => if c.toNat < 0x20 then .broken .fault else readText (t.push c) rest

def readScalar : List Char → Document × List Char
  | [] => (.broken .ended, [])
  | 'n' :: rest => readWord .null ['u', 'l', 'l'] rest
  | 't' :: rest => readWord (.bool true) ['r', 'u', 'e'] rest
  | 'f' :: rest => readWord (.bool false) ['a', 'l', 's', 'e'] rest
  | '-' :: rest => readNumber true rest
  | '"' :: rest =>
    match readText .empty rest with
    | .done s rest => (.text s, rest)
    | .broken b => (.broken b, [])
  | c :: rest => if c.isDigit then readNumber false (c :: rest) else (.broken .fault, [])

def readKey : List Char → Key × List Char
  | [] => (.broken .ended, [])
  | '"' :: rest =>
    match readText .empty rest with
    | .done s rest => (.text s, rest)
    | .broken b => (.broken b, [])
  | _ => (.broken .fault, [])

mutual

/-- A value and what follows it.  Each step reads a character or goes from an item to
the value in it, so `fuel` of twice the length is enough. -/
def readValue : (fuel : Nat) → List Char → Document × List Char
  | 0, _ => (.broken .fault, [])
  | fuel + 1, cs =>
    match skipBlanks cs with
    | '[' :: rest =>
      match skipBlanks rest with
      | [] => (.list [] .unfinished, [])
      | ']' :: rest => (.list [] .closed, rest)
      | rest =>
        let (items, ending, rest) := readItems fuel rest
        (.list items ending, rest)
    | '\x7b' :: rest =>
      match skipBlanks rest with
      | [] => (.record [] .unfinished, [])
      | '\x7d' :: rest => (.record [] .closed, rest)
      | rest =>
        let (fields, ending, rest) := readFields fuel rest
        (.record fields ending, rest)
    | cs => readScalar cs

def readItems : (fuel : Nat) → List Char → List Document × Ending × List Char
  | 0, _ => ([], .fault, [])
  | fuel + 1, cs =>
    let (item, rest) := readValue fuel cs
    match skipBlanks rest with
    | [] => ([item], .unfinished, [])
    | ']' :: rest => ([item], .closed, rest)
    | ',' :: rest =>
      let (items, ending, rest) := readItems fuel rest
      (item :: items, ending, rest)
    | _ => ([item], .fault, [])

def readFields : (fuel : Nat) → List Char → List (Key × Document) × Ending × List Char
  | 0, _ => ([], .fault, [])
  | fuel + 1, cs =>
    let (key, rest) := readKey (skipBlanks cs)
    let (value, rest) := match skipBlanks rest with
      | [] => (Document.broken .ended, [])
      | ':' :: rest => readValue fuel rest
      | _ => (Document.broken .fault, [])
    match skipBlanks rest with
    | [] => ([(key, value)], .unfinished, [])
    | '\x7d' :: rest => ([(key, value)], .closed, rest)
    | ',' :: rest =>
      let (fields, ending, rest) := readFields fuel rest
      ((key, value) :: fields, ending, rest)
    | _ => ([(key, value)], .fault, [])

end

/-- The document at the beginning of a text, and what follows it. -/
def read (text : String) : Document × List Char :=
  let cs := text.toList
  readValue (2 * cs.length + 2) cs

end Document

end GuardedCommands
