import GuardedCommands.Json.Document

/-!
# Decoding documents

A decoder makes a value of a document or says why not.  A text that only stops too
early is told apart from one that is wrong: as a break is the last thing in a
document, whatever is wrong elsewhere comes before it, so being wrong wins.

Brackets that a decoder looks into are limited in depth.  Fields that no decoder asks
for are only skipped, and neither limited nor looked at more closely than the grammar
of JSON demands.
-/

namespace GuardedCommands

inductive Outcome (α : Type)
  | ok (a : α)
  /-- Right as far as it goes, and not all there. -/
  | ended
  | refused

namespace Outcome

instance : Applicative Outcome where
  pure := .ok
  seq f x := match f with
    | .ok f => match x () with
      | .ok a => .ok (f a)
      | .ended => .ended
      | .refused => .refused
    | .ended => match x () with
      | .refused => .refused
      | _ => .ended
    | .refused => .refused

def toOption : Outcome α → Option α
  | .ok a => some a
  | _ => none

end Outcome

/-- A break where a value was asked for that need not begin with a name. -/
def Break.outcome : Break → Outcome α
  | .ended | .cutText true | .cutWord | .cutNumber => .ended
  | .cutText false | .fault => .refused

/-- A break where the name of a field or of a case was asked for: only a string can have
begun there. -/
def Break.nameOutcome : Break → Outcome α
  | .ended | .cutText true => .ended
  | .cutText false | .cutWord | .cutNumber | .fault => .refused

namespace Ending

def outcome : Ending → Outcome Unit
  | .closed => .ok ()
  | .unfinished => .ended
  | .fault => .refused

def missing : Ending → Outcome α
  | .unfinished => .ended
  | .closed | .fault => .refused

end Ending

namespace Document

mutual

/-- Passes over a value of any form.  Surrogates need not be paired. -/
def skip : Document → Outcome Unit
  | .null | .bool _ | .int _ | .real | .text _ => .ok ()
  | .list items ending => skipItems items *> ending.outcome
  | .record fields ending => skipFields fields *> ending.outcome
  | .broken .ended | .broken (.cutText _) | .broken .cutWord => .ended
  | .broken .cutNumber | .broken .fault => .refused

def skipItems : List Document → Outcome Unit
  | [] => .ok ()
  | d :: ds => skip d *> skipItems ds

def skipFields : List (Key × Document) → Outcome Unit
  | [] => .ok ()
  | (.text _, d) :: fields => skip d *> skipFields fields
  | (.broken .ended, _) :: _ | (.broken (.cutText _), _) :: _ => .ended
  | (.broken _, _) :: _ => .refused

end

/-- Goes through the fields of a record of which some names are known.  A known name
stands once, and the value of any other is passed over. -/
def checkFields (known : List String) : List (Key × Document) → Outcome Unit
  | [] => .ok ()
  | (.text none, _) :: _ => .refused
  | (.text (some x), d) :: fields =>
    if x ∈ known then
      if fields.any fun f => f.1 = .text (some x) then .refused else checkFields known fields
    else skip d *> checkFields known fields
  | (.broken b, _) :: _ => b.nameOutcome

def fieldOf (fields : List (Key × Document)) (x : String) : Option Document :=
  fields.lookup (.text (some x))

end Document

/-- A decoder, given how many brackets may be opened. -/
def Decoder (α : Type) := (depth : Nat) → Document → Outcome α

/-- A decoder of the fields of a record, with the names that it knows in order. -/
structure Fields (α : Type) where
  names : List String
  run : (depth : Nat) → (String → Option Document) → Ending → Outcome α

instance : Applicative Fields where
  pure a := ⟨[], fun _ _ _ => .ok a⟩
  seq f x := ⟨f.names ++ (x ()).names, fun depth get ending =>
    f.run depth get ending <*> (x ()).run depth get ending⟩

namespace Fields

def required (x : String) (d : Decoder α) : Fields α :=
  ⟨[x], fun depth get ending => match get x with
    | some doc => d depth doc
    | none => ending.missing⟩

def withDefault (x : String) (a : α) (d : Decoder α) : Fields α :=
  ⟨[x], fun depth get _ => match get x with
    | some doc => d depth doc
    | none => .ok a⟩

end Fields

namespace Decoder

instance : Functor Decoder where
  map f d := fun depth doc => f <$> d depth doc

def null : Decoder Unit
  | _, .null => .ok ()
  | _, .broken b => b.outcome
  | _, _ => .refused

def bool : Decoder Bool
  | _, .bool b => .ok b
  | _, .broken b => b.outcome
  | _, _ => .refused

def nat : Decoder Nat
  | _, .int n => if 0 ≤ n then .ok n.toNat else .refused
  | _, .broken b => b.outcome
  | _, _ => .refused

def int (lo hi : Int) : Decoder Int
  | _, .int n => if lo ≤ n ∧ n ≤ hi then .ok n else .refused
  | _, .broken b => b.outcome
  | _, _ => .refused

def uint64 : Decoder UInt64 := (UInt64.ofNat ·.toNat) <$> int 0 (Int.ofNat (UInt64.size - 1))

def int64 : Decoder Int64 := Int64.ofInt <$> int Int64.minValue.toInt Int64.maxValue.toInt

def string : Decoder String
  | _, .text (some s) => .ok s
  | _, .broken b => b.outcome
  | _, _ => .refused

def char : Decoder Char := fun depth doc =>
  match string depth doc with
  | .ok s => match s.toList with
    | [c] => .ok c
    | _ => .refused
  | .ended => .ended
  | .refused => .refused

def option (d : Decoder α) : Decoder (Option α)
  | _, .null => .ok none
  | depth, doc => some <$> d depth doc

def list (d : Decoder α) : Decoder (List α)
  | depth + 1, .list items ending => items.mapA (d depth) <* ending.outcome
  | _, .broken b => b.outcome
  | _, _ => .refused

def pair (d : Decoder α) (e : Decoder β) : Decoder (α × β)
  | _ + 1, .list [] ending => ending.missing
  | depth + 1, .list [a] ending => d depth a *> ending.missing
  | depth + 1, .list [a, b] ending => Prod.mk <$> d depth a <*> e depth b <* ending.outcome
  | _, .broken b => b.outcome
  | _, _ => .refused

def triple (d : Decoder α) (e : Decoder β) (f : Decoder γ) : Decoder (α × β × γ)
  | _ + 1, .list [] ending => ending.missing
  | depth + 1, .list [a] ending => d depth a *> ending.missing
  | depth + 1, .list [a, b] ending => d depth a *> e depth b *> ending.missing
  | depth + 1, .list [a, b, c] ending =>
    (fun a b c => (a, b, c)) <$> d depth a <*> e depth b <*> f depth c <* ending.outcome
  | _, .broken b => b.outcome
  | _, _ => .refused

/-- A record, or the list of all its values in the order of the fields. -/
def record (f : Fields α) : Decoder α
  | depth + 1, .record fields ending =>
    Document.checkFields f.names fields *> f.run depth (Document.fieldOf fields) ending
      <* ending.outcome
  | depth + 1, .list items ending =>
    if f.names.length < items.length then .refused
    else if items.length < f.names.length ∧ ending = .closed then .refused
    else f.run depth (fun x => (f.names.zip items).lookup x) ending <* ending.outcome
  | _, .broken b => b.outcome
  | _, _ => .refused

/-- One of several cases, given by its name: alone if there is nothing else to say,
else as the only field of a record. -/
def cases (plain : List (String × α)) (others : List (String × Decoder α)) : Decoder α
  | _, .text (some x) =>
    match plain.lookup x with
    | some a => .ok a
    | none => .refused
  | depth + 1, .record [(.text (some x), doc)] ending =>
    match plain.lookup x with
    | some a => (fun _ => a) <$> null depth doc <* ending.outcome
    | none =>
      match others.lookup x with
      | some d => d depth doc <* ending.outcome
      | none => .refused
  | _ + 1, .record [(.broken b, _)] _ => b.nameOutcome
  | _ + 1, .record [] ending => ending.missing
  | _, .broken b => b.nameOutcome
  | _, _ => .refused

/-- A decoder of a tree, unrolled to a number of layers. -/
def unrolled (layer : Decoder α → Decoder α) : Nat → Decoder α
  | 0 => fun _ _ => .refused
  | n + 1 => fun depth doc => layer (unrolled layer n) depth doc

/-- The decoder of a tree, given that of one layer.  Each layer has to open a bracket,
so there are no more layers than brackets may be opened, and the last one. -/
def tree (layer : Decoder α → Decoder α) : Decoder α := fun depth doc =>
  unrolled layer (depth + 1) depth doc

/-- Decodes a text that has a document in it and nothing else. -/
def decodeText (d : Decoder α) (depth : Nat) (text : String) : Outcome α :=
  let (doc, rest) := Document.read text
  d depth doc <* if rest.all Document.isBlank then Outcome.ok () else .refused

end Decoder

end GuardedCommands
