/-!
# Locations and names

A location is a byte range of the text a tree was read from.  Locations are
carried along and reported, but nothing is ever decided by them: two trees that
differ only in locations are the same tree to every other module.
-/

namespace GuardedCommands

def addClamped (a b : UInt64) : UInt64 :=
  UInt64.ofNat (min (a.toNat + b.toNat) (UInt64.size - 1))

def subClamped (a b : UInt64) : UInt64 :=
  UInt64.ofNat (a.toNat - b.toNat)

/-- A byte range of the source text. -/
@[ext]
structure Loc where
  offset : UInt64
  len : UInt64
deriving DecidableEq

namespace Loc

/-- The location of a node that was not read from a text. -/
def none : Loc := ⟨0, 0⟩

def isNone (l : Loc) : Bool := l.offset == 0 && l.len == 0

def between (start stop : UInt64) : Loc := ⟨start, subClamped stop start⟩

/-- One past the last byte, or the largest offset when that is not one. -/
def stop (l : Loc) : UInt64 := addClamped l.offset l.len

/-- The smallest range that covers both; a missing location adds nothing. -/
def merge (a b : Loc) : Loc :=
  if a.isNone then b
  else if b.isNone then a
  else between (min a.offset b.offset) (max a.stop b.stop)

def same (_ _ : Loc) : Bool := true

@[simp] theorem none_merge (l : Loc) : none.merge l = l := rfl

@[simp] theorem merge_none (l : Loc) : l.merge none = l := by
  unfold merge
  split
  · next h =>
    obtain ⟨offset, len⟩ := l
    simp only [isNone, Bool.and_eq_true, beq_iff_eq] at h
    obtain ⟨rfl, rfl⟩ := h
    rfl
  · simp [isNone, none]

end Loc

/-- An identifier as it was written.  Identifiers are told apart by `text` alone. -/
@[ext]
structure Name where
  text : String
  loc : Loc
deriving DecidableEq

namespace Name

/-- A name that was made up rather than read. -/
def bare (text : String) : Name := ⟨text, .none⟩

def same (a b : Name) : Bool := a.text == b.text

end Name

end GuardedCommands
