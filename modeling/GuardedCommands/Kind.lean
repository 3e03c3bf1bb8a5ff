import GuardedCommands.Loc
import GuardedCommands.NameMap

/-!
# Kinds

Kinds classify types: `*` for the types of values, arrows for constructors, and
metavariables for what inference has yet to find out.
-/

namespace GuardedCommands

inductive Kind
  | star
  | arrow (dom cod : Kind)
  | metavar (n : Name)
deriving DecidableEq

namespace Kind

def starArity : Nat → Kind
  | 0 => .star
  | n + 1 => .arrow .star (starArity n)

/-- The kind of a constructor that takes arguments of the given kinds. -/
def arrows (args : List Kind) : Kind := args.foldr .arrow .star

def isArrow : Kind → Bool
  | .arrow .. => true
  | _ => false

def text : Kind → String
  | .star => "*"
  | .arrow dom cod =>
    (if dom.isArrow then "(" ++ dom.text ++ ")" else dom.text) ++ " → " ++ cod.text
  | .metavar n => n.text

def same : Kind → Kind → Bool
  | .star, .star => true
  | .arrow a b, .arrow a' b' => a.same a' && b.same b'
  | .metavar n, .metavar m => n.same m
  | _, _ => false

/-- Puts a kind in the place of every metavariable. -/
def bind (f : Name → Kind) : Kind → Kind
  | .star => .star
  | .arrow dom cod => .arrow (dom.bind f) (cod.bind f)
  | .metavar n => f n

def freeVars : Kind → NameSet
  | .star => ∅
  | .arrow dom cod => dom.freeVars ∪ cod.freeVars
  | .metavar n => {n.text}

abbrev Subst := NameMap Kind

def apply (s : Subst) (k : Kind) : Kind := k.bind fun n => (s.get? n.text).getD (.metavar n)

/-- The substitution that does `t` first and `s` after it. -/
def Subst.compose (s t : Subst) : Subst := s.override (t.map (apply s))

end Kind

end GuardedCommands
