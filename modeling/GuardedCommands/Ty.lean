import GuardedCommands.Expr

/-!
# Types

A type is a base type, an array over an interval of indices, or a constructor
applied to types.  The function type `a → b` is the arrow constructor applied
twice.  Variables come in two sorts that share one space of names: rigid
variables, written in the source, and metavariables, made by inference.
-/

namespace GuardedCommands

inductive BaseTy
  | int | bool | char
deriving DecidableEq

/-- An end of an interval, which may belong to it or not. -/
inductive Endpoint
  | including (e : Expr)
  | excluding (e : Expr)

namespace Endpoint

def expr : Endpoint → Expr
  | .including e | .excluding e => e

def same : Endpoint → Endpoint → Bool
  | .including a, .including b => a.same b
  | .excluding a, .excluding b => a.same b
  | _, _ => false

end Endpoint

/-- The index range of an array type. -/
structure Interval where
  lo : Endpoint
  hi : Endpoint
  loc : Loc

def Interval.same (a b : Interval) : Bool := a.lo.same b.lo && a.hi.same b.hi

inductive Ty
  | base (b : BaseTy) (loc : Loc)
  | array (interval : Interval) (elem : Ty) (loc : Loc)
  /-- The tuple constructor of an arity. -/
  | tuple (arity : UInt64) (loc : Loc)
  /-- The function constructor. -/
  | arrow (loc : Loc)
  | app (head arg : Ty) (loc : Loc)
  /-- A datatype. -/
  | data (n : Name)
  | rigid (n : Name)
  | metavar (n : Name)

namespace Ty

def loc : Ty → Loc
  | .base _ l | .array _ _ l | .tuple _ l | .arrow l | .app _ _ l => l
  | .data n | .rigid n | .metavar n => n.loc

def int : Ty := .base .int .none

def bool : Ty := .base .bool .none

def char : Ty := .base .char .none

def apply (head arg : Ty) : Ty := .app head arg (head.loc.merge arg.loc)

def func (dom cod : Ty) : Ty :=
  let loc := dom.loc.merge cod.loc
  .app (.app (.arrow loc) dom loc) cod loc

def funcs (args : List Ty) (result : Ty) : Ty := args.foldr func result

def arrayOf (interval : Interval) (elem : Ty) : Ty :=
  .array interval elem (interval.loc.merge elem.loc)

def asFunc? : Ty → Option (Ty × Ty)
  | .app (.app (.arrow _) dom _) cod _ => some (dom, cod)
  | _ => none

@[simp] theorem asFunc?_func (dom cod : Ty) : (func dom cod).asFunc? = some (dom, cod) := rfl

def same : Ty → Ty → Bool
  | .base a _, .base b _ => a == b
  | .array i t _, .array i' t' _ => i.same i' && t.same t'
  | .tuple n _, .tuple m _ => n == m
  | .arrow _, .arrow _ => true
  | .app f a _, .app f' a' _ => f.same f' && a.same a'
  | .data n, .data m => n.same m
  | .rigid n, .rigid m => n.same m
  | .metavar n, .metavar m => n.same m
  | _, _ => false

end Ty

end GuardedCommands
