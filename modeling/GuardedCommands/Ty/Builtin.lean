import GuardedCommands.Fresh
import GuardedCommands.Ty

/-!
# Types of literals and operators

Equality compares values of any one type, so each use of it takes a new
metavariable; every other operator has a fixed type.
-/

namespace GuardedCommands

def Lit.ty : Lit → Ty
  | .num _ => .int
  | .bool _ => .bool
  | .chr _ => .char
  | .emp => .bool

def ArithOp.ty : ArithOp → Ty
  | .implies | .conj | .disj | .sepConj | .sepImp => .funcs [.bool, .bool] .bool
  | .neg => .func .bool .bool
  | .negNum => .func .int .int
  | .add | .sub | .mul | .div | .mod | .max | .min | .exp => .funcs [.int, .int] .int
  | .hash => .func .bool .int
  | .pointsTo => .funcs [.int, .int] .bool

def Supply.nextMeta (s : Supply) : Ty := .metavar (s.next "t")

def ChainOp.ty (s : Supply) : ChainOp → Ty × Supply
  | .eq | .neq => (.funcs [s.nextMeta, s.nextMeta] .bool, s.advance)
  | .lt | .lte | .gt | .gte => (.funcs [.int, .int] .bool, s)
  | .eqProp => (.funcs [.bool, .bool] .bool, s)

end GuardedCommands
