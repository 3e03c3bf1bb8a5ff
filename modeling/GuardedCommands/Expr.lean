import GuardedCommands.Loc

/-!
# Source expressions

Expressions as they are written, before any type is known.  Every node carries
its location; `Expr.same` compares two expressions and overlooks all of them.
-/

namespace GuardedCommands

inductive Lit
  | num (n : Int64)
  | bool (b : Bool)
  | chr (c : Char)
  /-- The empty heap. -/
  | emp
deriving DecidableEq

/-- Comparisons, which may be chained as in `a < b ≤ c`. -/
inductive ChainOp
  | eq | neq | lt | lte | gt | gte
  /-- Equivalence of propositions. -/
  | eqProp
deriving DecidableEq

inductive ArithOp
  | implies | conj | disj | neg
  | negNum | add | sub | mul | div | mod | max | min | exp
  /-- Counting, also the operator of counting quantifiers. -/
  | hash
  | pointsTo | sepConj | sepImp
deriving DecidableEq

namespace ArithOp

/-- The operators that take one operand, logical and arithmetical negation. -/
def isUnary : ArithOp → Bool
  | .neg | .negNum => true
  | _ => false

end ArithOp

inductive Op
  | chain (o : ChainOp)
  | arith (o : ArithOp)
deriving DecidableEq

/-- One further comparison of a chain. -/
structure ChainLink (ε : Type) where
  op : ChainOp
  loc : Loc
  rhs : ε

structure CaseClause (ε : Type) where
  pattern : ε
  body : ε
  loc : Loc

inductive Expr
  | lit (l : Lit) (loc : Loc)
  | var (x : Name) (loc : Loc)
  | const (x : Name) (loc : Loc)
  | op (o : Op) (loc : Loc)
  | chain (head : Expr) (links : List (ChainLink Expr)) (loc : Loc)
  | app (f arg : Expr) (loc : Loc)
  | lam (x : Name) (body : Expr) (loc : Loc)
  /-- `⟨op binders : range : body⟩` -/
  | quant (op : Expr) (binders : List Name) (range body : Expr) (loc : Loc)
  | index (array index : Expr) (loc : Loc)
  /-- `(array : index ↦ value)` -/
  | update (array index value : Expr) (loc : Loc)
  | tuple (items : List Expr) (loc : Loc)
  | caseOf (scrutinee : Expr) (clauses : List (CaseClause Expr)) (loc : Loc)

namespace Expr

def loc : Expr → Loc
  | .lit _ l | .var _ l | .const _ l | .op _ l | .chain _ _ l | .app _ _ l | .lam _ _ l
  | .quant _ _ _ _ l | .index _ _ l | .update _ _ _ l | .tuple _ l | .caseOf _ _ l => l

def withLoc (l : Loc) : Expr → Expr
  | .lit a _ => .lit a l
  | .var x _ => .var x l
  | .const x _ => .const x l
  | .op o _ => .op o l
  | .chain h ls _ => .chain h ls l
  | .app f a _ => .app f a l
  | .lam x b _ => .lam x b l
  | .quant o bs r b _ => .quant o bs r b l
  | .index a i _ => .index a i l
  | .update a i v _ => .update a i v l
  | .tuple es _ => .tuple es l
  | .caseOf e cs _ => .caseOf e cs l

/-! ## Building expressions that were not read -/

def ofVar (x : String) : Expr := .var (.bare x) .none

def ofConst (x : String) : Expr := .const (.bare x) .none

def ofNum (n : Int64) : Expr := .lit (.num n) .none

def ofBool (b : Bool) : Expr := .lit (.bool b) .none

def ofOp (o : ArithOp) : Expr := .op (.arith o) .none

def apply (f arg : Expr) : Expr := .app f arg (f.loc.merge arg.loc)

def unary (o : ArithOp) (e : Expr) : Expr := apply (ofOp o) e

def binary (o : ArithOp) (l r : Expr) : Expr := apply (apply (ofOp o) l) r

def compare (l : Expr) (o : ChainOp) (r : Expr) : Expr :=
  .chain l [⟨o, .none, r⟩] (l.loc.merge r.loc)

def abstract (x : String) (body : Expr) : Expr := .lam (.bare x) body body.loc

def quantify (op : Expr) (binders : List String) (range body : Expr) : Expr :=
  .quant op (binders.map .bare) range body .none

def indexed (array index : Expr) : Expr := .index array index (array.loc.merge index.loc)

def updated (array index value : Expr) : Expr := .update array index value .none

/-! ## Comparison -/

mutual

def same : Expr → Expr → Bool
  | .lit a _, .lit b _ => a == b
  | .var x _, .var y _ => x.same y
  | .const x _, .const y _ => x.same y
  | .op a _, .op b _ => a == b
  | .chain h ls _, .chain h' ls' _ => h.same h' && sameLinks ls ls'
  | .app f a _, .app f' a' _ => f.same f' && a.same a'
  | .lam x b _, .lam x' b' _ => x.same x' && b.same b'
  | .quant o bs r b _, .quant o' bs' r' b' _ =>
    o.same o' && bs.map (·.text) == bs'.map (·.text) && r.same r' && b.same b'
  | .index a i _, .index a' i' _ => a.same a' && i.same i'
  | .update a i v _, .update a' i' v' _ => a.same a' && i.same i' && v.same v'
  | .tuple es _, .tuple es' _ => sameItems es es'
  | .caseOf e cs _, .caseOf e' cs' _ => e.same e' && sameClauses cs cs'
  | _, _ => false
termination_by structural e => e

def sameLinks : List (ChainLink Expr) → List (ChainLink Expr) → Bool
  | [], [] => true
  | l :: ls, l' :: ls' => l.op == l'.op && l.rhs.same l'.rhs && sameLinks ls ls'
  | _, _ => false
termination_by structural e => e

def sameItems : List Expr → List Expr → Bool
  | [], [] => true
  | e :: es, e' :: es' => e.same e' && sameItems es es'
  | _, _ => false
termination_by structural e => e

def sameClauses : List (CaseClause Expr) → List (CaseClause Expr) → Bool
  | [], [] => true
  | c :: cs, c' :: cs' =>
    c.pattern.same c'.pattern && c.body.same c'.body && sameClauses cs cs'
  | _, _ => false
termination_by structural e => e

end

end Expr

end GuardedCommands
