import GuardedCommands.Expr.Printer
import GuardedCommands.Ty.Builtin
import GuardedCommands.Ty.Subst

/-!
# Typed expressions

The expressions that elaboration produces.  Every node carries its type; tuples
and case distinctions are never elaborated, so there are none.  `erase` gives
the source expression back, and its text is the text of the typed one.
-/

namespace GuardedCommands

structure Binder where
  name : Name
  ty : Ty

def Binder.subst (s : Ty.Subst) (b : Binder) : Binder := { b with ty := b.ty.subst s }

/-- One further comparison of a chain, with the type of its operator there. -/
structure TypedLink (ε : Type) where
  op : ChainOp
  opTy : Ty
  loc : Loc
  rhs : ε

inductive TypedExpr
  | lit (l : Lit) (ty : Ty) (loc : Loc)
  | var (x : Name) (ty : Ty) (loc : Loc)
  | const (x : Name) (ty : Ty) (loc : Loc)
  | op (o : Op) (ty : Ty) (loc : Loc)
  | chain (head : TypedExpr) (links : List (TypedLink TypedExpr)) (ty : Ty) (loc : Loc)
  | app (f arg : TypedExpr) (ty : Ty) (loc : Loc)
  | lam (b : Binder) (body : TypedExpr) (ty : Ty) (loc : Loc)
  | quant (q : TypedExpr) (binders : List Binder) (range body : TypedExpr) (ty : Ty) (loc : Loc)
  | index (array index : TypedExpr) (ty : Ty) (loc : Loc)
  | update (array index value : TypedExpr) (ty : Ty) (loc : Loc)

namespace TypedExpr

def ty : TypedExpr → Ty
  | .lit _ t _ | .var _ t _ | .const _ t _ | .op _ t _ | .chain _ _ t _ | .app _ _ t _
  | .lam _ _ t _ | .quant _ _ _ _ t _ | .index _ _ t _ | .update _ _ _ t _ => t

def loc : TypedExpr → Loc
  | .lit _ _ l | .var _ _ l | .const _ _ l | .op _ _ l | .chain _ _ _ l | .app _ _ _ l
  | .lam _ _ _ l | .quant _ _ _ _ _ l | .index _ _ _ l | .update _ _ _ _ l => l

/-! ## Building typed expressions -/

def ofLit (l : Lit) : TypedExpr := .lit l l.ty .none

def ofBool (b : Bool) : TypedExpr := ofLit (.bool b)

def ofNum (n : Int64) : TypedExpr := ofLit (.num n)

def ofVar (x : Name) (t : Ty) : TypedExpr := .var x t x.loc

def ofConst (x : Name) (t : Ty) : TypedExpr := .const x t x.loc

def ofOp (o : ArithOp) : TypedExpr := .op (.arith o) o.ty .none

def apply (f arg : TypedExpr) : TypedExpr :=
  let t := match f.ty.asFunc? with
    | some (_, cod) => cod
    | none => f.ty
  .app f arg t (f.loc.merge arg.loc)

def unary (o : ArithOp) (e : TypedExpr) : TypedExpr := apply (ofOp o) e

def binary (o : ArithOp) (l r : TypedExpr) : TypedExpr := apply (apply (ofOp o) l) r

def conj (l r : TypedExpr) : TypedExpr := binary .conj l r

def disj (l r : TypedExpr) : TypedExpr := binary .disj l r

def implies (l r : TypedExpr) : TypedExpr := binary .implies l r

def neg (e : TypedExpr) : TypedExpr := unary .neg e

def pointsTo (cell value : TypedExpr) : TypedExpr := binary .pointsTo cell value

def sepConj (l r : TypedExpr) : TypedExpr := binary .sepConj l r

def sepImp (l r : TypedExpr) : TypedExpr := binary .sepImp l r

def conjunction : List TypedExpr → TypedExpr
  | [] => ofBool true
  | e :: es => es.foldl conj e

def disjunction : List TypedExpr → TypedExpr
  | [] => ofBool false
  | e :: es => es.foldl disj e

def compare (l : TypedExpr) (o : ChainOp) (r : TypedExpr) : TypedExpr :=
  .chain l [⟨o, .funcs [l.ty, r.ty] .bool, .none, r⟩] .bool (l.loc.merge r.loc)

def quantify (o : ArithOp) (binders : List Binder) (range body : TypedExpr) : TypedExpr :=
  .quant (ofOp o) binders range body body.ty .none

def forAll (binders : List Binder) (range body : TypedExpr) : TypedExpr :=
  quantify .conj binders range body

def thereIs (binders : List Binder) (range body : TypedExpr) : TypedExpr :=
  quantify .disj binders range body

def isTrue : TypedExpr → Bool
  | .lit (.bool true) _ _ => true
  | _ => false

/-! ## Forgetting types -/

mutual

def erase : TypedExpr → Expr
  | .lit l _ loc => .lit l loc
  | .var x _ loc => .var x loc
  | .const x _ loc => .const x loc
  | .op o _ loc => .op o loc
  | .chain head links _ loc => .chain head.erase (eraseLinks links) loc
  | .app f a _ loc => .app f.erase a.erase loc
  | .lam b body _ loc => .lam b.name body.erase loc
  | .quant q bs r b _ loc => .quant q.erase (bs.map (·.name)) r.erase b.erase loc
  | .index a i _ loc => .index a.erase i.erase loc
  | .update a i v _ loc => .update a.erase i.erase v.erase loc

def eraseLinks : List (TypedLink TypedExpr) → List (ChainLink Expr)
  | [] => []
  | l :: ls => ⟨l.op, l.loc, l.rhs.erase⟩ :: eraseLinks ls

end

def text (e : TypedExpr) : String := e.erase.text

/-! ## Substitution of types -/

mutual

def substTy (s : Ty.Subst) : TypedExpr → TypedExpr
  | .lit l t loc => .lit l (t.subst s) loc
  | .var x t loc => .var x (t.subst s) loc
  | .const x t loc => .const x (t.subst s) loc
  | .op o t loc => .op o (t.subst s) loc
  | .chain head links t loc => .chain (head.substTy s) (substTyLinks s links) (t.subst s) loc
  | .app f a t loc => .app (f.substTy s) (a.substTy s) (t.subst s) loc
  | .lam b body t loc => .lam (b.subst s) (body.substTy s) (t.subst s) loc
  | .quant q bs r b t loc =>
    .quant (q.substTy s) (bs.map (·.subst s)) (r.substTy s) (b.substTy s) (t.subst s) loc
  | .index a i t loc => .index (a.substTy s) (i.substTy s) (t.subst s) loc
  | .update a i v t loc => .update (a.substTy s) (i.substTy s) (v.substTy s) (t.subst s) loc

def substTyLinks (s : Ty.Subst) : List (TypedLink TypedExpr) → List (TypedLink TypedExpr)
  | [] => []
  | l :: ls => ⟨l.op, l.opTy.subst s, l.loc, l.rhs.substTy s⟩ :: substTyLinks s ls

end

/-! ## Comparison -/

def sameBinders : List Binder → List Binder → Bool
  | [], [] => true
  | b :: bs, b' :: bs' => b.name.same b'.name && b.ty.same b'.ty && sameBinders bs bs'
  | _, _ => false

mutual

def same : TypedExpr → TypedExpr → Bool
  | .lit l t _, .lit l' t' _ => l == l' && t.same t'
  | .var x t _, .var x' t' _ => x.same x' && t.same t'
  | .const x t _, .const x' t' _ => x.same x' && t.same t'
  | .op o t _, .op o' t' _ => o == o' && t.same t'
  | .chain h ls t _, .chain h' ls' t' _ => h.same h' && sameLinks ls ls' && t.same t'
  | .app f a t _, .app f' a' t' _ => f.same f' && a.same a' && t.same t'
  | .lam b e t _, .lam b' e' t' _ => sameBinders [b] [b'] && e.same e' && t.same t'
  | .quant q bs r e t _, .quant q' bs' r' e' t' _ =>
    q.same q' && sameBinders bs bs' && r.same r' && e.same e' && t.same t'
  | .index a i t _, .index a' i' t' _ => a.same a' && i.same i' && t.same t'
  | .update a i v t _, .update a' i' v' t' _ =>
    a.same a' && i.same i' && v.same v' && t.same t'
  | _, _ => false
termination_by structural e => e

def sameLinks : List (TypedLink TypedExpr) → List (TypedLink TypedExpr) → Bool
  | [], [] => true
  | l :: ls, l' :: ls' =>
    l.op == l'.op && l.opTy.same l'.opTy && l.rhs.same l'.rhs && sameLinks ls ls'
  | _, _ => false
termination_by structural ls => ls

end

end TypedExpr

end GuardedCommands
