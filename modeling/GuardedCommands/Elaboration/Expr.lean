import GuardedCommands.Elaboration.Monad

/-!
# Elaboration of expressions

Types are inferred from the leaves upward.  Every rule returns the typed
expression with the substitution it has found, and goes on in the environment to
which the substitution has been applied; types inside the tree become final only
when the substitution of the whole program is applied to it.
-/

namespace GuardedCommands

namespace Expr

open ElaborationM

/-- What an expression does with an operator that has been inferred to be a function:
the type of the function is unified with one that takes `arg` to something new. -/
def resultOf (f : Ty) (arg : Ty) (loc : Loc) : ElaborationM (Inferred Ty) := do
  let result ← freshMeta
  let s ← unify f (.func arg result) loc
  return (result.subst s, s)

def nameTy (env : TypeEnv) (x : Name) (loc : Loc) : ElaborationM Ty := do
  match env.lookup? x.text with
  | some info => instantiate x.text info.ty
  | none => throw (.notInScope x.text (x.loc.merge loc))

/-- Whether an operator counts, so that its quantifier has a proposition for a body. -/
def isHash : Expr → Bool
  | .op (.arith .hash) _ => true
  | _ => false

/-- Brings binders into scope with new metavariables for their types. -/
def bindAll (env : TypeEnv) : List Name → ElaborationM (TypeEnv × List Binder)
  | [] => return (env, [])
  | x :: xs => do
    let t ← freshMeta
    let (inner, bs) ← bindAll (env.insert x ⟨.const, t⟩) xs
    return (inner, ⟨x, t⟩ :: bs)

mutual

def infer (env : TypeEnv) : Expr → ElaborationM (Inferred TypedExpr)
  | .lit l loc => return (.lit l l.ty loc, ∅)
  | .var x loc => return (.var x (← nameTy env x loc) loc, ∅)
  | .const x loc => return (.const x (← nameTy env x loc) loc, ∅)
  | .op (.arith o) loc => return (.op (.arith o) o.ty loc, ∅)
  | .op (.chain o) loc => return (.op (.chain o) (← chainOpTy o) loc, ∅)
  | .chain head links loc => do
    let (head, s) ← head.infer env
    let (links, s) ← inferLinks env loc head.ty s links
    return (.chain head links .bool loc, s)
  | .app f a loc => do
    let (f, s₁) ← f.infer env
    let (a, s₂) ← a.infer (env.subst s₁)
    let (t, s₃) ← resultOf (f.ty.subst s₂) a.ty loc
    return (.app f a t loc, s₃.compose (s₂.compose s₁))
  | .lam x body loc => do
    let param ← freshMeta
    let (body, s) ← body.infer (env.insert x ⟨.const, param⟩)
    let param := param.subst s
    return (.lam ⟨x, param⟩ body (.func param body.ty) loc, s)
  | .quant q xs range body loc => do
    let (inner, binders) ← bindAll env xs
    let (range, s₁) ← range.infer inner
    let s₂ ← unify range.ty .bool range.loc
    let s := s₂.compose s₁
    let (body, s₃) ← body.infer (inner.subst s)
    let s := s₃.compose s
    let counts := q.isHash
    let (q, s₄) ← q.infer (env.subst s)
    let s := s₄.compose s
    let (t, s) ← if counts then do
        let s₅ ← unify (body.ty.subst s) .bool body.loc
        pure (Ty.int, s₅.compose s)
      else do
        let a ← freshMeta
        let s₅ ← unify (q.ty.subst s) (.funcs [a, a] a) (q.loc.merge loc)
        let s := s₅.compose s
        let s₆ ← unify (a.subst s) (body.ty.subst s) (body.loc.merge loc)
        let s := s₆.compose s
        pure (a.subst s, s)
    return (.quant q (binders.map (·.subst s)) range body t loc, s)
  | .index a i loc => do
    let (a, s₁) ← a.infer env
    let (i, s₂) ← i.infer (env.subst s₁)
    let (t, s₃) ← resultOf (a.ty.subst s₂) i.ty loc
    return (.index a i t loc, s₃.compose (s₂.compose s₁))
  | .update a i v loc => do
    let (a, s₁) ← a.infer env
    let (i, s₂) ← i.infer (env.subst s₁)
    let s := s₂.compose s₁
    let (v, s₃) ← v.infer (env.subst s)
    let s := s₃.compose s
    let s₄ ← unify (a.ty.subst s) (.func (i.ty.subst s) v.ty) loc
    let s := s₄.compose s
    return (.update a i v (a.ty.subst s) loc, s)
  | .tuple _ loc => throw (.unsupported .tuple loc)
  | .caseOf _ _ loc => throw (.unsupported .caseOf loc)

/-- Infers the links of a chain after an operand of type `prev`. -/
def inferLinks (env : TypeEnv) (loc : Loc) (prev : Ty) (s : Ty.Subst) :
    List (ChainLink Expr) → ElaborationM (Inferred (List (TypedLink TypedExpr)))
  | [] => return ([], s)
  | link :: rest => do
    let (rhs, s₁) ← link.rhs.infer (env.subst s)
    let s := s₁.compose s
    let opTy ← chainOpTy link.op
    let result ← freshMeta
    let s₂ ← unify opTy (.funcs [prev.subst s, rhs.ty] result) (link.loc.merge loc)
    let s := s₂.compose s
    let s₃ ← unify (result.subst s) .bool (link.loc.merge loc)
    let s := s₃.compose s
    let (links, s') ← inferLinks env loc (rhs.ty.subst s) s rest
    return (⟨link.op, opTy.subst s, link.loc, rhs⟩ :: links, s')

end

def expect (env : TypeEnv) (expected : Ty) (e : Expr) : ElaborationM (Inferred TypedExpr) := do
  let (typed, s₁) ← e.infer env
  let s₂ ← unify (expected.subst s₁) typed.ty e.loc
  return (typed, s₂.compose s₁)

/-- Requires expressions, one after the other, to have the types beside them, after a
substitution that has been found already. -/
def expectEach (env : TypeEnv) (s : Ty.Subst) :
    List (Ty × Expr) → ElaborationM (Inferred (List TypedExpr))
  | [] => return ([], s)
  | (expected, e) :: rest => do
    let (typed, s₁) ← e.expect (env.subst s) (expected.subst s)
    let (others, s) ← expectEach env (s₁.compose s) rest
    return (typed :: others, s)

def expectAll (env : TypeEnv) (expected : Ty) (es : List Expr) :
    ElaborationM (Inferred (List TypedExpr)) :=
  expectEach env ∅ (es.map fun e => (expected, e))

def expectOption (env : TypeEnv) (expected : Ty) :
    Option Expr → ElaborationM (Inferred (Option TypedExpr))
  | none => return (none, ∅)
  | some e => do
    let (typed, s) ← e.expect env expected
    return (some typed, s)

end Expr

end GuardedCommands
