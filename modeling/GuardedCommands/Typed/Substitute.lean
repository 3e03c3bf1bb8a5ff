import GuardedCommands.Typed.Expr

/-!
# Substitution of expressions

Expressions are put in the place of the free occurrences of names, all at once.
A binder that would capture a free name of what comes under it gets a new name
first; a binder that captures nothing keeps its own.
-/

namespace GuardedCommands

abbrev ExprSubst := NameMap TypedExpr

namespace TypedExpr

mutual

/-- The names that an expression uses and does not bind. -/
def freeVars : TypedExpr → NameSet
  | .lit .. | .op .. => ∅
  | .var x _ _ | .const x _ _ => {x.text}
  | .chain head links _ _ => head.freeVars ∪ freeVarsLinks links
  | .app f a _ _ => f.freeVars ∪ a.freeVars
  | .lam b body _ _ => body.freeVars.erase b.name.text
  | .quant q bs r b _ _ =>
    q.freeVars ∪ ((r.freeVars ∪ b.freeVars) \ NameSet.ofList (bs.map (·.name.text)))
  | .index a i _ _ => a.freeVars ∪ i.freeVars
  | .update a i v _ _ => a.freeVars ∪ i.freeVars ∪ v.freeVars

def freeVarsLinks : List (TypedLink TypedExpr) → NameSet
  | [] => ∅
  | l :: ls => l.rhs.freeVars ∪ freeVarsLinks ls

end

/-- Binders with the substitution that is to go on below them. -/
structure UnderBinders where
  binders : List Binder
  inner : ExprSubst

/-- Renames the binders that are in `captured`, each to a name that is not in `avoid`
nor chosen before. -/
def renameBinders (captured : NameSet) : List Binder → NameSet → ExprSubst → UnderBinders
  | [], _, inner => ⟨[], inner⟩
  | b :: bs, avoid, inner =>
    if b.name.text ∈ captured then
      let text := Fresh.inScopes b.name.text [avoid]
      let b' : Binder := ⟨⟨text, b.name.loc⟩, b.ty⟩
      let rest := renameBinders captured bs (avoid.insert text)
        (inner.insert b.name.text (ofVar b'.name b'.ty))
      ⟨b' :: rest.binders, rest.inner⟩
    else
      let rest := renameBinders captured bs avoid inner
      ⟨b :: rest.binders, rest.inner⟩

/-- What happens to binders when a substitution passes them into a scope with the
given free names.  Only the entries that reach a free occurrence in the scope go on;
if none does, the binders stay as they are. -/
def underBinders (s : ExprSubst) (binders : List Binder) (free : NameSet) : UnderBinders :=
  let bound := NameSet.ofList (binders.map (·.name.text))
  let inner := s.filterKeys fun x => free.contains x && !bound.contains x
  if inner.isEmpty then ⟨binders, ∅⟩
  else
    let captured := NameSet.unionMap freeVars inner.values
    renameBinders captured binders (free ∪ captured ∪ inner.keys ∪ bound) inner

mutual

/-- Puts expressions in the place of names, wherever these occur free. -/
def substitute (s : ExprSubst) : TypedExpr → TypedExpr
  | .lit l t loc => .lit l t loc
  | .op o t loc => .op o t loc
  | .var x t loc => (s.get? x.text).getD (.var x t loc)
  | .const x t loc => (s.get? x.text).getD (.const x t loc)
  | .chain head links t loc => .chain (head.substitute s) (substituteLinks s links) t loc
  | .app f a t loc => .app (f.substitute s) (a.substitute s) t loc
  | .lam b body t loc =>
    let under := underBinders s [b] body.freeVars
    let b' := under.binders.headD b
    .lam b' (body.substitute under.inner) t loc
  | .quant q bs r body t loc =>
    let under := underBinders s bs (r.freeVars ∪ body.freeVars)
    .quant (q.substitute s) under.binders (r.substitute under.inner)
      (body.substitute under.inner) t loc
  | .index a i t loc => .index (a.substitute s) (i.substitute s) t loc
  | .update a i v t loc => .update (a.substitute s) (i.substitute s) (v.substitute s) t loc

def substituteLinks (s : ExprSubst) :
    List (TypedLink TypedExpr) → List (TypedLink TypedExpr)
  | [] => []
  | l :: ls => ⟨l.op, l.opTy, l.loc, l.rhs.substitute s⟩ :: substituteLinks s ls

end

end TypedExpr

end GuardedCommands
