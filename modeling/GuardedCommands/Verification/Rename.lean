import GuardedCommands.Typed.Program
import GuardedCommands.Typed.Substitute

/-!
# Renaming the names of a block

A block whose declarations hide names that matter outside is renamed apart.  A
renaming changes names and expressions and nothing else: the statements keep
their order, their nesting and their places.
-/

namespace GuardedCommands

/-- New names for the names that a block declares, with the expressions for them. -/
structure Renaming where
  names : NameMap String
  exprs : ExprSubst

namespace Renaming

def empty : Renaming := ⟨∅, ∅⟩

def insert (ρ : Renaming) (d : TypedDeclaration) (old new : String) : Renaming :=
  let e : TypedExpr := match d.sort with
    | .const => .ofConst (.bare new) d.ty
    | .var => .ofVar (.bare new) d.ty
  ⟨ρ.names.insert old new, ρ.exprs.insert old e⟩

def name (ρ : Renaming) (x : Name) : Name := { x with text := (ρ.names.get? x.text).getD x.text }

def expr (ρ : Renaming) (e : TypedExpr) : TypedExpr := e.substitute ρ.exprs

/-- Leaves some names as they are. -/
def without (ρ : Renaming) (hidden : NameSet) : Renaming :=
  ⟨ρ.names.filterKeys (!hidden.contains ·), ρ.exprs.filterKeys (!hidden.contains ·)⟩

mutual

/-- Renames in a statement.  A block inside keeps its declarations and properties. -/
def stmt (ρ : Renaming) : TypedStmt → TypedStmt
  | .skip loc => .skip loc
  | .abort loc => .abort loc
  | .assign xs es loc => .assign (xs.map ρ.name) (es.map ρ.expr) loc
  | .arrayAssign a i v loc => .arrayAssign (ρ.expr a) (ρ.expr i) (ρ.expr v) loc
  | .assert e loc => .assert (ρ.expr e) loc
  | .invariant e b loc => .invariant (ρ.expr e) (b.map ρ.expr) loc
  | .loop cs loc => .loop (cmds ρ cs) loc
  | .cond cs loc => .cond (cmds ρ cs) loc
  | .hole text env loc => .hole text env loc
  | .alloc x es loc => .alloc (ρ.name x) (es.map ρ.expr) loc
  | .lookup x e loc => .lookup (ρ.name x) (ρ.expr e) loc
  | .mutate c v loc => .mutate (ρ.expr c) (ρ.expr v) loc
  | .dispose e loc => .dispose (ρ.expr e) loc
  | .block b loc =>
    let hidden := NameSet.ofList ((TypedProgram.boundNames b).map (·.text))
    .block ⟨b.defns, b.decls, b.props, stmts (ρ.without hidden) b.stmts, b.loc⟩ loc

def cmds (ρ : Renaming) : List TypedCmd → List TypedCmd
  | [] => []
  | c :: cs => ⟨ρ.expr c.guard, stmts ρ c.body, c.loc⟩ :: cmds ρ cs

def stmts (ρ : Renaming) : List TypedStmt → List TypedStmt
  | [] => []
  | s :: ss => stmt ρ s :: stmts ρ ss

end

mutual

theorem weight_stmt (ρ : Renaming) : (s : TypedStmt) → (ρ.stmt s).weight = s.weight
  | .loop cs _ | .cond cs _ => by simp only [stmt, Stmt.weight, weightCmds_cmds ρ cs]
  | .block b _ => by simp only [stmt, Stmt.weight, weightList_stmts _ b.stmts]
  | .skip _ | .abort _ | .assign .. | .arrayAssign .. | .assert .. | .invariant .. | .hole ..
  | .alloc .. | .lookup .. | .mutate .. | .dispose .. => by simp only [stmt, Stmt.weight]

theorem weightCmds_cmds (ρ : Renaming) :
    (cs : List TypedCmd) → Stmt.weightCmds (ρ.cmds cs) = Stmt.weightCmds cs
  | [] => rfl
  | c :: cs => by
    simp only [cmds, Stmt.weightCmds, weightList_stmts ρ c.body, weightCmds_cmds ρ cs]

theorem weightList_stmts (ρ : Renaming) :
    (ss : List TypedStmt) → Stmt.weightList (ρ.stmts ss) = Stmt.weightList ss
  | [] => rfl
  | s :: ss => by simp only [stmts, Stmt.weightList, weight_stmt ρ s, weightList_stmts ρ ss]

end

end Renaming

namespace Stmt

mutual

/-- The names that the blocks inside a statement bind. -/
def blockNames : TypedStmt → NameSet
  | .loop cs _ | .cond cs _ => blockNamesCmds cs
  | .block b _ =>
    NameSet.ofList ((TypedProgram.boundNames b).map (·.text)) ∪ blockNamesList b.stmts
  | _ => ∅

def blockNamesCmds : List TypedCmd → NameSet
  | [] => ∅
  | c :: cs => blockNamesList c.body ∪ blockNamesCmds cs

def blockNamesList : List TypedStmt → NameSet
  | [] => ∅
  | s :: ss => s.blockNames ∪ blockNamesList ss

end

end Stmt

namespace TypedProgram

/-- Every name that a program or a block inside it binds. -/
def declaredNames (p : TypedProgram) : NameSet :=
  NameSet.ofList (p.boundNames.map (·.text)) ∪ Stmt.blockNamesList p.stmts

end TypedProgram

end GuardedCommands
