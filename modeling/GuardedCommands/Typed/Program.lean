import GuardedCommands.Kind
import GuardedCommands.Program
import GuardedCommands.TypeEnv
import GuardedCommands.Typed.Expr

/-!
# Typed programs

The programs that elaboration produces.  A datatype carries its kind, a function
its general type, and a hole the environment that is visible there.
-/

namespace GuardedCommands

inductive TypedDefinition
  | datatype (d : Datatype) (kind : Kind)
  | signature (name : Name) (ty : Ty) (prop : Option TypedExpr) (loc : Loc)
  | function (name : Name) (ty : Ty) (body : TypedExpr) (loc : Loc)

abbrev TypedDeclaration := Declaration TypedExpr

abbrev TypedStmt := Stmt TypedExpr TypedDefinition TypeEnv

abbrev TypedCmd := GuardedCmd TypedExpr TypedStmt

abbrev TypedProgram := Block TypedExpr TypedDefinition TypedStmt

namespace TypedDefinition

def name : TypedDefinition → Name
  | .datatype d _ => d.name
  | .signature n _ _ _ | .function n _ _ _ => n

def boundNames : TypedDefinition → List Name
  | .datatype d _ => d.ctors.map (·.name)
  | .signature n _ _ _ | .function n _ _ _ => [n]

def substTy (s : Ty.Subst) : TypedDefinition → TypedDefinition
  | .datatype d k => .datatype d k
  | .signature n t p loc => .signature n (t.subst s) (p.map (·.substTy s)) loc
  | .function n t b loc => .function n (t.subst s) (b.substTy s) loc

end TypedDefinition

def Declaration.substTy (s : Ty.Subst) (d : TypedDeclaration) : TypedDeclaration :=
  { d with prop := d.prop.map (·.substTy s) }

namespace Stmt

mutual

def substTy (s : Ty.Subst) : TypedStmt → TypedStmt
  | .skip loc => .skip loc
  | .abort loc => .abort loc
  | .assign xs es loc => .assign xs (es.map (·.substTy s)) loc
  | .arrayAssign a i v loc => .arrayAssign (a.substTy s) (i.substTy s) (v.substTy s) loc
  | .assert e loc => .assert (e.substTy s) loc
  | .invariant e b loc => .invariant (e.substTy s) (b.map (·.substTy s)) loc
  | .loop cmds loc => .loop (substTyCmds s cmds) loc
  | .cond cmds loc => .cond (substTyCmds s cmds) loc
  | .hole text env loc => .hole text (env.subst s) loc
  | .alloc x es loc => .alloc x (es.map (·.substTy s)) loc
  | .lookup x e loc => .lookup x (e.substTy s) loc
  | .mutate c v loc => .mutate (c.substTy s) (v.substTy s) loc
  | .dispose e loc => .dispose (e.substTy s) loc
  | .block b loc => .block
      ⟨b.defns.map (·.substTy s), b.decls.map (·.substTy s), b.props.map (·.substTy s),
        substTyList s b.stmts, b.loc⟩ loc

def substTyCmds (s : Ty.Subst) : List TypedCmd → List TypedCmd
  | [] => []
  | c :: cs => ⟨c.guard.substTy s, substTyList s c.body, c.loc⟩ :: substTyCmds s cs

def substTyList (s : Ty.Subst) : List TypedStmt → List TypedStmt
  | [] => []
  | t :: ts => t.substTy s :: substTyList s ts

end

end Stmt

namespace TypedProgram

/-- Every name that a program binds: declared names, then constructors and functions. -/
def boundNames (p : TypedProgram) : List Name :=
  p.decls.flatMap (·.names) ++ p.defns.flatMap (·.boundNames)

def substTy (s : Ty.Subst) (p : TypedProgram) : TypedProgram :=
  ⟨p.defns.map (·.substTy s), p.decls.map (·.substTy s), p.props.map (·.substTy s),
    Stmt.substTyList s p.stmts, p.loc⟩

end TypedProgram

end GuardedCommands
