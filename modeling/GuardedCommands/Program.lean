import GuardedCommands.Stmt

/-!
# Source programs

A program before elaboration: datatypes, function signatures and function
bodies, then declarations, properties and statements.
-/

namespace GuardedCommands

structure Ctor where
  name : Name
  args : List Ty
  loc : Loc

structure Datatype where
  name : Name
  params : List Name
  ctors : List Ctor
  loc : Loc

inductive Definition
  | datatype (d : Datatype)
  | signature (name : Name) (ty : Ty) (prop : Option Expr) (loc : Loc)
  /-- A function, with one expression for each defining clause. -/
  | function (name : Name) (clauses : List Expr) (loc : Loc)

abbrev SourceStmt := Stmt Expr Definition Unit

abbrev SourceCmd := GuardedCmd Expr SourceStmt

abbrev Program := Block Expr Definition SourceStmt

/-- A comparison of lists that compares members at equal positions. -/
def sameList (same : α → β → Bool) : List α → List β → Bool
  | [], [] => true
  | a :: as, b :: bs => same a b && sameList same as bs
  | _, _ => false

def sameOption (same : α → β → Bool) : Option α → Option β → Bool
  | none, none => true
  | some a, some b => same a b
  | _, _ => false

namespace Ctor

def same (a b : Ctor) : Bool := a.name.same b.name && sameList Ty.same a.args b.args

end Ctor

namespace Datatype

def same (a b : Datatype) : Bool :=
  a.name.same b.name && sameList Name.same a.params b.params && sameList Ctor.same a.ctors b.ctors

end Datatype

namespace Definition

def loc : Definition → Loc
  | .datatype d => d.loc
  | .signature _ _ _ l | .function _ _ l => l

def same : Definition → Definition → Bool
  | .datatype a, .datatype b => a.same b
  | .signature n t p _, .signature n' t' p' _ =>
    n.same n' && t.same t' && sameOption Expr.same p p'
  | .function n cs _, .function n' cs' _ => n.same n' && sameList Expr.same cs cs'
  | _, _ => false

end Definition

namespace Declaration

def ofConsts (names : List String) (ty : Ty) : Declaration Expr :=
  ⟨.const, names.map .bare, ty, none, .none⟩

def ofVars (names : List String) (ty : Ty) : Declaration Expr :=
  ⟨.var, names.map .bare, ty, none, .none⟩

def same (a b : Declaration Expr) : Bool :=
  a.sort == b.sort && sameList Name.same a.names b.names && a.ty.same b.ty
    && sameOption Expr.same a.prop b.prop

end Declaration

def GuardedCmd.ofParts (guard : Expr) (body : List SourceStmt) : SourceCmd :=
  ⟨guard, body, .none⟩

namespace Stmt

/-! ## Building statements that were not read -/

def ofAssign (names : List String) (exprs : List Expr) : SourceStmt :=
  .assign (names.map .bare) exprs .none

def ofAssert (e : Expr) : SourceStmt := .assert e .none

def ofInvariant (inv : Expr) (bound : Option Expr) : SourceStmt := .invariant inv bound .none

def emptyHole : SourceStmt := .hole "" () .none

/-! ## Comparison -/

mutual

def same : SourceStmt → SourceStmt → Bool
  | .skip _, .skip _ => true
  | .abort _, .abort _ => true
  | .assign xs es _, .assign xs' es' _ => sameList Name.same xs xs' && sameList Expr.same es es'
  | .arrayAssign a i v _, .arrayAssign a' i' v' _ => a.same a' && i.same i' && v.same v'
  | .assert e _, .assert e' _ => e.same e'
  | .invariant e b _, .invariant e' b' _ => e.same e' && sameOption Expr.same b b'
  | .loop cs _, .loop cs' _ => sameCmds cs cs'
  | .cond cs _, .cond cs' _ => sameCmds cs cs'
  | .hole t _ _, .hole t' _ _ => t == t'
  | .alloc x es _, .alloc x' es' _ => x.same x' && sameList Expr.same es es'
  | .lookup x e _, .lookup x' e' _ => x.same x' && e.same e'
  | .mutate c v _, .mutate c' v' _ => c.same c' && v.same v'
  | .dispose e _, .dispose e' _ => e.same e'
  | .block b _, .block b' _ =>
    sameList Definition.same b.defns b'.defns && sameList Declaration.same b.decls b'.decls
      && sameList Expr.same b.props b'.props && sameStmts b.stmts b'.stmts
  | _, _ => false
termination_by structural s => s

def sameCmds : List SourceCmd → List SourceCmd → Bool
  | [], [] => true
  | c :: cs, c' :: cs' => c.guard.same c'.guard && sameStmts c.body c'.body && sameCmds cs cs'
  | _, _ => false
termination_by structural cs => cs

def sameStmts : List SourceStmt → List SourceStmt → Bool
  | [], [] => true
  | s :: ss, s' :: ss' => s.same s' && sameStmts ss ss'
  | _, _ => false
termination_by structural ss => ss

end

end Stmt

namespace Program

/-- The program that only runs some statements. -/
def ofStmts (stmts : List SourceStmt) : Program := ⟨[], [], [], stmts, .none⟩

def same (a b : Program) : Bool :=
  sameList Definition.same a.defns b.defns && sameList Declaration.same a.decls b.decls
    && sameList Expr.same a.props b.props && Stmt.sameStmts a.stmts b.stmts

end Program

end GuardedCommands
