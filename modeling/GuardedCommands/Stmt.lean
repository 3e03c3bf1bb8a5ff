import GuardedCommands.Ty

/-!
# Statements and blocks

Statements are the same before and after elaboration but for what stands in
them, so they are generic in three things: the expressions `ε`, the definitions
`δ` and what a hole knows about its surroundings, `η`.  A block carries its own
definitions, declarations and properties; a program is the outermost block.
-/

namespace GuardedCommands

/-- A pair is below another if its first number is not above and its second is below. -/
theorem lex_of_le {a b i j : Nat} (h : a ≤ b) (hij : i < j) :
    Prod.Lex (fun x y => x < y) (fun x y => x < y) (a, i) (b, j) := by
  rcases Nat.lt_or_eq_of_le h with h | h
  · exact .left _ _ h
  · subst h
    exact .right _ hij

/-- Whether a declared name may be assigned to. -/
inductive DeclSort
  | const | var
deriving DecidableEq

/-- Names declared together, with a property that they are to have. -/
structure Declaration (ε : Type) where
  sort : DeclSort
  names : List Name
  ty : Ty
  prop : Option ε
  loc : Loc

/-- A guard and what runs when it holds. -/
structure GuardedCmd (ε σ : Type) where
  guard : ε
  body : List σ
  loc : Loc

structure Block (ε δ σ : Type) where
  defns : List δ
  decls : List (Declaration ε)
  props : List ε
  stmts : List σ
  loc : Loc

inductive Stmt (ε δ η : Type)
  | skip (loc : Loc)
  | abort (loc : Loc)
  /-- Simultaneous assignment. -/
  | assign (names : List Name) (exprs : List ε) (loc : Loc)
  /-- Assignment to an element of an array. -/
  | arrayAssign (array index value : ε) (loc : Loc)
  | assert (e : ε) (loc : Loc)
  /-- An assertion with a bound for the loop after it. -/
  | invariant (inv : ε) (bound : Option ε) (loc : Loc)
  /-- Repeats a command whose guard holds as long as there is one. -/
  | loop (cmds : List (GuardedCmd ε (Stmt ε δ η))) (loc : Loc)
  /-- Runs a command whose guard holds. -/
  | cond (cmds : List (GuardedCmd ε (Stmt ε δ η))) (loc : Loc)
  /-- A place where a program is still to be written. -/
  | hole (text : String) (env : η) (loc : Loc)
  /-- Takes new heap cells with the given contents. -/
  | alloc (x : Name) (exprs : List ε) (loc : Loc)
  /-- Reads a heap cell. -/
  | lookup (x : Name) (e : ε) (loc : Loc)
  /-- Writes a heap cell. -/
  | mutate (cell value : ε) (loc : Loc)
  /-- Gives a heap cell back. -/
  | dispose (e : ε) (loc : Loc)
  | block (body : Block ε δ (Stmt ε δ η)) (loc : Loc)

namespace Stmt

variable {ε δ η : Type}

def loc : Stmt ε δ η → Loc
  | .skip l | .abort l | .assign _ _ l | .arrayAssign _ _ _ l | .assert _ l | .invariant _ _ l
  | .loop _ l | .cond _ l | .hole _ _ l | .alloc _ _ l | .lookup _ _ l | .mutate _ _ l
  | .dispose _ l | .block _ l => l

mutual

/-- The number of statements and guarded commands, a statement itself included. -/
def weight : Stmt ε δ η → Nat
  | .loop cmds _ | .cond cmds _ => weightCmds cmds + 1
  | .block body _ => weightList body.stmts + 1
  | _ => 1

def weightCmds : List (GuardedCmd ε (Stmt ε δ η)) → Nat
  | [] => 0
  | c :: cs => weightList c.body + weightCmds cs + 1

def weightList : List (Stmt ε δ η) → Nat
  | [] => 0
  | s :: ss => s.weight + weightList ss

end

mutual

/-- Whether a loop occurs, in a branch or a block too. -/
def hasLoop : Stmt ε δ η → Bool
  | .loop .. => true
  | .cond cmds _ => cmdsHaveLoop cmds
  | .block body _ => listHasLoop body.stmts
  | _ => false

def cmdsHaveLoop : List (GuardedCmd ε (Stmt ε δ η)) → Bool
  | [] => false
  | c :: cs => listHasLoop c.body || cmdsHaveLoop cs

def listHasLoop : List (Stmt ε δ η) → Bool
  | [] => false
  | s :: ss => s.hasLoop || listHasLoop ss

end

theorem weight_pos (s : Stmt ε δ η) : 0 < s.weight := by
  cases s <;> simp [weight]

end Stmt

end GuardedCommands
