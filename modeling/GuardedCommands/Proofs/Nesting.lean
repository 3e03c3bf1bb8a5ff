import GuardedCommands.Typed.Program

/-!
# Induction over nested syntax

Links stand in expressions, and commands and blocks in statements.  What is to be
shown of an expression comes with what is to be shown of its links, and what is to
be shown of a list of statements with what is to be shown of one of them and of
commands.
-/

namespace GuardedCommands

theorem TypedExpr.nested_induction {P : TypedExpr → Prop} {L : List (TypedLink TypedExpr) → Prop}
    (lit : ∀ l t loc, P (.lit l t loc)) (var : ∀ x t loc, P (.var x t loc))
    (const : ∀ x t loc, P (.const x t loc)) (op : ∀ o t loc, P (.op o t loc))
    (chain : ∀ head links t loc, P head → L links → P (.chain head links t loc))
    (app : ∀ f a t loc, P f → P a → P (.app f a t loc))
    (lam : ∀ b body t loc, P body → P (.lam b body t loc))
    (quant : ∀ q bs r body t loc, P q → P r → P body → P (.quant q bs r body t loc))
    (index : ∀ a i t loc, P a → P i → P (.index a i t loc))
    (update : ∀ a i v t loc, P a → P i → P v → P (.update a i v t loc))
    (nil : L []) (cons : ∀ l ls, P l.rhs → L ls → L (l :: ls)) (e : TypedExpr) : P e :=
  @TypedExpr.rec P L (fun l => P l.rhs) lit var const op chain app lam quant index update nil cons
    (fun _ _ _ _ h => h) e

namespace Stmt

variable {ε δ η : Type} {S : Stmt ε δ η → Prop} {C : List (GuardedCmd ε (Stmt ε δ η)) → Prop}
  {L : List (Stmt ε δ η) → Prop}

/-- There are no statements in the statement. -/
def isSimple : Stmt ε δ η → Bool
  | .loop .. | .cond .. | .block .. => false
  | _ => true

mutual

def hasBlock : Stmt ε δ η → Bool
  | .block .. => true
  | .loop cmds _ | .cond cmds _ => cmdsHaveBlock cmds
  | _ => false

def cmdsHaveBlock : List (GuardedCmd ε (Stmt ε δ η)) → Bool
  | [] => false
  | c :: cs => listHasBlock c.body || cmdsHaveBlock cs

def listHasBlock : List (Stmt ε δ η) → Bool
  | [] => false
  | s :: ss => s.hasBlock || listHasBlock ss

end

theorem nested_induction (simple : ∀ s, s.isSimple = true → S s)
    (loop : ∀ cs loc, C cs → S (.loop cs loc)) (cond : ∀ cs loc, C cs → S (.cond cs loc))
    (block : ∀ b loc, L b.stmts → S (.block b loc)) (noCmds : C [])
    (cmds : ∀ c cs, L c.body → C cs → C (c :: cs)) (nil : L [])
    (cons : ∀ s ss, S s → L ss → L (s :: ss)) (ss : List (Stmt ε δ η)) : L ss := by
  refine @Stmt.rec_4 ε δ η S C (fun b => L b.stmts) (fun c => L c.body) L ?_ ?_ ?_ ?_ ?_ ?_ loop
    cond ?_ ?_ ?_ ?_ ?_ block noCmds cmds (fun _ _ _ _ _ h => h) (fun _ _ _ h => h) nil cons ss
  all_goals
    intros
    exact simple _ rfl

end Stmt

end GuardedCommands
