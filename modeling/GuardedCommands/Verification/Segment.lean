import GuardedCommands.Typed.Program
import GuardedCommands.Verification.Obligation

/-!
# Segments of a statement list

A list of statements is cut at its assertions and holes.  What lies between two
cuts is a run; an assertion with a loop right behind it is the invariant of the
loop.
-/

namespace GuardedCommands

inductive Segment
  /-- Statements without an assertion or a hole among them. -/
  | run (stmts : List TypedStmt)
  | assertion (p : Pred)
  /-- A loop with the assertion before it. -/
  | loop (inv : Pred) (cmds : List TypedCmd) (loc : Loc)
  | hole (env : TypeEnv) (loc : Loc)

namespace Segment

/-- Puts a statement in front of segments, into the run they begin with if they do. -/
def consRun (s : TypedStmt) : List Segment → List Segment
  | .run ss :: segs => .run (s :: ss) :: segs
  | segs => .run [s] :: segs

def ofStmts : List TypedStmt → List Segment
  | [] => []
  | .assert e loc :: .loop cmds l :: rest => .loop (.assertion e loc) cmds l :: ofStmts rest
  | .assert e loc :: rest => .assertion (.assertion e loc) :: ofStmts rest
  | .invariant inv bound loc :: .loop cmds l :: rest =>
    .loop (.invariant inv bound loc) cmds l :: ofStmts rest
  | .invariant inv bound loc :: rest => .assertion (.invariant inv bound loc) :: ofStmts rest
  | .hole _ env loc :: rest => .hole env loc :: ofStmts rest
  | s :: rest => consRun s (ofStmts rest)

def weight : Segment → Nat
  | .run ss => Stmt.weightList ss
  | .assertion _ | .hole .. => 1
  | .loop _ cmds _ => Stmt.weightCmds cmds + 2

def weightList : List Segment → Nat
  | [] => 0
  | s :: ss => s.weight + weightList ss

theorem weightList_consRun (s : TypedStmt) (segs : List Segment) :
    weightList (consRun s segs) = s.weight + weightList segs := by
  unfold consRun
  split
  · simp only [weightList, weight, Stmt.weightList]; omega
  · simp only [weightList, weight, Stmt.weightList]; omega

/-- Cutting keeps all the statements. -/
theorem weightList_ofStmts (ss : List TypedStmt) :
    weightList (ofStmts ss) = Stmt.weightList ss := by
  fun_induction ofStmts ss with
  | case1 => rfl
  | case2 e loc cmds l rest ih =>
    simp only [weightList, weight, Stmt.weightList, Stmt.weight, ih]; omega
  | case3 e loc rest _ ih =>
    simp only [weightList, weight, Stmt.weightList, Stmt.weight, ih]
  | case4 inv bound loc cmds l rest ih =>
    simp only [weightList, weight, Stmt.weightList, Stmt.weight, ih]; omega
  | case5 inv bound loc rest _ ih =>
    simp only [weightList, weight, Stmt.weightList, Stmt.weight, ih]
  | case6 text env loc rest ih =>
    simp only [weightList, weight, Stmt.weightList, Stmt.weight, ih]
  | case7 s rest _ _ _ _ _ ih =>
    simp only [weightList_consRun, Stmt.weightList, ih]

end Segment

end GuardedCommands
