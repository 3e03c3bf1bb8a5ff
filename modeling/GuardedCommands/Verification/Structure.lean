import GuardedCommands.Verification.Segment
import GuardedCommands.Verification.Wp

/-!
# Structuring a program into obligations

A statement list is worked through segment by segment.  Runs of statements are
pulled back to the next assertion; each assertion, loop and hole contributes its
obligations, warnings or holes to a ledger.  What has been recorded before an
error stays recorded.
-/

namespace GuardedCommands

/-- What has been generated so far. -/
structure Ledger where
  obligations : List Obligation
  /-- The digests of the obligations that have come up. -/
  seen : NameSet
  holes : List SpecHole
  warnings : List Warning

namespace Ledger

def empty : Ledger := ⟨[], ∅, [], []⟩

/-- Records an obligation, unless its sides are the same or it has come up before and
repetitions are left out. -/
def obligate (o : Options) (pre post : Pred) (origin : Origin) (label : Option String)
    (l : Ledger) : Ledger :=
  if pre.expr.same post.expr then l
  else
    let digest := Obligation.digest pre.expr post.expr
    if digest ∈ l.seen && o.dedupe then l
    else
      let obligation : Obligation :=
        ⟨pre, post, Obligation.shortId digest o.idLength, label, origin⟩
      { l with obligations := l.obligations ++ [obligation], seen := l.seen.insert digest }

def recordHole (pre post : Pred) (env : TypeEnv) (loc : Loc) (l : Ledger) : Ledger :=
  { l with holes := l.holes ++ [⟨l.holes.length, pre, post, env, loc⟩] }

def warn (w : Warning) (l : Ledger) : Ledger := { l with warnings := l.warnings ++ [w] }

/-- All that has been recorded, holes in the order of the text. -/
def output (l : Ledger) : Output :=
  let sorted := l.holes.mergeSort fun a b => a.loc.offset ≤ b.loc.offset
  ⟨l.obligations, sorted.mapIdx fun i h => { h with id := i }, l.warnings⟩

end Ledger

/-- What code has to establish, and how that is reported. -/
structure Target where
  pred : Pred
  origin : Origin
  label : Option String

namespace Target

def ofPred (p : Pred) : Target := ⟨p, ⟨.assertion, p.loc⟩, none⟩

/-- To establish a precondition of it, reported alike. -/
def withExpr (t : Target) (e : TypedExpr) : Target := { t with pred := .constant e }

end Target

/-- Obligation generation, which keeps what it has recorded when it fails. -/
abbrev VerificationM := EStateM VerificationError Ledger

namespace Structure

def obligate (o : Options) (pre post : Pred) (origin : Origin) (label : Option String) :
    VerificationM Unit :=
  modify (Ledger.obligate o pre post origin label)

def recordHole (pre post : Pred) (env : TypeEnv) (loc : Loc) : VerificationM Unit :=
  modify (Ledger.recordHole pre post env loc)

def warn (w : Warning) : VerificationM Unit := modify (Ledger.warn w)

/-- Requires one command of a loop to make the bound smaller.  A constant keeps the bound
as it was; a body with a loop in it is not checked. -/
def checkDecrease (o : Options) (scopes : Scopes) (inv bound : TypedExpr) (loc : Loc)
    (c : TypedCmd) : VerificationM Unit :=
  if Stmt.listHasLoop c.body then warn (.uncheckedDecrease c.loc)
  else do
    let snapshot := scopes.freshName o.boundStem (inv.freeVars ∪ bound.freeVars ∪ c.guard.freeVars)
    let old := TypedExpr.ofConst (.bare snapshot) .int
    let pre := TypedExpr.conjunction [inv, c.guard, .compare bound .eq old]
    let post ← ofExcept (Wp.list o ({snapshot} :: scopes) (.compare bound .lt old) c.body)
    obligate o (.constant pre) (.constant post) ⟨.boundDecrease, loc⟩ (some c.guard.text)

/-- What a loop has to satisfy besides keeping its invariant: the invariant leads on when
no guard holds, and the bound, if there is one, is not negative and gets smaller. -/
def checkLoop (o : Options) (scopes : Scopes) (inv : Pred) (cmds : List TypedCmd) (loc : Loc)
    (exit : Target) : VerificationM Unit := do
  let guards := cmds.map (·.guard)
  let done := TypedExpr.conj inv.expr (.neg (.disjunction guards))
  obligate o (.constant done) exit.pred ⟨.loopExit, loc⟩ exit.label
  match inv.bound with
  | none => warn (.missingBound loc)
  | some bound =>
    let running := TypedExpr.conj inv.expr (.disjunction guards)
    obligate o (.constant running) (.constant (.compare bound .gte (.ofNum 0)))
      ⟨.loopTermination, loc⟩ none
    cmds.forM (checkDecrease o scopes inv.expr bound loc)

mutual

/-- Records what segments need to lead from a precondition to a target. -/
def segments (o : Options) (scopes : Scopes) (target : Target) (pre : Pred)
    (segs : List Segment) : VerificationM Unit :=
  match segs with
  | .assertion a :: rest => do
    obligate o pre a ⟨.assertion, a.loc⟩ none
    segments o scopes target a rest
  | .hole env loc :: rest => do
    let next ← pullBack o scopes target rest
    recordHole pre next.pred env loc
  | segs => do
    let next ← pullBack o scopes target segs
    obligate o pre next.pred next.origin next.label
termination_by (Segment.weightList segs, segs.length + 3)
decreasing_by
  · simp only [Segment.weightList, Segment.weight]
    exact Prod.Lex.left _ _ (by omega)
  · simp only [Segment.weightList, Segment.weight]
    exact Prod.Lex.left _ _ (by omega)
  · exact Prod.Lex.right _ (by omega)

/-- What has to hold before segments.  From the first assertion on, everything is
recorded on the way. -/
def pullBack (o : Options) (scopes : Scopes) (target : Target) (segs : List Segment) :
    VerificationM Target :=
  match segs with
  | [] => return target
  | .run ss :: rest => do
    let next ← pullBack o scopes target rest
    run o scopes next ss
  | .assertion a :: rest => do
    segments o scopes target a rest
    return .ofPred a
  | .loop inv cmds loc :: rest => do
    let exit ← pullBack o scopes target rest
    bodies o scopes inv loc cmds
    checkLoop o scopes inv cmds loc exit
    return .ofPred inv
  | .hole env loc :: rest => do
    let next ← pullBack o scopes target rest
    recordHole next.pred next.pred env loc
    return next
termination_by (Segment.weightList segs, segs.length + 2)
decreasing_by
  · exact lex_of_le (by simp only [Segment.weightList]; omega)
      (by simp only [List.length_cons]; omega)
  · exact lex_of_le (by simp only [Segment.weightList, Segment.weight]; omega) (by omega)
  · simp only [Segment.weightList, Segment.weight]
    exact Prod.Lex.left _ _ (by omega)
  · simp only [Segment.weightList, Segment.weight]
    exact Prod.Lex.left _ _ (by omega)
  · simp only [Segment.weightList, Segment.weight]
    exact Prod.Lex.left _ _ (by omega)
  · simp only [Segment.weightList, Segment.weight]
    exact Prod.Lex.left _ _ (by omega)

def run (o : Options) (scopes : Scopes) (target : Target) (ss : List TypedStmt) :
    VerificationM Target :=
  match ss with
  | [] => return target
  | s :: ss => do
    let next ← run o scopes target ss
    return next.withExpr (← stmt o scopes next s)
termination_by (Stmt.weightList ss, 1)
decreasing_by
  · have := s.weight_pos
    simp only [Stmt.weightList]
    exact Prod.Lex.left _ _ (by omega)
  · exact lex_of_le (by simp only [Stmt.weightList]; omega) (by omega)

/-- The precondition of a statement.  What is asserted inside branches and blocks is
recorded on the way. -/
def stmt (o : Options) (scopes : Scopes) (target : Target) (s : TypedStmt) :
    VerificationM TypedExpr :=
  match s with
  | .cond cs _ => return .conjunction (← branches o scopes target cs)
  | .block b _ => do
    let opened := Wp.OpenBlock.ofBlock scopes b target.pred.expr
    let result ← pullBack o (opened.scope :: scopes) target
      (Segment.ofStmts (opened.renames.stmts b.stmts))
    return result.pred.expr
  | s => ofExcept (Wp.stmt o scopes target.pred.expr s)
termination_by (s.weight, 0)
decreasing_by
  · simp only [Stmt.weight]
    exact Prod.Lex.left _ _ (by omega)
  · simp only [Stmt.weight, Segment.weightList_ofStmts, Renaming.weightList_stmts]
    exact Prod.Lex.left _ _ (by omega)

def branches (o : Options) (scopes : Scopes) (target : Target) (cs : List TypedCmd) :
    VerificationM (List TypedExpr) :=
  match cs with
  | [] => return []
  | c :: cs => do
    let body ← pullBack o scopes target (Segment.ofStmts c.body)
    let rest ← branches o scopes target cs
    return .implies c.guard body.pred.expr :: rest
termination_by (Stmt.weightCmds cs, 0)
decreasing_by
  · simp only [Stmt.weightCmds, Segment.weightList_ofStmts]
    exact Prod.Lex.left _ _ (by omega)
  · simp only [Stmt.weightCmds]
    exact Prod.Lex.left _ _ (by omega)

def bodies (o : Options) (scopes : Scopes) (inv : Pred) (loc : Loc) (cs : List TypedCmd) :
    VerificationM Unit :=
  match cs with
  | [] => return
  | c :: cs => do
    let target : Target := ⟨inv, ⟨.preservation, loc⟩, some c.guard.text⟩
    segments o scopes target (.constant (.conj inv.expr c.guard)) (Segment.ofStmts c.body)
    bodies o scopes inv loc cs
termination_by (Stmt.weightCmds cs, 0)
decreasing_by
  · simp only [Stmt.weightCmds, Segment.weightList_ofStmts]
    exact Prod.Lex.left _ _ (by omega)
  · simp only [Stmt.weightCmds]
    exact Prod.Lex.left _ _ (by omega)

end

def assertionOf : Option TypedStmt → Pred
  | some (.assert e loc) => .assertion e loc
  | _ => .constant (.ofBool true)

/-- Records what a program needs.  An assertion at the beginning is its precondition, one
at the end its postcondition. -/
def program (o : Options) (scopes : Scopes) (p : TypedProgram) : VerificationM Unit :=
  let scope := NameSet.ofList (p.boundNames.map (·.text))
  segments o (scope :: scopes) (.ofPred (assertionOf p.stmts.getLast?)) (assertionOf p.stmts.head?)
    (Segment.ofStmts p.stmts)

end Structure

end GuardedCommands
