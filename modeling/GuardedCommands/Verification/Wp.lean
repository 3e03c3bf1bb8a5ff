import GuardedCommands.Verification.Error
import GuardedCommands.Verification.Options
import GuardedCommands.Verification.Rename

/-!
# Weakest preconditions

What has to hold before statements so that a postcondition holds after them.
Assertions and holes are passed over, and a loop has no precondition of its own.
The heap rules introduce variables, and a block whose declarations hide names
that matter is renamed apart; new names are chosen outside the scopes in force.
-/

namespace GuardedCommands

/-- The names in force, the innermost scope first. -/
abbrev Scopes := List NameSet

namespace Scopes

/-- A name that is in no scope and not to be avoided. -/
def freshName (scopes : Scopes) (stem : String) (avoid : NameSet) : String :=
  Fresh.inScopes stem (avoid :: scopes)

end Scopes

namespace TypedExpr

def asName? : TypedExpr → Option Name
  | .var x _ _ | .const x _ _ => some x
  | _ => none

end TypedExpr

namespace Wp

def namesOf (es : List TypedExpr) : NameSet := NameSet.unionMap TypedExpr.freeVars es

def heapVar (o : Options) (scopes : Scopes) (avoid : NameSet) : Binder :=
  ⟨.bare (scopes.freshName o.heapStem avoid), .int⟩

/-- All names are replaced at once; of two expressions for one name the later counts. -/
def assign (xs : List Name) (es : List TypedExpr) (post : TypedExpr) : TypedExpr :=
  post.substitute (.ofList ((xs.zip es).map fun (x, e) => (x.text, e)))

/-- An array gets a new value that differs from the old one at an index. -/
def arrayAssign (a i v : TypedExpr) (loc : Loc) (post : TypedExpr) :
    Except VerificationError TypedExpr :=
  match a.asName? with
  | some x => .ok (post.substitute (.singleton x.text (.update a i v a.ty loc)))
  | none => .error (.nestedArray loc)

/-- The address of the cell number `i` after a base address. -/
def address (base : TypedExpr) (i : Nat) : TypedExpr :=
  if i = 0 then base else .binary .add base (.ofNum (.ofNat i))

/-- The cells with some contents one after the other, associated to the left. -/
def cells (base : TypedExpr) (es : List TypedExpr) : TypedExpr :=
  match es.mapIdx fun i e => TypedExpr.pointsTo (address base i) e with
  | [] => .ofLit .emp
  | c :: cs => cs.foldl .sepConj c

/-- Wherever the new cells are, their address makes the postcondition true. -/
def alloc (o : Options) (scopes : Scopes) (x : Name) (es : List TypedExpr) (post : TypedExpr) :
    TypedExpr :=
  let v := heapVar o scopes ((post.freeVars ∪ namesOf es).insert x.text)
  let base := TypedExpr.ofVar v.name .int
  let body := TypedExpr.implies (cells base es) (post.substitute (.singleton x.text base))
  .forAll [v] (.ofBool true) body

/-- There is a content of the cell, and it makes the postcondition true. -/
def lookup (o : Options) (scopes : Scopes) (x : Name) (e post : TypedExpr) : TypedExpr :=
  let v := heapVar o scopes ((post.freeVars ∪ e.freeVars).insert x.text)
  let value := TypedExpr.ofVar v.name .int
  let cell := TypedExpr.pointsTo e value
  let body := TypedExpr.conj cell (.sepImp cell (post.substitute (.singleton x.text value)))
  .thereIs [v] (.ofBool true) body

def ownedCell (o : Options) (scopes : Scopes) (cell : TypedExpr) (avoid : NameSet) : TypedExpr :=
  let v := heapVar o scopes avoid
  .thereIs [v] (.ofBool true) (.pointsTo cell (.ofVar v.name .int))

/-- The cell is there, and the postcondition holds when it has the new content. -/
def mutate (o : Options) (scopes : Scopes) (cell value post : TypedExpr) : TypedExpr :=
  .sepConj (ownedCell o scopes cell (post.freeVars ∪ cell.freeVars ∪ value.freeVars))
    (.sepImp (.pointsTo cell value) post)

/-- The cell is there, and the postcondition holds of the rest of the heap. -/
def dispose (o : Options) (scopes : Scopes) (cell post : TypedExpr) : TypedExpr :=
  .sepConj (ownedCell o scopes cell (post.freeVars ∪ cell.freeVars)) post

/-- A block made ready: its statements and the names that its declarations have now. -/
structure OpenBlock where
  renames : Renaming
  scope : NameSet
  avoid : NameSet

namespace OpenBlock

/-- Takes one declared name into the scope of a block, under a new name if it hides one
that is visible or occurs in the postcondition. -/
def declare (scopes : Scopes) (postFree : NameSet) (d : TypedDeclaration) (b : OpenBlock)
    (x : Name) : OpenBlock :=
  if Fresh.taken scopes x.text || postFree.contains x.text then
    let new := scopes.freshName x.text b.avoid
    ⟨b.renames.insert d x.text new, b.scope.insert new, b.avoid.insert new⟩
  else
    ⟨b.renames, b.scope.insert x.text, b.avoid⟩

def ofBlock (scopes : Scopes) (p : TypedProgram) (post : TypedExpr) : OpenBlock :=
  p.decls.foldl (fun b d => d.names.foldl (declare scopes post.freeVars d) b)
    ⟨.empty, ∅, p.declaredNames ∪ post.freeVars⟩

end OpenBlock

mutual

def list (o : Options) (scopes : Scopes) (post : TypedExpr) (ss : List TypedStmt) :
    Except VerificationError TypedExpr :=
  match ss with
  | [] => .ok post
  | s :: ss => do
    let mid ← list o scopes post ss
    stmt o scopes mid s
termination_by (Stmt.weightList ss, 1)
decreasing_by
  · have := s.weight_pos
    simp only [Stmt.weightList]
    exact Prod.Lex.left _ _ (by omega)
  · exact lex_of_le (by simp only [Stmt.weightList]; omega) (by omega)

def stmt (o : Options) (scopes : Scopes) (post : TypedExpr) (s : TypedStmt) :
    Except VerificationError TypedExpr :=
  match s with
  | .skip _ | .assert .. | .invariant .. | .hole .. => .ok post
  | .abort _ => .ok (.ofBool false)
  | .assign xs es _ => .ok (assign xs es post)
  | .arrayAssign a i v loc => arrayAssign a i v loc post
  | .loop _ loc => .error (.missingAssertion loc)
  | .cond cs _ => return .conjunction (← cmds o scopes post cs)
  | .alloc x es _ => .ok (alloc o scopes x es post)
  | .lookup x e _ => .ok (lookup o scopes x e post)
  | .mutate cell value _ => .ok (mutate o scopes cell value post)
  | .dispose cell _ => .ok (dispose o scopes cell post)
  | .block b _ =>
    let opened := OpenBlock.ofBlock scopes b post
    list o (opened.scope :: scopes) post (opened.renames.stmts b.stmts)
termination_by (s.weight, 0)
decreasing_by
  · simp only [Stmt.weight]
    exact Prod.Lex.left _ _ (by omega)
  · simp only [Stmt.weight, Renaming.weightList_stmts]
    exact Prod.Lex.left _ _ (by omega)

def cmds (o : Options) (scopes : Scopes) (post : TypedExpr) (cs : List TypedCmd) :
    Except VerificationError (List TypedExpr) :=
  match cs with
  | [] => .ok []
  | c :: cs => do
    let body ← list o scopes post c.body
    let rest ← cmds o scopes post cs
    return .implies c.guard body :: rest
termination_by (Stmt.weightCmds cs, 0)
decreasing_by
  · simp only [Stmt.weightCmds]
    exact Prod.Lex.left _ _ (by omega)
  · simp only [Stmt.weightCmds]
    exact Prod.Lex.left _ _ (by omega)

end

end Wp

end GuardedCommands
