import GuardedCommands.Proofs.Lockstep

/-!
# One stack of scopes

A verifier can also be run as a machine with one state.  Scopes then are a stack, on which
blocks, bounds and programs push what they declare before they go on, and which they pop
afterwards, whatever the outcome; and one and the same code computes preconditions in two
modes, one that records what assertions and holes need and one that passes them over.
The machine does what the functions on scopes and ledgers do.  So every push is matched
by a pop, also when an error comes from further inside, and what passes assertions over
leaves the whole state as it was.  In a session of calls to one verifier a weakest
precondition therefore depends on the scopes that have been entered by hand, and on
nothing else that has happened before.
-/

namespace GuardedCommands

/-! ## The machine -/

abbrev StackM := EStateM VerificationError Verifier

namespace StackM

variable {α : Type}

def push (scope : NameSet) : StackM Unit := modify fun v => { v with scopes := scope :: v.scopes }

def pop : StackM Unit := modify fun v => { v with scopes := v.scopes.tail }

def attempt (m : StackM α) : StackM (Except VerificationError α) := fun v =>
  match m v with
  | .ok a v' => .ok (.ok a) v'
  | .error e v' => .ok (.error e) v'

def inScope (scope : NameSet) (m : StackM α) : StackM α := do
  push scope
  let result ← attempt m
  pop
  ofExcept result

def obligate (pre post : Pred) (origin : Origin) (label : Option String) : StackM Unit :=
  modify fun v => { v with ledger := v.ledger.obligate v.options pre post origin label }

def recordHole (pre post : Pred) (env : TypeEnv) (loc : Loc) : StackM Unit :=
  modify fun v => { v with ledger := v.ledger.recordHole pre post env loc }

def warn (w : Warning) : StackM Unit := modify fun v => { v with ledger := v.ledger.warn w }

end StackM

namespace Machine

open StackM

inductive Mode
  /-- What they need is recorded. -/
  | structured
  /-- They are passed over. -/
  | transparent

mutual

def segments (target : Target) (pre : Pred) (segs : List Segment) : StackM Unit :=
  match segs with
  | .assertion a :: rest => do
    obligate pre a ⟨.assertion, a.loc⟩ none
    segments target a rest
  | .hole env loc :: rest => do
    let next ← pullBack target rest
    recordHole pre next.pred env loc
  | segs => do
    let next ← pullBack target segs
    obligate pre next.pred next.origin next.label
termination_by (Segment.weightList segs, segs.length + 3)
decreasing_by
  · simp only [Segment.weightList, Segment.weight]
    exact Prod.Lex.left _ _ (by omega)
  · simp only [Segment.weightList, Segment.weight]
    exact Prod.Lex.left _ _ (by omega)
  · exact Prod.Lex.right _ (by omega)

def pullBack (target : Target) (segs : List Segment) : StackM Target :=
  match segs with
  | [] => return target
  | .run ss :: rest => do
    let next ← pullBack target rest
    run .structured next ss
  | .assertion a :: rest => do
    segments target a rest
    return .ofPred a
  | .loop inv cmds loc :: rest => do
    let exit ← pullBack target rest
    bodies inv loc cmds
    let guards := cmds.map (·.guard)
    obligate (.constant (.conj inv.expr (.neg (.disjunction guards)))) exit.pred ⟨.loopExit, loc⟩
      exit.label
    (match inv.bound with
      | none => warn (.missingBound loc)
      | some bound => do
        obligate (.constant (.conj inv.expr (.disjunction guards)))
          (.constant (.compare bound .gte (.ofNum 0))) ⟨.loopTermination, loc⟩ none
        decreases inv.expr bound loc cmds)
    return .ofPred inv
  | .hole env loc :: rest => do
    let next ← pullBack target rest
    recordHole next.pred next.pred env loc
    return next
termination_by (Segment.weightList segs, segs.length + 2)
decreasing_by
  · exact lex_of_le (by simp only [Segment.weightList]; omega)
      (by simp only [List.length_cons]; omega)
  · exact lex_of_le (by simp only [Segment.weightList, Segment.weight]; omega) (by omega)
  all_goals
    simp only [Segment.weightList, Segment.weight]
    exact Prod.Lex.left _ _ (by omega)

def run (mode : Mode) (target : Target) (ss : List TypedStmt) : StackM Target :=
  match ss with
  | [] => return target
  | s :: ss => do
    let next ← run mode target ss
    return next.withExpr (← stmt mode next s)
termination_by (Stmt.weightList ss, 1)
decreasing_by
  · have := s.weight_pos
    simp only [Stmt.weightList]
    exact Prod.Lex.left _ _ (by omega)
  · exact lex_of_le (by simp only [Stmt.weightList]; omega) (by omega)

def stmt (mode : Mode) (target : Target) (s : TypedStmt) : StackM TypedExpr :=
  match s with
  | .cond cs _ => return .conjunction (← branches mode target cs)
  | .block b _ => do
    let v ← get
    let opened := Wp.OpenBlock.ofBlock v.scopes b target.pred.expr
    let stmts := opened.renames.stmts b.stmts
    let result ← inScope opened.scope (match mode with
      | .structured => pullBack target (Segment.ofStmts stmts)
      | .transparent => run .transparent target stmts)
    return result.pred.expr
  | s => do
    let v ← get
    ofExcept (Wp.stmt v.options v.scopes target.pred.expr s)
termination_by (s.weight, 0)
decreasing_by
  · simp only [Stmt.weight]
    exact Prod.Lex.left _ _ (by omega)
  · simp only [Stmt.weight, Segment.weightList_ofStmts, Renaming.weightList_stmts]
    exact Prod.Lex.left _ _ (by omega)
  · simp only [Stmt.weight, Renaming.weightList_stmts]
    exact Prod.Lex.left _ _ (by omega)

def branches (mode : Mode) (target : Target) (cs : List TypedCmd) : StackM (List TypedExpr) :=
  match cs with
  | [] => return []
  | c :: cs => do
    let body ← match mode with
      | .structured => pullBack target (Segment.ofStmts c.body)
      | .transparent => run .transparent target c.body
    let rest ← branches mode target cs
    return .implies c.guard body.pred.expr :: rest
termination_by (Stmt.weightCmds cs, 0)
decreasing_by
  all_goals
    simp only [Stmt.weightCmds, Segment.weightList_ofStmts]
    exact Prod.Lex.left _ _ (by omega)

def bodies (inv : Pred) (loc : Loc) (cs : List TypedCmd) : StackM Unit :=
  match cs with
  | [] => return
  | c :: cs => do
    let target : Target := ⟨inv, ⟨.preservation, loc⟩, some c.guard.text⟩
    segments target (.constant (.conj inv.expr c.guard)) (Segment.ofStmts c.body)
    bodies inv loc cs
termination_by (Stmt.weightCmds cs, 0)
decreasing_by
  all_goals
    simp only [Stmt.weightCmds, Segment.weightList_ofStmts]
    exact Prod.Lex.left _ _ (by omega)

def decreases (inv bound : TypedExpr) (loc : Loc) (cs : List TypedCmd) : StackM Unit :=
  match cs with
  | [] => return
  | c :: cs => do
    (if Stmt.listHasLoop c.body then warn (.uncheckedDecrease c.loc)
      else do
        let v ← get
        let snapshot := v.scopes.freshName v.options.boundStem
          (inv.freeVars ∪ bound.freeVars ∪ c.guard.freeVars)
        let old := TypedExpr.ofConst (.bare snapshot) .int
        let post ← inScope {snapshot} (run .transparent
          (.ofPred (.constant (.compare bound .lt old))) c.body)
        obligate (.constant (.conjunction [inv, c.guard, .compare bound .eq old]))
          (.constant post.pred.expr) ⟨.boundDecrease, loc⟩ (some c.guard.text))
    decreases inv bound loc cs
termination_by (Stmt.weightCmds cs, 0)
decreasing_by
  all_goals
    simp only [Stmt.weightCmds]
    exact Prod.Lex.left _ _ (by omega)

end

def wp (ss : List TypedStmt) (post : TypedExpr) : StackM TypedExpr := do
  let result ← run .transparent (.ofPred (.constant post)) ss
  return result.pred.expr

def program (p : TypedProgram) : StackM Unit :=
  inScope (NameSet.ofList (p.boundNames.map (·.text)))
    (segments (.ofPred (Structure.assertionOf p.stmts.getLast?))
      (Structure.assertionOf p.stmts.head?) (Segment.ofStmts p.stmts))

end Machine

/-! ## The machine and the functions on ledgers -/

/-- In given scopes, a computation on verifiers does to the ledger what another one does, with
related results or the same error, and leaves the options and the scopes as they were. -/
def Tracks {α β : Type} (o : Options) (scopes : Scopes) (R : α → β → Prop) (M : StackM α)
    (m : VerificationM β) : Prop :=
  ∀ l, (∃ a b l', M ⟨o, scopes, l⟩ = .ok a ⟨o, scopes, l'⟩ ∧ m l = .ok b l' ∧ R a b) ∨
    ∃ e l', M ⟨o, scopes, l⟩ = .error e ⟨o, scopes, l'⟩ ∧ m l = .error e l'

namespace Tracks

variable {α β γ δ : Type} {o : Options} {scopes : Scopes} {R : α → β → Prop} {S : γ → δ → Prop}
  {M : StackM α} {m : VerificationM β}

theorem bind {F : α → StackM γ} {f : β → VerificationM δ} (hm : Tracks o scopes R M m)
    (hf : ∀ a b, R a b → Tracks o scopes S (F a) (f b)) :
    Tracks o scopes S (M >>= F) (m >>= f) := by
  intro l
  rcases hm l with ⟨a, b, l', hM, hm, hR⟩ | ⟨e, l', hM, hm⟩
  · have hl : (M >>= F) ⟨o, scopes, l⟩ = F a ⟨o, scopes, l'⟩ := by
      simp [Bind.bind, EStateM.bind, hM]
    have hl' : (m >>= f) l = f b l' := by simp [Bind.bind, EStateM.bind, hm]
    rw [hl, hl']
    exact hf a b hR l'
  · refine .inr ⟨e, l', ?_, ?_⟩
    · simp [Bind.bind, EStateM.bind, hM]
    · simp [Bind.bind, EStateM.bind, hm]

theorem pure {a : α} {b : β} (h : R a b) : Tracks o scopes R (Pure.pure a) (Pure.pure b) :=
  fun l => .inl ⟨a, b, l, rfl, rfl, h⟩

theorem modify {F : Verifier → Verifier} {f : Ledger → Ledger}
    (h : ∀ l, F ⟨o, scopes, l⟩ = ⟨o, scopes, f l⟩) :
    Tracks o scopes Eq (modify F) (modify f) :=
  fun l => .inl ⟨(), (), f l, congrArg (EStateM.Result.ok ()) (h l), rfl, rfl⟩

theorem ofExcept (x : Except VerificationError α) :
    Tracks o scopes Eq (MonadExcept.ofExcept x) (MonadExcept.ofExcept x) := by
  intro l
  cases x with
  | ok a => exact .inl ⟨a, a, l, rfl, rfl, rfl⟩
  | error e => exact .inr ⟨e, l, rfl, rfl⟩

theorem get {F : Verifier → StackM α} (h : ∀ l, Tracks o scopes R (F ⟨o, scopes, l⟩) m) :
    Tracks o scopes R (MonadState.get >>= F) m :=
  fun l => h l l

theorem inScope {scope : NameSet} (h : Tracks o (scope :: scopes) R M m) :
    Tracks o scopes R (StackM.inScope scope M) m := by
  intro l
  rcases h l with ⟨a, b, l', hM, hm, hR⟩ | ⟨e, l', hM, hm⟩
  · refine .inl ⟨a, b, l', ?_, hm, hR⟩
    change EStateM.bind (StackM.attempt M) _ ⟨o, scope :: scopes, l⟩ = _
    simp only [EStateM.bind, StackM.attempt, hM]
    rfl
  · refine .inr ⟨e, l', ?_, hm⟩
    change EStateM.bind (StackM.attempt M) _ ⟨o, scope :: scopes, l⟩ = _
    simp only [EStateM.bind, StackM.attempt, hM]
    rfl

end Tracks

namespace Machine

variable {o : Options}

/-- In the mode that passes assertions over, the machine computes weakest preconditions and
does nothing else. -/
theorem run_tracks (scopes : Scopes) (post : TypedExpr) (ss : List TypedStmt) (target : Target)
    (htarget : target.pred.expr = post) :
    Tracks o scopes (fun t e => t.pred.expr = e) (run .transparent target ss)
      (ofExcept (Wp.list o scopes post ss)) := by
  refine Wp.list.induct
    (fun scopes post ss => ∀ target : Target, target.pred.expr = post →
      Tracks o scopes (fun t e => t.pred.expr = e) (run .transparent target ss)
        (ofExcept (Wp.list o scopes post ss)))
    (fun scopes post s => ∀ target : Target, target.pred.expr = post →
      Tracks o scopes Eq (stmt .transparent target s) (ofExcept (Wp.stmt o scopes post s)))
    (fun scopes post cs => ∀ target : Target, target.pred.expr = post →
      Tracks o scopes Eq (branches .transparent target cs) (ofExcept (Wp.cmds o scopes post cs)))
    ?nil ?cons ?skip ?assert ?invariant ?hole ?abort ?assign ?arrayAssign ?loop ?cond ?alloc
    ?lookup ?mutate ?dispose ?block ?noCmds ?moreCmds scopes post ss target htarget
  case nil =>
    intro scopes post target htarget
    rw [run, Wp.list]
    exact .pure htarget
  case cons =>
    intro scopes post s ss ihss ihs target htarget
    rw [run, Wp.list, EStateM.ofExcept_bind]
    refine (ihss target htarget).bind fun next mid hmid => ?_
    have hstmt := (ihs mid next hmid).bind (F := fun e => pure (next.withExpr e)) (f := pure)
      (S := fun t e => t.pred.expr = e) fun a b hab => .pure hab
    rwa [bind_pure] at hstmt
  case skip | assert | invariant | hole | abort | assign | arrayAssign | loop | alloc | lookup
      | mutate | dispose =>
    intros
    rename_i target htarget
    rw [stmt]
    · refine .get fun l => ?_
      rw [htarget]
      exact .ofExcept _
    all_goals simp
  case cond =>
    intro scopes post cs loc ih target htarget
    rw [stmt, Wp.stmt, EStateM.ofExcept_bind]
    exact (ih target htarget).bind fun a b hab => .pure (congrArg _ hab)
  case block =>
    intro scopes post b loc opened ih target htarget
    subst htarget
    rw [stmt, Wp.stmt]
    refine .get fun l => ?_
    have hbody := (Tracks.inScope (ih target rfl)).bind (F := fun t => pure t.pred.expr)
      (f := pure) (S := Eq) fun a b hab => .pure hab
    rwa [bind_pure] at hbody
  case noCmds =>
    intro scopes post target _
    rw [branches, Wp.cmds]
    exact .pure rfl
  case moreCmds =>
    intro scopes post c cs ihbody ihrest target htarget
    rw [branches, Wp.cmds, EStateM.ofExcept_bind]
    refine (ihbody target htarget).bind fun body e he => ?_
    rw [EStateM.ofExcept_bind]
    refine (ihrest target htarget).bind fun a b hab => .pure ?_
    rw [he, hab]

theorem wp_tracks (scopes : Scopes) (ss : List TypedStmt) (post : TypedExpr) :
    Tracks o scopes Eq (wp ss post) (ofExcept (Wp.list o scopes post ss)) := by
  have hrun := (run_tracks (o := o) scopes post ss (.ofPred (.constant post)) rfl).bind
    (F := fun t => pure t.pred.expr) (f := pure) (S := Eq) fun a b hab => .pure hab
  rwa [bind_pure] at hrun

variable {scopes : Scopes} {pre post : Pred} {loc : Loc}

theorem tracks_obligate {origin : Origin} {label : Option String} :
    Tracks o scopes Eq (StackM.obligate pre post origin label)
      (Structure.obligate o pre post origin label) :=
  .modify fun _ => rfl

theorem tracks_recordHole {env : TypeEnv} :
    Tracks o scopes Eq (StackM.recordHole pre post env loc)
      (Structure.recordHole pre post env loc) :=
  .modify fun _ => rfl

theorem tracks_warn {w : Warning} : Tracks o scopes Eq (StackM.warn w) (Structure.warn w) :=
  .modify fun _ => rfl

theorem tracks_decreases (inv bound : TypedExpr) (cs : List TypedCmd) :
    Tracks o scopes Eq (decreases inv bound loc cs)
      (cs.forM (Structure.checkDecrease o scopes inv bound loc)) := by
  induction cs with
  | nil =>
    rw [decreases]
    exact .pure rfl
  | cons c cs ih =>
    rw [decreases]
    refine Tracks.bind (R := Eq) ?_ fun _ _ _ => ih
    unfold Structure.checkDecrease
    split
    · exact tracks_warn
    · refine .get fun l => ?_
      refine (Tracks.inScope (run_tracks _ _ _ _ rfl)).bind fun t e he => ?_
      subst he
      exact tracks_obligate

section Recursion

variable (o)

theorem segments_tracks (scopes : Scopes) (target : Target) (pre : Pred) (segs : List Segment) :
    Tracks o scopes Eq (segments target pre segs)
      (Structure.segments o scopes target pre segs) := by
  refine Structure.segments.induct
    (fun scopes target pre segs => Tracks o scopes Eq (segments target pre segs)
      (Structure.segments o scopes target pre segs))
    (fun scopes target segs => Tracks o scopes Eq (pullBack target segs)
      (Structure.pullBack o scopes target segs))
    (fun scopes inv loc cs => Tracks o scopes Eq (bodies inv loc cs)
      (Structure.bodies o scopes inv loc cs))
    (fun scopes target ss => Tracks o scopes Eq (run .structured target ss)
      (Structure.run o scopes target ss))
    (fun scopes target s => Tracks o scopes Eq (stmt .structured target s)
      (Structure.stmt o scopes target s))
    (fun scopes target cs => Tracks o scopes Eq (branches .structured target cs)
      (Structure.branches o scopes target cs))
    ?assertion ?hole ?pulled ?noSegments ?pullRun ?pullAssertion ?pullLoop ?pullHole ?noBodies
    ?moreBodies ?noStmts ?moreStmts ?cond ?block ?simple ?noBranches ?moreBranches
    scopes target pre segs
  case assertion =>
    intro scopes target pre a rest ih
    rw [segments, Structure.segments]
    exact tracks_obligate.bind fun _ _ _ => ih
  case hole =>
    intro scopes target pre env loc rest ih
    rw [segments, Structure.segments]
    refine ih.bind fun next _ hnext => ?_
    subst hnext
    exact tracks_recordHole
  case pulled =>
    intro scopes target pre segs hassertion hhole ih
    rw [segments.eq_3 _ _ _ hassertion hhole, Structure.segments.eq_3 _ _ _ _ _ hassertion hhole]
    refine ih.bind fun next _ hnext => ?_
    subst hnext
    exact tracks_obligate
  case noSegments =>
    intro scopes target
    rw [pullBack, Structure.pullBack]
    exact .pure rfl
  case pullRun =>
    intro scopes target ss rest ih ihrun
    rw [pullBack, Structure.pullBack]
    refine ih.bind fun next _ hnext => ?_
    subst hnext
    exact ihrun next
  case pullAssertion =>
    intro scopes target a rest ih
    rw [pullBack, Structure.pullBack]
    exact ih.bind fun _ _ _ => .pure rfl
  case pullLoop =>
    intro scopes target inv cmds loc rest ih ihbodies
    rw [pullBack, Structure.pullBack]
    refine ih.bind fun exit _ hexit => ihbodies.bind fun _ _ _ => ?_
    subst hexit
    rw [Structure.checkLoop, bind_assoc]
    refine tracks_obligate.bind fun _ _ _ => Tracks.bind (R := Eq) ?_ fun _ _ _ => .pure rfl
    cases inv.bound with
    | none => exact tracks_warn
    | some bound => exact tracks_obligate.bind fun _ _ _ => tracks_decreases inv.expr bound cmds
  case pullHole =>
    intro scopes target env loc rest ih
    rw [pullBack, Structure.pullBack]
    refine ih.bind fun next _ hnext => ?_
    subst hnext
    exact tracks_recordHole.bind fun _ _ _ => .pure rfl
  case noBodies =>
    intro scopes inv loc
    rw [bodies, Structure.bodies]
    exact .pure rfl
  case moreBodies =>
    intro scopes inv loc c cs target ih ihrest
    rw [bodies, Structure.bodies]
    exact ih.bind fun _ _ _ => ihrest
  case noStmts =>
    intro scopes target
    rw [run, Structure.run]
    exact .pure rfl
  case moreStmts =>
    intro scopes target s ss ih ihstmt
    rw [run, Structure.run]
    refine ih.bind fun next _ hnext => ?_
    subst hnext
    exact (ihstmt next).bind fun a b hab => .pure (congrArg _ hab)
  case cond =>
    intro scopes target cs loc ih
    rw [stmt, Structure.stmt]
    exact ih.bind fun a b hab => .pure (congrArg _ hab)
  case block =>
    intro scopes target b loc opened ih
    rw [stmt, Structure.stmt]
    refine .get fun l => ?_
    exact (Tracks.inScope ih).bind fun a b hab => .pure (by rw [hab])
  case simple =>
    intro scopes target s hcond hblock
    rw [stmt.eq_3 _ _ _ hcond hblock, Structure.stmt.eq_3 _ _ _ _ hcond hblock]
    exact .get fun l => .ofExcept _
  case noBranches =>
    intro scopes target
    rw [branches, Structure.branches]
    exact .pure rfl
  case moreBranches =>
    intro scopes target c cs ih ihrest
    rw [branches, Structure.branches]
    refine ih.bind fun body _ hbody => ?_
    subst hbody
    exact ihrest.bind fun a b hab => .pure (by rw [hab])

end Recursion

end Machine

/-! ## Ledgers that grow -/

/-- Everything that has been recorded is still there, and what is new stands behind it. -/
structure Ledger.Grows (l l' : Ledger) : Prop where
  obligations : l.obligations <+: l'.obligations
  holes : l.holes <+: l'.holes
  warnings : l.warnings <+: l'.warnings

namespace Ledger

variable {l l' l'' : Ledger}

theorem Grows.refl (l : Ledger) : l.Grows l :=
  ⟨List.prefix_refl _, List.prefix_refl _, List.prefix_refl _⟩

theorem Grows.trans (h : l.Grows l') (h' : l'.Grows l'') : l.Grows l'' :=
  ⟨h.obligations.trans h'.obligations, h.holes.trans h'.holes, h.warnings.trans h'.warnings⟩

theorem grows_obligate (o : Options) (pre post : Pred) (origin : Origin) (label : Option String)
    (l : Ledger) : l.Grows (l.obligate o pre post origin label) := by
  unfold obligate
  split
  · exact .refl l
  · dsimp only
    split
    · exact .refl l
    · exact ⟨List.prefix_append _ _, List.prefix_refl _, List.prefix_refl _⟩

theorem related_grows (o : Options) (start : Ledger) :
    o.Related o fun l l' => l = l' ∧ start.Grows l := by
  refine ⟨rfl, rfl, fun pre post origin label l l' h => ?_, fun pre post env loc l l' h => ?_,
    fun w l l' h => ?_⟩
  · exact ⟨by rw [h.1], h.2.trans (grows_obligate ..)⟩
  · refine ⟨by rw [h.1], h.2.trans ?_⟩
    exact ⟨List.prefix_refl _, List.prefix_append _ _, List.prefix_refl _⟩
  · refine ⟨by rw [h.1], h.2.trans ?_⟩
    exact ⟨List.prefix_refl _, List.prefix_refl _, List.prefix_append _ _⟩

end Ledger

theorem Structure.program_grows (o : Options) (scopes : Scopes) (p : TypedProgram) (l : Ledger) :
    Ends (program o scopes p) l (fun _ => l.Grows) l.Grows := by
  unfold Ends
  rcases (lockstep (Ledger.related_grows o l)).1 _ _ _ _ l l ⟨rfl, .refl l⟩ with
    ⟨a, k, k', hk, -, hR⟩ | ⟨e, k, k', hk, -, hR⟩
  · have hprogram : program o scopes p l = .ok a k := hk
    rw [hprogram]
    exact hR.2
  · have hprogram : program o scopes p l = .error e k := hk
    rw [hprogram]
    exact hR.2

/-! ## Sessions -/

namespace Machine

theorem wp_eq (v : Verifier) (ss : List TypedStmt) (post : TypedExpr) :
    wp ss post v = match v.wp ss post with
      | .ok e => .ok e v
      | .error e => .error e v := by
  obtain ⟨o, scopes, l⟩ := v
  have hwp : Verifier.wp ⟨o, scopes, l⟩ ss post = Wp.list o scopes post ss := rfl
  rw [hwp]
  rcases wp_tracks scopes ss post l with ⟨e, e', l', hM, hm, rfl⟩ | ⟨e, l', hM, hm⟩
  · obtain ⟨hlist, rfl⟩ := EStateM.ok_of_ofExcept hm
    rw [hM, hlist]
  · cases hlist : Wp.list o scopes post ss with
    | ok e' =>
      rw [hlist] at hm
      cases hm
    | error e' =>
      rw [hlist] at hm
      cases hm
      exact hM

theorem program_eq (v : Verifier) (p : TypedProgram) :
    program p v = match v.program p with
      | (.ok (), v') => .ok () v'
      | (.error e, v') => .error e v' := by
  obtain ⟨o, scopes, l⟩ := v
  have htracks := Tracks.inScope (segments_tracks o
    (NameSet.ofList (p.boundNames.map (·.text)) :: scopes)
    (.ofPred (Structure.assertionOf p.stmts.getLast?)) (Structure.assertionOf p.stmts.head?)
    (Segment.ofStmts p.stmts))
  rcases htracks l with ⟨_, _, l', hM, hm, -⟩ | ⟨e, l', hM, hm⟩
  · have hprogram : Structure.program o scopes p l = .ok () l' := hm
    simp only [Verifier.program, hprogram]
    exact hM
  · have hprogram : Structure.program o scopes p l = .error e l' := hm
    simp only [Verifier.program, hprogram]
    exact hM

end Machine

theorem Verifier.program_keeps (v : Verifier) (p : TypedProgram) :
    (v.program p).2.options = v.options ∧ (v.program p).2.scopes = v.scopes ∧
      v.ledger.Grows (v.program p).2.ledger := by
  have hgrows := Structure.program_grows v.options v.scopes p v.ledger
  unfold Verifier.program
  cases hl : Structure.program v.options v.scopes p v.ledger with
  | ok a l => exact ⟨rfl, rfl, hgrows.of_ok hl⟩
  | error e l => exact ⟨rfl, rfl, hgrows.of_error hl⟩

inductive Call
  | enterScope (names : List String)
  | wp (ss : List TypedStmt) (post : TypedExpr)
  | program (p : TypedProgram)

inductive Answer
  | entered
  | precondition (result : Except VerificationError TypedExpr)
  | recorded (result : Except VerificationError Unit)

def Call.scopes : List Call → Scopes
  | [] => []
  | .enterScope names :: calls => scopes calls ++ [NameSet.ofList names]
  | _ :: calls => scopes calls

theorem Call.scopes_cons (c : Call) (calls : List Call) :
    scopes (c :: calls) = scopes calls ++ scopes [c] := by
  cases c <;> simp [scopes]

namespace Machine

def call (v : Verifier) : Call → Answer × Verifier
  | .enterScope names => (.entered, v.enterScope names)
  | .wp ss post =>
    match wp ss post v with
    | .ok e v' => (.precondition (.ok e), v')
    | .error e v' => (.precondition (.error e), v')
  | .program p =>
    match program p v with
    | .ok () v' => (.recorded (.ok ()), v')
    | .error e v' => (.recorded (.error e), v')

def session (v : Verifier) : List Call → List Answer × Verifier
  | [] => ([], v)
  | c :: calls =>
    let (answer, v') := call v c
    let (answers, v'') := session v' calls
    (answer :: answers, v'')

theorem call_wp (v : Verifier) (ss : List TypedStmt) (post : TypedExpr) :
    call v (.wp ss post) = (.precondition (v.wp ss post), v) := by
  rw [call, wp_eq]
  cases v.wp ss post <;> rfl

theorem call_program (v : Verifier) (p : TypedProgram) :
    call v (.program p) = (.recorded (v.program p).1, (v.program p).2) := by
  rw [call, program_eq]
  rcases v.program p with ⟨_ | _, v'⟩ <;> rfl

theorem call_keeps (v : Verifier) (c : Call) :
    (call v c).2.options = v.options ∧ (call v c).2.scopes = Call.scopes [c] ++ v.scopes ∧
      v.ledger.Grows (call v c).2.ledger := by
  cases c with
  | enterScope names => exact ⟨rfl, rfl, .refl _⟩
  | wp ss post =>
    rw [call_wp]
    exact ⟨rfl, rfl, .refl _⟩
  | program p =>
    rw [call_program]
    exact v.program_keeps p

theorem session_keeps (v : Verifier) (calls : List Call) :
    (session v calls).2.options = v.options ∧
      (session v calls).2.scopes = Call.scopes calls ++ v.scopes ∧
      v.ledger.Grows (session v calls).2.ledger := by
  induction calls generalizing v with
  | nil => exact ⟨rfl, rfl, .refl _⟩
  | cons c calls ih =>
    obtain ⟨hoptions, hscopes, hgrows⟩ := call_keeps v c
    obtain ⟨hoptions', hscopes', hgrows'⟩ := ih (call v c).2
    refine ⟨hoptions'.trans hoptions, ?_, hgrows.trans hgrows'⟩
    rw [session, hscopes', hscopes, Call.scopes_cons c calls, List.append_assoc]

/-- Of what has been called before, only the scopes that were entered matter to a weakest
precondition. -/
theorem answer_of_wp (v : Verifier) (before : List Call) (ss : List TypedStmt) (post : TypedExpr)
    (after : List Call) : (session v (before ++ .wp ss post :: after)).1[before.length]? =
      some (.precondition (Wp.list v.options (Call.scopes before ++ v.scopes) post ss)) := by
  induction before generalizing v with
  | nil =>
    rw [List.nil_append, session, call_wp]
    rfl
  | cons c before ih =>
    obtain ⟨hoptions, hscopes, -⟩ := call_keeps v c
    rw [List.cons_append, session, List.length_cons, List.getElem?_cons_succ, ih, hoptions,
      hscopes, Call.scopes_cons c before, List.append_assoc]

end Machine

/-- The weakest precondition of statements leaves a verifier exactly as it was, with a result or
an error from any depth.  A program leaves the scopes as they were, also after an error, and only
adds to what has been recorded.  So in a session the answer about a weakest precondition depends
on what is asked, the options and the scopes entered before. -/
theorem verifier_keeps_scopes (v : Verifier) :
    (∀ ss post, Machine.wp ss post v = match v.wp ss post with
      | .ok e => .ok e v
      | .error e => .error e v) ∧
    (∀ p, Machine.program p v = (match v.program p with
        | (.ok (), v') => .ok () v'
        | (.error e, v') => .error e v') ∧
      (v.program p).2.options = v.options ∧ (v.program p).2.scopes = v.scopes ∧
      v.ledger.Grows (v.program p).2.ledger) ∧
    (∀ calls, (Machine.session v calls).2.options = v.options ∧
      (Machine.session v calls).2.scopes = Call.scopes calls ++ v.scopes ∧
      v.ledger.Grows (Machine.session v calls).2.ledger) ∧
    ∀ before ss post after, (Machine.session v (before ++ .wp ss post :: after)).1[before.length]? =
      some (.precondition (Wp.list v.options (Call.scopes before ++ v.scopes) post ss)) :=
  ⟨Machine.wp_eq v, fun p => ⟨Machine.program_eq v p, v.program_keeps p⟩,
    Machine.session_keeps v, Machine.answer_of_wp v⟩

end GuardedCommands
