import GuardedCommands.Proofs.Lockstep
import GuardedCommands.Proofs.Soundness

/-!
# When obligations cannot be generated

There are two things that a program can do wrong.  A loop may stand without an assertion
right before it, and an array that is assigned to may be given by something else than a
name.  Verifying a program fails if one of them is somewhere in the program, at any
depth, and only then, and the error is one of these faults.  Renaming a block puts names
for names, so it adds no fault and removes none.  The body of a loop is passed twice if
it has no loop inside, and then the second pass meets the same faults as the first one,
which has found none.
-/

namespace GuardedCommands

/-! ## Faults -/

namespace Stmt

/-- A loop has to have an assertion right before it. -/
def loopFault (asserted : Bool) : TypedStmt → List VerificationError
  | .loop _ loc => if asserted then [] else [.missingAssertion loc]
  | _ => []

mutual

def faults : TypedStmt → List VerificationError
  | .arrayAssign a _ _ loc => if a.asName?.isSome then [] else [.nestedArray loc]
  | .loop cs _ | .cond cs _ => cmdsFaults cs
  | .block b _ => listFaults false b.stmts
  | _ => []

def cmdsFaults : List TypedCmd → List VerificationError
  | [] => []
  | c :: cs => listFaults false c.body ++ cmdsFaults cs

def listFaults (asserted : Bool) : List TypedStmt → List VerificationError
  | [] => []
  | s :: ss => s.loopFault asserted ++ s.faults ++ listFaults s.assertion?.isSome ss

end

theorem listFaults_asserted {ss : List TypedStmt} (h : ∀ cs loc rest, ss ≠ .loop cs loc :: rest) :
    listFaults true ss = listFaults false ss := by
  cases ss with
  | nil => rfl
  | cons s ss =>
    cases s with
    | loop cs loc => exact absurd rfl (h cs loc ss)
    | _ => rfl

end Stmt

/-! ### Renaming keeps loops and faults -/

namespace Renaming

theorem listHasLoop_stmts (ρ : Renaming) (ss : List TypedStmt) :
    Stmt.listHasLoop (ρ.stmts ss) = Stmt.listHasLoop ss := by
  induction ss using Stmt.nested_induction
      (S := fun s => ∀ ρ : Renaming, (ρ.stmt s).hasLoop = s.hasLoop)
      (C := fun cs => ∀ ρ : Renaming, Stmt.cmdsHaveLoop (ρ.cmds cs) = Stmt.cmdsHaveLoop cs)
      generalizing ρ with
  | simple s => cases s <;> simp_all [Stmt.isSimple, stmt, Stmt.hasLoop]
  | _ =>
    simp_all only [stmt, cmds, stmts, Stmt.hasLoop, Stmt.cmdsHaveLoop, Stmt.listHasLoop]

theorem loopFault_stmt (ρ : Renaming) (asserted : Bool) (s : TypedStmt) :
    (ρ.stmt s).loopFault asserted = s.loopFault asserted := by
  cases s <;> simp only [stmt, Stmt.loopFault]

theorem isSome_assertion?_stmt (ρ : Renaming) (s : TypedStmt) :
    (ρ.stmt s).assertion?.isSome = s.assertion?.isSome := by
  rw [assertion?_stmt, Option.isSome_map]

mutual

theorem faults_stmt {ρ : Renaming} (hρ : ρ.Consistent) :
    (s : TypedStmt) → (ρ.stmt s).faults = s.faults
  | .arrayAssign a i v loc => by
    have hname : (ρ.expr a).asName?.isSome = a.asName?.isSome := by
      simpa using congrArg Option.isSome (asName?_expr hρ a)
    simp only [stmt, Stmt.faults, hname]
  | .loop cs _ | .cond cs _ => by simp only [stmt, Stmt.faults, cmdsFaults_cmds hρ cs]
  | .block b _ => by
    simp only [stmt, Stmt.faults, listFaults_stmts (hρ.without _) false b.stmts]
  | .skip _ | .abort _ | .assign .. | .assert .. | .invariant .. | .hole .. | .alloc ..
  | .lookup .. | .mutate .. | .dispose .. => by simp only [stmt, Stmt.faults]

theorem cmdsFaults_cmds {ρ : Renaming} (hρ : ρ.Consistent) :
    (cs : List TypedCmd) → Stmt.cmdsFaults (ρ.cmds cs) = Stmt.cmdsFaults cs
  | [] => rfl
  | c :: cs => by
    simp only [cmds, Stmt.cmdsFaults, listFaults_stmts hρ false c.body, cmdsFaults_cmds hρ cs]

theorem listFaults_stmts {ρ : Renaming} (hρ : ρ.Consistent) (asserted : Bool) :
    (ss : List TypedStmt) → Stmt.listFaults asserted (ρ.stmts ss) = Stmt.listFaults asserted ss
  | [] => rfl
  | s :: ss => by
    simp only [stmts, Stmt.listFaults, loopFault_stmt, isSome_assertion?_stmt, faults_stmt hρ s,
      listFaults_stmts hρ _ ss]

end

end Renaming

/-! ### Faults of segments -/

namespace Segment

def faults : Segment → List VerificationError
  | .run ss => ss.flatMap fun s => s.loopFault false ++ s.faults
  | .assertion _ | .hole .. => []
  | .loop _ cs _ => Stmt.cmdsFaults cs

theorem faults_consRun (s : TypedStmt) (segs : List Segment) :
    (consRun s segs).flatMap faults = s.loopFault false ++ s.faults ++ segs.flatMap faults := by
  unfold consRun
  split <;> simp [faults]

theorem faults_ofStmts (ss : List TypedStmt) :
    (ofStmts ss).flatMap faults = Stmt.listFaults false ss := by
  fun_induction ofStmts ss with
  | case1 => rfl
  | case2 e loc cs l rest ih =>
    simp [Stmt.listFaults, Stmt.loopFault, Stmt.faults, Stmt.assertion?, faults, ih]
  | case3 e loc rest hloop ih =>
    have hrest := Stmt.listFaults_asserted fun cs l us h => hloop cs l us h
    simp [Stmt.listFaults, Stmt.loopFault, Stmt.faults, Stmt.assertion?, faults, hrest, ih]
  | case4 inv bound loc cs l rest ih =>
    simp [Stmt.listFaults, Stmt.loopFault, Stmt.faults, Stmt.assertion?, faults, ih]
  | case5 inv bound loc rest hloop ih =>
    have hrest := Stmt.listFaults_asserted fun cs l us h => hloop cs l us h
    simp [Stmt.listFaults, Stmt.loopFault, Stmt.faults, Stmt.assertion?, faults, hrest, ih]
  | case6 text env loc rest ih =>
    simp [Stmt.listFaults, Stmt.loopFault, Stmt.faults, Stmt.assertion?, faults, ih]
  | case7 s rest _ hassert _ hinvariant _ ih =>
    have hnone : s.assertion? = none := by
      cases s with
      | assert e loc => exact absurd rfl (hassert e loc)
      | invariant inv bound loc => exact absurd rfl (hinvariant inv bound loc)
      | _ => rfl
    rw [faults_consRun, ih, Stmt.listFaults, hnone]
    rfl

end Segment

/-! ## Failing on faults -/

/-- A computation fails if there are faults, with one of them, and succeeds if there are none. -/
def FailsOn {α : Type} (m : VerificationM α) (faults : List VerificationError) : Prop :=
  ∀ l, match m l with
    | .ok _ _ => faults = []
    | .error e _ => e ∈ faults

namespace FailsOn

variable {α β : Type} {m : VerificationM α} {faults others : List VerificationError}

theorem of_ok (h : FailsOn m faults) {l l' : Ledger} {a : α} (hl : m l = .ok a l') :
    faults = [] := by
  have hm := h l
  rwa [hl] at hm

theorem of_error (h : FailsOn m faults) {l l' : Ledger} {e : VerificationError}
    (hl : m l = .error e l') : e ∈ faults := by
  have hm := h l
  rwa [hl] at hm

theorem congr (h : FailsOn m faults) (hfaults : ∀ e, e ∈ faults ↔ e ∈ others) :
    FailsOn m others := by
  intro l
  cases hl : m l with
  | ok a l' =>
    have hnone := h.of_ok hl
    subst hnone
    exact List.eq_nil_iff_forall_not_mem.2 fun e he => by simpa using (hfaults e).2 he
  | error e l' => exact (hfaults e).1 (h.of_error hl)

theorem bind {f : α → VerificationM β} (hm : FailsOn m faults) (hf : ∀ a, FailsOn (f a) others) :
    FailsOn (m >>= f) (faults ++ others) := by
  intro l
  have hbind : (m >>= f) l = EStateM.bind m f l := rfl
  rw [hbind, EStateM.bind]
  cases hl : m l with
  | error e l' => exact List.mem_append_left _ (hm.of_error hl)
  | ok a l' =>
    have hnone := hm.of_ok hl
    subst hnone
    exact hf a l'

theorem bind_behind {f : α → VerificationM β} (hm : FailsOn m others)
    (hf : ∀ a, FailsOn (f a) faults) : FailsOn (m >>= f) (faults ++ others) :=
  (hm.bind hf).congr fun e => by simp [or_comm]

theorem bind_subset {f : α → VerificationM β} (hm : FailsOn m faults)
    (hf : ∀ a, FailsOn (f a) others) (h : others ⊆ faults) : FailsOn (m >>= f) faults :=
  (hm.bind hf).congr fun e => by simpa using @h e

theorem pure (a : α) : FailsOn (Pure.pure a : VerificationM α) [] := fun _ => rfl

theorem map {f : α → β} (hm : FailsOn m faults) :
    FailsOn (m >>= fun a => Pure.pure (f a)) faults :=
  hm.bind_subset (fun a => pure (f a)) (List.nil_subset _)

theorem modify (f : Ledger → Ledger) : FailsOn (modify f) [] := fun _ => rfl

theorem forM {γ : Type} {f : γ → VerificationM Unit} {faults : γ → List VerificationError}
    (h : ∀ c, FailsOn (f c) (faults c)) (cs : List γ) :
    FailsOn (cs.forM f) (cs.flatMap faults) := by
  induction cs with
  | nil => exact pure ()
  | cons c cs ih => exact (h c).bind fun _ => ih

end FailsOn

/-! ### Preconditions -/

namespace Stmt

theorem loopFault_of_hasLoop {s : TypedStmt} (h : s.hasLoop = false) (asserted : Bool) :
    s.loopFault asserted = [] := by
  cases s with
  | loop cs loc => cases h
  | _ => rfl

end Stmt

namespace Wp

theorem failsOn_arrayAssign (a i v : TypedExpr) (loc : Loc) (post : TypedExpr) :
    FailsOn (ofExcept (arrayAssign a i v loc post))
      (if a.asName?.isSome then [] else [.nestedArray loc]) := by
  unfold arrayAssign
  cases a.asName? with
  | none => exact fun _ => List.mem_singleton_self _
  | some x => exact .pure _

/-- The precondition of statements without loops fails to exist for their faults only. -/
theorem failsOn_list (o : Options) (scopes : Scopes) (post : TypedExpr) (ss : List TypedStmt)
    (hloop : Stmt.listHasLoop ss = false) (asserted : Bool) :
    FailsOn (ofExcept (list o scopes post ss)) (Stmt.listFaults asserted ss) := by
  refine list.induct
    (fun scopes post ss => Stmt.listHasLoop ss = false → ∀ asserted,
      FailsOn (ofExcept (list o scopes post ss)) (Stmt.listFaults asserted ss))
    (fun scopes post s => s.hasLoop = false →
      FailsOn (ofExcept (stmt o scopes post s)) s.faults)
    (fun scopes post cs => Stmt.cmdsHaveLoop cs = false →
      FailsOn (ofExcept (cmds o scopes post cs)) (Stmt.cmdsFaults cs))
    ?nil ?cons ?skip ?assert ?invariant ?hole ?abort ?assign ?arrayAssign ?loop ?cond ?alloc
    ?lookup ?mutate ?dispose ?block ?noCmds ?moreCmds scopes post ss hloop asserted
  case nil =>
    intro scopes post _ asserted
    rw [list]
    exact .pure post
  case cons =>
    intro scopes post s ss ihss ihs hloop asserted
    obtain ⟨hs, hss⟩ := Bool.or_eq_false_iff.1 hloop
    rw [list, EStateM.ofExcept_bind, Stmt.listFaults, Stmt.loopFault_of_hasLoop hs,
      List.nil_append]
    exact (ihss hss _).bind_behind fun mid => ihs mid hs
  case skip | assert | invariant | hole | abort | assign | alloc | lookup | mutate | dispose =>
    intros
    rw [stmt]
    exact .pure _
  case arrayAssign =>
    intro scopes post a i v loc _
    rw [stmt, Stmt.faults]
    exact failsOn_arrayAssign a i v loc post
  case loop =>
    intro scopes post cs loc hloop
    cases hloop
  case cond =>
    intro scopes post cs loc ih hloop
    rw [stmt, EStateM.ofExcept_bind]
    exact (ih hloop).map
  case block =>
    intro scopes post b loc opened ih hloop
    have hconsistent := (OpenBlock.opened_ofBlock scopes b post).consistent
    have hbody : Stmt.listHasLoop (opened.renames.stmts b.stmts) = false := by
      rw [Renaming.listHasLoop_stmts]
      exact hloop
    rw [stmt, Stmt.faults, ← Renaming.listFaults_stmts hconsistent]
    exact ih hbody false
  case noCmds =>
    intro scopes post _
    rw [cmds]
    exact .pure []
  case moreCmds =>
    intro scopes post c cs ihbody ihrest hloop
    obtain ⟨hbody, hrest⟩ := Bool.or_eq_false_iff.1 hloop
    rw [cmds, Stmt.cmdsFaults, EStateM.ofExcept_bind]
    refine (ihbody hbody false).bind fun body => ?_
    rw [EStateM.ofExcept_bind]
    exact (ihrest hrest).map

end Wp

/-! ### Structuring -/

namespace Structure

variable {o : Options} {scopes : Scopes} {target : Target} {pre inv a : Pred}
  {segs : List Segment} {ss : List TypedStmt} {s : TypedStmt} {cs : List TypedCmd} {c : TypedCmd}
  {env : TypeEnv} {loc : Loc}

def decreaseFaults (c : TypedCmd) : List VerificationError :=
  if Stmt.listHasLoop c.body then [] else Stmt.listFaults false c.body

theorem failsOn_checkDecrease (inv bound : TypedExpr) (loc : Loc) (c : TypedCmd) :
    FailsOn (checkDecrease o scopes inv bound loc c) (decreaseFaults c) := by
  unfold checkDecrease decreaseFaults
  split
  · exact .modify _
  · next hloop =>
    exact (Wp.failsOn_list _ _ _ _ (Bool.not_eq_true _ ▸ hloop) false).bind_subset
      (fun _ => .modify _) (List.nil_subset _)

theorem flatMap_decreaseFaults_subset (cs : List TypedCmd) :
    cs.flatMap decreaseFaults ⊆ Stmt.cmdsFaults cs := by
  induction cs with
  | nil => exact List.nil_subset _
  | cons c cs ih =>
    have hc : decreaseFaults c ⊆ Stmt.listFaults false c.body := by
      unfold decreaseFaults
      split
      · exact List.nil_subset _
      · exact List.Subset.refl _
    exact List.append_subset.2 ⟨List.Subset.trans hc (List.subset_append_left _ _),
      List.Subset.trans ih (List.subset_append_right _ _)⟩

theorem failsOn_checkLoop (o : Options) (scopes : Scopes) (inv : Pred) (cs : List TypedCmd)
    (loc : Loc) (exit : Target) :
    ∃ faults ⊆ Stmt.cmdsFaults cs, FailsOn (checkLoop o scopes inv cs loc exit) faults := by
  unfold checkLoop
  cases inv.bound with
  | none => exact ⟨[], List.nil_subset _, (FailsOn.modify _).bind fun _ => .modify _⟩
  | some bound =>
    refine ⟨_, flatMap_decreaseFaults_subset cs, (FailsOn.modify _).bind fun _ => ?_⟩
    exact (FailsOn.modify _).bind fun _ => .forM (failsOn_checkDecrease inv.expr bound loc) cs

section Recursion

variable (o)

def SegmentsFail (scopes : Scopes) (target : Target) (pre : Pred) (segs : List Segment) : Prop :=
  FailsOn (segments o scopes target pre segs) (segs.flatMap Segment.faults)

def PullBackFails (scopes : Scopes) (target : Target) (segs : List Segment) : Prop :=
  FailsOn (pullBack o scopes target segs) (segs.flatMap Segment.faults)

def BodiesFail (scopes : Scopes) (inv : Pred) (loc : Loc) (cs : List TypedCmd) : Prop :=
  FailsOn (bodies o scopes inv loc cs) (Stmt.cmdsFaults cs)

def RunFails (scopes : Scopes) (target : Target) (ss : List TypedStmt) : Prop :=
  FailsOn (run o scopes target ss) (Segment.faults (.run ss))

def StmtFails (scopes : Scopes) (target : Target) (s : TypedStmt) : Prop :=
  FailsOn (stmt o scopes target s) (s.loopFault false ++ s.faults)

def BranchesFail (scopes : Scopes) (target : Target) (cs : List TypedCmd) : Prop :=
  FailsOn (branches o scopes target cs) (Stmt.cmdsFaults cs)

end Recursion

theorem segmentsFail_pulled (hassertion : ∀ a rest, segs = .assertion a :: rest → False)
    (hhole : ∀ env loc rest, segs = .hole env loc :: rest → False)
    (ih : PullBackFails o scopes target segs) : SegmentsFail o scopes target pre segs := by
  unfold SegmentsFail
  rw [segments.eq_3 _ _ _ _ _ hassertion hhole]
  exact ih.bind_subset (fun _ => .modify _) (List.nil_subset _)

theorem pullBackFails_loop (ihrest : PullBackFails o scopes target segs)
    (ihbodies : BodiesFail o scopes inv loc cs) :
    PullBackFails o scopes target (.loop inv cs loc :: segs) := by
  unfold PullBackFails
  rw [pullBack]
  refine ihrest.bind_behind fun exit => ?_
  obtain ⟨faults, hsubset, hcheck⟩ := failsOn_checkLoop o scopes inv cs loc exit
  exact ihbodies.bind_subset (fun _ => hcheck.map) hsubset

theorem bodiesFail_cons
    (ihbody : SegmentsFail o scopes ⟨inv, ⟨.preservation, loc⟩, some c.guard.text⟩
      (.constant (.conj inv.expr c.guard)) (Segment.ofStmts c.body))
    (ihrest : BodiesFail o scopes inv loc cs) : BodiesFail o scopes inv loc (c :: cs) := by
  unfold BodiesFail
  unfold SegmentsFail at ihbody
  rw [Segment.faults_ofStmts] at ihbody
  rw [bodies, Stmt.cmdsFaults]
  exact ihbody.bind fun _ => ihrest

theorem stmtFails_block {b : TypedProgram}
    (ih : PullBackFails o ((Wp.OpenBlock.ofBlock scopes b target.pred.expr).scope :: scopes)
      target (Segment.ofStmts
        ((Wp.OpenBlock.ofBlock scopes b target.pred.expr).renames.stmts b.stmts))) :
    StmtFails o scopes target (.block b loc) := by
  have hconsistent := (Wp.OpenBlock.opened_ofBlock scopes b target.pred.expr).consistent
  unfold PullBackFails at ih
  rw [Segment.faults_ofStmts, Renaming.listFaults_stmts hconsistent] at ih
  unfold StmtFails
  rw [stmt]
  exact ih.map

theorem stmtFails_simple (hcond : ∀ cs loc, s = .cond cs loc → False)
    (hblock : ∀ b loc, s = .block b loc → False) : StmtFails o scopes target s := by
  unfold StmtFails
  rw [stmt.eq_3 _ _ _ _ hcond hblock]
  cases s with
  | loop cs loc =>
    intro l
    rw [Wp.stmt]
    exact List.mem_append_left _ (List.mem_singleton_self _)
  | arrayAssign a i v loc =>
    rw [Wp.stmt]
    exact Wp.failsOn_arrayAssign a i v loc _
  | cond cs loc => exact (hcond cs loc rfl).elim
  | block b loc => exact (hblock b loc rfl).elim
  | _ =>
    rw [Wp.stmt]
    exact .pure _

theorem branchesFail_cons (ihbody : PullBackFails o scopes target (Segment.ofStmts c.body))
    (ihrest : BranchesFail o scopes target cs) : BranchesFail o scopes target (c :: cs) := by
  unfold BranchesFail
  unfold PullBackFails at ihbody
  rw [Segment.faults_ofStmts] at ihbody
  rw [branches, Stmt.cmdsFaults]
  exact ihbody.bind fun _ => ihrest.map

theorem segments_fail (scopes : Scopes) (target : Target) (pre : Pred) (segs : List Segment) :
    SegmentsFail o scopes target pre segs := by
  refine segments.induct (SegmentsFail o) (PullBackFails o) (BodiesFail o) (RunFails o)
    (StmtFails o) (BranchesFail o)
    ?assertion ?hole (fun _ _ _ _ => segmentsFail_pulled)
    ?noSegments ?pullRun ?pullAssertion (fun _ _ _ _ _ _ => pullBackFails_loop) ?pullHole
    ?noBodies (fun _ _ _ _ _ => bodiesFail_cons)
    ?noStmts ?moreStmts
    ?cond (fun _ _ _ _ => stmtFails_block) (fun _ _ _ => stmtFails_simple)
    ?noBranches (fun _ _ _ _ => branchesFail_cons)
    scopes target pre segs
  case assertion =>
    intro scopes target pre a rest ih
    unfold SegmentsFail
    rw [segments]
    exact (FailsOn.modify _).bind fun _ => ih
  case hole =>
    intro scopes target pre env loc rest ih
    unfold SegmentsFail
    rw [segments]
    exact FailsOn.bind_subset ih (fun _ => .modify _) (List.nil_subset _)
  case noSegments =>
    intro scopes target
    unfold PullBackFails
    rw [pullBack]
    exact .pure target
  case pullRun =>
    intro scopes target ss rest ihrest ihrun
    unfold PullBackFails
    rw [pullBack]
    exact FailsOn.bind_behind ihrest ihrun
  case pullAssertion =>
    intro scopes target a rest ih
    unfold PullBackFails
    rw [pullBack]
    exact FailsOn.map ih
  case pullHole =>
    intro scopes target env loc rest ih
    unfold PullBackFails
    rw [pullBack]
    exact FailsOn.bind_subset ih (fun _ => (FailsOn.modify _).map) (List.nil_subset _)
  case noBodies =>
    intro scopes inv loc
    unfold BodiesFail
    rw [bodies]
    exact .pure ()
  case noStmts =>
    intro scopes target
    unfold RunFails
    rw [run]
    exact .pure target
  case moreStmts =>
    intro scopes target s ss ihrest ihstmt
    unfold RunFails
    rw [run]
    exact FailsOn.bind_behind ihrest fun next => FailsOn.map (ihstmt next)
  case cond =>
    intro scopes target cs loc ih
    unfold StmtFails
    rw [stmt]
    exact FailsOn.map ih
  case noBranches =>
    intro scopes target
    unfold BranchesFail
    rw [branches]
    exact .pure []

end Structure

/-! ## Programs -/

theorem Structure.program_fails (o : Options) (p : TypedProgram) :
    FailsOn (program o [] p) (Stmt.listFaults false p.stmts) := by
  rw [← Segment.faults_ofStmts]
  exact segments_fail _ _ _ _

theorem TypedProgram.exists_verify {p : TypedProgram} (h : Stmt.listFaults false p.stmts = [])
    (o : Options) : ∃ out, p.verify o = .ok out := by
  cases hl : Structure.program o [] p .empty with
  | ok a l => exact ⟨_, verify_of_ok hl⟩
  | error e l =>
    have hmem := (Structure.program_fails o p).of_error hl
    rw [h] at hmem
    cases hmem

/-- A program cannot be verified exactly if somewhere in it there is a loop without an assertion
right before it, or an assignment to an element of an array that is not a plain name.  The error
is one of these. -/
theorem TypedProgram.verify_fails_iff (p : TypedProgram) (o : Options) :
    ((∃ e, p.verify o = .error e) ↔ Stmt.listFaults false p.stmts ≠ []) ∧
      ∀ e, p.verify o = .error e → e ∈ Stmt.listFaults false p.stmts := by
  have hfails := Structure.program_fails o p
  cases hl : Structure.program o [] p .empty with
  | ok a l =>
    have hverify := verify_of_ok hl
    simp [hverify, hfails.of_ok hl]
  | error e l =>
    have hverify : p.verify o = .error e := by
      simp only [verify, Verifier.program, Verifier.start, hl]
      rfl
    have hmem := hfails.of_error hl
    simp [hverify, hmem, List.ne_nil_of_mem hmem]

end GuardedCommands
