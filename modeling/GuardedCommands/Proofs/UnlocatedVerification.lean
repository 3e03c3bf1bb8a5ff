import GuardedCommands.Proofs.UnlocatedSubstitution

/-!
# Obligation generation without locations

A typed program without locations is cut into the same segments, and every segment
makes the same entries.  An entry is left out if its sides read the same or if its
digest has come up, and neither of these sees a location, so the ledger for the program
without locations is the ledger for the program, without its locations.
-/

namespace GuardedCommands

/-! ## Entries -/

namespace Pred

def unlocated : Pred → Pred
  | .constant e => .constant e.unlocated
  | .assertion e _ => .assertion e.unlocated .none
  | .invariant e b _ => .invariant e.unlocated (b.map TypedExpr.unlocated) .none

@[simp] theorem expr_unlocated (p : Pred) : p.unlocated.expr = p.expr.unlocated := by
  cases p <;> rfl

@[simp] theorem loc_unlocated (p : Pred) : p.unlocated.loc = .none := by
  cases p with
  | constant e => exact TypedExpr.loc_unlocated e
  | assertion e l | invariant e b l => rfl

@[simp] theorem bound_unlocated (p : Pred) :
    p.unlocated.bound = p.bound.map TypedExpr.unlocated := by
  cases p <;> rfl

end Pred

def Origin.unlocated (o : Origin) : Origin := ⟨o.reason, .none⟩

def Obligation.unlocated (o : Obligation) : Obligation :=
  ⟨o.pre.unlocated, o.post.unlocated, o.id, o.label, o.origin.unlocated⟩

def SpecHole.unlocated (h : SpecHole) : SpecHole :=
  ⟨h.id, h.pre.unlocated, h.post.unlocated, h.env.unlocated, .none⟩

def Warning.unlocated : Warning → Warning
  | .missingBound _ => .missingBound .none
  | .uncheckedDecrease _ => .uncheckedDecrease .none

namespace Ledger

def unlocated (l : Ledger) : Ledger :=
  ⟨l.obligations.map Obligation.unlocated, l.seen, l.holes.map SpecHole.unlocated,
    l.warnings.map Warning.unlocated⟩

theorem obligate_unlocated (o : Options) (pre post : Pred) (origin : Origin)
    (label : Option String) (l : Ledger) :
    l.unlocated.obligate o pre.unlocated post.unlocated origin.unlocated label =
      (l.obligate o pre post origin label).unlocated := by
  have hdigest : Obligation.digest pre.expr.unlocated post.expr.unlocated =
      Obligation.digest pre.expr post.expr := by
    rw [Obligation.digest, Obligation.digest, TypedExpr.text_unlocated, TypedExpr.text_unlocated]
  simp only [obligate, Pred.expr_unlocated, TypedExpr.same_unlocated, hdigest]
  split
  · rfl
  · rw [apply_ite unlocated]
    apply ite_congr rfl
    · intro _
      rfl
    · intro _
      simp [unlocated, Obligation.unlocated]

theorem recordHole_unlocated (pre post : Pred) (env : TypeEnv) (loc : Loc) (l : Ledger) :
    l.unlocated.recordHole pre.unlocated post.unlocated env.unlocated .none =
      (l.recordHole pre post env loc).unlocated := by
  simp [recordHole, unlocated, SpecHole.unlocated]

theorem warn_unlocated (w : Warning) (l : Ledger) :
    l.unlocated.warn w.unlocated = (l.warn w).unlocated := by
  simp [warn, unlocated]

end Ledger

/-! ## Segments -/

def Target.unlocated (t : Target) : Target := ⟨t.pred.unlocated, t.origin.unlocated, t.label⟩

theorem Target.expr_unlocated (t : Target) : t.unlocated.pred.expr = t.pred.expr.unlocated :=
  t.pred.expr_unlocated

theorem TypedStmt.unlocated_ne_cond {s : TypedStmt} (hs : ∀ cs loc, s = .cond cs loc → False)
    (cs : List TypedCmd) (loc : Loc) :
    TypedStmt.unlocated s = .cond cs loc → False := by
  intro h
  cases s with
  | cond cs loc => exact hs cs loc rfl
  | _ => cases h

theorem TypedStmt.unlocated_ne_block {s : TypedStmt} (hs : ∀ b loc, s = .block b loc → False)
    (b : TypedProgram) (loc : Loc) : TypedStmt.unlocated s = .block b loc → False := by
  intro h
  cases s with
  | block b loc => exact hs b loc rfl
  | _ => cases h

namespace Segment

def unlocated : Segment → Segment
  | .run ss => .run (TypedStmt.unlocatedList ss)
  | .assertion p => .assertion p.unlocated
  | .loop inv cmds _ => .loop inv.unlocated (TypedStmt.unlocatedCmds cmds) .none
  | .hole env _ => .hole env.unlocated .none

theorem map_unlocated_ne_assertion {segs : List Segment}
    (hs : ∀ a rest, segs = .assertion a :: rest → False) (a : Pred) (rest : List Segment) :
    segs.map unlocated = .assertion a :: rest → False := by
  intro h
  cases segs with
  | nil => cases h
  | cons seg segs =>
    cases seg with
    | assertion p => exact hs p segs rfl
    | _ => cases h

theorem map_unlocated_ne_hole {segs : List Segment}
    (hs : ∀ env loc rest, segs = .hole env loc :: rest → False) (env : TypeEnv) (loc : Loc)
    (rest : List Segment) : segs.map unlocated = .hole env loc :: rest → False := by
  intro h
  cases segs with
  | nil => cases h
  | cons seg segs =>
    cases seg with
    | hole env loc => exact hs env loc segs rfl
    | _ => cases h

theorem consRun_unlocated (s : TypedStmt) (segs : List Segment) :
    consRun (TypedStmt.unlocated s) (segs.map unlocated) = (consRun s segs).map unlocated := by
  cases segs with
  | nil => rfl
  | cons seg segs => cases seg <;> rfl

theorem ofStmts_unlocated (ss : List TypedStmt) :
    ofStmts (TypedStmt.unlocatedList ss) = (ofStmts ss).map unlocated := by
  fun_induction ofStmts ss with
  | case1 => rfl
  | case2 _ _ _ _ _ ih | case4 _ _ _ _ _ _ ih | case6 _ _ _ _ ih => exact congrArg (List.cons _) ih
  | case3 e loc rest hloop ih | case5 inv bound loc rest hloop ih =>
    cases rest with
    | nil => rfl
    | cons s rest =>
      cases s with
      | loop cmds l => exact absurd rfl (hloop cmds l rest)
      | _ => exact congrArg (List.cons _) ih
  | case7 s rest hloop hassert hloop' hinvariant hhole ih =>
    rw [← consRun_unlocated, ← ih]
    cases s with
    | assert e loc => exact absurd rfl (hassert e loc)
    | invariant inv bound loc => exact absurd rfl (hinvariant inv bound loc)
    | hole text env loc => exact absurd rfl (hhole text env loc)
    | _ => rfl

end Segment

namespace Stmt

variable {ε δ η : Type} (f : ε → ε) (g : δ → δ) (h : η → η)

theorem listHasLoop_unlocated (ss : List (Stmt ε δ η)) :
    listHasLoop (unlocatedList f g h ss) = listHasLoop ss := by
  induction ss using nested_induction (S := fun s => (s.unlocated f g h).hasLoop = s.hasLoop)
      (C := fun cs => cmdsHaveLoop (unlocatedCmds f g h cs) = cmdsHaveLoop cs) with
  | simple s => cases s <;> simp_all [isSimple, unlocated, hasLoop]
  | _ =>
    simp_all only [unlocated, unlocatedCmds, unlocatedList, hasLoop, cmdsHaveLoop, listHasLoop]

theorem unlocatedList_eq_map (ss : List (Stmt ε δ η)) :
    unlocatedList f g h ss = ss.map (unlocated f g h) := by
  induction ss with
  | nil => rfl
  | cons s ss ih => rw [unlocatedList, ih, List.map_cons]

theorem unlocatedCmds_eq_map (cs : List (GuardedCmd ε (Stmt ε δ η))) :
    unlocatedCmds f g h cs = cs.map fun c => ⟨f c.guard, unlocatedList f g h c.body, .none⟩ := by
  induction cs with
  | nil => rfl
  | cons c cs ih => rw [unlocatedCmds, ih, List.map_cons]

end Stmt

/-! ## Structuring -/

abbrev VerificationM.Mirrors {α β : Type} (u : α → β) (m : VerificationM α)
    (m' : VerificationM β) : Prop :=
  GuardedCommands.Mirrors VerificationError.unlocated Ledger.unlocated u m m'

namespace Structure

open VerificationM TypedExpr

variable (o : Options)

theorem obligate_mirrors (pre post : Pred) (origin : Origin) (label : Option String) :
    VerificationM.Mirrors id (obligate o pre post origin label)
      (obligate o pre.unlocated post.unlocated origin.unlocated label) :=
  .modifies (Ledger.obligate_unlocated o pre post origin label)

theorem recordHole_mirrors (pre post : Pred) (env : TypeEnv) (loc : Loc) :
    VerificationM.Mirrors id (recordHole pre post env loc)
      (recordHole pre.unlocated post.unlocated env.unlocated .none) :=
  .modifies (Ledger.recordHole_unlocated pre post env loc)

theorem warn_mirrors (w : Warning) : VerificationM.Mirrors id (warn w) (warn w.unlocated) :=
  .modifies (Ledger.warn_unlocated w)

theorem checkDecrease_mirrors (scopes : Scopes) (inv bound : TypedExpr) (loc : Loc)
    (c : TypedCmd) :
    VerificationM.Mirrors id (checkDecrease o scopes inv bound loc c)
      (checkDecrease o scopes inv.unlocated bound.unlocated .none
        ⟨c.guard.unlocated, TypedStmt.unlocatedList c.body, .none⟩) := by
  simp only [checkDecrease, Stmt.listHasLoop_unlocated, freeVars_unlocated, text_unlocated]
  split
  · exact warn_mirrors (.uncheckedDecrease c.loc)
  · generalize scopes.freshName o.boundStem (inv.freeVars ∪ bound.freeVars ∪ c.guard.freeVars) =
      snapshot
    have hold : (ofConst (.bare snapshot) .int).unlocated = ofConst (.bare snapshot) .int := rfl
    have hpre : conjunction [inv.unlocated, c.guard.unlocated,
        compare bound.unlocated .eq (ofConst (.bare snapshot) .int)] =
        (conjunction
          [inv, c.guard, compare bound .eq (ofConst (.bare snapshot) .int)]).unlocated := by
      rw [← conjunction_unlocated]
      simp only [List.map_cons, List.map_nil, ← compare_unlocated, hold]
    have hpost := compare_unlocated bound .lt (ofConst (.bare snapshot) .int)
    rw [hold] at hpost
    rw [hpre, hpost]
    apply Mirrors.bind (.ofExcept (Wp.list_unlocated o _ _ c.body))
    intro post
    exact obligate_mirrors o (.constant _) (.constant post) ⟨.boundDecrease, loc⟩ _

theorem checkLoop_mirrors (scopes : Scopes) (inv : Pred) (cmds : List TypedCmd) (loc : Loc)
    (exit : Target) :
    VerificationM.Mirrors id (checkLoop o scopes inv cmds loc exit)
      (checkLoop o scopes inv.unlocated (TypedStmt.unlocatedCmds cmds) .none exit.unlocated) := by
  have hguards : (TypedStmt.unlocatedCmds cmds).map (·.guard) =
      (cmds.map (·.guard)).map TypedExpr.unlocated := by
    simp [TypedStmt.unlocatedCmds, Stmt.unlocatedCmds_eq_map]
  simp only [checkLoop, hguards, Pred.expr_unlocated, disjunction_unlocated, neg,
    unary_unlocated, conj, binary_unlocated, Pred.bound_unlocated]
  apply (obligate_mirrors o (.constant _) exit.pred ⟨.loopExit, loc⟩ exit.label).bind
  intro _
  cases inv.bound with
  | none => exact warn_mirrors (.missingBound loc)
  | some bound =>
    have hbound := compare_unlocated bound .gte (ofNum 0)
    rw [ofNum, unlocated_ofLit] at hbound
    simp only [Option.map_some, ofNum, hbound]
    apply (obligate_mirrors o (.constant _) (.constant _) ⟨.loopTermination, loc⟩ none).bind
    intro _
    rw [TypedStmt.unlocatedCmds, Stmt.unlocatedCmds_eq_map]
    exact .forM (checkDecrease_mirrors o scopes inv.expr bound loc) cmds

theorem ofPred_unlocated (p : Pred) : Target.ofPred p.unlocated = (Target.ofPred p).unlocated := by
  rw [Target.ofPred, Pred.loc_unlocated]
  rfl

/-- Segments are worked through alike without locations. -/
theorem segments_mirrors (scopes : Scopes) (target : Target) (pre : Pred) (segs : List Segment) :
    VerificationM.Mirrors id (segments o scopes target pre segs)
      (segments o scopes target.unlocated pre.unlocated (segs.map Segment.unlocated)) := by
  refine segments.induct
    (fun scopes target pre segs => VerificationM.Mirrors id (segments o scopes target pre segs)
      (segments o scopes target.unlocated pre.unlocated (segs.map Segment.unlocated)))
    (fun scopes target segs => VerificationM.Mirrors Target.unlocated
      (pullBack o scopes target segs)
      (pullBack o scopes target.unlocated (segs.map Segment.unlocated)))
    (fun scopes inv loc cs => VerificationM.Mirrors id (bodies o scopes inv loc cs)
      (bodies o scopes inv.unlocated .none (TypedStmt.unlocatedCmds cs)))
    (fun scopes target ss => VerificationM.Mirrors Target.unlocated (run o scopes target ss)
      (run o scopes target.unlocated (TypedStmt.unlocatedList ss)))
    (fun scopes target s => VerificationM.Mirrors TypedExpr.unlocated (stmt o scopes target s)
      (stmt o scopes target.unlocated (TypedStmt.unlocated s)))
    (fun scopes target cs => VerificationM.Mirrors (List.map TypedExpr.unlocated)
      (branches o scopes target cs)
      (branches o scopes target.unlocated (TypedStmt.unlocatedCmds cs)))
    ?assertion ?hole ?pulled ?noSegments ?pullRun ?pullAssertion ?pullLoop ?pullHole ?noBodies
    ?moreBodies ?noStmts ?moreStmts ?cond ?block ?simple ?noBranches ?moreBranches
    scopes target pre segs
  case assertion =>
    intro scopes target pre a rest ih
    rw [List.map_cons, Segment.unlocated, segments, segments, Pred.loc_unlocated]
    exact (obligate_mirrors o pre a ⟨.assertion, a.loc⟩ none).bind fun _ => ih
  case hole =>
    intro scopes target pre env loc rest ih
    rw [List.map_cons, Segment.unlocated, segments, segments]
    exact ih.bind fun next => recordHole_mirrors pre next.pred env loc
  case pulled =>
    intro scopes target pre segs hassertion hhole ih
    -- Without locations, too, the segments begin neither with an assertion nor with a hole.
    rw [segments.eq_3 _ _ _ _ _ hassertion hhole,
      segments.eq_3 _ _ _ _ _ (Segment.map_unlocated_ne_assertion hassertion)
        (Segment.map_unlocated_ne_hole hhole)]
    exact ih.bind fun next => obligate_mirrors o pre next.pred next.origin next.label
  case noSegments =>
    intro scopes target
    rw [List.map_nil, pullBack, pullBack]
    exact .pure rfl
  case pullRun =>
    intro scopes target ss rest ih ihrun
    rw [List.map_cons, Segment.unlocated, pullBack, pullBack]
    exact ih.bind ihrun
  case pullAssertion =>
    intro scopes target a rest ih
    rw [List.map_cons, Segment.unlocated, pullBack, pullBack]
    exact ih.bind fun _ => .pure (ofPred_unlocated a)
  case pullLoop =>
    intro scopes target inv cmds loc rest ih ihbodies
    rw [List.map_cons, Segment.unlocated, pullBack, pullBack]
    exact ih.bind fun exit => ihbodies.bind fun _ =>
      (checkLoop_mirrors o scopes inv cmds loc exit).bind fun _ => .pure (ofPred_unlocated inv)
  case pullHole =>
    intro scopes target env loc rest ih
    rw [List.map_cons, Segment.unlocated, pullBack, pullBack]
    exact ih.bind fun next =>
      (recordHole_mirrors next.pred next.pred env loc).bind fun _ => .pure rfl
  case noBodies =>
    intro scopes inv loc
    rw [TypedStmt.unlocatedCmds, Stmt.unlocatedCmds, bodies, bodies]
    exact .pure rfl
  case moreBodies =>
    intro scopes inv loc c cs target ih ihrest
    have hpre : conj inv.expr.unlocated c.guard.unlocated = (conj inv.expr c.guard).unlocated :=
      binary_unlocated .conj inv.expr c.guard
    rw [TypedStmt.unlocatedCmds, Stmt.unlocatedCmds, bodies, bodies]
    dsimp only
    rw [Pred.expr_unlocated, hpre, text_unlocated, Segment.ofStmts_unlocated]
    exact ih.bind fun _ => ihrest
  case noStmts =>
    intro scopes target
    rw [TypedStmt.unlocatedList, Stmt.unlocatedList, run, run]
    exact .pure rfl
  case moreStmts =>
    intro scopes target s ss ih ihstmt
    rw [TypedStmt.unlocatedList, Stmt.unlocatedList, run, run]
    exact ih.bind fun next => (ihstmt next).bind fun _ => .pure rfl
  case cond =>
    intro scopes target cs loc ih
    rw [TypedStmt.unlocated, Stmt.unlocated, stmt, stmt]
    exact ih.bind fun es => .pure (conjunction_unlocated es)
  case block =>
    intro scopes target b loc opened ih
    have hopened := Wp.OpenBlock.ofBlock_unlocated scopes b target.pred.expr
    rw [TypedProgram.unlocated] at hopened
    rw [TypedStmt.unlocated, Stmt.unlocated, stmt, stmt]
    simp only [Target.expr_unlocated, hopened]
    rw [Wp.OpenBlock.unlocated, Renaming.stmts_unlocated, Segment.ofStmts_unlocated]
    exact ih.bind fun result => .pure result.expr_unlocated
  case simple =>
    intro scopes target s hcond hblock
    rw [stmt.eq_3 _ _ _ _ hcond hblock,
      stmt.eq_3 _ _ _ _ (TypedStmt.unlocated_ne_cond hcond) (TypedStmt.unlocated_ne_block hblock),
      Target.expr_unlocated]
    exact .ofExcept (Wp.stmt_unlocated o scopes target.pred.expr s)
  case noBranches =>
    intro scopes target
    rw [TypedStmt.unlocatedCmds, Stmt.unlocatedCmds, branches, branches]
    exact .pure rfl
  case moreBranches =>
    intro scopes target c cs ih ihrest
    rw [TypedStmt.unlocatedCmds, Stmt.unlocatedCmds, branches, branches,
      Segment.ofStmts_unlocated]
    apply ih.bind
    intro body
    apply ihrest.bind
    intro rest
    exact .pure (by rw [Target.expr_unlocated, implies, binary_unlocated]; rfl)

theorem assertionOf_unlocated (s : Option TypedStmt) :
    assertionOf (s.map TypedStmt.unlocated) = (assertionOf s).unlocated := by
  have htrue : Pred.constant (.ofBool true) = (Pred.constant (.ofBool true)).unlocated :=
    congrArg Pred.constant (unlocated_ofLit _).symm
  cases s with
  | none => exact htrue
  | some s =>
    cases s with
    | assert e loc => rfl
    | _ => exact htrue

theorem program_mirrors (scopes : Scopes) (p : TypedProgram) :
    VerificationM.Mirrors id (program o scopes p)
      (program o scopes (TypedProgram.unlocated p)) := by
  have hlast : (TypedProgram.unlocated p).stmts.getLast? =
      p.stmts.getLast?.map TypedStmt.unlocated := by
    rw [TypedProgram.unlocated, TypedStmt.unlocatedList, Stmt.unlocatedList_eq_map,
      List.getLast?_map]
  have hfirst : (TypedProgram.unlocated p).stmts.head? =
      p.stmts.head?.map TypedStmt.unlocated := by
    rw [TypedProgram.unlocated, TypedStmt.unlocatedList, Stmt.unlocatedList_eq_map,
      List.head?_map]
  have hsegs : Segment.ofStmts (TypedProgram.unlocated p).stmts = _ :=
    Segment.ofStmts_unlocated p.stmts
  unfold program
  rw [TypedProgram.map_text_boundNames, hlast, hfirst, hsegs, assertionOf_unlocated,
    assertionOf_unlocated, ofPred_unlocated]
  exact segments_mirrors o _ _ _ _

end Structure

end GuardedCommands
