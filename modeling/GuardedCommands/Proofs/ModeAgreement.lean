import GuardedCommands.Verification.Verifier
import GuardedCommands.Proofs.Nesting
import GuardedCommands.Proofs.Basic

/-!
# The two ways to a precondition

Preconditions are computed in two ways.  For the body of a loop whose bound has to get
smaller, the statements are taken one by one from the last to the first, and assertions are
passed over.  Everywhere else the list is cut into segments first, and what the segments
need is recorded on the way.  Where nothing is asserted and nothing loops, the cuts are
holes only.  A hole leaves the postcondition as it is, so the cuts change nothing: both ways
come to the same precondition or to the same error, through branches and renamed blocks at
every depth, and what the second way records are holes.
-/

namespace GuardedCommands

/-! ## Silent statements -/

namespace Stmt

variable {ε δ η : Type}

mutual

def isSilent : Stmt ε δ η → Bool
  | .assert .. | .invariant .. | .loop .. => false
  | .cond cs _ => cmdsSilent cs
  | .block b _ => listSilent b.stmts
  | _ => true

def cmdsSilent : List (GuardedCmd ε (Stmt ε δ η)) → Bool
  | [] => true
  | c :: cs => listSilent c.body && cmdsSilent cs

def listSilent : List (Stmt ε δ η) → Bool
  | [] => true
  | s :: ss => s.isSilent && listSilent ss

end

end Stmt

namespace Renaming

theorem listSilent_stmts (ρ : Renaming) (ss : List TypedStmt) :
    Stmt.listSilent (ρ.stmts ss) = Stmt.listSilent ss := by
  induction ss using Stmt.nested_induction
      (S := fun s => ∀ ρ : Renaming, (ρ.stmt s).isSilent = s.isSilent)
      (C := fun cs => ∀ ρ : Renaming, Stmt.cmdsSilent (ρ.cmds cs) = Stmt.cmdsSilent cs)
      generalizing ρ with
  | simple s => cases s <;> simp_all [Stmt.isSimple, stmt, Stmt.isSilent]
  | _ =>
    simp_all only [stmt, cmds, stmts, Stmt.isSilent, Stmt.cmdsSilent, Stmt.listSilent]

end Renaming

/-! ## Segments of silent statements -/

theorem Segment.ofStmts_cons_of_silent {s : TypedStmt} {ss : List TypedStmt}
    (hs : s.isSilent = true) (hhole : ∀ text env loc, s ≠ .hole text env loc) :
    ofStmts (s :: ss) = consRun s (ofStmts ss) := by
  cases s with
  | assert | invariant | loop => simp [Stmt.isSilent] at hs
  | hole text env loc => exact absurd rfl (hhole text env loc)
  | _ => rw [ofStmts] <;> simp

theorem Structure.run_cons (o : Options) (scopes : Scopes) (target : Target) (s : TypedStmt)
    (ss : List TypedStmt) :
    run o scopes target (s :: ss) = do
      let next ← run o scopes target ss
      let pre ← stmt o scopes next s
      return next.withExpr pre := by
  rw [run]

theorem Structure.pullBack_consRun (o : Options) (scopes : Scopes) (target : Target)
    (s : TypedStmt) (segs : List Segment) :
    pullBack o scopes target (Segment.consRun s segs) = do
      let next ← pullBack o scopes target segs
      let pre ← stmt o scopes next s
      return next.withExpr pre := by
  unfold Segment.consRun
  split
  · simp only [pullBack, run_cons, bind_assoc]
  · simp only [pullBack, run, pure_bind]

/-! ## Agreement -/

def Ledger.addHoles (l : Ledger) (holes : List SpecHole) : Ledger :=
  { l with holes := l.holes ++ holes }

namespace Ledger

@[simp] theorem addHoles_nil (l : Ledger) : l.addHoles [] = l := by
  simp [addHoles]

@[simp] theorem addHoles_addHoles (l : Ledger) (holes more : List SpecHole) :
    (l.addHoles holes).addHoles more = l.addHoles (holes ++ more) := by
  simp [addHoles]

end Ledger

/-- From every ledger a computation comes to a result that is related to the result of `x`,
or to the error of `x`, and it records nothing but holes. -/
def Agrees {α β : Type} (R : α → β → Prop) (x : Except VerificationError α)
    (m : VerificationM β) : Prop :=
  ∀ l, ∃ holes,
    (∃ a b, x = .ok a ∧ m l = .ok b (l.addHoles holes) ∧ R a b) ∨
      ∃ e, x = .error e ∧ m l = .error e (l.addHoles holes)

namespace Agrees

variable {α β γ δ : Type} {R : α → β → Prop} {S : γ → δ → Prop}

variable {a : α} {b : β} {m : VerificationM β}

theorem pure (h : R a b) : Agrees R (.ok a) (Pure.pure b) :=
  fun l => ⟨[], .inl ⟨a, b, rfl, congrArg _ l.addHoles_nil.symm, h⟩⟩

theorem ofExcept (x : Except VerificationError α) :
    Agrees Eq x (MonadExcept.ofExcept x) := by
  intro l
  cases x with
  | ok a => exact ⟨[], .inl ⟨a, a, rfl, congrArg _ l.addHoles_nil.symm, rfl⟩⟩
  | error e => exact ⟨[], .inr ⟨e, rfl, congrArg _ l.addHoles_nil.symm⟩⟩

theorem recordHole {pre post : Pred} {env : TypeEnv} {loc : Loc} (h : R a b) :
    Agrees R (.ok a) (do Structure.recordHole pre post env loc; return b) :=
  fun l => ⟨[⟨l.holes.length, pre, post, env, loc⟩], .inl ⟨a, b, rfl, rfl, h⟩⟩

theorem bind {x : Except VerificationError α} {f : α → Except VerificationError γ}
    {g : β → VerificationM δ} (hx : Agrees R x m) (hf : ∀ a b, R a b → Agrees S (f a) (g b)) :
    Agrees S (x >>= f) (m >>= g) := by
  intro l
  obtain ⟨holes, ⟨a, b, rfl, hm, hab⟩ | ⟨e, rfl, hm⟩⟩ := hx l
  · obtain ⟨more, hmore⟩ := hf a b hab (l.addHoles holes)
    have hbind : (m >>= g) l = g b (l.addHoles holes) := EStateM.bind_of_ok hm
    refine ⟨holes ++ more, ?_⟩
    rw [hbind, ← Ledger.addHoles_addHoles]
    exact hmore
  · have hbind : (m >>= g) l = .error e (l.addHoles holes) := by
      simp [Bind.bind, EStateM.bind, hm]
    exact ⟨holes, .inr ⟨e, rfl, hbind⟩⟩

theorem read {S : α → δ → Prop} {x : Except VerificationError α} {g : β → δ} (hx : Agrees R x m)
    (hg : ∀ a b, R a b → S a (g b)) : Agrees S x (do return g (← m)) := by
  rw [← bind_pure x]
  exact hx.bind fun a b hab => .pure (hg a b hab)

end Agrees

namespace Target

structure Moved (target : Target) (pre : TypedExpr) (t : Target) : Prop where
  expr : t.pred.expr = pre
  origin : t.origin = target.origin
  label : t.label = target.label

end Target

namespace Structure

open Target (Moved)

variable {o : Options} {scopes : Scopes} {target : Target} {post : TypedExpr}

variable {ss : List TypedStmt} {s : TypedStmt} {cs : List TypedCmd}

theorem agrees_hole {text : String} {env : TypeEnv} {loc : Loc}
    (hss : Agrees target.Moved (Wp.list o scopes post ss)
      (pullBack o scopes target (Segment.ofStmts ss))) :
    Agrees target.Moved (Wp.list o scopes post (.hole text env loc :: ss))
      (pullBack o scopes target (Segment.ofStmts (.hole text env loc :: ss))) := by
  rw [Wp.list, Segment.ofStmts, pullBack]
  refine hss.bind fun mid next hnext => ?_
  rw [Wp.stmt]
  exact .recordHole hnext

theorem agrees_cons (hs : s.isSilent = true) (hhole : ∀ text env loc, s ≠ .hole text env loc)
    (hss : Agrees target.Moved (Wp.list o scopes post ss)
      (pullBack o scopes target (Segment.ofStmts ss)))
    (hstmt : ∀ mid (next : Target), next.pred.expr = mid →
      Agrees Eq (Wp.stmt o scopes mid s) (stmt o scopes next s)) :
    Agrees target.Moved (Wp.list o scopes post (s :: ss))
      (pullBack o scopes target (Segment.ofStmts (s :: ss))) := by
  rw [Wp.list, Segment.ofStmts_cons_of_silent hs hhole, pullBack_consRun]
  refine hss.bind fun mid next hnext => ?_
  exact (hstmt mid next hnext.expr).read fun pre pre' hpre =>
    ⟨hpre.symm, hnext.origin, hnext.label⟩

theorem agrees_simple (hcond : ∀ cs loc, s ≠ .cond cs loc) (hblock : ∀ b loc, s ≠ .block b loc)
    (htarget : target.pred.expr = post) :
    Agrees Eq (Wp.stmt o scopes post s) (stmt o scopes target s) := by
  rw [stmt.eq_3 _ _ _ _ hcond hblock, htarget]
  exact .ofExcept _

theorem agrees_cond {loc : Loc}
    (hcs : Agrees Eq (Wp.cmds o scopes post cs) (branches o scopes target cs)) :
    Agrees Eq (Wp.stmt o scopes post (.cond cs loc)) (stmt o scopes target (.cond cs loc)) := by
  rw [Wp.stmt, stmt]
  exact hcs.bind fun es es' hes => .pure (congrArg _ hes)

theorem agrees_block {b : TypedProgram} {loc : Loc}
    (hbody : Agrees target.Moved
      (Wp.list o ((Wp.OpenBlock.ofBlock scopes b target.pred.expr).scope :: scopes)
        target.pred.expr ((Wp.OpenBlock.ofBlock scopes b target.pred.expr).renames.stmts b.stmts))
      (pullBack o ((Wp.OpenBlock.ofBlock scopes b target.pred.expr).scope :: scopes) target
        (Segment.ofStmts
          ((Wp.OpenBlock.ofBlock scopes b target.pred.expr).renames.stmts b.stmts)))) :
    Agrees Eq (Wp.stmt o scopes target.pred.expr (.block b loc))
      (stmt o scopes target (.block b loc)) := by
  rw [Wp.stmt, stmt]
  exact hbody.read fun pre t ht => ht.expr.symm

theorem agrees_branches {c : TypedCmd} (hbody : Agrees target.Moved (Wp.list o scopes post c.body)
      (pullBack o scopes target (Segment.ofStmts c.body)))
    (hcs : Agrees Eq (Wp.cmds o scopes post cs) (branches o scopes target cs)) :
    Agrees Eq (Wp.cmds o scopes post (c :: cs)) (branches o scopes target (c :: cs)) := by
  rw [Wp.cmds, branches]
  refine hbody.bind fun body next hnext => ?_
  refine hcs.bind fun es es' hes => ?_
  rw [hnext.expr, hes]
  exact .pure rfl

theorem agrees_list (o : Options) (scopes : Scopes) (target : Target) (ss : List TypedStmt)
    (hss : Stmt.listSilent ss = true) :
    Agrees target.Moved (Wp.list o scopes target.pred.expr ss)
      (pullBack o scopes target (Segment.ofStmts ss)) := by
  refine Wp.list.induct
    (fun scopes post ss => Stmt.listSilent ss = true → ∀ target : Target,
      target.pred.expr = post → Agrees target.Moved (Wp.list o scopes post ss)
        (pullBack o scopes target (Segment.ofStmts ss)))
    (fun scopes post s => s.isSilent = true → ∀ target : Target, target.pred.expr = post →
      Agrees Eq (Wp.stmt o scopes post s) (stmt o scopes target s))
    (fun scopes post cs => Stmt.cmdsSilent cs = true → ∀ target : Target,
      target.pred.expr = post →
        Agrees Eq (Wp.cmds o scopes post cs) (branches o scopes target cs))
    ?nil ?cons ?skip ?assert ?invariant ?hole ?abort ?assign ?arrayAssign ?loop ?cond ?alloc
    ?lookup ?mutate ?dispose ?block ?noCmds ?moreCmds scopes target.pred.expr ss hss target rfl
  case nil =>
    intro scopes post _ target htarget
    rw [Wp.list, Segment.ofStmts, pullBack]
    exact .pure ⟨htarget, rfl, rfl⟩
  case cons =>
    intro scopes post s ss ihss ihs hsilent target htarget
    obtain ⟨hs, hss⟩ : s.isSilent = true ∧ Stmt.listSilent ss = true := by
      simpa [Stmt.listSilent] using hsilent
    by_cases hhole : ∃ text env loc, s = .hole text env loc
    · obtain ⟨text, env, loc, rfl⟩ := hhole
      exact agrees_hole (ihss hss target htarget)
    · exact agrees_cons hs (fun text env loc h => hhole ⟨text, env, loc, h⟩)
        (ihss hss target htarget) fun mid next hnext => ihs mid hs next hnext
  case cond =>
    intro scopes post cs loc ih hsilent target htarget
    rw [Stmt.isSilent] at hsilent
    exact agrees_cond (ih hsilent target htarget)
  case block =>
    intro scopes post b loc opened ih hsilent target htarget
    subst htarget
    rw [Stmt.isSilent] at hsilent
    exact agrees_block (ih (by rwa [Renaming.listSilent_stmts]) target rfl)
  case noCmds =>
    intro scopes post _ target _
    rw [Wp.cmds, branches]
    exact .pure rfl
  case moreCmds =>
    intro scopes post c cs ihbody ihcs hsilent target htarget
    obtain ⟨hbody, hcs⟩ : Stmt.listSilent c.body = true ∧ Stmt.cmdsSilent cs = true := by
      simpa [Stmt.cmdsSilent] using hsilent
    exact agrees_branches (ihbody hbody target htarget) (ihcs hcs target htarget)
  all_goals
    intros
    exact agrees_simple (by simp) (by simp) (by assumption)

end Structure

/-- Statements that assert nothing and do not loop have the same precondition, or lead to
the same error, whether they are passed one by one or cut into segments; the target that
comes out is reported like the one that went in, and holes are all that has been recorded. -/
theorem Verifier.segments_agree_with_wp (v : Verifier) (target : Target) (ss : List TypedStmt)
    (hss : Stmt.listSilent ss = true) :
    ∃ holes,
      (∃ pre t, v.wp ss target.pred.expr = .ok pre ∧
        Structure.pullBack v.options v.scopes target (Segment.ofStmts ss) v.ledger =
          .ok t { v.ledger with holes := v.ledger.holes ++ holes } ∧
        t.pred.expr = pre ∧ t.origin = target.origin ∧ t.label = target.label) ∨
      ∃ e, v.wp ss target.pred.expr = .error e ∧
        Structure.pullBack v.options v.scopes target (Segment.ofStmts ss) v.ledger =
          .error e { v.ledger with holes := v.ledger.holes ++ holes } := by
  obtain ⟨holes, ⟨pre, t, hwp, hrun, hmoved⟩ | herror⟩ :=
    Structure.agrees_list v.options v.scopes target ss hss v.ledger
  · exact ⟨holes, .inl ⟨pre, t, hwp, hrun, hmoved.expr, hmoved.origin, hmoved.label⟩⟩
  · exact ⟨holes, .inr herror⟩

namespace Detour

def x : TypedExpr := .ofVar (.bare "x") .int

def t : TypedExpr := .ofVar (.bare "t") .int

/-- A choice around a hole, and a block that sends `x` through a local `t` with a hole on
the way. -/
def stmts : List TypedStmt :=
  [.cond [⟨.ofBool true, [.hole "" ⟨[]⟩ .none], .none⟩] .none,
    .block ⟨[], [⟨.var, [.bare "t"], .int, none, .none⟩], [],
      [.assign [.bare "t"] [x] .none, .hole "" ⟨[]⟩ .none, .assign [.bare "x"] [t] .none],
      .none⟩ .none]

/-- A verifier to which `t` is known already, so that the local gets another name. -/
def verifier : Verifier := (Verifier.start .default).enterScope ["t", "x"]

def target : Target := .ofPred (.assertion (.compare x .gte (.ofNum 0)) .none)

theorem wp_eq : verifier.wp stmts target.pred.expr =
    .ok (.implies (.ofBool true) (.compare x .gte (.ofNum 0))) := by
  cbv

theorem segments_agree :
    Stmt.listSilent stmts = true ∧ ∃ holes t,
      Structure.pullBack verifier.options verifier.scopes target (Segment.ofStmts stmts)
          verifier.ledger =
        .ok t { verifier.ledger with holes := verifier.ledger.holes ++ holes } ∧
      t.pred.expr = .implies (.ofBool true) (.compare x .gte (.ofNum 0)) ∧
      t.origin = target.origin ∧ t.label = target.label := by
  have hsilent : Stmt.listSilent stmts = true := by decide
  obtain ⟨holes, ⟨pre, t, hwp, hrun, hexpr, hreport⟩ | ⟨e, hwp, -⟩⟩ :=
    verifier.segments_agree_with_wp target stmts hsilent
  · cases wp_eq.symm.trans hwp
    exact ⟨hsilent, holes, t, hrun, hexpr, hreport⟩
  · cases wp_eq.symm.trans hwp

end Detour

end GuardedCommands
