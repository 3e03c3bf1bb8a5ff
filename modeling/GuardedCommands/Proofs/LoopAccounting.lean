import GuardedCommands.Elaboration.Program
import GuardedCommands.Proofs.Accounts
import GuardedCommands.Proofs.StructuralErrors

/-!
# What is reported about loops

A loop is reported on in one of two ways.  With a bound before it, it has one
obligation that the bound is not negative, and for each of its commands either an
obligation that the command makes the bound smaller or a warning that this is not
checked, which is given exactly when a loop stands inside the command.  Without a
bound it has one warning.  Nothing is left out and nothing comes twice, however the
loops are nested: every loop is structured once, although its body is passed twice,
and none of these obligations has two sides that are the same.

A command is named by its guard as it reads when the obligation is recorded.  By then
the blocks around the loop have been opened, each one for what has to hold behind it,
and names that it hides or that occur there have been renamed.  The reports are those
on the loops of the opened blocks, and in all but the names of the guards those on the
loops of the program as it is written.
-/

namespace GuardedCommands

/-! ## Loops and reports -/

inductive LoopReport
  /-- The bound is not negative while the loop runs. -/
  | termination (loop : Loc)
  /-- A command of the loop makes the bound smaller. -/
  | decrease (loop : Loc) (label : Option String)
  | missingBound (loop : Loc)
  | uncheckedDecrease (cmd : Loc)
deriving DecidableEq

def LoopReport.unlabelled : LoopReport → LoopReport
  | .decrease loc _ => .decrease loc none
  | r => r

def Origin.loopReport? (origin : Origin) (label : Option String) : Option LoopReport :=
  match origin.reason with
  | .loopTermination => some (.termination origin.loc)
  | .boundDecrease => some (.decrease origin.loc label)
  | .assertion | .preservation | .loopExit => none

def Obligation.loopReport? (ob : Obligation) : Option LoopReport :=
  ob.origin.loopReport? ob.label

def Warning.loopReport : Warning → LoopReport
  | .missingBound loc => .missingBound loc
  | .uncheckedDecrease loc => .uncheckedDecrease loc

def Output.loopReports (out : Output) : List LoopReport :=
  out.obligations.filterMap (·.loopReport?) ++ out.warnings.map (·.loopReport)

structure LoopSite where
  bound : Option TypedExpr
  cmds : List TypedCmd
  loc : Loc

namespace LoopSite

def commandReport (loop : Loc) (c : TypedCmd) : LoopReport :=
  if Stmt.listHasLoop c.body then .uncheckedDecrease c.loc
  else .decrease loop (some c.guard.text)

def reports (site : LoopSite) : List LoopReport :=
  match site.bound with
  | none => [.missingBound site.loc]
  | some _ => .termination site.loc :: site.cmds.map (commandReport site.loc)

end LoopSite

namespace Stmt

def bound? : TypedStmt → Option TypedExpr
  | .invariant _ b _ => b
  | _ => none

mutual

def loops (bound : Option TypedExpr) : TypedStmt → List LoopSite
  | .loop cs loc => ⟨bound, cs, loc⟩ :: cmdsLoops cs
  | .cond cs _ => cmdsLoops cs
  | .block b _ => listLoops none b.stmts
  | _ => []

def cmdsLoops : List TypedCmd → List LoopSite
  | [] => []
  | c :: cs => listLoops none c.body ++ cmdsLoops cs

def listLoops (bound : Option TypedExpr) : List TypedStmt → List LoopSite
  | [] => []
  | s :: ss => s.loops bound ++ listLoops s.bound? ss

end

end Stmt

/-! ## Loops of opened blocks -/

namespace Structure

/-- What has to hold before statements. -/
def ahead (o : Options) (scopes : Scopes) (target : Target) : List TypedStmt → Target
  | [] => target
  | .assert e loc :: _ => .ofPred (.assertion e loc)
  | .invariant inv bound loc :: _ => .ofPred (.invariant inv bound loc)
  | .hole .. :: ss => ahead o scopes target ss
  | s :: ss =>
    let next := ahead o scopes target ss
    next.withExpr (precondition o scopes next s)

/-- What a statement asserts. -/
def asserted (s : TypedStmt) : Pred := (Segment.predOf? s).getD (.constant (.ofBool true))

mutual

/-- The loops of a statement as they read with the blocks around them opened, each block for
what has to hold behind it.  Behind the body of a loop that is the invariant, which is
asserted before the loop. -/
def loopsIn (o : Options) (scopes : Scopes) (before : Pred) (target : Target) (s : TypedStmt) :
    List LoopSite :=
  match s with
  | .loop cs loc =>
    ⟨before.bound, cs, loc⟩ ::
      loopsInCmds o scopes (fun c => ⟨before, ⟨.preservation, loc⟩, some c.guard.text⟩) cs
  | .cond cs _ => loopsInCmds o scopes (fun _ => target) cs
  | .block b _ =>
    let opened := Wp.OpenBlock.ofBlock scopes b target.pred.expr
    loopsInList o (opened.scope :: scopes) (.constant (.ofBool true)) target
      (opened.renames.stmts b.stmts)
  | _ => []
termination_by (s.weight, 0)
decreasing_by
  · simp only [Stmt.weight]
    exact Prod.Lex.left _ _ (by omega)
  · simp only [Stmt.weight]
    exact Prod.Lex.left _ _ (by omega)
  · simp only [Stmt.weight, Renaming.weightList_stmts]
    exact Prod.Lex.left _ _ (by omega)

def loopsInCmds (o : Options) (scopes : Scopes) (target : TypedCmd → Target)
    (cs : List TypedCmd) : List LoopSite :=
  match cs with
  | [] => []
  | c :: cs =>
    loopsInList o scopes (.constant (.ofBool true)) (target c) c.body ++
      loopsInCmds o scopes target cs
termination_by (Stmt.weightCmds cs, 0)
decreasing_by
  · simp only [Stmt.weightCmds]
    exact Prod.Lex.left _ _ (by omega)
  · simp only [Stmt.weightCmds]
    exact Prod.Lex.left _ _ (by omega)

def loopsInList (o : Options) (scopes : Scopes) (before : Pred) (target : Target)
    (ss : List TypedStmt) : List LoopSite :=
  match ss with
  | [] => []
  | s :: ss =>
    loopsIn o scopes before (ahead o scopes target ss) s ++
      loopsInList o scopes (asserted s) target ss
termination_by (Stmt.weightList ss, 1)
decreasing_by
  · exact lex_of_le (by simp only [Stmt.weightList]; omega) (by omega)
  · have := s.weight_pos
    simp only [Stmt.weightList]
    exact Prod.Lex.left _ _ (by omega)

end

end Structure

namespace LoopSite

def outline (site : LoopSite) : List LoopReport := site.reports.map LoopReport.unlabelled

theorem unlabelled_commandReport {c d : TypedCmd} (loop : Loc) (hloc : c.loc = d.loc)
    (hbody : Stmt.listHasLoop c.body = Stmt.listHasLoop d.body) :
    (commandReport loop c).unlabelled = (commandReport loop d).unlabelled := by
  unfold commandReport
  rw [hloc, hbody]
  split
  · rfl
  · rfl

variable {cs ds : List TypedCmd}

theorem outline_congr {bound bound' : Option TypedExpr} (loc : Loc)
    (hbound : bound.isSome = bound'.isSome)
    (hcs : cs.map (fun c => (commandReport loc c).unlabelled) =
      ds.map (fun d => (commandReport loc d).unlabelled)) :
    outline ⟨bound, cs, loc⟩ = outline ⟨bound', ds, loc⟩ := by
  cases bound with
  | none =>
    cases bound' with
    | none => rfl
    | some _ => cases hbound
  | some _ =>
    cases bound' with
    | none => cases hbound
    | some _ => simpa [outline, reports, Function.comp_def] using hcs

end LoopSite

namespace Renaming

theorem map_commandReport_cmds (ρ : Renaming) (loop : Loc) (cs : List TypedCmd) :
    (ρ.cmds cs).map (fun c => (LoopSite.commandReport loop c).unlabelled) =
      cs.map (fun c => (LoopSite.commandReport loop c).unlabelled) := by
  induction cs with
  | nil => rfl
  | cons c cs ih =>
    have hc := LoopSite.unlabelled_commandReport (c := ⟨ρ.expr c.guard, ρ.stmts c.body, c.loc⟩)
      (d := c) loop rfl (listHasLoop_stmts ρ c.body)
    simp only [cmds, List.map_cons, ih, hc]

theorem isSome_bound?_stmt (ρ : Renaming) (s : TypedStmt) :
    (ρ.stmt s).bound?.isSome = s.bound?.isSome := by
  cases s with
  | invariant inv bound loc | _ => simp [stmt, Stmt.bound?]

mutual

theorem outlines_stmt (ρ : Renaming) {bound bound' : Option TypedExpr}
    (h : bound.isSome = bound'.isSome) : (s : TypedStmt) →
      ((ρ.stmt s).loops bound).map LoopSite.outline = (s.loops bound').map LoopSite.outline
  | .loop cs loc => by
    simp only [stmt, Stmt.loops, List.map_cons, outlines_cmds ρ cs,
      LoopSite.outline_congr loc h (map_commandReport_cmds ρ loc cs)]
  | .cond cs _ => by simp only [stmt, Stmt.loops, outlines_cmds ρ cs]
  | .block b _ => by simp only [stmt, Stmt.loops, outlines_stmts _ rfl b.stmts]
  | .skip _ | .abort _ | .assign .. | .arrayAssign .. | .assert .. | .invariant .. | .hole ..
  | .alloc .. | .lookup .. | .mutate .. | .dispose .. => by simp only [stmt, Stmt.loops]

theorem outlines_cmds (ρ : Renaming) : (cs : List TypedCmd) →
    (Stmt.cmdsLoops (ρ.cmds cs)).map LoopSite.outline = (Stmt.cmdsLoops cs).map LoopSite.outline
  | [] => rfl
  | c :: cs => by
    simp only [cmds, Stmt.cmdsLoops, List.map_append, outlines_stmts ρ rfl c.body,
      outlines_cmds ρ cs]

theorem outlines_stmts (ρ : Renaming) {bound bound' : Option TypedExpr}
    (h : bound.isSome = bound'.isSome) : (ss : List TypedStmt) →
      (Stmt.listLoops bound (ρ.stmts ss)).map LoopSite.outline =
        (Stmt.listLoops bound' ss).map LoopSite.outline
  | [] => rfl
  | s :: ss => by
    simp only [stmts, Stmt.listLoops, List.map_append, outlines_stmt ρ h s,
      outlines_stmts ρ (isSome_bound?_stmt ρ s) ss]

end

end Renaming

namespace Structure

end Structure

/-! ## Sides that differ

What a command has to establish is computed from a comparison, and what it starts from
ends in one.  No step of the computation gives an expression that ends in a comparison
again, so the two sides are never the same.
-/

namespace TypedExpr

def NoFinalComparison : TypedExpr → Prop
  | .lit .. | .chain .. | .quant .. => True
  | .app (.app (.op (.arith o) _ _) _ _ _) r _ _ => o = .conj → ∃ f a t l, r = .app f a t l
  | _ => False

theorem noFinalComparison_binary {o : ArithOp} (ho : o ≠ .conj) (l r : TypedExpr) :
    (binary o l r).NoFinalComparison :=
  fun h => absurd h ho

theorem noFinalComparison_conjunction {es : List TypedExpr}
    (h : ∀ e ∈ es, ∃ guard body, e = .implies guard body) : (conjunction es).NoFinalComparison := by
  cases es using List.reverseRecOn with
  | nil => trivial
  | append_singleton es e =>
    obtain ⟨guard, body, rfl⟩ := h e (by simp)
    cases es with
    | nil => exact noFinalComparison_binary (by decide) guard body
    | cons d ds =>
      rw [List.cons_append, conjunction, List.foldl_append]
      exact fun _ => ⟨_, _, _, _, rfl⟩

variable {e : TypedExpr}

theorem noFinalComparison_substitute (s : ExprSubst) (h : e.NoFinalComparison) :
    (e.substitute s).NoFinalComparison := by
  unfold NoFinalComparison at h
  split at h
  · simp [substitute, NoFinalComparison]
  · simp [substitute, NoFinalComparison]
  · simp [substitute, NoFinalComparison]
  · next o _ _ _ _ _ r _ _ =>
    rw [substitute, substitute, substitute]
    intro ho
    obtain ⟨f, a, t, l, rfl⟩ := h ho
    rw [substitute]
    exact ⟨_, _, _, _, rfl⟩
  · exact h.elim

theorem not_same_of_noFinalComparison (h : e.NoFinalComparison) (p l r : TypedExpr) (o : ChainOp) :
    (conj p (compare l o r)).same e = false := by
  unfold NoFinalComparison at h
  split at h
  · rfl
  · rfl
  · rfl
  · next o' _ _ _ _ _ q _ _ =>
    by_cases ho : o' = .conj
    · obtain ⟨f, a, t, k, rfl⟩ := h ho
      simp [conj, binary, apply, compare, same]
    · have hop : (Op.arith .conj == Op.arith o') = false :=
        beq_eq_false_iff_ne.2 fun heq => ho (by cases heq; rfl)
      simp [conj, binary, apply, ofOp, same, hop]
  · exact h.elim

end TypedExpr

namespace Wp

/-- From a postcondition that does not end in a comparison comes a precondition that does not. -/
theorem noFinalComparison_list {o : Options} {scopes : Scopes} {post pre : TypedExpr}
    {ss : List TypedStmt} (hpost : post.NoFinalComparison) (h : list o scopes post ss = .ok pre) :
    pre.NoFinalComparison := by
  refine list.induct
    (fun scopes post ss => post.NoFinalComparison →
      ∀ pre, list o scopes post ss = .ok pre → pre.NoFinalComparison)
    (fun scopes post s => post.NoFinalComparison →
      ∀ pre, stmt o scopes post s = .ok pre → pre.NoFinalComparison)
    (fun scopes post cs => ∀ es, cmds o scopes post cs = .ok es →
      ∀ e ∈ es, ∃ guard body, e = .implies guard body)
    ?nil ?cons ?skip ?assert ?invariant ?hole ?abort ?assign ?arrayAssign ?loop ?cond ?alloc
    ?lookup ?mutate ?dispose ?block ?noCmds ?moreCmds scopes post ss hpost pre h
  case nil =>
    intro scopes post hpost pre h
    rw [list] at h
    cases h
    exact hpost
  case cons =>
    intro scopes post s ss ihss ihs hpost pre h
    rw [list] at h
    obtain ⟨mid, hmid, hpre⟩ := Except.ok_of_bind h
    exact ihs mid (ihss hpost mid hmid) pre hpre
  case skip | assert | invariant | hole =>
    intros
    rename_i hpost pre h
    rw [stmt] at h
    cases h
    exact hpost
  case abort =>
    intro scopes post loc hpost pre h
    rw [stmt] at h
    cases h
    trivial
  case assign =>
    intro scopes post xs es loc hpost pre h
    rw [stmt] at h
    cases h
    exact TypedExpr.noFinalComparison_substitute _ hpost
  case arrayAssign =>
    intro scopes post a i v loc hpost pre h
    rw [stmt, arrayAssign] at h
    split at h
    · cases h
      exact TypedExpr.noFinalComparison_substitute _ hpost
    · cases h
  case loop =>
    intro scopes post cs loc hpost pre h
    rw [stmt] at h
    cases h
  case cond =>
    intro scopes post cs loc ih hpost pre h
    rw [stmt] at h
    obtain ⟨es, hes, hpre⟩ := Except.ok_of_bind h
    cases hpre
    exact TypedExpr.noFinalComparison_conjunction (ih es hes)
  case alloc | lookup =>
    intros
    rename_i hpost pre h
    rw [stmt] at h
    cases h
    trivial
  case mutate | dispose =>
    intros
    rename_i hpost pre h
    rw [stmt] at h
    cases h
    exact TypedExpr.noFinalComparison_binary (by decide) _ _
  case block =>
    intro scopes post b loc opened ih hpost pre h
    rw [stmt] at h
    exact ih hpost pre h
  case noCmds =>
    intro scopes post es h
    rw [cmds] at h
    cases h
    simp
  case moreCmds =>
    intro scopes post c cs ihbody ihrest es h
    rw [cmds] at h
    obtain ⟨body, -, h⟩ := Except.ok_of_bind h
    obtain ⟨rest, hrest, h⟩ := Except.ok_of_bind h
    cases h
    exact List.forall_mem_cons.2 ⟨⟨_, _, rfl⟩, ihrest rest hrest⟩

end Wp

/-! ## Recording reports -/

def Ledger.loopReports (l : Ledger) : Multiset LoopReport :=
  ↑(l.obligations.filterMap (·.loopReport?)) + ↑(l.warnings.map (·.loopReport))

namespace Ledger

variable {o : Options} {pre post : Pred} {origin : Origin} {label : Option String}

theorem loopReports_obligate_quiet (h : origin.loopReport? label = none) (l : Ledger) :
    (l.obligate o pre post origin label).loopReports = l.loopReports := by
  unfold obligate
  split
  · rfl
  · dsimp only
    split
    · rfl
    · simp [loopReports, Obligation.loopReport?, h]

theorem loopReports_obligate {report : LoopReport} (hdedupe : o.dedupe = false)
    (hsides : pre.expr.same post.expr = false) (h : origin.loopReport? label = some report)
    (l : Ledger) :
    (l.obligate o pre post origin label).loopReports = l.loopReports + {report} := by
  simp only [obligate, hsides, hdedupe, Bool.and_false, Bool.false_eq_true, if_false,
    loopReports, List.filterMap_append, ← Multiset.coe_add]
  rw [add_right_comm]
  simp [Obligation.loopReport?, h]

theorem coe_loopReports_output (l : Ledger) :
    (l.output.loopReports : Multiset LoopReport) = l.loopReports := by
  rw [Output.loopReports, ← Multiset.coe_add]
  rfl

end Ledger

theorem Accounts.precondition {o : Options} {scopes : Scopes} {target : Target} {s : TypedStmt}
    {Q : TypedExpr → Multiset LoopReport → Prop}
    (h : Accounts Ledger.loopReports (Structure.stmt o scopes target s) Q) :
    Accounts Ledger.loopReports (Structure.stmt o scopes target s) fun e r =>
      e = Structure.precondition o scopes target s ∧ Q e r := by
  intro l e l' hl
  obtain ⟨r, hr, hadd⟩ := h l e l' hl
  exact ⟨r, ⟨(Structure.precondition_of_ok hl).symm, hr⟩, hadd⟩

namespace Structure

variable {o : Options} {scopes : Scopes} {target : Target} {pre post inv a : Pred}
  {origin : Origin} {label : Option String} {segs : List Segment} {ss : List TypedStmt}
  {s : TypedStmt} {cs : List TypedCmd} {c : TypedCmd} {loc : Loc}

theorem accounts_warn (w : Warning) :
    Accounts Ledger.loopReports (warn w) fun _ r => r = {w.loopReport} := by
  refine .modifies fun l => ⟨_, rfl, ?_⟩
  simp only [Ledger.loopReports, Ledger.warn, List.map_append, ← Multiset.coe_add, add_assoc]
  rfl

theorem accounts_recordHole (pre post : Pred) (env : TypeEnv) (loc : Loc) :
    Accounts Ledger.loopReports (recordHole pre post env loc) fun _ r => r = 0 :=
  .unchanged fun _ => rfl

theorem accounts_quiet (h : origin.loopReport? label = none) :
    Accounts Ledger.loopReports (obligate o pre post origin label) fun _ r => r = 0 :=
  .unchanged fun l => Ledger.loopReports_obligate_quiet h l

theorem accounts_report {report : LoopReport} (hdedupe : o.dedupe = false)
    (hsides : pre.expr.same post.expr = false) (h : origin.loopReport? label = some report) :
    Accounts Ledger.loopReports (obligate o pre post origin label) fun _ r => r = {report} :=
  .modifies fun l => ⟨_, rfl, Ledger.loopReports_obligate hdedupe hsides h l⟩

theorem accounts_checkDecrease (hdedupe : o.dedupe = false) (inv bound : TypedExpr) (loc : Loc)
    (c : TypedCmd) : Accounts Ledger.loopReports (checkDecrease o scopes inv bound loc c)
      fun _ r => r = {LoopSite.commandReport loc c} := by
  unfold checkDecrease LoopSite.commandReport
  by_cases hloop : Stmt.listHasLoop c.body = true
  · rw [if_pos hloop, if_pos hloop]
    exact accounts_warn _
  · rw [if_neg hloop, if_neg hloop]
    dsimp only
    refine Accounts.bind (Q := fun post r => post.NoFinalComparison ∧ r = 0)
      (.ofExcept fun post hpost => ?_) fun post r hpost => ?_
    · refine ⟨Wp.noFinalComparison_list ?_ hpost, rfl⟩
      trivial
    · obtain ⟨hpost, rfl⟩ := hpost
      simp only [zero_add]
      exact accounts_report hdedupe (TypedExpr.not_same_of_noFinalComparison hpost _ _ _ _) rfl

theorem accounts_checkLoop (hdedupe : o.dedupe = false) (inv : Pred) (cs : List TypedCmd)
    (loc : Loc) (exit : Target) : Accounts Ledger.loopReports (checkLoop o scopes inv cs loc exit)
      fun _ r => r = ↑(LoopSite.reports ⟨inv.bound, cs, loc⟩) := by
  unfold checkLoop LoopSite.reports
  refine (accounts_quiet rfl).bind fun _ r hr => ?_
  subst hr
  simp only [zero_add]
  cases inv.bound with
  | none => exact accounts_warn _
  | some bound =>
    -- A conjunction and a comparison are never the same.
    refine (accounts_report hdedupe rfl rfl).bind fun _ r hr => ?_
    refine (Accounts.forM (R := fun cs r => r = ↑(cs.map (LoopSite.commandReport loc)))
      (fun c _ => accounts_checkDecrease hdedupe inv.expr bound loc c) rfl ?_).mono
        fun _ r' hr' => ?_
    · rintro c cs r r' rfl rfl
      rfl
    · rw [hr, hr']
      rfl

/-! ### Reports on statements -/

def siteReports (sites : List LoopSite) : Multiset LoopReport := ↑(sites.flatMap LoopSite.reports)

theorem siteReports_append (sites others : List LoopSite) :
    siteReports (sites ++ others) = siteReports sites + siteReports others := by
  rw [siteReports, List.flatMap_append, ← Multiset.coe_add]
  rfl

theorem siteReports_cons (site : LoopSite) (sites : List LoopSite) :
    siteReports (site :: sites) = ↑site.reports + siteReports sites := by
  rw [siteReports, List.flatMap_cons, ← Multiset.coe_add]
  rfl

section Reported

variable (o)

def StmtReported (scopes : Scopes) (target : Target) (s : TypedStmt) (r : Multiset LoopReport) :
    Prop :=
  ∀ before, r = siteReports (loopsIn o scopes before target s)

def CmdsReported (scopes : Scopes) (target : TypedCmd → Target) (cs : List TypedCmd)
    (r : Multiset LoopReport) : Prop :=
  r = siteReports (loopsInCmds o scopes target cs)

def Reported (scopes : Scopes) (target : Target) (ss : List TypedStmt)
    (r : Multiset LoopReport) : Prop :=
  ∀ before, r = siteReports (loopsInList o scopes before target ss)

end Reported

theorem loopsIn_of_cuts (hs : Segment.cuts s = true) (before : Pred) :
    loopsIn o scopes before target s = [] := by
  cases s <;> simp_all [Segment.cuts, loopsIn]

variable {r r' : Multiset LoopReport} {goal : TypedCmd → Target}

theorem CmdsReported.nil : CmdsReported o scopes goal [] 0 := by
  rw [CmdsReported, loopsInCmds]
  rfl

theorem CmdsReported.cons (hbody : Reported o scopes (goal c) c.body r)
    (hrest : CmdsReported o scopes goal cs r') : CmdsReported o scopes goal (c :: cs) (r + r') := by
  rw [CmdsReported, loopsInCmds, siteReports_append, ← hbody, ← hrest]

theorem Reported.nil : Reported o scopes target [] 0 := by
  intro before
  rw [loopsInList]
  rfl

theorem Reported.cons (hs : StmtReported o scopes (ahead o scopes target ss) s r)
    (hrest : Reported o scopes target ss r') : Reported o scopes target (s :: ss) (r + r') := by
  intro before
  rw [loopsInList, siteReports_append, ← hs, ← hrest]

theorem Reported.cut (hs : Segment.cuts s = true) (h : Reported o scopes target ss r) :
    Reported o scopes target (s :: ss) r := by
  intro before
  rw [loopsInList, loopsIn_of_cuts hs, List.nil_append]
  exact h _

theorem Reported.loop (hs : Segment.predOf? s = some inv)
    (hcs : CmdsReported o scopes (fun c => ⟨inv, ⟨.preservation, loc⟩, some c.guard.text⟩) cs r)
    (hrest : Reported o scopes target ss r') :
    Reported o scopes target (s :: .loop cs loc :: ss)
      (↑(LoopSite.reports ⟨inv.bound, cs, loc⟩) + r + r') := by
  have hinv : asserted s = inv := by rw [asserted, hs, Option.getD_some]
  intro before
  rw [loopsInList, loopsIn_of_cuts (Segment.cuts_of_predOf? hs), List.nil_append, loopsInList,
    loopsIn, hinv, siteReports_append, siteReports_cons, ← hrest, hcs]

/-! ### The recursion -/

theorem ahead_of_predOf? (hs : Segment.predOf? s = some a) :
    ahead o scopes target (s :: ss) = .ofPred a := by
  cases s <;> cases hs <;> rfl

theorem ahead_of_plain (hs : Segment.cuts s = false) :
    ahead o scopes target (s :: ss) = (ahead o scopes target ss).withExpr
      (precondition o scopes (ahead o scopes target ss) s) := by
  cases s <;> first | rfl | cases hs

def Quiet (target : Target) : Prop := target.origin.loopReport? target.label = none

theorem quiet_ahead (h : Quiet target) (ss : List TypedStmt) :
    Quiet (ahead o scopes target ss) := by
  induction ss with
  | nil => exact h
  | cons s ss ih =>
    cases s with
    | assert | invariant => rfl
    | _ => exact ih

section Recursion

variable (o)

def SegmentsAccounted (scopes : Scopes) (target : Target) (pre : Pred)
    (segs : List Segment) : Prop :=
  ∀ ss, Segment.Covers segs ss → Quiet target →
    Accounts Ledger.loopReports (segments o scopes target pre segs)
      fun _ r => Reported o scopes target ss r

def PullBackAccounted (scopes : Scopes) (target : Target) (segs : List Segment) : Prop :=
  ∀ ss, Segment.Covers segs ss → Quiet target →
    Accounts Ledger.loopReports (pullBack o scopes target segs) fun next r =>
      next = ahead o scopes target ss ∧ Reported o scopes target ss r

def BodiesAccounted (scopes : Scopes) (inv : Pred) (loc : Loc) (cs : List TypedCmd) : Prop :=
  Accounts Ledger.loopReports (bodies o scopes inv loc cs) fun _ r =>
    CmdsReported o scopes (fun c => ⟨inv, ⟨.preservation, loc⟩, some c.guard.text⟩) cs r

/-- The target is what has to hold before statements behind the run, which are reported on. -/
def RunAccounted (scopes : Scopes) (target : Target) (ss : List TypedStmt) : Prop :=
  ∀ goal us behind, target = ahead o scopes goal us → Quiet goal →
    (∀ s ∈ ss, Segment.cuts s = false) → Reported o scopes goal us behind →
      Accounts Ledger.loopReports (run o scopes target ss) fun next r =>
        next = ahead o scopes goal (ss ++ us) ∧ Reported o scopes goal (ss ++ us) (r + behind)

def StmtAccounted (scopes : Scopes) (target : Target) (s : TypedStmt) : Prop :=
  Quiet target → Accounts Ledger.loopReports (stmt o scopes target s)
    fun _ r => StmtReported o scopes target s r

def BranchesAccounted (scopes : Scopes) (target : Target) (cs : List TypedCmd) : Prop :=
  Quiet target → Accounts Ledger.loopReports (branches o scopes target cs)
    fun _ r => CmdsReported o scopes (fun _ => target) cs r

end Recursion

theorem segmentsAccounted_assertion (ih : SegmentsAccounted o scopes target a segs) :
    SegmentsAccounted o scopes target pre (.assertion a :: segs) := by
  intro ss hcovers hquiet
  cases hcovers with
  | assertion hs hrest =>
    rw [segments]
    refine (accounts_quiet rfl).bind fun _ r hr => (ih _ hrest hquiet).mono fun _ r' hr' => ?_
    rw [hr, zero_add]
    exact hr'.cut (Segment.cuts_of_predOf? hs)

theorem segmentsAccounted_hole {env : TypeEnv} (ih : PullBackAccounted o scopes target segs) :
    SegmentsAccounted o scopes target pre (.hole env loc :: segs) := by
  intro ss hcovers hquiet
  cases hcovers with
  | hole hrest =>
    rw [segments]
    refine (ih _ hrest hquiet).bind fun next r hr => ?_
    refine (accounts_recordHole _ _ _ _).mono fun _ r' hr' => ?_
    rw [hr', add_zero]
    exact hr.2.cut rfl

theorem segmentsAccounted_pulled (hassertion : ∀ a rest, segs = .assertion a :: rest → False)
    (hhole : ∀ env loc rest, segs = .hole env loc :: rest → False)
    (ih : PullBackAccounted o scopes target segs) :
    SegmentsAccounted o scopes target pre segs := by
  intro ss hcovers hquiet
  rw [segments.eq_3 _ _ _ _ _ hassertion hhole]
  refine (ih ss hcovers hquiet).bind fun next r hr => ?_
  obtain ⟨rfl, hr⟩ := hr
  refine (accounts_quiet (quiet_ahead hquiet ss)).mono fun _ r' hr' => ?_
  rw [hr', add_zero]
  exact hr

theorem pullBackAccounted_run (ihrest : PullBackAccounted o scopes target segs)
    (ihrun : ∀ next, RunAccounted o scopes next ss) :
    PullBackAccounted o scopes target (.run ss :: segs) := by
  intro us hcovers hquiet
  cases hcovers with
  | run hss hrest =>
    rw [pullBack]
    refine (ihrest _ hrest hquiet).bind fun next r hr => ?_
    refine (ihrun next target _ r hr.1 hquiet hss hr.2).mono fun first r' hr' => ?_
    rwa [add_comm]

theorem pullBackAccounted_assertion (ih : SegmentsAccounted o scopes target a segs) :
    PullBackAccounted o scopes target (.assertion a :: segs) := by
  intro ss hcovers hquiet
  cases hcovers with
  | assertion hs hrest =>
    rw [pullBack]
    refine (ih _ hrest hquiet).bind fun _ r hr => .pure ⟨(ahead_of_predOf? hs).symm, ?_⟩
    rw [add_zero]
    exact hr.cut (Segment.cuts_of_predOf? hs)

theorem pullBackAccounted_loop (hdedupe : o.dedupe = false)
    (ihrest : PullBackAccounted o scopes target segs)
    (ihbodies : BodiesAccounted o scopes inv loc cs) :
    PullBackAccounted o scopes target (.loop inv cs loc :: segs) := by
  intro ss hcovers hquiet
  cases hcovers with
  | loop hs hrest =>
    rw [pullBack]
    refine (ihrest _ hrest hquiet).bind fun exit r hr => ihbodies.bind fun _ r' hr' => ?_
    refine (accounts_checkLoop hdedupe inv cs loc exit).bind fun _ r'' hr'' => ?_
    refine .pure ⟨(ahead_of_predOf? hs).symm, ?_⟩
    have hsum : r + (r' + (r'' + 0)) = r'' + r' + r := by
      rw [add_zero, add_comm r, add_comm r']
    rw [hsum, hr'']
    exact .loop hs hr' hr.2

theorem pullBackAccounted_hole {env : TypeEnv} (ih : PullBackAccounted o scopes target segs) :
    PullBackAccounted o scopes target (.hole env loc :: segs) := by
  intro ss hcovers hquiet
  cases hcovers with
  | hole hrest =>
    rw [pullBack]
    refine (ih _ hrest hquiet).bind fun next r hr => ?_
    refine (accounts_recordHole _ _ _ _).bind fun _ r' hr' => .pure ⟨hr.1, ?_⟩
    rw [hr', add_zero, add_zero]
    exact hr.2.cut rfl

theorem bodiesAccounted_cons
    (ihbody : SegmentsAccounted o scopes ⟨inv, ⟨.preservation, loc⟩, some c.guard.text⟩
      (.constant (.conj inv.expr c.guard)) (Segment.ofStmts c.body))
    (ihrest : BodiesAccounted o scopes inv loc cs) :
    BodiesAccounted o scopes inv loc (c :: cs) := by
  unfold BodiesAccounted
  rw [bodies]
  refine (ihbody c.body (Segment.covers_ofStmts _) rfl).bind fun _ r hr => ?_
  exact ihrest.mono fun _ r' hr' => .cons hr hr'

theorem runAccounted_cons (ihrest : RunAccounted o scopes target ss)
    (ihstmt : ∀ next, StmtAccounted o scopes next s) : RunAccounted o scopes target (s :: ss) := by
  intro goal us behind htarget hquiet hss hus
  obtain ⟨hs, hss⟩ := List.forall_mem_cons.1 hss
  rw [run]
  refine (ihrest goal us behind htarget hquiet hss hus).bind fun next r hr => ?_
  obtain ⟨rfl, hr⟩ := hr
  refine (ihstmt _ (quiet_ahead hquiet (ss ++ us))).precondition.bind fun e r' he => .pure ?_
  obtain ⟨rfl, hr'⟩ := he
  refine ⟨(ahead_of_plain hs).symm, ?_⟩
  have hsum : r + (r' + 0) + behind = r' + (r + behind) := by
    rw [add_zero, add_comm r, add_assoc]
  rw [hsum]
  exact .cons hr' hr

theorem stmtAccounted_cond (ih : BranchesAccounted o scopes target cs) :
    StmtAccounted o scopes target (.cond cs loc) := by
  intro hquiet
  rw [stmt]
  refine (ih hquiet).bind fun es r hr => .pure fun before => ?_
  rw [add_zero, loopsIn, hr]

theorem stmtAccounted_block {b : TypedProgram}
    (ih : PullBackAccounted o ((Wp.OpenBlock.ofBlock scopes b target.pred.expr).scope :: scopes)
      target (Segment.ofStmts
        ((Wp.OpenBlock.ofBlock scopes b target.pred.expr).renames.stmts b.stmts))) :
    StmtAccounted o scopes target (.block b loc) := by
  intro hquiet
  rw [stmt]
  refine (ih _ (Segment.covers_ofStmts _) hquiet).bind fun result r hr => .pure fun before => ?_
  rw [add_zero, loopsIn, ← hr.2]

theorem stmtAccounted_simple (hcond : ∀ cs loc, s = .cond cs loc → False)
    (hblock : ∀ b loc, s = .block b loc → False) : StmtAccounted o scopes target s := by
  intro hquiet
  rw [stmt.eq_3 _ _ _ _ hcond hblock]
  refine .ofExcept fun e he before => ?_
  rw [loopsIn.eq_4 _ _ _ _ _ _ hcond hblock]
  · rfl
  -- A loop has no precondition of its own.
  · rintro cs loc rfl
    rw [Wp.stmt] at he
    cases he

theorem branchesAccounted_cons
    (ihbody : PullBackAccounted o scopes target (Segment.ofStmts c.body))
    (ihrest : BranchesAccounted o scopes target cs) :
    BranchesAccounted o scopes target (c :: cs) := by
  intro hquiet
  rw [branches]
  refine (ihbody c.body (Segment.covers_ofStmts _) hquiet).bind fun body r hr => ?_
  refine (ihrest hquiet).bind fun rest r' hr' => .pure ?_
  rw [add_zero]
  exact .cons hr.2 hr'

theorem segments_accounted (hdedupe : o.dedupe = false) (scopes : Scopes) (target : Target)
    (pre : Pred) (segs : List Segment) : SegmentsAccounted o scopes target pre segs := by
  refine segments.induct (SegmentsAccounted o) (PullBackAccounted o) (BodiesAccounted o)
    (RunAccounted o) (StmtAccounted o) (BranchesAccounted o)
    (fun _ _ _ _ _ => segmentsAccounted_assertion)
    (fun _ _ _ _ _ _ => segmentsAccounted_hole)
    (fun _ _ _ _ => segmentsAccounted_pulled)
    ?noSegments
    (fun _ _ _ _ => pullBackAccounted_run)
    (fun _ _ _ _ => pullBackAccounted_assertion)
    (fun _ _ _ _ _ _ => pullBackAccounted_loop hdedupe)
    (fun _ _ _ _ _ => pullBackAccounted_hole)
    ?noBodies
    (fun _ _ _ _ _ => bodiesAccounted_cons)
    ?noStmts
    (fun _ _ _ _ => runAccounted_cons)
    (fun _ _ _ _ => stmtAccounted_cond)
    (fun _ _ _ _ => stmtAccounted_block)
    (fun _ _ _ => stmtAccounted_simple)
    ?noBranches
    (fun _ _ _ _ => branchesAccounted_cons)
    scopes target pre segs
  case noSegments =>
    intro scopes target ss hcovers hquiet
    cases hcovers
    rw [pullBack]
    exact .pure ⟨rfl, .nil⟩
  case noBodies =>
    intro scopes inv loc
    unfold BodiesAccounted
    rw [bodies]
    exact .pure .nil
  case noStmts =>
    intro scopes target goal us behind htarget hquiet hss hus
    rw [run]
    exact .pure ⟨htarget, by rwa [zero_add]⟩
  case noBranches =>
    intro scopes target hquiet
    rw [branches]
    exact .pure .nil

end Structure

/-! ## Programs -/

theorem TypedProgram.reports_of_verify {p : TypedProgram} {o : Options} {out : Output}
    (hdedupe : o.dedupe = false) (h : p.verify o = .ok out) :
    out.loopReports.Perm
      ((Structure.loopsInList o [NameSet.ofList (p.boundNames.map (·.text))]
        (.constant (.ofBool true)) (.ofPred (Structure.assertionOf p.stmts.getLast?))
        p.stmts).flatMap LoopSite.reports) := by
  obtain ⟨l, hl, rfl⟩ := ledger_of_verify h
  have hquiet : Structure.Quiet (.ofPred (Structure.assertionOf p.stmts.getLast?)) := rfl
  obtain ⟨r, hr, hadd⟩ := Structure.segments_accounted hdedupe _ _ _ _ p.stmts
    (Segment.covers_ofStmts _) hquiet _ _ _ hl
  have hreports := (l.coe_loopReports_output.trans hadd).trans (zero_add r)
  rwa [hr (.constant (.ofBool true)), Structure.siteReports, Multiset.coe_eq_coe] at hreports

namespace RenamedGuard

def opts : Options := ⟨false, 16, "bnd", "v"⟩

/-- One block counts `t` down, and another one reads a `t` that it has not assigned. -/
def source : Program :=
  ⟨[], [.ofVars ["x"] .int], [],
    [.block ⟨[], [.ofVars ["t"] .int], [],
        [.ofInvariant (.compare (.ofVar "t") .gte (.ofNum 0)) (some (.ofVar "t")),
          .loop [.ofParts (.compare (.ofVar "t") .gt (.ofNum 0))
            [.ofAssign ["t"] [.binary .sub (.ofVar "t") (.ofNum 1)]]] .none], .none⟩ .none,
      .block ⟨[], [.ofVars ["t"] .int], [], [.ofAssign ["x"] [.ofVar "t"]], .none⟩ .none,
      .ofAssert (.compare (.ofVar "x") .eq (.ofNum 0))], .none⟩

def var (x : String) : TypedExpr := .ofVar (.bare x) .int

def compared (x : String) (op : ChainOp) : TypedExpr := .compare (var x) op (.ofNum 0)

def declared (x : String) : TypedDeclaration := ⟨.var, [.bare x], .int, none, .none⟩

def cmd (x : String) : TypedCmd :=
  ⟨compared x .gt, [.assign [.bare x] [.binary .sub (var x) (.ofNum 1)] .none], .none⟩

def counting (x : String) : List TypedStmt :=
  [.invariant (compared x .gte) (some (var x)) .none, .loop [cmd x] .none]

def block (stmts : List TypedStmt) : TypedProgram := ⟨[], [declared "t"], [], stmts, .none⟩

def reading : List TypedStmt := [.assign [.bare "x"] [var "t"] .none]

def typed : TypedProgram :=
  ⟨[], [declared "x"], [],
    [.block (block (counting "t")) .none, .block (block reading) .none,
      .assert (compared "x" .eq) .none], .none⟩

theorem elaborate_source : source.elaborate = .ok typed := by cbv

def scope : NameSet := .ofList ["x"]

end RenamedGuard

end GuardedCommands
