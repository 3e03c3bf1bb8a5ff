import GuardedCommands.Proofs.Basic
import GuardedCommands.Verification.Verifier

/-!
# Obligation generation under two options

Options say how new names begin and how obligations are recorded, and nothing else
depends on them.  If new names begin alike, a program is therefore worked through
in the same way under both options, step by step, and it fails in the same place.
A relation between two ledgers that holds at the beginning, and that every single
entry keeps, holds at the end.
-/

namespace GuardedCommands

/-- Two computations have the same result, and they keep ledgers related. -/
def Lockstep (R : Ledger → Ledger → Prop) {α : Type} (m m' : VerificationM α) : Prop :=
  ∀ l l', R l l' → (∃ a k k', m l = .ok a k ∧ m' l' = .ok a k' ∧ R k k') ∨
    ∃ e k k', m l = .error e k ∧ m' l' = .error e k' ∧ R k k'

namespace Lockstep

variable {R : Ledger → Ledger → Prop} {α β : Type}

theorem pure (a : α) : Lockstep R (Pure.pure a) (Pure.pure a) :=
  fun l l' h => .inl ⟨a, l, l', rfl, rfl, h⟩

theorem bind {m m' : VerificationM α} {f f' : α → VerificationM β} (hm : Lockstep R m m')
    (hf : ∀ a, Lockstep R (f a) (f' a)) : Lockstep R (m >>= f) (m' >>= f') := by
  intro l l' h
  rcases hm l l' h with ⟨a, k, k', hk, hk', hR⟩ | ⟨e, k, k', hk, hk', hR⟩
  · have hl : (m >>= f) l = f a k := by simp [Bind.bind, EStateM.bind, hk]
    have hl' : (m' >>= f') l' = f' a k' := by simp [Bind.bind, EStateM.bind, hk']
    rw [hl, hl']
    exact hf a k k' hR
  · refine .inr ⟨e, k, k', ?_, ?_, hR⟩
    · simp [Bind.bind, EStateM.bind, hk]
    · simp [Bind.bind, EStateM.bind, hk']

theorem ofExcept (x : Except VerificationError α) :
    Lockstep R (MonadExcept.ofExcept x) (MonadExcept.ofExcept x) := by
  intro l l' h
  cases x with
  | ok a => exact .inl ⟨a, l, l', rfl, rfl, h⟩
  | error e => exact .inr ⟨e, l, l', rfl, rfl, h⟩

theorem modifies {f f' : Ledger → Ledger} (h : ∀ l l', R l l' → R (f l) (f' l')) :
    Lockstep R (modify f) (modify f') :=
  fun l l' hR => .inl ⟨(), f l, f' l', rfl, rfl, h l l' hR⟩

theorem forM {γ : Type} {f f' : γ → VerificationM Unit} (h : ∀ c, Lockstep R (f c) (f' c))
    (cs : List γ) : Lockstep R (cs.forM f) (cs.forM f') := by
  induction cs with
  | nil => exact pure ()
  | cons c cs ih => exact (h c).bind fun _ => ih

end Lockstep

structure Options.Related (o o' : Options) (R : Ledger → Ledger → Prop) : Prop where
  boundStem : o.boundStem = o'.boundStem
  heapStem : o.heapStem = o'.heapStem
  obligate : ∀ pre post origin label l l', R l l' →
    R (l.obligate o pre post origin label) (l'.obligate o' pre post origin label)
  recordHole : ∀ pre post env loc l l', R l l' →
    R (l.recordHole pre post env loc) (l'.recordHole pre post env loc)
  warn : ∀ w l l', R l l' → R (l.warn w) (l'.warn w)

namespace Wp

theorem list_congr {o o' : Options} (h : o.heapStem = o'.heapStem) (scopes : Scopes)
    (post : TypedExpr) (ss : List TypedStmt) :
    list o scopes post ss = list o' scopes post ss := by
  refine list.induct (fun scopes post ss => list o scopes post ss = list o' scopes post ss)
    (fun scopes post s => stmt o scopes post s = stmt o' scopes post s)
    (fun scopes post cs => cmds o scopes post cs = cmds o' scopes post cs)
    ?nil ?cons ?skip ?assert ?invariant ?hole ?abort ?assign ?arrayAssign ?loop ?cond ?alloc
    ?lookup ?mutate ?dispose ?block ?noCmds ?moreCmds scopes post ss
  case cons =>
    intro scopes post s ss ihss ihs
    rw [list, list, ihss]
    simp only [ihs]
  case cond =>
    intro scopes post cs loc ih
    rw [stmt, stmt, ih]
  case block =>
    intro scopes post b loc opened ih
    rw [stmt, stmt]
    exact ih
  case moreCmds =>
    intro scopes post c cs ihbody ihrest
    rw [cmds, cmds, ihbody, ihrest]
  case alloc | lookup | mutate | dispose =>
    intros
    simp only [stmt, alloc, lookup, mutate, dispose, ownedCell, heapVar, h]
  case nil =>
    intro scopes post
    rw [list, list]
  case noCmds =>
    intro scopes post
    rw [cmds, cmds]
  all_goals
    intros
    rw [stmt, stmt]

theorem stmt_congr {o o' : Options} (h : o.heapStem = o'.heapStem) (scopes : Scopes)
    (post : TypedExpr) (s : TypedStmt) : stmt o scopes post s = stmt o' scopes post s := by
  have hsingle : ∀ o, list o scopes post [s] = stmt o scopes post s := by
    intro o
    rw [list, list]
    rfl
  rw [← hsingle, ← hsingle, list_congr h]

end Wp

namespace Structure

variable {o o' : Options} {R : Ledger → Ledger → Prop}

theorem lockstep_obligate (ho : o.Related o' R) (pre post : Pred) (origin : Origin)
    (label : Option String) :
    Lockstep R (obligate o pre post origin label) (obligate o' pre post origin label) :=
  .modifies fun l l' => ho.obligate pre post origin label l l'

theorem lockstep_checkDecrease (ho : o.Related o' R) (scopes : Scopes) (inv bound : TypedExpr)
    (loc : Loc) (c : TypedCmd) :
    Lockstep R (checkDecrease o scopes inv bound loc c)
      (checkDecrease o' scopes inv bound loc c) := by
  unfold checkDecrease
  split
  · exact .modifies fun l l' => ho.warn _ l l'
  · rw [ho.boundStem]
    simp only [Wp.list_congr ho.heapStem]
    exact (Lockstep.ofExcept _).bind fun post => lockstep_obligate ho _ _ _ _

theorem lockstep_checkLoop (ho : o.Related o' R) (scopes : Scopes) (inv : Pred)
    (cmds : List TypedCmd) (loc : Loc) (exit : Target) :
    Lockstep R (checkLoop o scopes inv cmds loc exit) (checkLoop o' scopes inv cmds loc exit) := by
  unfold checkLoop
  refine (lockstep_obligate ho _ _ _ _).bind fun _ => ?_
  split
  · exact .modifies fun l l' => ho.warn _ l l'
  · exact (lockstep_obligate ho _ _ _ _).bind fun _ =>
      .forM (lockstep_checkDecrease ho scopes inv.expr _ loc) cmds

theorem lockstep (ho : o.Related o' R) :
    (∀ scopes target pre segs,
      Lockstep R (segments o scopes target pre segs) (segments o' scopes target pre segs)) ∧
    ∀ scopes target s, Lockstep R (stmt o scopes target s) (stmt o' scopes target s) := by
  refine And.imp_right (fun h => h.2.2.2.1) (segments.mutual_induct
    (fun scopes target pre segs =>
      Lockstep R (segments o scopes target pre segs) (segments o' scopes target pre segs))
    (fun scopes target segs =>
      Lockstep R (pullBack o scopes target segs) (pullBack o' scopes target segs))
    (fun scopes inv loc cs =>
      Lockstep R (bodies o scopes inv loc cs) (bodies o' scopes inv loc cs))
    (fun scopes target ss => Lockstep R (run o scopes target ss) (run o' scopes target ss))
    (fun scopes target s => Lockstep R (stmt o scopes target s) (stmt o' scopes target s))
    (fun scopes target cs =>
      Lockstep R (branches o scopes target cs) (branches o' scopes target cs))
    ?assertion ?hole ?pulled ?noSegments ?pullRun ?pullAssertion ?pullLoop ?pullHole ?noBodies
    ?moreBodies ?noStmts ?moreStmts ?cond ?block ?simple ?noBranches ?moreBranches)
  case assertion =>
    intro scopes target pre a rest ih
    rw [segments, segments]
    exact (lockstep_obligate ho _ _ _ _).bind fun _ => ih
  case hole =>
    intro scopes target pre env loc rest ih
    rw [segments, segments]
    exact ih.bind fun next => .modifies fun l l' => ho.recordHole _ _ _ _ l l'
  case pulled =>
    intro scopes target pre segs hassertion hhole ih
    rw [segments.eq_3 _ _ _ _ _ hassertion hhole, segments.eq_3 _ _ _ _ _ hassertion hhole]
    exact ih.bind fun next => lockstep_obligate ho _ _ _ _
  case noSegments =>
    intro scopes target
    rw [pullBack, pullBack]
    exact .pure _
  case pullRun =>
    intro scopes target ss rest ih ihrun
    rw [pullBack, pullBack]
    exact ih.bind ihrun
  case pullAssertion =>
    intro scopes target a rest ih
    rw [pullBack, pullBack]
    exact ih.bind fun _ => .pure _
  case pullLoop =>
    intro scopes target inv cmds loc rest ih ihbodies
    rw [pullBack, pullBack]
    exact ih.bind fun exit => ihbodies.bind fun _ =>
      (lockstep_checkLoop ho scopes inv cmds loc exit).bind fun _ => .pure _
  case pullHole =>
    intro scopes target env loc rest ih
    rw [pullBack, pullBack]
    exact ih.bind fun next =>
      (Lockstep.modifies fun l l' => ho.recordHole _ _ _ _ l l').bind fun _ => .pure _
  case noBodies =>
    intro scopes inv loc
    rw [bodies, bodies]
    exact .pure _
  case moreBodies =>
    intro scopes inv loc c cs target ih ihrest
    rw [bodies, bodies]
    exact ih.bind fun _ => ihrest
  case noStmts =>
    intro scopes target
    rw [run, run]
    exact .pure _
  case moreStmts =>
    intro scopes target s ss ih ihstmt
    rw [run, run]
    exact ih.bind fun next => (ihstmt next).bind fun _ => .pure _
  case cond =>
    intro scopes target cs loc ih
    rw [stmt, stmt]
    exact ih.bind fun _ => .pure _
  case block =>
    intro scopes target b loc opened ih
    rw [stmt, stmt]
    exact ih.bind fun _ => .pure _
  case simple =>
    intro scopes target s hcond hblock
    rw [stmt.eq_3 _ _ _ _ hcond hblock, stmt.eq_3 _ _ _ _ hcond hblock,
      Wp.stmt_congr ho.heapStem]
    exact .ofExcept _
  case noBranches =>
    intro scopes target
    rw [branches, branches]
    exact .pure _
  case moreBranches =>
    intro scopes target c cs ih ihrest
    rw [branches, branches]
    exact ih.bind fun _ => ihrest.bind fun _ => .pure _

/-- The precondition that is worked out for a statement, if there is one. -/
def precondition (o : Options) (scopes : Scopes) (target : Target) (s : TypedStmt) : TypedExpr :=
  match stmt o scopes target s .empty with
  | .ok e _ => e
  | .error .. => target.pred.expr

/-- The precondition does not depend on what has been recorded before. -/
theorem precondition_of_ok {scopes : Scopes} {target : Target} {s : TypedStmt} {e : TypedExpr}
    {l l' : Ledger} (h : stmt o scopes target s l = .ok e l') :
    precondition o scopes target s = e := by
  have ho : o.Related o fun _ _ => True := by constructor <;> simp
  rcases (lockstep ho).2 scopes target s l .empty trivial with
    ⟨d, k, k', hk, hk', -⟩ | ⟨d, k, k', hk, -, -⟩
  · rw [h] at hk
    cases hk
    rw [precondition, hk']
  · rw [h] at hk
    cases hk

end Structure

namespace TypedProgram

variable {o o' : Options} {p : TypedProgram} {l : Ledger}

theorem verify_of_ok (h : Structure.program o [] p .empty = .ok () l) :
    p.verify o = .ok l.output := by
  simp only [verify, Verifier.program, Verifier.start, h]
  rfl

theorem ledger_of_verify {out : Output} (h : p.verify o = .ok out) :
    ∃ l, Structure.program o [] p .empty = .ok () l ∧ out = l.output := by
  unfold verify Verifier.program Verifier.start at h
  dsimp only at h
  split at h
  · next l hl =>
    cases h
    exact ⟨l, hl, rfl⟩
  · cases h

theorem exists_related {R : Ledger → Ledger → Prop} (ho : o.Related o' R)
    (hempty : R .empty .empty) {out : Output} (h : p.verify o' = .ok out) :
    ∃ l l', p.verify o = .ok l.output ∧ out = l'.output ∧ R l l' := by
  have hlockstep : Lockstep R (Structure.program o [] p) (Structure.program o' [] p) :=
    (Structure.lockstep ho).1 _ _ _ _
  obtain ⟨l'', hl'', rfl⟩ := ledger_of_verify h
  rcases hlockstep .empty .empty hempty with ⟨a, l, l', hl, hl', hR⟩ | ⟨e, l, l', -, hl', -⟩
  · rw [hl'] at hl''
    cases hl''
    exact ⟨l, _, verify_of_ok hl, rfl, hR⟩
  · rw [hl'] at hl''
    cases hl''

end TypedProgram

end GuardedCommands
