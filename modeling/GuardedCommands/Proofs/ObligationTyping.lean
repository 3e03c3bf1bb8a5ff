import GuardedCommands.Proofs.Erasure
import GuardedCommands.Proofs.ExactSignatures
import GuardedCommands.Proofs.LoopAccounting
import GuardedCommands.Proofs.TypedPreconditions

/-!
# Obligations are well typed

In a program without blocks both sides of every obligation are propositions, with each
name at a type that the program gives it.  The obligation that a bound gets smaller has
one more name, the constant for the old bound.  It is an integer, and no name of the
program.
-/

namespace GuardedCommands

/-! ## Statements without blocks -/

namespace Stmt

theorem listHasBlock_erase (ss : List TypedStmt) :
    listHasBlock (eraseList ss) = listHasBlock ss := by
  induction ss using nested_induction (S := fun s => s.erase.hasBlock = s.hasBlock)
      (C := fun cs => cmdsHaveBlock (eraseCmds cs) = cmdsHaveBlock cs) with
  | simple s => cases s <;> simp_all [isSimple, erase, hasBlock]
  | _ => simp_all only [erase, eraseCmds, eraseList, hasBlock, cmdsHaveBlock, listHasBlock]

structure Simple (Γ : Scope) (ss : List TypedStmt) : Prop where
  typed : ListTyped Γ ss
  noBlock : listHasBlock ss = false

variable {Γ : Scope} {s : TypedStmt} {ss : List TypedStmt} {cs : List TypedCmd}

theorem simple_cons : Simple Γ (s :: ss) ↔ (s.WellTyped Γ ∧ s.hasBlock = false) ∧ Simple Γ ss := by
  constructor
  · rintro ⟨htyped, hblock⟩
    rw [listHasBlock, Bool.or_eq_false_iff] at hblock
    cases htyped with
    | cons h hrest => exact ⟨⟨h, hblock.1⟩, hrest, hblock.2⟩
  · rintro ⟨⟨h, hblock⟩, hrest, hblocks⟩
    exact ⟨.cons h hrest, by rw [listHasBlock, hblock, hblocks, Bool.or_false]⟩

theorem simple_bodies (h : CmdsTyped Γ cs) (hblock : cmdsHaveBlock cs = false) :
    ∀ c ∈ cs, c.guard.HasTy Γ .bool ∧ Simple Γ c.body := by
  induction cs with
  | nil => simp
  | cons c cs ih =>
    rw [cmdsHaveBlock, Bool.or_eq_false_iff] at hblock
    cases h with
    | cons hguard hbody hcmds =>
      exact List.forall_mem_cons.2 ⟨⟨hguard, hbody, hblock.1⟩, ih hcmds hblock.2⟩

end Stmt

/-! ## Obligations -/

structure Obligation.WellTyped (Γ : Scope) (ob : Obligation) : Prop where
  pre : ob.pre.expr.HasTy Γ .bool
  post : ob.post.expr.HasTy Γ .bool

/-- An obligation in which a constant keeps the value of a bound: it is an integer, and taken
by nothing in `scopes`. -/
structure Obligation.Snapshots (Γ : Scope) (scopes : Scopes) (snapshot : String)
    (ob : Obligation) : Prop where
  compared : ∃ inv guard bound, ob.pre.expr = .conjunction
    [inv, guard, .compare bound .eq (.ofConst (.bare snapshot) .int)] ∧
    inv.HasTy Γ .bool ∧ guard.HasTy Γ .bool ∧ bound.HasTy Γ .int
  fresh : Fresh.taken scopes snapshot = false
  typed : ob.WellTyped (Γ.bind (.bare snapshot) .int)

structure Obligation.Proper (Γ : Scope) (scopes : Scopes) (ob : Obligation) : Prop where
  plain : ob.origin.reason ≠ .boundDecrease → ob.WellTyped Γ
  decrease : ob.origin.reason = .boundDecrease → ∃ snapshot, ob.Snapshots Γ scopes snapshot

structure Pred.WellTyped (Γ : Scope) (p : Pred) : Prop where
  expr : p.expr.HasTy Γ .bool
  bound : ∀ b ∈ p.bound, b.HasTy Γ .int

structure Target.WellTyped (Γ : Scope) (t : Target) : Prop where
  pred : t.pred.expr.HasTy Γ .bool
  reason : t.origin.reason ≠ .boundDecrease

variable {Γ : Scope}

theorem Target.wellTyped_ofPred {p : Pred} (h : p.expr.HasTy Γ .bool) :
    (Target.ofPred p).WellTyped Γ :=
  ⟨h, by simp [ofPred]⟩

/-- A scope for the statements of a program while the names in `scopes` are taken. -/
structure Scope.Underlies (Γ : Scope) (scopes : Scopes) : Prop where
  assigned : ∀ {x : Name} {t u : Ty}, Γ.Assignable x t → Γ.Gives x.text u → u = t
  taken : ∀ {x : String} {t : Ty}, Γ.Gives x t → Fresh.taken scopes x = true

namespace Scope.Underlies

variable {Γ : Scope} {scopes : Scopes}

theorem widens (h : Γ.Underlies scopes) : Γ.Widens Γ := ⟨fun _ _ ht => ht, h.assigned⟩

theorem widens_bind (h : Γ.Underlies scopes) {k : String} (hk : Fresh.taken scopes k = false) :
    Γ.Widens (Γ.bind (.bare k) .int) := by
  have hne : ∀ {x t}, Γ.Gives x t → x ≠ (Name.bare k).text := by
    rintro x t ht rfl
    exact absurd hk (by simp [h.taken ht])
  refine ⟨fun x t ht => gives_bind.2 ?_, fun hx hu => h.assigned hx ?_⟩
  · rwa [if_neg (hne ht)]
  · rwa [gives_bind, if_neg (hne hx.gives)] at hu

end Scope.Underlies

/-! ## Segments -/

namespace Segment

def WellTyped (Γ : Scope) : Segment → Prop
  | .run ss => Stmt.Simple Γ ss
  | .assertion p => p.WellTyped Γ
  | .loop inv cmds _ => inv.WellTyped Γ ∧ ∀ c ∈ cmds, c.guard.HasTy Γ .bool ∧ Stmt.Simple Γ c.body
  | .hole .. => True

variable {Γ : Scope} {s : TypedStmt} {ss : List TypedStmt} {segs : List Segment}

theorem wellTyped_consRun (hs : s.WellTyped Γ ∧ s.hasBlock = false)
    (h : ∀ seg ∈ segs, seg.WellTyped Γ) : ∀ seg ∈ consRun s segs, seg.WellTyped Γ := by
  unfold consRun
  split
  · obtain ⟨hrun, hsegs⟩ := List.forall_mem_cons.1 h
    exact List.forall_mem_cons.2 ⟨Stmt.simple_cons.2 ⟨hs, hrun⟩, hsegs⟩
  · exact List.forall_mem_cons.2 ⟨Stmt.simple_cons.2 ⟨hs, .nil, rfl⟩, h⟩

theorem wellTyped_bodies {cmds : List TypedCmd} {loc : Loc}
    (h : (Stmt.loop cmds loc : TypedStmt).WellTyped Γ ∧
      (Stmt.loop cmds loc : TypedStmt).hasBlock = false) :
    ∀ c ∈ cmds, c.guard.HasTy Γ .bool ∧ Stmt.Simple Γ c.body := by
  obtain ⟨htyped, hblock⟩ := h
  rw [Stmt.hasBlock] at hblock
  cases htyped with
  | loop h => exact Stmt.simple_bodies h hblock

variable {e : TypedExpr}

theorem wellTyped_assert {loc : Loc} (h : (Stmt.assert e loc : TypedStmt).WellTyped Γ) :
    (Pred.assertion e loc).WellTyped Γ := by
  cases h with
  | assert h => exact ⟨h, by simp [Pred.bound]⟩

theorem wellTyped_invariant {bound : Option TypedExpr} {loc : Loc}
    (h : (Stmt.invariant e bound loc : TypedStmt).WellTyped Γ) :
    (Pred.invariant e bound loc).WellTyped Γ := by
  cases h with
  | invariant h hbound => exact ⟨h, hbound⟩

theorem wellTyped_ofStmts (h : Stmt.Simple Γ ss) : ∀ seg ∈ ofStmts ss, seg.WellTyped Γ := by
  fun_induction ofStmts ss with
  | case1 => simp
  | case2 e loc cmds l rest ih =>
    obtain ⟨hassert, h⟩ := Stmt.simple_cons.1 h
    obtain ⟨hloop, h⟩ := Stmt.simple_cons.1 h
    exact List.forall_mem_cons.2
      ⟨⟨wellTyped_assert hassert.1, wellTyped_bodies hloop⟩, ih h⟩
  | case3 e loc rest _ ih =>
    obtain ⟨hassert, h⟩ := Stmt.simple_cons.1 h
    exact List.forall_mem_cons.2 ⟨wellTyped_assert hassert.1, ih h⟩
  | case4 inv bound loc cmds l rest ih =>
    obtain ⟨hinv, h⟩ := Stmt.simple_cons.1 h
    obtain ⟨hloop, h⟩ := Stmt.simple_cons.1 h
    exact List.forall_mem_cons.2
      ⟨⟨wellTyped_invariant hinv.1, wellTyped_bodies hloop⟩, ih h⟩
  | case5 inv bound loc rest _ ih =>
    obtain ⟨hinv, h⟩ := Stmt.simple_cons.1 h
    exact List.forall_mem_cons.2 ⟨wellTyped_invariant hinv.1, ih h⟩
  | case6 text env loc rest ih =>
    exact List.forall_mem_cons.2 ⟨trivial, ih (Stmt.simple_cons.1 h).2⟩
  | case7 s rest _ _ _ _ _ ih =>
    obtain ⟨hs, h⟩ := Stmt.simple_cons.1 h
    exact wellTyped_consRun hs (ih h)

end Segment

/-! ## Recording obligations -/

namespace Structure

open TypedExpr

variable {Γ : Scope} {o : Options} {scopes : Scopes} {target : Target} {pre inv a : Pred}
  {segs : List Segment} {ss : List TypedStmt} {s : TypedStmt} {cs : List TypedCmd} {c : TypedCmd}
  {loc : Loc}

/-- A computation that succeeds records proper obligations only, and the result is as wanted. -/
def Obliges (Γ : Scope) (scopes : Scopes) {α : Type} (m : VerificationM α) (Q : α → Prop) : Prop :=
  Accounts (fun l => (l.obligations : Multiset Obligation)) m fun a obligations =>
    Q a ∧ ∀ ob ∈ obligations, ob.Proper Γ scopes

namespace Obliges

variable {α β : Type} {Q : α → Prop}

theorem bind {m : VerificationM α} {f : α → VerificationM β} {Q' : β → Prop}
    (hm : Obliges Γ scopes m Q) (hf : ∀ a, Q a → Obliges Γ scopes (f a) Q') :
    Obliges Γ scopes (m >>= f) Q' := by
  refine Accounts.bind hm fun a r hr => (hf a hr.1).mono fun b r' hr' => ⟨hr'.1, fun ob hob => ?_⟩
  rcases Multiset.mem_add.1 hob with hob | hob
  · exact hr.2 ob hob
  · exact hr'.2 ob hob

theorem pure {a : α} (h : Q a) : Obliges Γ scopes (Pure.pure a) Q :=
  Accounts.pure ⟨h, by simp⟩

theorem ofExcept {x : Except VerificationError α} (h : ∀ a, x = .ok a → Q a) :
    Obliges Γ scopes (MonadExcept.ofExcept x) Q :=
  Accounts.ofExcept fun a ha => ⟨h a ha, by simp⟩

theorem unchanged {f : Ledger → Ledger} (h : ∀ l, (f l).obligations = l.obligations) :
    Obliges Γ scopes (modify f) fun _ => True :=
  (Accounts.unchanged fun l => by simp only [h]).mono fun _ _ hr => ⟨trivial, by simp [hr]⟩

theorem forM {γ : Type} {f : γ → VerificationM Unit} {cs : List γ}
    (h : ∀ c ∈ cs, Obliges Γ scopes (f c) fun _ => True) :
    Obliges Γ scopes (cs.forM f) fun _ => True := by
  induction cs with
  | nil => exact pure trivial
  | cons c cs ih =>
    obtain ⟨hc, hcs⟩ := List.forall_mem_cons.1 h
    exact hc.bind fun _ _ => ih hcs

end Obliges

variable {post : Pred} {origin : Origin} {label : Option String}

theorem obliges_obligate (h : ∀ id, Obligation.Proper Γ scopes ⟨pre, post, id, label, origin⟩) :
    Obliges Γ scopes (obligate o pre post origin label) fun _ => True := by
  refine Accounts.modifies fun l => ?_
  unfold Ledger.obligate
  split
  · exact ⟨0, ⟨trivial, by simp⟩, (add_zero _).symm⟩
  · dsimp only
    split
    · exact ⟨0, ⟨trivial, by simp⟩, (add_zero _).symm⟩
    · exact ⟨{_}, ⟨trivial, by simpa using h _⟩, (Multiset.coe_add _ [_]).symm⟩

theorem obliges_plain (hpre : pre.expr.HasTy Γ .bool) (hpost : post.expr.HasTy Γ .bool)
    (horigin : origin.reason ≠ .boundDecrease) :
    Obliges Γ scopes (obligate o pre post origin label) fun _ => True :=
  obliges_obligate fun _ => ⟨fun _ => ⟨hpre, hpost⟩, fun h => absurd h horigin⟩

theorem obliges_warn (w : Warning) : Obliges Γ scopes (warn w) fun _ => True :=
  .unchanged fun _ => rfl

theorem obliges_hole {env : TypeEnv} :
    Obliges Γ scopes (recordHole pre post env loc) fun _ => True :=
  .unchanged fun _ => rfl

theorem obliges_checkDecrease (hΓ : Γ.Underlies scopes) {inv bound : TypedExpr}
    (hinv : inv.HasTy Γ .bool) (hbound : bound.HasTy Γ .int) (hguard : c.guard.HasTy Γ .bool)
    (hbody : Stmt.Simple Γ c.body) :
    Obliges Γ scopes (checkDecrease o scopes inv bound loc c) fun _ => True := by
  unfold checkDecrease
  split
  · exact obliges_warn _
  · let old := ofConst (.bare (snapshotOf o scopes inv bound c)) .int
    let Δ := Γ.bind (.bare (snapshotOf o scopes inv bound c)) .int
    have hΔ : Γ.Widens Δ := hΓ.widens_bind snapshotOf_not_taken
    have hold : old.HasTy Δ .int :=
      ⟨.const (Scope.gives_bind.2 (by rw [if_pos rfl])), Setoid.refl _⟩
    have hless : (compare bound .lt old).HasTy Δ .bool :=
      hasTy_compare (fun t ht => ht) (hbound.widen hΔ) hold
    have hpre : (conjunction [inv, c.guard, compare bound .eq old]).HasTy Δ .bool := by
      refine hasTy_conjunction fun e he => ?_
      simp only [List.mem_cons, List.not_mem_nil, or_false] at he
      rcases he with rfl | rfl | rfl
      · exact hinv.widen hΔ
      · exact hguard.widen hΔ
      · exact hasTy_compare (fun t ht => ⟨.int, ht⟩) (hbound.widen hΔ) hold
    refine Obliges.bind (.ofExcept fun post hpost =>
      Wp.hasTy_list hΔ hless hbody.typed hbody.noBlock hpost) fun post hpost => ?_
    refine obliges_obligate fun id => ⟨fun h => absurd rfl h, fun _ => ⟨_, ?_, ?_, hpre, hpost⟩⟩
    · exact ⟨inv, c.guard, bound, rfl, hinv, hguard, hbound⟩
    · exact snapshotOf_not_taken

theorem obliges_checkLoop (hΓ : Γ.Underlies scopes) (hinv : inv.WellTyped Γ)
    (hcs : ∀ c ∈ cs, c.guard.HasTy Γ .bool ∧ Stmt.Simple Γ c.body) {exit : Target}
    (hexit : exit.WellTyped Γ) :
    Obliges Γ scopes (checkLoop o scopes inv cs loc exit) fun _ => True := by
  have hguards : (disjunction (cs.map (·.guard))).HasTy Γ .bool :=
    hasTy_disjunction (List.forall_mem_map.2 fun c hc => (hcs c hc).1)
  have hdone := hasTy_binary (o := .conj) rfl hinv.expr (hasTy_neg hguards)
  have hrunning := hasTy_binary (o := .conj) rfl hinv.expr hguards
  unfold checkLoop
  refine (obliges_plain hdone hexit.pred (by simp)).bind fun _ _ => ?_
  split
  · exact obliges_warn _
  · next bound hbound =>
    have hbound := hinv.bound bound hbound
    have hpositive := hasTy_compare (c := .gte) (fun t ht => ht) hbound
      (hasTy_ofLit (.num 0))
    refine (obliges_plain hrunning hpositive (by simp)).bind fun _ _ => .forM fun c hc => ?_
    exact obliges_checkDecrease hΓ hinv.expr hbound (hcs c hc).1 (hcs c hc).2

section Recursion

variable (Γ o)

def SegmentsTyped (scopes : Scopes) (target : Target) (pre : Pred) (segs : List Segment) : Prop :=
  Γ.Underlies scopes → (∀ seg ∈ segs, seg.WellTyped Γ) → pre.expr.HasTy Γ .bool →
    target.WellTyped Γ → Obliges Γ scopes (segments o scopes target pre segs) fun _ => True

def PullBackTyped (scopes : Scopes) (target : Target) (segs : List Segment) : Prop :=
  Γ.Underlies scopes → (∀ seg ∈ segs, seg.WellTyped Γ) → target.WellTyped Γ →
    Obliges Γ scopes (pullBack o scopes target segs) fun next => next.WellTyped Γ

def BodiesTyped (scopes : Scopes) (inv : Pred) (loc : Loc) (cs : List TypedCmd) : Prop :=
  Γ.Underlies scopes → inv.expr.HasTy Γ .bool →
    (∀ c ∈ cs, c.guard.HasTy Γ .bool ∧ Stmt.Simple Γ c.body) →
      Obliges Γ scopes (bodies o scopes inv loc cs) fun _ => True

def RunTyped (scopes : Scopes) (target : Target) (ss : List TypedStmt) : Prop :=
  Γ.Underlies scopes → Stmt.Simple Γ ss → target.WellTyped Γ →
    Obliges Γ scopes (run o scopes target ss) fun next => next.WellTyped Γ

def StmtTyped (scopes : Scopes) (target : Target) (s : TypedStmt) : Prop :=
  Γ.Underlies scopes → s.WellTyped Γ ∧ s.hasBlock = false → target.WellTyped Γ →
    Obliges Γ scopes (stmt o scopes target s) fun e => e.HasTy Γ .bool

def BranchesTyped (scopes : Scopes) (target : Target) (cs : List TypedCmd) : Prop :=
  Γ.Underlies scopes → (∀ c ∈ cs, c.guard.HasTy Γ .bool ∧ Stmt.Simple Γ c.body) →
    target.WellTyped Γ →
      Obliges Γ scopes (branches o scopes target cs) fun es => ∀ e ∈ es, e.HasTy Γ .bool

end Recursion

section Cases

theorem segmentsTyped_assertion (ih : SegmentsTyped Γ o scopes target a segs) :
    SegmentsTyped Γ o scopes target pre (.assertion a :: segs) := by
  intro hΓ hsegs hpre htarget
  obtain ⟨ha, hsegs⟩ := List.forall_mem_cons.1 hsegs
  rw [segments]
  exact (obliges_plain hpre ha.expr (by simp)).bind fun _ _ => ih hΓ hsegs ha.expr htarget

theorem segmentsTyped_hole {env : TypeEnv} (ih : PullBackTyped Γ o scopes target segs) :
    SegmentsTyped Γ o scopes target pre (.hole env loc :: segs) := by
  intro hΓ hsegs hpre htarget
  rw [segments]
  exact (ih hΓ (List.forall_mem_cons.1 hsegs).2 htarget).bind fun _ _ => obliges_hole

theorem segmentsTyped_pulled (hassertion : ∀ a rest, segs = .assertion a :: rest → False)
    (hhole : ∀ env loc rest, segs = .hole env loc :: rest → False)
    (ih : PullBackTyped Γ o scopes target segs) : SegmentsTyped Γ o scopes target pre segs := by
  intro hΓ hsegs hpre htarget
  rw [segments.eq_3 _ _ _ _ _ hassertion hhole]
  exact (ih hΓ hsegs htarget).bind fun next hnext => obliges_plain hpre hnext.pred hnext.reason

theorem pullBackTyped_nil : PullBackTyped Γ o scopes target [] := by
  intro hΓ hsegs htarget
  rw [pullBack]
  exact .pure htarget

theorem pullBackTyped_run (ihrest : PullBackTyped Γ o scopes target segs)
    (ihrun : ∀ next, RunTyped Γ o scopes next ss) :
    PullBackTyped Γ o scopes target (.run ss :: segs) := by
  intro hΓ hsegs htarget
  obtain ⟨hss, hsegs⟩ := List.forall_mem_cons.1 hsegs
  rw [pullBack]
  exact (ihrest hΓ hsegs htarget).bind fun next hnext => ihrun next hΓ hss hnext

theorem pullBackTyped_assertion (ih : SegmentsTyped Γ o scopes target a segs) :
    PullBackTyped Γ o scopes target (.assertion a :: segs) := by
  intro hΓ hsegs htarget
  obtain ⟨ha, hsegs⟩ := List.forall_mem_cons.1 hsegs
  rw [pullBack]
  exact (ih hΓ hsegs ha.expr htarget).bind fun _ _ => .pure (Target.wellTyped_ofPred ha.expr)

theorem pullBackTyped_loop (ihrest : PullBackTyped Γ o scopes target segs)
    (ihbodies : BodiesTyped Γ o scopes inv loc cs) :
    PullBackTyped Γ o scopes target (.loop inv cs loc :: segs) := by
  intro hΓ hsegs htarget
  obtain ⟨⟨hinv, hcs⟩, hsegs⟩ := List.forall_mem_cons.1 hsegs
  rw [pullBack]
  refine (ihrest hΓ hsegs htarget).bind fun exit hexit => ?_
  refine (ihbodies hΓ hinv.expr hcs).bind fun _ _ => ?_
  exact (obliges_checkLoop hΓ hinv hcs hexit).bind fun _ _ =>
    .pure (Target.wellTyped_ofPred hinv.expr)

theorem pullBackTyped_hole {env : TypeEnv} (ih : PullBackTyped Γ o scopes target segs) :
    PullBackTyped Γ o scopes target (.hole env loc :: segs) := by
  intro hΓ hsegs htarget
  rw [pullBack]
  refine (ih hΓ (List.forall_mem_cons.1 hsegs).2 htarget).bind fun next hnext => ?_
  exact obliges_hole.bind fun _ _ => .pure hnext

theorem bodiesTyped_nil : BodiesTyped Γ o scopes inv loc [] := by
  intro hΓ hinv hcs
  rw [bodies]
  exact .pure trivial

theorem bodiesTyped_cons
    (ihbody : SegmentsTyped Γ o scopes ⟨inv, ⟨.preservation, loc⟩, some c.guard.text⟩
      (.constant (.conj inv.expr c.guard)) (Segment.ofStmts c.body))
    (ihrest : BodiesTyped Γ o scopes inv loc cs) : BodiesTyped Γ o scopes inv loc (c :: cs) := by
  intro hΓ hinv hcs
  obtain ⟨⟨hguard, hbody⟩, hcs⟩ := List.forall_mem_cons.1 hcs
  rw [bodies]
  refine (ihbody hΓ (Segment.wellTyped_ofStmts hbody) ?_ ⟨hinv, by simp⟩).bind fun _ _ =>
    ihrest hΓ hinv hcs
  exact hasTy_binary (o := .conj) rfl hinv hguard

theorem runTyped_nil : RunTyped Γ o scopes target [] := by
  intro hΓ hss htarget
  rw [run]
  exact .pure htarget

theorem runTyped_cons (ihrest : RunTyped Γ o scopes target ss)
    (ihstmt : ∀ next, StmtTyped Γ o scopes next s) : RunTyped Γ o scopes target (s :: ss) := by
  intro hΓ hss htarget
  obtain ⟨hs, hss⟩ := Stmt.simple_cons.1 hss
  rw [run]
  refine (ihrest hΓ hss htarget).bind fun next hnext => ?_
  exact (ihstmt next hΓ hs hnext).bind fun e he => .pure ⟨he, hnext.reason⟩

theorem stmtTyped_cond (ih : BranchesTyped Γ o scopes target cs) :
    StmtTyped Γ o scopes target (.cond cs loc) := by
  rintro hΓ ⟨htyped, hblock⟩ htarget
  rw [Stmt.hasBlock] at hblock
  cases htyped with
  | cond h =>
    rw [stmt]
    exact (ih hΓ (Stmt.simple_bodies h hblock) htarget).bind fun es hes =>
      .pure (hasTy_conjunction hes)

theorem stmtTyped_block {b : TypedProgram} : StmtTyped Γ o scopes target (.block b loc) := by
  rintro hΓ ⟨-, hblock⟩ htarget
  rw [Stmt.hasBlock] at hblock
  cases hblock

theorem stmtTyped_simple (hcond : ∀ cs loc, s = .cond cs loc → False)
    (hblock : ∀ b loc, s = .block b loc → False) : StmtTyped Γ o scopes target s := by
  intro hΓ hs htarget
  rw [stmt.eq_3 _ _ _ _ hcond hblock]
  exact .ofExcept fun e he => Wp.hasTy_stmt hΓ.widens htarget.pred hs.1 hs.2 he

theorem branchesTyped_nil : BranchesTyped Γ o scopes target [] := by
  intro hΓ hcs htarget
  rw [branches]
  exact .pure (by simp)

theorem branchesTyped_cons
    (ihbody : PullBackTyped Γ o scopes target (Segment.ofStmts c.body))
    (ihrest : BranchesTyped Γ o scopes target cs) : BranchesTyped Γ o scopes target (c :: cs) := by
  intro hΓ hcs htarget
  obtain ⟨⟨hguard, hbody⟩, hcs⟩ := List.forall_mem_cons.1 hcs
  rw [branches]
  refine (ihbody hΓ (Segment.wellTyped_ofStmts hbody) htarget).bind fun body hbody => ?_
  refine (ihrest hΓ hcs htarget).bind fun rest hrest => .pure (List.forall_mem_cons.2 ⟨?_, hrest⟩)
  exact hasTy_binary (o := .implies) rfl hguard hbody.pred

end Cases

theorem segments_typed (scopes : Scopes) (target : Target) (pre : Pred) (segs : List Segment) :
    SegmentsTyped Γ o scopes target pre segs :=
  segments.induct (SegmentsTyped Γ o) (PullBackTyped Γ o) (BodiesTyped Γ o) (RunTyped Γ o)
    (StmtTyped Γ o) (BranchesTyped Γ o)
    (fun _ _ _ _ _ => segmentsTyped_assertion)
    (fun _ _ _ _ _ _ => segmentsTyped_hole)
    (fun _ _ _ _ => segmentsTyped_pulled)
    (fun _ _ => pullBackTyped_nil)
    (fun _ _ _ _ => pullBackTyped_run)
    (fun _ _ _ _ => pullBackTyped_assertion)
    (fun _ _ _ _ _ _ => pullBackTyped_loop)
    (fun _ _ _ _ _ => pullBackTyped_hole)
    (fun _ _ _ => bodiesTyped_nil)
    (fun _ _ _ _ _ => bodiesTyped_cons)
    (fun _ _ => runTyped_nil)
    (fun _ _ _ _ => runTyped_cons)
    (fun _ _ _ _ => stmtTyped_cond)
    (fun _ _ _ _ _ => stmtTyped_block)
    (fun _ _ _ => stmtTyped_simple)
    (fun _ _ => branchesTyped_nil)
    (fun _ _ _ _ => branchesTyped_cons)
    scopes target pre segs

theorem hasTy_assertionOf {found : Option TypedStmt} (h : ∀ s ∈ found, s.WellTyped Γ) :
    (assertionOf found).expr.HasTy Γ .bool := by
  unfold assertionOf
  split
  · exact (Segment.wellTyped_assert (h _ rfl)).expr
  · exact hasTy_ofLit (.bool true)

end Structure

/-! ## Programs -/

namespace TypedProgram

variable {p : TypedProgram} {e : Name × TypeInfo}

theorem mem_boundNames_of_definition {d : TypedDefinition} (hd : d ∈ p.defns) {n : Name}
    (hn : n ∈ d.boundNames) : n ∈ p.boundNames :=
  List.mem_append_right _ (List.mem_flatMap.2 ⟨d, hd, hn⟩)

theorem mem_boundNames_of_given (he : e ∈ p.given.entries) : e.1 ∈ p.boundNames := by
  rw [given, TypeEnv.entries_declare, Program.entries_insertCtors] at he
  rcases List.mem_append.1 he with he | he
  · rcases List.mem_append.1 he with he | he
    · obtain ⟨d, hd, he⟩ := List.mem_flatMap.1 he
      obtain ⟨c, hc, rfl⟩ := List.mem_map.1 he
      obtain ⟨defn, hdefn, hsome⟩ := List.mem_filterMap.1 hd
      cases defn <;> cases hsome
      exact mem_boundNames_of_definition hdefn (List.mem_map_of_mem hc)
    · obtain ⟨d, hd, he⟩ := List.mem_flatMap.1 he
      obtain ⟨n, hn, rfl⟩ := List.mem_map.1 he
      exact List.mem_append_left _ (List.mem_flatMap.2 ⟨d, hd, hn⟩)
  · obtain ⟨defn, hdefn, hsome⟩ := List.mem_filterMap.1 he
    cases defn with
    | signature n t prop loc =>
      dsimp only at hsome
      split at hsome <;> cases hsome
      exact mem_boundNames_of_definition hdefn (List.mem_singleton.2 rfl)
    | datatype | function => cases hsome

theorem mem_boundNames_of_defined (he : e ∈ p.defined.entries) : e.1 ∈ p.boundNames := by
  obtain ⟨defn, hdefn, hsome⟩ := List.mem_filterMap.1 he
  cases defn <;> cases hsome
  exact mem_boundNames_of_definition hdefn (List.mem_singleton.2 rfl)

theorem mem_boundNames_of_gives {x : String} {t : Ty} (h : p.scope.Gives x t) :
    x ∈ p.boundNames.map (·.text) := by
  cases h with
  | fixed h => cases h
  | scheme _ h =>
    obtain ⟨n, hn, rfl⟩ := List.mem_map.1 (TypeEnv.mem_visible_of_lookup? h)
    obtain ⟨e, he, rfl⟩ := List.mem_map.1 hn
    exact List.mem_map_of_mem
      ((List.mem_append.1 he).elim mem_boundNames_of_given mem_boundNames_of_defined)

end TypedProgram

/-- In an accepted program a name that may be assigned has no other type than its own. -/
theorem Program.scope_underlies {p : Program} {typed : TypedProgram} {st : ElaborationState}
    (hp : p.Regular) (h : p.infer .initial = .ok typed st) :
    typed.scope.Underlies [NameSet.ofList (typed.boundNames.map (·.text))] := by
  obtain ⟨-, kinds, st₁, fs, after, s, st₂, hgiven, -, hend⟩ := settles_of_infer hp h
  obtain ⟨-, hfound⟩ := givenFound_of_inferGiven hp hgiven
  refine ⟨fun {x t u} hx hu => ?_, fun {x t} ht => ?_⟩
  · rw [hend.scope] at hx hu
    obtain ⟨info, hinfo, hmutable, rfl⟩ := hx
    have hlookup : after.lookup? x.text = some info := by
      simpa [Scope.env, TypeEnv.empty] using hinfo
    obtain ⟨θ, -, rfl⟩ := (Scope.gives_iff hlookup).1 hu
    obtain ⟨e, he, rfl⟩ := TypeEnv.mem_of_lookup? hlookup
    rcases List.mem_append.1 (hend.entries ▸ he) with he | he
    · exact (hfound.ready.mutables e he hmutable).subst_eq_self (by simp)
    · obtain ⟨f, -, rfl⟩ := List.mem_map.1 he
      simp [TypeInfo.isMutable] at hmutable
  · exact Fresh.taken_cons.2 (.inl (NameSet.mem_ofList.2 (TypedProgram.mem_boundNames_of_gives ht)))

theorem Stmt.ListTyped.of_mem {ss : List TypedStmt} (h : ListTyped Γ ss) {s : TypedStmt}
    (hs : s ∈ ss) : s.WellTyped Γ := by
  induction ss with
  | nil => cases hs
  | cons t ts ih =>
    cases h with
    | cons ht hts =>
      rcases List.mem_cons.1 hs with rfl | hs
      · exact ht
      · exact ih hts hs

theorem TypedProgram.proper_of_verify {typed : TypedProgram} {o : Options} {out : Output}
    (hscope : typed.scope.Underlies [NameSet.ofList (typed.boundNames.map (·.text))])
    (hstmts : Stmt.Simple typed.scope typed.stmts) (h : typed.verify o = .ok out) :
    ∀ ob ∈ out.obligations, ob.Proper typed.scope
      [NameSet.ofList (typed.boundNames.map (·.text))] := by
  obtain ⟨l, hl, rfl⟩ := ledger_of_verify h
  have hpre : (Structure.assertionOf typed.stmts.head?).expr.HasTy typed.scope .bool :=
    Structure.hasTy_assertionOf fun s hs => hstmts.typed.of_mem (List.mem_of_head? hs)
  have hpost : (Structure.assertionOf typed.stmts.getLast?).expr.HasTy typed.scope .bool :=
    Structure.hasTy_assertionOf fun s hs => hstmts.typed.of_mem (List.mem_of_getLast? hs)
  obtain ⟨r, ⟨-, hproper⟩, hadd⟩ := Structure.segments_typed _ _ _ _ hscope
    (Segment.wellTyped_ofStmts hstmts) hpre (Target.wellTyped_ofPred hpost) _ _ _ hl
  rw [← hadd.trans (zero_add r)] at hproper
  exact fun ob hob => hproper ob hob

def Obligation.names (ob : Obligation) : Set String :=
  {x | x ∈ ob.pre.expr.freeVars ∨ x ∈ ob.post.expr.freeVars}

theorem Obligation.WellTyped.gives {ob : Obligation} (h : ob.WellTyped Γ) :
    ∀ x ∈ ob.names, ∃ t, Γ.Gives x t := by
  rintro x (hx | hx)
  · exact h.pre.1.gives hx
  · exact h.post.1.gives hx

/-- The obligations of an accepted program without blocks are well typed.  They use names of the
program, each at a type that the program gives it.  Only the obligation that a bound gets smaller
uses a name besides, the constant that the bound is compared with: it is an integer, and not a
name that the program binds. -/
theorem obligations_well_typed {p : Program} {typed : TypedProgram} {o : Options} {out : Output}
    (hp : p.Regular) (hblock : Stmt.listHasBlock p.stmts = false) (h : p.elaborate = .ok typed)
    (hverify : typed.verify o = .ok out) :
    ∀ ob ∈ out.obligations,
      (ob.origin.reason ≠ .boundDecrease →
        ob.WellTyped typed.scope ∧ ∀ x ∈ ob.names, x ∈ typed.boundNames.map (·.text)) ∧
      (ob.origin.reason = .boundDecrease → ∃ snapshot inv guard bound,
        ob.pre.expr = .conjunction
          [inv, guard, .compare bound .eq (.ofConst (.bare snapshot) .int)] ∧
        inv.HasTy typed.scope .bool ∧ guard.HasTy typed.scope .bool ∧
        bound.HasTy typed.scope .int ∧
        snapshot ∉ typed.boundNames.map (·.text) ∧
        ob.WellTyped (typed.scope.bind (.bare snapshot) .int) ∧
        ∀ x ∈ ob.names, x = snapshot ∨ x ∈ typed.boundNames.map (·.text)) := by
  obtain ⟨st, hinfer⟩ := Program.infer_of_elaborate h
  obtain ⟨_, _, -, -, herase⟩ := Program.infer_erase hp hinfer
  have hstmts : Stmt.Simple typed.scope typed.stmts := by
    refine ⟨(Program.infer_sound hp hinfer).stmts, ?_⟩
    rw [← Stmt.listHasBlock_erase]
    rwa [← herase] at hblock
  intro ob hob
  obtain ⟨hplain, hdecrease⟩ :=
    TypedProgram.proper_of_verify (Program.scope_underlies hp hinfer) hstmts hverify ob hob
  constructor
  · intro hreason
    have htyped := hplain hreason
    refine ⟨htyped, fun x hx => ?_⟩
    obtain ⟨t, ht⟩ := htyped.gives x hx
    exact TypedProgram.mem_boundNames_of_gives ht
  · intro hreason
    obtain ⟨snapshot, ⟨inv, guard, bound, hpre, hinv, hguard, hbound⟩, hfresh, htyped⟩ :=
      hdecrease hreason
    refine ⟨snapshot, inv, guard, bound, hpre, hinv, hguard, hbound, fun hmem => ?_, htyped,
      fun x hx => ?_⟩
    · rw [Fresh.taken_cons.2 (.inl (NameSet.mem_ofList.2 hmem))] at hfresh
      cases hfresh
    · obtain ⟨t, ht⟩ := htyped.gives x hx
      rw [Scope.gives_bind] at ht
      split at ht
      · next heq => exact .inl heq
      · exact .inr (TypedProgram.mem_boundNames_of_gives ht)

namespace Timer

/-- The program `{bnd = bnd, bnd: bnd} do bnd > 0 → bnd := bnd - 1 od`, whose variable has the
name that the constant for the old bound would get. -/
def source : Program :=
  ⟨[], [.ofVars ["bnd"] .int], [],
    [.ofInvariant (.compare (.ofVar "bnd") .eq (.ofVar "bnd")) (some (.ofVar "bnd")),
      .loop [.ofParts (.compare (.ofVar "bnd") .gt (.ofNum 0))
        [.ofAssign ["bnd"] [.binary .sub (.ofVar "bnd") (.ofNum 1)]]] .none], .none⟩

def bnd : TypedExpr := .ofVar (.bare "bnd") .int

def inv : TypedExpr := .compare bnd .eq bnd

def cmd : TypedCmd :=
  ⟨.compare bnd .gt (.ofNum 0), [.assign [.bare "bnd"] [.binary .sub bnd (.ofNum 1)] .none], .none⟩

def typed : TypedProgram :=
  ⟨[], [⟨.var, [.bare "bnd"], .int, none, .none⟩], [],
    [.invariant inv (some bnd) .none, .loop [cmd] .none], .none⟩

theorem regular : source.Regular := by
  refine ⟨?_, by decide, by decide⟩
  intro t ht
  obtain rfl : t = .int := by simpa [source, Program.writtenTypes, Program.datatypes,
    Stmt.listTypes, Stmt.declaredTypes, Stmt.cmdsTypes, Declaration.ofVars, Stmt.ofInvariant,
    Stmt.ofAssign, GuardedCmd.ofParts] using ht
  rfl

theorem elaborate_source : source.elaborate = .ok typed := by cbv

def opts : Options := ⟨false, 16, "bnd", "v"⟩

theorem exists_decrease : ∃ out, typed.verify opts = .ok out ∧
    ∃ ob ∈ out.obligations, ob.origin.reason = .boundDecrease := by
  obtain ⟨out, hverify⟩ := TypedProgram.exists_verify (p := typed) rfl opts
  have hmem : .decrease .none (some cmd.guard.text) ∈ out.loopReports := by
    refine (TypedProgram.reports_of_verify rfl hverify).mem_iff.2 ?_
    simp only [typed, Structure.loopsInList, Structure.loopsIn, List.nil_append,
      List.flatMap_append, List.flatMap_cons, List.mem_append]
    exact .inl (.inl (.tail _ (.head _)))
  refine ⟨out, hverify, ?_⟩
  rcases List.mem_append.1 hmem with hmem | hmem
  · obtain ⟨ob, hob, hreport⟩ := List.mem_filterMap.1 hmem
    refine ⟨ob, hob, ?_⟩
    unfold Obligation.loopReport? Origin.loopReport? at hreport
    split at hreport <;> first | assumption | cases hreport
  · obtain ⟨w, -, hw⟩ := List.mem_map.1 hmem
    cases w <;> cases hw

end Timer

theorem timer_obligations_typed : Timer.source.Regular ∧
    Stmt.listHasBlock Timer.source.stmts = false ∧
    Timer.source.elaborate = .ok Timer.typed ∧ ∃ out, Timer.typed.verify Timer.opts = .ok out ∧
      ∃ ob ∈ out.obligations, ob.origin.reason = .boundDecrease ∧ ∃ snapshot ≠ "bnd",
        ob.WellTyped (Timer.typed.scope.bind (.bare snapshot) .int) ∧
        ∀ x ∈ ob.names, x = snapshot ∨ x = "bnd" := by
  obtain ⟨out, hverify, ob, hob, hreason⟩ := Timer.exists_decrease
  have hnames : Timer.typed.boundNames.map (·.text) = ["bnd"] := rfl
  obtain ⟨snapshot, -, -, -, -, -, -, -, hfresh, htyped, hscope⟩ := (obligations_well_typed
    Timer.regular rfl Timer.elaborate_source hverify ob hob).2 hreason
  rw [hnames, List.mem_singleton] at hfresh
  simp only [hnames, List.mem_singleton] at hscope
  exact ⟨Timer.regular, rfl, Timer.elaborate_source, out, hverify, ob, hob, hreason,
    snapshot, hfresh, htyped, hscope⟩

end GuardedCommands
