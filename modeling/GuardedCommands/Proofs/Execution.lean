import GuardedCommands.Proofs.Substitution
import GuardedCommands.Verification.Wp

/-!
# Running programs

A running program is a list of tasks and the values of all names.  One step takes
the first task and replaces it by the tasks it leads to.  A statement carries the
assertion right before it, because a loop has to keep that assertion at its head
every time it comes there.  Heap commands, holes and assignments to elements that
are not elements of a named array have no meaning here and fail.

An execution is correct if it fails only where that is allowed, ends in the wanted
states only and, if asked for, ends.
-/

namespace GuardedCommands

universe u

namespace Stmt

variable {ε δ η : Type}

def isForeign : Stmt ε δ η → Bool
  | .hole .. | .alloc .. | .lookup .. | .mutate .. | .dispose .. => true
  | _ => false

mutual

def isPlain : Stmt ε δ η → Bool
  | .hole .. | .alloc .. | .lookup .. | .mutate .. | .dispose .. => false
  | .loop cs _ | .cond cs _ => cmdsPlain cs
  | .block b _ => listPlain b.stmts
  | _ => true

def cmdsPlain : List (GuardedCmd ε (Stmt ε δ η)) → Bool
  | [] => true
  | c :: cs => listPlain c.body && cmdsPlain cs

def listPlain : List (Stmt ε δ η) → Bool
  | [] => true
  | s :: ss => s.isPlain && listPlain ss

end

theorem cmdsPlain_iff {cs : List (GuardedCmd ε (Stmt ε δ η))} :
    cmdsPlain cs = true ↔ ∀ c ∈ cs, listPlain c.body = true := by
  induction cs with
  | nil => simp [cmdsPlain]
  | cons c cs ih => simp [cmdsPlain, ih]

theorem listPlain_iff {ss : List (Stmt ε δ η)} :
    listPlain ss = true ↔ ∀ s ∈ ss, s.isPlain = true := by
  induction ss with
  | nil => simp [listPlain]
  | cons s ss ih => simp [listPlain, ih]

def assertion? : TypedStmt → Option TypedExpr
  | .assert e _ | .invariant e _ _ => some e
  | _ => none

end Stmt

def Block.localNames {ε δ σ : Type} (b : Block ε δ σ) : List String :=
  (b.decls.flatMap (·.names)).map (·.text)

def Valuation.restore {V : Type u} (σ outer : Valuation V) (names : List String) : Valuation V :=
  fun x => if x ∈ names then outer x else σ x

inductive Task (V : Type u)
  /-- To run a statement that comes right after an assertion, or after none. -/
  | exec (before : Option TypedExpr) (s : TypedStmt)
  /-- To leave a block. -/
  | leave (names : List String) (outer : Valuation V)

inductive Execution (V : Type u)
  | running (tasks : List (Task V)) (σ : Valuation V)
  | failed

variable {V : Type u}

def Task.ofStmts (before : Option TypedExpr) : List TypedStmt → List (Task V)
  | [] => []
  | s :: ss => .exec before s :: ofStmts s.assertion? ss

def Execution.append : Execution V → List (Task V) → Execution V
  | .running ts σ, us => .running (ts ++ us) σ
  | .failed, _ => .failed

inductive Task.Step (I : Interpretation V) : Task V → Valuation V → Execution V → Prop
  | skip {before loc σ} : Step I (.exec before (.skip loc)) σ (.running [] σ)
  | abort {before loc σ} : Step I (.exec before (.abort loc)) σ .failed
  | assign {before xs es loc σ} :
      Step I (.exec before (.assign xs es loc)) σ
        (.running [] (σ.bindAll (xs.map (·.text)) (es.map (·.eval I σ))))
  | arrayAssign {before a i v loc σ x} (hname : a.asName? = some x) :
      Step I (.exec before (.arrayAssign a i v loc)) σ
        (.running [] (Function.update σ x.text
          (I.update (a.eval I σ) (i.eval I σ) (v.eval I σ))))
  | nestedArray {before a i v loc σ} (hname : a.asName? = none) :
      Step I (.exec before (.arrayAssign a i v loc)) σ .failed
  | passed {before s e σ} (hs : s.assertion? = some e) (he : I.Holds σ e) :
      Step I (.exec before s) σ (.running [] σ)
  | refused {before s e σ} (hs : s.assertion? = some e) (he : ¬ I.Holds σ e) :
      Step I (.exec before s) σ .failed
  | branch {before cs loc c σ} (hc : c ∈ cs) (hguard : I.Holds σ c.guard) :
      Step I (.exec before (.cond cs loc)) σ (.running (ofStmts none c.body) σ)
  | broken {inv cs loc σ} (hinv : ¬ I.Holds σ inv) :
      Step I (.exec (some inv) (.loop cs loc)) σ .failed
  | again {before cs loc c σ} (hinv : ∀ inv ∈ before, I.Holds σ inv) (hc : c ∈ cs)
      (hguard : I.Holds σ c.guard) :
      Step I (.exec before (.loop cs loc)) σ
        (.running (ofStmts none c.body ++ [.exec before (.loop cs loc)]) σ)
  | exit {before cs loc σ} (hinv : ∀ inv ∈ before, I.Holds σ inv)
      (hguards : ∀ c ∈ cs, ¬ I.Holds σ c.guard) :
      Step I (.exec before (.loop cs loc)) σ (.running [] σ)
  | enter {before loc σ τ} {b : TypedProgram} (hτ : ∀ x ∉ b.localNames, τ x = σ x) :
      Step I (.exec before (.block b loc)) σ
        (.running (ofStmts none b.stmts ++ [.leave b.localNames σ]) τ)
  | leave {names outer σ} :
      Step I (.leave names outer) σ (.running [] (σ.restore outer names))
  | foreign {before s σ} (hs : s.isForeign = true) : Step I (.exec before s) σ .failed

namespace Execution

variable {I : Interpretation V}

@[simp] theorem running_append (ts us : List (Task V)) (σ : Valuation V) :
    (running ts σ).append us = running (ts ++ us) σ := rfl

@[simp] theorem failed_append (us : List (Task V)) : failed.append us = failed := rfl

@[simp] theorem append_nil (c : Execution V) : c.append [] = c := by
  cases c <;> simp

@[simp] theorem append_append (c : Execution V) (us vs : List (Task V)) :
    (c.append us).append vs = c.append (us ++ vs) := by
  cases c <;> simp

inductive Step (I : Interpretation V) : Execution V → Execution V → Prop
  | head {t ts σ d} (h : Task.Step I t σ d) : Step I (.running (t :: ts) σ) (d.append ts)

theorem not_step_failed {c : Execution V} : ¬ Step I .failed c := by
  intro h
  cases h

theorem not_step_done {c : Execution V} {σ : Valuation V} : ¬ Step I (.running [] σ) c := by
  intro h
  cases h

theorem step_single {t : Task V} {σ : Valuation V} {c : Execution V} :
    Step I (.running [t] σ) c ↔ t.Step I σ c := by
  constructor
  · rintro ⟨h⟩
    simpa using h
  · intro h
    have hstep : Step I (.running [t] σ) (c.append []) := .head h
    simpa using hstep

theorem exists_step_of_append {t : Task V} {ts us : List (Task V)} {σ : Valuation V}
    {d : Execution V} (h : Step I (.running (t :: ts ++ us) σ) d) :
    ∃ e, Step I (.running (t :: ts) σ) e ∧ d = e.append us := by
  cases h with
  | head h => exact ⟨_, .head h, by simp⟩

/-! ## Correct executions -/

abbrev Reaches (I : Interpretation V) : Execution V → Execution V → Prop :=
  Relation.ReflTransGen (Step I)

def Terminates (I : Interpretation V) (c : Execution V) : Prop :=
  Acc (fun d c => Step I c d) c

/-- No run from `c` fails, unless that is allowed, and every run that ends does so in a
wanted state. -/
structure Upholds (I : Interpretation V) (fails : Prop) (P : Valuation V → Prop)
    (c : Execution V) : Prop where
  safe : Reaches I c .failed → fails
  final : ∀ σ, Reaches I c (.running [] σ) → P σ

structure Correct (I : Interpretation V) (total fails : Prop) (P : Valuation V → Prop)
    (c : Execution V) : Prop extends Upholds I fails P c where
  terminates : total → Terminates I c

section Upholds

variable {fails : Prop} {P Q : Valuation V → Prop} {c d : Execution V} {σ : Valuation V}

theorem Upholds.of_invariant (S : Execution V → Prop)
    (hstep : ∀ c d, S c → Step I c d → S d)
    (hfailed : S .failed → fails)
    (hdone : ∀ σ, S (.running [] σ) → P σ)
    (hc : S c) : Upholds I fails P c := by
  have hreach : ∀ d, Reaches I c d → S d := by
    intro d hd
    induction hd with
    | refl => exact hc
    | tail _ hlast ih => exact hstep _ _ ih hlast
  exact ⟨fun h => hfailed (hreach _ h), fun σ h => hdone σ (hreach _ h)⟩

theorem Upholds.step (h : Upholds I fails P c) (hstep : Step I c d) : Upholds I fails P d :=
  ⟨fun hd => h.safe (.head hstep hd), fun σ hd => h.final σ (.head hstep hd)⟩

theorem Upholds.mono (h : Upholds I fails P c) (hPQ : ∀ σ, P σ → Q σ) : Upholds I fails Q c :=
  ⟨h.safe, fun σ hσ => hPQ σ (h.final σ hσ)⟩

theorem Upholds.and {fails' : Prop} (h : Upholds I fails P c) (h' : Upholds I fails' Q c) :
    Upholds I fails (fun σ => P σ ∧ Q σ) c :=
  ⟨h.safe, fun σ hσ => ⟨h.final σ hσ, h'.final σ hσ⟩⟩

theorem upholds_done (hP : P σ) : Upholds I fails P (.running [] σ) := by
  refine ⟨fun h => ?_, fun τ h => ?_⟩
  · rcases Relation.ReflTransGen.cases_head h with h | ⟨d, hd, _⟩
    · cases h
    · cases hd
  · rcases Relation.ReflTransGen.cases_head h with h | ⟨d, hd, _⟩
    · cases h
      exact hP
    · cases hd

theorem upholds_failed (hfails : fails) : Upholds I fails P .failed := by
  refine ⟨fun _ => hfails, fun τ h => ?_⟩
  rcases Relation.ReflTransGen.cases_head h with h | ⟨d, hd, _⟩
  · cases h
  · cases hd

theorem upholds_head {t : Task V} {ts : List (Task V)}
    (h : ∀ d, t.Step I σ d → Upholds I fails P (d.append ts)) :
    Upholds I fails P (.running (t :: ts) σ) := by
  refine ⟨fun hr => ?_, fun τ hr => ?_⟩
  · rcases Relation.ReflTransGen.cases_head hr with hr | ⟨d, ⟨hd⟩, hr⟩
    · cases hr
    · exact (h _ hd).safe hr
  · rcases Relation.ReflTransGen.cases_head hr with hr | ⟨d, ⟨hd⟩, hr⟩
    · cases hr
    · exact (h _ hd).final τ hr

theorem Upholds.append {us : List (Task V)} (h : Upholds I fails Q c)
    (hrest : ∀ σ, Q σ → Upholds I fails P (.running us σ)) :
    Upholds I fails P (c.append us) := by
  refine Upholds.of_invariant
    (fun d => (∃ e, d = e.append us ∧ Upholds I fails Q e) ∨ Upholds I fails P d) ?_ ?_ ?_
    (.inl ⟨c, rfl, h⟩)
  · rintro d d' (⟨e, rfl, he⟩ | hd) hstep
    · cases e with
      | failed => cases hstep
      | running ts σ =>
        cases ts with
        | nil => exact .inr ((hrest σ (he.final σ .refl)).step hstep)
        | cons t ts =>
          obtain ⟨e, hte, rfl⟩ := exists_step_of_append hstep
          exact .inl ⟨e, rfl, he.step hte⟩
    · exact .inr (hd.step hstep)
  · rintro (⟨e, he, h⟩ | h)
    · cases e with
      | failed => exact h.safe .refl
      | running ts σ => cases he
    · exact h.safe .refl
  · rintro σ (⟨e, he, h⟩ | h)
    · cases e with
      | failed => cases he
      | running ts τ =>
        obtain ⟨hnil, rfl⟩ := Execution.running.inj he
        obtain ⟨rfl, rfl⟩ := List.append_eq_nil_iff.1 hnil.symm
        exact (hrest σ (h.final σ .refl)).final σ .refl
    · exact h.final σ .refl

end Upholds

section Terminates

variable {c d : Execution V} {σ : Valuation V}

theorem terminates_done : Terminates I (.running [] σ) :=
  ⟨_, fun _ h => absurd h not_step_done⟩

theorem terminates_failed : Terminates I .failed := ⟨_, fun _ h => absurd h not_step_failed⟩

theorem terminates_head {t : Task V} {ts : List (Task V)}
    (h : ∀ d, t.Step I σ d → Terminates I (d.append ts)) :
    Terminates I (.running (t :: ts) σ) := by
  refine ⟨_, ?_⟩
  rintro _ ⟨hd⟩
  exact h _ hd

theorem Terminates.append {fails : Prop} {Q : Valuation V → Prop} {us : List (Task V)}
    (h : Terminates I c) (hQ : Upholds I fails Q c)
    (hrest : ∀ σ, Q σ → Terminates I (.running us σ)) : Terminates I (c.append us) := by
  induction h with
  | intro c _ ih =>
    cases c with
    | failed => exact terminates_failed
    | running ts σ =>
      cases ts with
      | nil => exact hrest σ (hQ.final σ .refl)
      | cons t ts =>
        refine ⟨_, fun d hd => ?_⟩
        obtain ⟨e, he, rfl⟩ := exists_step_of_append hd
        exact ih e he (hQ.step he)

theorem Terminates.no_infinite_run (h : Terminates I c) :
    ¬ ∃ run : ℕ → Execution V, run 0 = c ∧ ∀ n, Step I (run n) (run (n + 1)) := by
  rintro ⟨run, hstart, hrun⟩
  induction h generalizing run with
  | intro c _ ih =>
    subst hstart
    exact ih (run 1) (hrun 0) (fun n => run (n + 1)) rfl fun n => hrun (n + 1)

end Terminates

section Correct

variable {total fails : Prop} {P Q : Valuation V → Prop} {c d : Execution V} {σ : Valuation V}

theorem Correct.mono (h : Correct I total fails P c) (hPQ : ∀ σ, P σ → Q σ) :
    Correct I total fails Q c :=
  ⟨h.toUpholds.mono hPQ, h.terminates⟩

theorem correct_done (hP : P σ) : Correct I total fails P (.running [] σ) :=
  ⟨upholds_done hP, fun _ => terminates_done⟩

theorem correct_failed (hfails : fails) : Correct I total fails P .failed :=
  ⟨upholds_failed hfails, fun _ => terminates_failed⟩

theorem correct_head {t : Task V} {ts : List (Task V)}
    (h : ∀ d, t.Step I σ d → Correct I total fails P (d.append ts)) :
    Correct I total fails P (.running (t :: ts) σ) :=
  ⟨upholds_head fun d hd => (h d hd).toUpholds,
    fun htotal => terminates_head fun d hd => (h d hd).terminates htotal⟩

theorem correct_single {t : Task V} (h : ∀ d, t.Step I σ d → Correct I total fails P d) :
    Correct I total fails P (.running [t] σ) :=
  correct_head fun d hd => by simpa using h d hd

theorem Correct.append {us : List (Task V)} (h : Correct I total fails Q c)
    (hrest : ∀ σ, Q σ → Correct I total fails P (.running us σ)) :
    Correct I total fails P (c.append us) :=
  ⟨h.toUpholds.append fun σ hσ => (hrest σ hσ).toUpholds,
    fun htotal => (h.terminates htotal).append h.toUpholds
      fun σ hσ => (hrest σ hσ).terminates htotal⟩

/-- An execution is as correct as one that makes a step for each of its steps. -/
theorem Correct.of_simulation (R : Execution V → Execution V → Prop)
    (hstep : ∀ c c' d, R c c' → Step I c d → ∃ d', Step I c' d' ∧ R d d')
    (hfailed : ∀ c', R .failed c' → c' = .failed)
    (hdone : ∀ σ c', R (.running [] σ) c' → ∃ τ, c' = .running [] τ ∧ (Q τ → P σ))
    {c' : Execution V} (hR : R c c') (h : Correct I total fails Q c') :
    Correct I total fails P c := by
  constructor
  · refine Upholds.of_invariant (fun d => ∃ d', R d d' ∧ Upholds I fails Q d') ?_ ?_ ?_
      ⟨c', hR, h.toUpholds⟩
    · rintro d e ⟨d', hd, hd'⟩ hde
      obtain ⟨e', hde', he⟩ := hstep d d' e hd hde
      exact ⟨e', he, hd'.step hde'⟩
    · rintro ⟨d', hd, hd'⟩
      cases hfailed d' hd
      exact hd'.safe .refl
    · rintro σ ⟨d', hd, hd'⟩
      obtain ⟨τ, rfl, hQP⟩ := hdone σ d' hd
      exact hQP (hd'.final τ .refl)
  · intro htotal
    have hacc := h.terminates htotal
    clear h
    induction hacc generalizing c with
    | intro c' _ ih =>
      refine ⟨_, fun d hd => ?_⟩
      obtain ⟨d', hd', hdd'⟩ := hstep c c' d hR hd
      exact ih d' hd' hdd'

/-! ## Rules for statements -/

variable {before : Option TypedExpr} {cs : List TypedCmd} {loc : Loc}

theorem ofStmts_append (before : Option TypedExpr) (ss us : List TypedStmt) :
    ∃ between, (Task.ofStmts before (ss ++ us) : List (Task V)) =
      Task.ofStmts before ss ++ Task.ofStmts between us := by
  induction ss generalizing before with
  | nil => exact ⟨before, rfl⟩
  | cons s ss ih =>
    obtain ⟨between, h⟩ := ih s.assertion?
    exact ⟨between, by simp [Task.ofStmts, h]⟩

theorem correct_seq {ss us : List TypedStmt}
    (h : Correct I total fails Q (.running (Task.ofStmts before ss) σ))
    (hrest : ∀ between σ, Q σ →
      Correct I total fails P (.running (Task.ofStmts between us) σ)) :
    Correct I total fails P (.running (Task.ofStmts before (ss ++ us)) σ) := by
  obtain ⟨between, hsplit⟩ := ofStmts_append (V := V) before ss us
  rw [hsplit]
  exact h.append (hrest between)

theorem correct_assertion {s : TypedStmt} {e : TypedExpr} (hs : s.assertion? = some e)
    (hP : I.Holds σ e → P σ) (he : fails ∨ I.Holds σ e) :
    Correct I total fails P (.running [.exec before s] σ) := by
  refine correct_single fun d hd => ?_
  cases hd with
  | passed hs' he' =>
    cases hs.symm.trans hs'
    exact correct_done (hP he')
  | refused hs' he' =>
    cases hs.symm.trans hs'
    exact correct_failed (he.resolve_right he')
  | foreign hs' => cases s <;> simp_all [Stmt.assertion?, Stmt.isForeign]
  | _ => simp [Stmt.assertion?] at hs

theorem correct_cond
    (h : ∀ c ∈ cs, I.Holds σ c.guard →
      Correct I total fails P (.running (Task.ofStmts none c.body) σ)) :
    Correct I total fails P (.running [.exec before (.cond cs loc)] σ) := by
  refine correct_single fun d hd => ?_
  cases hd with
  | branch hc hguard => exact h _ hc hguard
  | passed hs | refused hs | foreign hs => cases hs

theorem loop_step {d : Execution V} (hbefore : ∀ inv ∈ before, I.Holds σ inv)
    (h : Task.Step I (.exec before (.loop cs loc)) σ d) :
    (∃ c ∈ cs, I.Holds σ c.guard ∧
      d = (running (Task.ofStmts none c.body) σ).append [.exec before (.loop cs loc)]) ∨
    ((∀ c ∈ cs, ¬ I.Holds σ c.guard) ∧ d = .running [] σ) := by
  cases h with
  | broken hinv => exact absurd (hbefore _ rfl) hinv
  | again _ hc hguard => exact .inl ⟨_, hc, hguard, rfl⟩
  | exit _ hguards => exact .inr ⟨hguards, rfl⟩
  | passed hs | refused hs | foreign hs => cases hs

variable {Inv : Valuation V → Prop}

theorem upholds_loop
    (hbefore : ∀ σ, Inv σ → ∀ inv ∈ before, I.Holds σ inv)
    (hbody : ∀ σ, Inv σ → ∀ c ∈ cs, I.Holds σ c.guard →
      Upholds I fails Inv (.running (Task.ofStmts none c.body) σ))
    (hexit : ∀ σ, Inv σ → (∀ c ∈ cs, ¬ I.Holds σ c.guard) → P σ)
    (hσ : Inv σ) : Upholds I fails P (.running [.exec before (.loop cs loc)] σ) := by
  -- An execution is in the middle of the loop, with the loop still to do, or past it.
  refine Upholds.of_invariant
    (fun d => (∃ e, d = e.append [.exec before (.loop cs loc)] ∧ Upholds I fails Inv e) ∨
      Upholds I fails P d) ?_ ?_ ?_ (.inl ⟨.running [] σ, rfl, upholds_done hσ⟩)
  · rintro d d' (⟨e, rfl, he⟩ | hd) hstep
    · cases e with
      | failed => cases hstep
      | running ts τ =>
        cases ts with
        | nil =>
          have hτ : Inv τ := he.final τ .refl
          rcases loop_step (hbefore τ hτ) (step_single.1 hstep) with
            ⟨c, hc, hguard, rfl⟩ | ⟨hguards, rfl⟩
          · exact .inl ⟨_, rfl, hbody τ hτ c hc hguard⟩
          · exact .inr (upholds_done (hexit τ hτ hguards))
        | cons t ts =>
          obtain ⟨e, hte, rfl⟩ := exists_step_of_append hstep
          exact .inl ⟨e, rfl, he.step hte⟩
    · exact .inr (hd.step hstep)
  · rintro (⟨e, he, h⟩ | h)
    · cases e with
      | failed => exact h.safe .refl
      | running ts σ => cases he
    · exact h.safe .refl
  · rintro τ (⟨e, he, h⟩ | h)
    · cases e with
      | failed => cases he
      | running ts τ =>
        obtain ⟨hnil, -⟩ := Execution.running.inj he
        simp at hnil
    · exact h.final τ .refl

/-- A loop ends if its commands do and each makes the rank smaller. -/
theorem terminates_loop (rank : Valuation V → ℕ)
    (hbefore : ∀ σ, Inv σ → ∀ inv ∈ before, I.Holds σ inv)
    (hends : ∀ σ, Inv σ → ∀ c ∈ cs, I.Holds σ c.guard →
      Terminates I (.running (Task.ofStmts none c.body) σ))
    (hbody : ∀ σ, Inv σ → ∀ c ∈ cs, I.Holds σ c.guard →
      Upholds I fails (fun τ => Inv τ ∧ rank τ < rank σ) (.running (Task.ofStmts none c.body) σ))
    (hσ : Inv σ) : Terminates I (.running [.exec before (.loop cs loc)] σ) := by
  induction hrank : rank σ using Nat.strong_induction_on generalizing σ with
  | _ n ih =>
    subst hrank
    refine ⟨_, fun d hd => ?_⟩
    rcases loop_step (hbefore σ hσ) (step_single.1 hd) with
      ⟨c, hc, hguard, rfl⟩ | ⟨-, rfl⟩
    · refine (hends σ hσ c hc hguard).append (hbody σ hσ c hc hguard) ?_
      rintro τ ⟨hτ, hless⟩
      exact ih (rank τ) hless hτ rfl
    · exact terminates_done

theorem correct_loop
    (hbefore : ∀ σ, Inv σ → ∀ inv ∈ before, I.Holds σ inv)
    (hbody : ∀ σ, Inv σ → ∀ c ∈ cs, I.Holds σ c.guard →
      Correct I total fails Inv (.running (Task.ofStmts none c.body) σ))
    (hrank : total → ∃ rank : Valuation V → ℕ, ∀ σ, Inv σ → ∀ c ∈ cs, I.Holds σ c.guard →
      Upholds I True (fun τ => rank τ < rank σ) (.running (Task.ofStmts none c.body) σ))
    (hexit : ∀ σ, Inv σ → (∀ c ∈ cs, ¬ I.Holds σ c.guard) → P σ)
    (hσ : Inv σ) : Correct I total fails P (.running [.exec before (.loop cs loc)] σ) := by
  constructor
  · exact upholds_loop hbefore (fun σ hσ c hc hg => (hbody σ hσ c hc hg).toUpholds) hexit hσ
  · intro htotal
    obtain ⟨rank, hless⟩ := hrank htotal
    exact terminates_loop rank hbefore
      (fun σ hσ c hc hg => (hbody σ hσ c hc hg).terminates htotal)
      (fun σ hσ c hc hg => (hbody σ hσ c hc hg).toUpholds.and (hless σ hσ c hc hg)) hσ

end Correct

end Execution

end GuardedCommands
