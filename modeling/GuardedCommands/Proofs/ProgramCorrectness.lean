import GuardedCommands.Proofs.ElaboratedScope
import GuardedCommands.Proofs.Lockstep
import GuardedCommands.Proofs.Soundness

/-!
# Verified programs are correct

A program that has been elaborated and whose obligations are all valid does what
its assertions say, on every run from every state that satisfies its precondition.
If it is verified without warnings, and numbers are read as integers, it also has
no infinite run.
-/

namespace GuardedCommands

universe u

namespace TypedProgram

def precondition (p : TypedProgram) : TypedExpr :=
  match p.stmts.head? with
  | some (.assert e _) => e
  | _ => .ofBool true

def postcondition (p : TypedProgram) : TypedExpr :=
  match p.stmts.getLast? with
  | some (.assert e _) => e
  | _ => .ofBool true

def start {V : Type u} (p : TypedProgram) (σ : Valuation V) : Execution V :=
  .running (Task.ofStmts none p.stmts) σ

end TypedProgram

namespace Structure

theorem expr_assertionOf (s : Option TypedStmt) :
    (assertionOf s).expr = match s with
      | some (.assert e _) => e
      | _ => .ofBool true := by
  rcases s with _ | s
  · rfl
  · cases s <;> rfl

theorem within_assertionOf {Γ : Set String} {s : Option TypedStmt}
    (hs : ∀ t ∈ s, t.Scoped Γ) : (assertionOf s).expr.Within Γ := by
  unfold assertionOf
  split
  · next e loc => exact hs (.assert e loc) rfl
  · simp [Pred.expr, TypedExpr.ofBool, TypedExpr.ofLit, TypedExpr.Within, TypedExpr.freeVars]

end Structure

namespace Ledger

variable {o : Options} {pre post : Pred} {origin : Origin} {label : Option String} {l : Ledger}

theorem warnings_obligate : (l.obligate o pre post origin label).warnings = l.warnings := by
  unfold obligate
  dsimp only
  split
  · rfl
  · split <;> rfl

theorem forall_obligate {P : TypedExpr → TypedExpr → Prop}
    (h : ∀ ob ∈ l.obligations, P ob.pre.expr ob.post.expr) (hnew : P pre.expr post.expr) :
    ∀ ob ∈ (l.obligate o pre post origin label).obligations, P ob.pre.expr ob.post.expr := by
  unfold obligate
  dsimp only
  split
  · exact h
  · split
    · exact h
    · intro ob hob
      rcases List.mem_append.1 hob with hob | hob
      · exact h ob hob
      · rw [List.mem_singleton.1 hob]
        exact hnew

end Ledger

variable {V : Type u} {I : Interpretation V} {total : Prop} {p : Program} {tp : TypedProgram}
  {o : Options} {out : Output} {σ : Valuation V}

/-- Elaborated and verified programs run correctly. -/
theorem correct_of_verify (htyped : p.elaborate = .ok tp) (hplain : Stmt.listPlain p.stmts = true)
    (hdedupe : o.dedupe = false) (hverify : tp.verify o = .ok out)
    (harith : total → Nonempty I.Arithmetic)
    (hvalid : ∀ ob ∈ out.obligations, I.Valid ob.pre.expr ob.post.expr)
    (hwarnings : total → out.warnings = [])
    (hσ : I.Holds σ tp.precondition) :
    Execution.Correct I total False (fun τ => I.Holds τ tp.postcondition) (tp.start σ) := by
  obtain ⟨st, hinfer⟩ := Program.infer_of_elaborate htyped
  obtain ⟨⟨Γ, hΓ, hseen⟩, hsame⟩ := Program.infer_seen ∅ p _ _ _ hinfer
  have hscoped := hseen.scoped
  obtain ⟨l, hl, rfl⟩ := TypedProgram.ledger_of_verify hverify
  have hdischarged : l.Discharged I total := ⟨hvalid, hwarnings⟩
  have hready : Structure.Ready Γ [NameSet.ofList (tp.boundNames.map (·.text))] tp.stmts := by
    refine .of_list (fun x hx => ?_) hscoped (hsame.trans hplain)
    exact Fresh.taken_cons.2 (.inl (NameSet.mem_ofList.2 (hΓ x hx)))
  have hmem : ∀ t ∈ tp.stmts, t.Scoped Γ := Stmt.listScoped_iff.1 hscoped
  have hsegments := (Structure.segments_sound hdedupe harith _ _ _ _ _ _ _ hl hdischarged).2
  have hestablishes := hsegments Γ tp.stmts (Segment.covers_ofStmts _) hready
  have hpre : I.Ensures unfrozen Γ (Structure.assertionOf tp.stmts.head?).expr σ := by
    rw [Interpretation.ensures_iff_holds hready.frame
      (Structure.within_assertionOf fun t ht => hmem t (List.mem_of_head? ht)),
      Structure.expr_assertionOf]
    exact hσ
  refine (hestablishes none σ hpre).mono fun τ hτ => ?_
  have hpost := hτ.holds_of_agree fun _ _ => rfl
  rw [Target.ofPred, Structure.expr_assertionOf] at hpost
  exact hpost

/-- No run of a verified program fails, and every run that ends satisfies the
postcondition. -/
theorem verified_program_keeps_assertions (I : Interpretation V)
    (htyped : p.elaborate = .ok tp) (hplain : Stmt.listPlain p.stmts = true)
    (hdedupe : o.dedupe = false) (hverify : tp.verify o = .ok out)
    (hvalid : ∀ ob ∈ out.obligations, ∀ σ, I.Holds σ ob.pre.expr → I.Holds σ ob.post.expr)
    (hσ : I.Holds σ tp.precondition) :
    ¬ Execution.Reaches I (tp.start σ) .failed ∧
      ∀ τ, Execution.Reaches I (tp.start σ) (.running [] τ) → I.Holds τ tp.postcondition := by
  have hcorrect : Execution.Correct I False False _ (tp.start σ) :=
    correct_of_verify htyped hplain hdedupe hverify False.elim hvalid False.elim hσ
  exact ⟨hcorrect.safe, hcorrect.final⟩

/-- A program that is verified without warnings has no infinite run. -/
theorem verified_program_terminates (I : Interpretation V) (A : I.Arithmetic)
    (htyped : p.elaborate = .ok tp) (hplain : Stmt.listPlain p.stmts = true)
    (hdedupe : o.dedupe = false) (hverify : tp.verify o = .ok out)
    (hvalid : ∀ ob ∈ out.obligations, ∀ σ, I.Holds σ ob.pre.expr → I.Holds σ ob.post.expr)
    (hwarnings : out.warnings = [])
    (hσ : I.Holds σ tp.precondition) :
    ¬ ∃ run : ℕ → Execution V, run 0 = tp.start σ ∧
      ∀ n, Execution.Step I (run n) (run (n + 1)) := by
  have hcorrect : Execution.Correct I True False _ (tp.start σ) :=
    correct_of_verify htyped hplain hdedupe hverify (fun _ => ⟨A⟩) hvalid (fun _ => hwarnings) hσ
  exact (hcorrect.terminates trivial).no_infinite_run

/-! ## A program that counts down -/

namespace Countdown

inductive Value
  | int (n : ℤ)
  | bool (b : Bool)
  | op (o : Op)
  /-- An operator that has got one operand. -/
  | section (o : Op) (a : Value)
  | other
deriving DecidableEq

namespace Value

def isTrue : Value → Bool
  | .bool b => b
  | _ => false

def apply : Value → Value → Value
  | .op (.arith .neg), a => .bool (!a.isTrue)
  | .op o, a => .section o a
  | .section (.arith .conj) a, b => .bool (a.isTrue && b.isTrue)
  | .section (.arith .disj) a, b => .bool (a.isTrue || b.isTrue)
  | .section (.arith .implies) a, b => .bool (!a.isTrue || b.isTrue)
  | .section (.arith .sub) (.int m), .int n => .int (m - n)
  | _, _ => .other

def compare : ChainOp → Value → Value → Bool
  | .eq, a, b => a = b
  | .lt, .int m, .int n => m < n
  | .gt, .int m, .int n => m > n
  | .gte, .int m, .int n => m ≥ n
  | _, _, _ => false

def chain (a : Value) : List (ChainOp × Value) → Bool
  | [] => true
  | (o, b) :: rest => compare o a b && chain b rest

end Value

def reading : Interpretation Value where
  lit
    | .num n => .int n.toInt
    | .bool b => .bool b
    | _ => .other
  op := .op
  chain a links := .bool (a.chain links)
  app := Value.apply
  lam _ := .other
  quant _ _ _ _ := .other
  index _ _ := .other
  update _ _ _ := .other
  IsTrue v := v.isTrue = true
  isTrue_bool b := Iff.rfl
  isTrue_conj a b := by simp [Value.apply, Value.isTrue]
  isTrue_disj a b := by simp [Value.apply, Value.isTrue]
  isTrue_implies a b := by
    cases h : a.isTrue <;> cases h' : b.isTrue <;> simp [Value.apply, h, h'] <;> rfl
  isTrue_neg a := by simp [Value.apply, Value.isTrue]

def arithmetic : reading.Arithmetic where
  int := .int
  injective _ _ h := Value.int.inj h
  num _ := rfl
  isTrue_lt a b := by
    cases a <;> cases b <;> simp [reading, Value.isTrue, Value.chain, Value.compare]
  isTrue_gte a b := by
    cases a <;> cases b <;> simp [reading, Value.isTrue, Value.chain, Value.compare]
  isTrue_eq a b := by simp [reading, Value.isTrue, Value.chain, Value.compare]

/-- The program `{x = x} {True, bnd: x} do x > 0 → |[ var y; y := x; x := y - 1 ]| od {¬ x > 0}`. -/
def source : Program :=
  ⟨[], [.ofVars ["x"] .int], [],
    [.ofAssert (.compare (.ofVar "x") .eq (.ofVar "x")),
      .ofInvariant (.ofBool true) (some (.ofVar "x")),
      .loop [.ofParts (.compare (.ofVar "x") .gt (.ofNum 0))
        [.block ⟨[], [.ofVars ["y"] .int], [],
          [.ofAssign ["y"] [.ofVar "x"],
            .ofAssign ["x"] [.binary .sub (.ofVar "y") (.ofNum 1)]], .none⟩ .none]] .none,
      .ofAssert (.unary .neg (.compare (.ofVar "x") .gt (.ofNum 0)))], .none⟩


def x : TypedExpr := .ofVar (.bare "x") .int

def positive : TypedExpr := .compare x .gt (.ofNum 0)

def block : TypedProgram :=
  ⟨[], [⟨.var, [.bare "y"], .int, none, .none⟩], [],
    [.assign [.bare "y"] [x] .none,
      .assign [.bare "x"] [.binary .sub (.ofVar (.bare "y") .int) (.ofNum 1)] .none], .none⟩

def typed : TypedProgram :=
  ⟨[], [⟨.var, [.bare "x"], .int, none, .none⟩], [],
    [.assert (.compare x .eq x) .none, .invariant (.ofBool true) (some x) .none,
      .loop [⟨positive, [.block block .none], .none⟩] .none, .assert (.neg positive) .none],
    .none⟩

theorem elaborate_source : source.elaborate = .ok typed := by cbv

def opts : Options := ⟨false, 16, "bnd", "v"⟩

def scope : NameSet := .ofList ["x"]

theorem ofBlock_block : (Wp.OpenBlock.ofBlock [scope] block (.ofBool true)).scope = {"y"} ∧
    (Wp.OpenBlock.ofBlock [scope] block (.ofBool true)).renames.stmts block.stmts =
      block.stmts := by
  constructor <;> cbv

def old : TypedExpr := .ofConst (.bare "bnd") .int

theorem wp_block : Wp.list opts [{"bnd"}, scope] (.compare x .lt old) [.block block .none] =
    .ok (.compare (.binary .sub x (.ofNum 1)) .lt old) := by cbv

theorem bodies_loop (l : Ledger) :
    Structure.bodies opts [scope] (.invariant (.ofBool true) (some x) .none) .none
      [⟨positive, [.block block .none], .none⟩] l =
    .ok () (l.obligate opts (.constant (.conj (.ofBool true) positive)) (.constant (.ofBool true))
      ⟨.preservation, .none⟩ (some positive.text)) := by
  simp only [Structure.bodies, Segment.ofStmts, Segment.consRun, Structure.segments,
    Structure.pullBack, bind, EStateM.bind, Pred.expr, Structure.run, Structure.stmt, pure,
    EStateM.pure, ofBlock_block]
  simp only [block, Segment.ofStmts, Segment.consRun, Structure.pullBack, bind, EStateM.bind,
    Pred.expr, Structure.run, Structure.stmt, pure, EStateM.pure, Wp.stmt]
  rfl

theorem forM_loop (l : Ledger) :
    [⟨positive, [.block block .none], .none⟩].forM
      (Structure.checkDecrease opts [scope] (.ofBool true) x .none) l =
    .ok () (l.obligate opts
      (.constant (.conjunction [.ofBool true, positive, .compare x .eq old]))
      (.constant (.compare (.binary .sub x (.ofNum 1)) .lt old)) ⟨.boundDecrease, .none⟩
      (some positive.text)) := by
  have hfresh : Scopes.freshName [scope] opts.boundStem
      ((TypedExpr.ofBool true).freeVars ∪ x.freeVars ∪ positive.freeVars) = "bnd" := by cbv
  have hloop : Stmt.listHasLoop [(.block block .none : TypedStmt)] = false := rfl
  have hwp := wp_block
  unfold old at hwp
  change EStateM.bind (Structure.checkDecrease opts [scope] (.ofBool true) x .none _) _ l = _
  simp only [EStateM.bind, Structure.checkDecrease, hloop, hfresh, hwp, Bool.false_eq_true,
    if_false]
  rfl

theorem holds_positive (σ : Valuation Value) :
    reading.Holds σ positive ↔ ∃ n, σ "x" = .int n ∧ 0 < n := by
  have hread : reading.Holds σ positive ↔ Value.compare .gt (σ "x") (.int 0) = true := by
    simp [Interpretation.Holds, positive, TypedExpr.compare, TypedExpr.eval, TypedExpr.evalLinks,
      reading, Value.isTrue, Value.chain, x, TypedExpr.ofVar, TypedExpr.ofNum, TypedExpr.ofLit,
      Name.bare]
  rw [hread]
  cases σ "x" <;> simp [Value.compare]

theorem valid_bounded : reading.Valid (.conj (.ofBool true) positive)
    (.compare x .gte (.ofNum 0)) := by
  intro σ hσ
  obtain ⟨n, hn, hpos⟩ := (holds_positive σ).1 ((reading.holds_conj ..).1 hσ).2
  exact (arithmetic.isTrue_gte _ _).2 ⟨n, 0, hn, rfl, hpos.le⟩

theorem valid_decrease : reading.Valid (.conjunction [.ofBool true, positive, .compare x .eq old])
    (.compare (.binary .sub x (.ofNum 1)) .lt old) := by
  intro σ hσ
  simp only [Interpretation.holds_conjunction, List.forall_mem_cons] at hσ
  obtain ⟨-, hpositive, hold, -⟩ := hσ
  have hold : σ "x" = σ "bnd" := (arithmetic.isTrue_eq _ _).1 hold
  obtain ⟨n, hn, -⟩ := (holds_positive σ).1 hpositive
  have hsub : (TypedExpr.binary .sub x (.ofNum 1)).eval reading σ =
      Value.apply (.section (.arith .sub) (σ "x")) (.int 1) := rfl
  refine (arithmetic.isTrue_lt _ _).2 ⟨n - 1, n, ?_, hold.symm.trans hn, by omega⟩
  rw [hsub, hn]
  rfl

theorem exists_ledger : ∃ l, Structure.program opts [] typed .empty = .ok () l ∧
    (∀ ob ∈ l.obligations, reading.Valid ob.pre.expr ob.post.expr) ∧ l.warnings = [] := by
  have hscope : NameSet.ofList (typed.boundNames.map (·.text)) = scope := rfl
  constructor
  refine ⟨?program, ?valid, ?warnings⟩
  case program =>
    simp only [Structure.program, hscope]
    simp only [typed, List.getLast?, List.head?, List.getLast, Structure.assertionOf,
      Segment.ofStmts, Structure.segments, Structure.pullBack, bind, EStateM.bind, bodies_loop,
      Structure.obligate, modify, modifyGet, MonadStateOf.modifyGet, EStateM.modifyGet,
      Structure.checkLoop, Pred.bound, Pred.expr, forM_loop, pure, EStateM.pure]
    rfl
  case valid =>
    have hsame : ∀ e, reading.Valid e e := fun _ _ h => h
    have htrue : ∀ e, reading.Valid e (.ofBool true) := fun _ _ _ => rfl
    have hright : ∀ e, reading.Valid (.conj (.ofBool true) e) e :=
      fun e σ h => ((reading.holds_conj σ _ e).1 h).2
    refine Ledger.forall_obligate ?_ (htrue _)
    refine Ledger.forall_obligate ?_ valid_decrease
    refine Ledger.forall_obligate ?_ valid_bounded
    refine Ledger.forall_obligate ?_ (hright _)
    refine Ledger.forall_obligate ?_ (htrue _)
    refine Ledger.forall_obligate ?_ (hsame _)
    exact Ledger.forall_obligate (fun ob hob => absurd hob List.not_mem_nil) (hsame _)
  case warnings =>
    simp only [Ledger.warnings_obligate]
    rfl

theorem exists_output : ∃ out, typed.verify opts = .ok out ∧
    (∀ ob ∈ out.obligations, ∀ σ, reading.Holds σ ob.pre.expr → reading.Holds σ ob.post.expr) ∧
    out.warnings = [] := by
  obtain ⟨l, hl, hvalid, hwarnings⟩ := exists_ledger
  exact ⟨l.output, TypedProgram.verify_of_ok hl, hvalid, hwarnings⟩

def three : Valuation Value := fun _ => .int 3

theorem holds_precondition : reading.Holds three typed.precondition :=
  (arithmetic.isTrue_eq _ _).2 rfl

end Countdown

open Countdown

theorem countdown_keeps_assertions : ∃ out, source.elaborate = .ok typed ∧
    typed.verify opts = .ok out ∧ reading.Holds three typed.precondition ∧
    ¬ Execution.Reaches reading (typed.start three) .failed ∧
      ∀ τ, Execution.Reaches reading (typed.start three) (.running [] τ) →
        reading.Holds τ typed.postcondition := by
  obtain ⟨out, hverify, hvalid, -⟩ := exists_output
  exact ⟨out, elaborate_source, hverify, holds_precondition,
    verified_program_keeps_assertions reading elaborate_source rfl rfl hverify hvalid
      holds_precondition⟩

theorem countdown_terminates : ∃ out, source.elaborate = .ok typed ∧
    typed.verify opts = .ok out ∧ out.warnings = [] ∧ reading.Holds three typed.precondition ∧
    ¬ ∃ run : ℕ → Execution Value, run 0 = typed.start three ∧
      ∀ n, Execution.Step reading (run n) (run (n + 1)) := by
  obtain ⟨out, hverify, hvalid, hwarnings⟩ := exists_output
  exact ⟨out, elaborate_source, hverify, hwarnings, holds_precondition,
    verified_program_terminates reading arithmetic elaborate_source rfl rfl hverify hvalid
      hwarnings holds_precondition⟩

end GuardedCommands
