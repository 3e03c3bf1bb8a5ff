import GuardedCommands.Analysis
import GuardedCommands.Proofs.Lockstep
import GuardedCommands.Proofs.UnlocatedVerification

/-!
# Locations do not influence the analysis

Two programs that differ in locations alone have the same form without locations, and
the analysis of a program without locations is the analysis of the program without its
locations.  So both programs are refused for the same reason in the same words, or both
are accepted with the same typed program, obligations, warnings and holes but for
locations.  Only the holes may come in another order and under other numbers, since they
are listed in the order of the text.
-/

namespace GuardedCommands

theorem VerificationError.message_unlocated (e : VerificationError) :
    e.unlocated.message = e.message := by
  cases e <;> rfl

theorem VerificationError.code_unlocated (e : VerificationError) :
    e.unlocated.code = e.code := by
  cases e <;> rfl

/-- Errors of the same kind with the same report, which are about the same things but for
locations. -/
inductive AnalysisError.Alike : AnalysisError → AnalysisError → Prop
  | elaboration {e e' : ElaborationError} (same : e.unlocated = e'.unlocated)
      (code : e.code = e'.code) (message : e.message = e'.message) :
      Alike (.elaboration e) (.elaboration e')
  | verification {e e' : VerificationError} (same : e.unlocated = e'.unlocated)
      (code : e.code = e'.code) (message : e.message = e'.message) :
      Alike (.verification e) (.verification e')

def SpecHole.content (h : SpecHole) : Pred × Pred × TypeEnv :=
  (h.pre.unlocated, h.post.unlocated, h.env.unlocated)

/-- Analyses that say the same but for locations and for the order and numbers of holes. -/
structure Analysis.Alike (a b : Analysis) : Prop where
  program : TypedProgram.unlocated a.program = TypedProgram.unlocated b.program
  obligations : a.obligations.map Obligation.unlocated = b.obligations.map Obligation.unlocated
  warnings : a.warnings.map Warning.unlocated = b.warnings.map Warning.unlocated
  holes : (a.holes.map SpecHole.content).Perm (b.holes.map SpecHole.content)

theorem Ledger.content_output (l : Ledger) :
    (l.output.holes.map SpecHole.content).Perm (l.holes.map SpecHole.content) := by
  have hnumbers : ∀ hs : List SpecHole,
      (hs.mapIdx fun i h => { h with id := i }).map SpecHole.content = hs.map SpecHole.content := by
    intro hs
    apply List.ext_getElem
    · simp
    · intro i _ _
      simp [SpecHole.content]
  unfold output
  rw [hnumbers]
  exact (List.mergeSort_perm l.holes _).map SpecHole.content

theorem Except.eq_of_mirror {ε α β : Type} {g : ε → ε} {u : α → β} {x y : Except ε α}
    (h : Except.mirror g u x = Except.mirror g u y) :
    (∃ e e', x = .error e ∧ y = .error e' ∧ g e = g e') ∨
      ∃ a b, x = .ok a ∧ y = .ok b ∧ u a = u b := by
  cases x with
  | error e =>
    cases y with
    | error e' => exact .inl ⟨e, e', rfl, rfl, Except.error.inj h⟩
    | ok b => cases h
  | ok a =>
    cases y with
    | error e' => cases h
    | ok b => exact .inr ⟨a, b, rfl, rfl, Except.ok.inj h⟩

theorem TypedProgram.verify_of_error {t : TypedProgram} {o : Options} {e : VerificationError}
    {l : Ledger} (h : Structure.program o [] t .empty = .error e l) : t.verify o = .error e := by
  simp only [verify, Verifier.program, Verifier.start, h]
  rfl

theorem TypedProgram.verify_alike {t t' : TypedProgram} (h : unlocated t = unlocated t')
    (o : Options) :
    (∃ e e', t.verify o = .error e ∧ t'.verify o = .error e' ∧ e.unlocated = e'.unlocated) ∨
      ∃ l l' : Ledger, t.verify o = .ok l.output ∧ t'.verify o = .ok l'.output ∧
        l.unlocated = l'.unlocated := by
  have hempty : Ledger.empty.unlocated = .empty := rfl
  have ht := Structure.program_mirrors o [] t .empty
  have ht' := Structure.program_mirrors o [] t' .empty
  rw [hempty] at ht ht'
  rw [h, ht'] at ht
  cases hrun : Structure.program o [] t .empty with
  | error e l =>
    cases hrun' : Structure.program o [] t' .empty with
    | error e' l' =>
      rw [hrun, hrun'] at ht
      have he : e'.unlocated = e.unlocated := (EStateM.Result.error.inj ht).1
      exact .inl ⟨e, e', verify_of_error hrun, verify_of_error hrun', he.symm⟩
    | ok a l' =>
      rw [hrun, hrun'] at ht
      cases ht
  | ok a l =>
    cases hrun' : Structure.program o [] t' .empty with
    | error e' l' =>
      rw [hrun, hrun'] at ht
      cases ht
    | ok b l' =>
      rw [hrun, hrun'] at ht
      have hl : l'.unlocated = l.unlocated := (EStateM.Result.ok.inj ht).2
      exact .inr ⟨l, l', verify_of_ok hrun, verify_of_ok hrun', hl.symm⟩

namespace Program

variable {p : Program} {t : TypedProgram} {c : Config}

theorem analyze_of_elaborate_error {e : ElaborationError} (h : p.elaborate = .error e) :
    p.analyze c = .error (.elaboration e) := by
  rw [analyze, h]
  rfl

theorem analyze_of_verify_error {e : VerificationError} (h : p.elaborate = .ok t)
    (hverify : t.verify c.verify = .error e) : p.analyze c = .error (.verification e) := by
  rw [analyze, h]
  change ((t.verify c.verify).mapError AnalysisError.verification >>= _) = _
  rw [hverify]
  rfl

theorem analyze_of_verify_ok {out : Output} (h : p.elaborate = .ok t)
    (hverify : t.verify c.verify = .ok out) :
    p.analyze c = .ok ⟨t, out.obligations, out.holes, out.warnings⟩ := by
  rw [analyze, h]
  change ((t.verify c.verify).mapError AnalysisError.verification >>= _) = _
  rw [hverify]
  rfl

end Program

/-- Programs that differ in locations alone are refused alike or analysed alike. -/
theorem analysis_independent_of_locations {p q : Program} (h : p.same q = true) (c : Config) :
    (∃ e e', p.analyze c = .error e ∧ q.analyze c = .error e' ∧ e.Alike e') ∨
      ∃ a b, p.analyze c = .ok a ∧ q.analyze c = .ok b ∧ a.Alike b := by
  have hform : Program.unlocated p = Program.unlocated q := (Program.same_iff p q).1 h
  have helab : Except.mirror ElaborationError.unlocated TypedProgram.unlocated p.elaborate =
      Except.mirror ElaborationError.unlocated TypedProgram.unlocated q.elaborate := by
    rw [← Program.elaborate_unlocated, ← Program.elaborate_unlocated, hform]
  rcases Except.eq_of_mirror helab with ⟨e, e', hp, hq, he⟩ | ⟨t, t', hp, hq, ht⟩
  · have hcode : e.code = e'.code := by
      rw [← e.code_unlocated, he, e'.code_unlocated]
    have hmessage : e.message = e'.message := by
      rw [← e.message_unlocated, he, e'.message_unlocated]
    exact .inl ⟨_, _, Program.analyze_of_elaborate_error hp,
      Program.analyze_of_elaborate_error hq, .elaboration he hcode hmessage⟩
  · rcases TypedProgram.verify_alike ht c.verify with
      ⟨e, e', hverify, hverify', he⟩ | ⟨l, l', hverify, hverify', hl⟩
    · have hcode : e.code = e'.code := by
        rw [← e.code_unlocated, he, e'.code_unlocated]
      have hmessage : e.message = e'.message := by
        rw [← e.message_unlocated, he, e'.message_unlocated]
      exact .inl ⟨_, _, Program.analyze_of_verify_error hp hverify,
        Program.analyze_of_verify_error hq hverify', .verification he hcode hmessage⟩
    · have hcontent : ∀ k : Ledger, k.holes.map SpecHole.content =
          k.unlocated.holes.map fun h => (h.pre, h.post, h.env) := by
        intro k
        rw [Ledger.unlocated, List.map_map]
        rfl
      have hholes : l.holes.map SpecHole.content = l'.holes.map SpecHole.content := by
        rw [hcontent, hcontent, hl]
      refine .inr ⟨_, _, Program.analyze_of_verify_ok hp hverify,
        Program.analyze_of_verify_ok hq hverify', ?_⟩
      constructor
      · exact ht
      · exact congrArg Ledger.obligations hl
      · exact congrArg Ledger.warnings hl
      · exact l.content_output.trans (hholes ▸ l'.content_output.symm)

namespace NestedHoles

def program (outer inner : UInt64) : Program :=
  ⟨[], [], [],
    [.hole "outer" () ⟨outer, 4⟩,
      .block ⟨[], [⟨.var, [.bare "y"], .int, none, .none⟩], [], [.hole "inner" () ⟨inner, 4⟩],
        .none⟩ .none], .none⟩

def scopeSizes (a : Analysis) : List Nat := a.holes.map (·.env.entries.length)

end NestedHoles

open NestedHoles

theorem nested_holes_alike : (program 0 10).same (program 30 10) = true ∧
    ∃ a b, (program 0 10).analyze .default = .ok a ∧ (program 30 10).analyze .default = .ok b ∧
      a.Alike b ∧ scopeSizes a = [0, 1] ∧ scopeSizes b = [1, 0] := by
  have hsame : (program 0 10).same (program 30 10) = true := rfl
  have hfirst : ((program 0 10).analyze .default).map scopeSizes = .ok [0, 1] := by cbv
  have hsecond : ((program 30 10).analyze .default).map scopeSizes = .ok [1, 0] := by cbv
  rcases analysis_independent_of_locations hsame .default with
    ⟨e, e', he, -, -⟩ | ⟨a, b, ha, hb, halike⟩
  · rw [he] at hfirst
    cases hfirst
  · rw [ha] at hfirst
    rw [hb] at hsecond
    exact ⟨hsame, a, b, ha, hb, halike, Except.ok.inj hfirst, Except.ok.inj hsecond⟩

end GuardedCommands
