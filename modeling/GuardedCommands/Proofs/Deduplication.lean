import GuardedCommands.Elaboration.Program
import GuardedCommands.Proofs.Lockstep

/-!
# Leaving out repeated obligations

When repetitions are to be left out, an obligation is left out if its digest has
come up before.  The digest is taken of the text of its two sides, so what is left
out reads like an obligation that has been kept, as far as digests tell texts
apart, and no two obligations that are kept read alike.

Obligations that read alike need not be the same.  The text shows no types, and two
blocks may declare a name at different types.  Of three truth values the first and
the third are equal if neither is equal to the second; this obligation is kept, and
the one about three integers that reads like it is left out.
-/

namespace GuardedCommands

namespace Obligation

def text (ob : Obligation) : String := ob.pre.expr.text ++ "\n" ++ ob.post.expr.text

def Same (a b : Obligation) : Prop :=
  a.pre.expr.same b.pre.expr = true ∧ a.post.expr.same b.post.expr = true

end Obligation

/-- Obligations are kept or left out one by one, and left out only if one that was kept
before is related to them. -/
inductive Thinned (R : Obligation → Obligation → Prop) : List Obligation → List Obligation → Prop
  | nil : Thinned R [] []
  | keep {full kept ob} (h : Thinned R full kept) : Thinned R (full ++ [ob]) (kept ++ [ob])
  | leave {full kept earlier ob} (h : Thinned R full kept) (hmem : earlier ∈ kept)
      (hR : R earlier ob) : Thinned R (full ++ [ob]) kept

namespace Thinned

variable {R R' : Obligation → Obligation → Prop} {full kept : List Obligation}

theorem subset (h : Thinned R full kept) : ∀ ob ∈ kept, ob ∈ full := by
  induction h with
  | nil => simp
  | keep _ ih =>
    intro ob hob
    rcases List.mem_append.1 hob with hob | hob
    · exact List.mem_append.2 (.inl (ih ob hob))
    · exact List.mem_append.2 (.inr hob)
  | leave _ _ _ ih => exact fun ob hob => List.mem_append.2 (.inl (ih ob hob))

theorem mono (h : Thinned R full kept) (hR : ∀ a ∈ full, ∀ b ∈ full, R a b → R' a b) :
    Thinned R' full kept := by
  induction h with
  | nil => exact .nil
  | keep _ ih =>
    exact .keep (ih fun a ha b hb => hR a (List.mem_append_left _ ha) b (List.mem_append_left _ hb))
  | leave h hmem hrel ih =>
    refine .leave (ih fun a ha b hb => ?_) hmem (hR _ ?_ _ ?_ hrel)
    · exact hR a (List.mem_append_left _ ha) b (List.mem_append_left _ hb)
    · exact List.mem_append_left _ (h.subset _ hmem)
    · exact List.mem_append_right _ (List.mem_singleton_self _)

theorem mem_or_related (h : Thinned R full kept) :
    ∀ ob ∈ full, ob ∈ kept ∨ ∃ earlier ∈ kept, R earlier ob := by
  induction h with
  | nil => simp
  | keep _ ih =>
    intro ob hob
    rcases List.mem_append.1 hob with hob | hob
    · rcases ih ob hob with hkept | ⟨earlier, hmem, hR⟩
      · exact .inl (List.mem_append_left _ hkept)
      · exact .inr ⟨earlier, List.mem_append_left _ hmem, hR⟩
    · exact .inl (List.mem_append_right _ hob)
  | leave _ hmem hR ih =>
    intro ob hob
    rcases List.mem_append.1 hob with hob | hob
    · exact ih ob hob
    · rw [List.mem_singleton.1 hob]
      exact .inr ⟨_, hmem, hR⟩

end Thinned

/-! ## One entry and a whole run -/

namespace Ledger

variable {o : Options} {pre post : Pred} {origin : Origin} {label : Option String} {l : Ledger}

theorem obligate_of_same (h : pre.expr.same post.expr = true) :
    l.obligate o pre post origin label = l := by
  simp [obligate, h]

theorem obligate_of_seen (hdedupe : o.dedupe = true)
    (h : Obligation.digest pre.expr post.expr ∈ l.seen) :
    l.obligate o pre post origin label = l := by
  simp [obligate, hdedupe, h]

theorem obligate_of_new (hsame : pre.expr.same post.expr = false)
    (h : Obligation.digest pre.expr post.expr ∈ l.seen → o.dedupe = false) :
    l.obligate o pre post origin label = { l with
      obligations := l.obligations ++
        [⟨pre, post, Obligation.idOf pre.expr post.expr o.idLength, label, origin⟩]
      seen := l.seen.insert (Obligation.digest pre.expr post.expr) } := by
  have hnew : (decide (Obligation.digest pre.expr post.expr ∈ l.seen) && o.dedupe) = false := by
    by_cases hseen : Obligation.digest pre.expr post.expr ∈ l.seen
    · simp [h hseen]
    · simp [hseen]
  simp only [obligate, hsame, hnew]
  rfl

theorem obligations_output (l : Ledger) : l.output.obligations = l.obligations := rfl

theorem obligations_recordHole (l : Ledger) (pre post : Pred) (env : TypeEnv) (loc : Loc) :
    (l.recordHole pre post env loc).obligations = l.obligations := rfl

/-- A ledger without repetitions, beside one with them. -/
structure Dedupes (l l' : Ledger) : Prop where
  thinned : Thinned (fun a b => Sha256.digest a.text = Sha256.digest b.text) l'.obligations
    l.obligations
  different : l.obligations.Pairwise fun a b => Sha256.digest a.text ≠ Sha256.digest b.text
  seen : ∀ x, x ∈ l.seen ↔ ∃ ob ∈ l.obligations, Sha256.digest ob.text = x

theorem Dedupes.obligate {l l' : Ledger} (h : Dedupes l l') (o : Options) (pre post : Pred)
    (origin : Origin) (label : Option String) :
    Dedupes (l.obligate { o with dedupe := true } pre post origin label)
      (l'.obligate { o with dedupe := false } pre post origin label) := by
  by_cases hsame : pre.expr.same post.expr = true
  · rw [obligate_of_same hsame, obligate_of_same hsame]
    exact h
  · rw [Bool.not_eq_true] at hsame
    rw [obligate_of_new (l := l') hsame fun _ => rfl]
    by_cases hseen : Obligation.digest pre.expr post.expr ∈ l.seen
    · rw [obligate_of_seen rfl hseen]
      obtain ⟨earlier, hmem, hdigest⟩ := (h.seen _).1 hseen
      exact ⟨.leave h.thinned hmem hdigest, h.different, h.seen⟩
    · rw [obligate_of_new hsame fun hmem => absurd hmem hseen]
      refine ⟨.keep h.thinned, ?_, fun x => ?_⟩
      · refine List.pairwise_append.2 ⟨h.different, List.pairwise_singleton _ _, ?_⟩
        intro earlier hmem ob hob hdigest
        rw [List.mem_singleton.1 hob] at hdigest
        exact hseen ((h.seen _).2 ⟨earlier, hmem, hdigest⟩)
      · rw [NameSet.mem_insert, h.seen]
        constructor
        · rintro (rfl | ⟨ob, hob, hdigest⟩)
          · exact ⟨_, List.mem_append_right _ (List.mem_singleton_self _), rfl⟩
          · exact ⟨ob, List.mem_append_left _ hob, hdigest⟩
        · rintro ⟨ob, hob, hdigest⟩
          rcases List.mem_append.1 hob with hob | hob
          · exact .inr ⟨ob, hob, hdigest⟩
          · rw [List.mem_singleton.1 hob] at hdigest
            exact .inl hdigest.symm

theorem dedupes_empty : Dedupes .empty .empty := by
  refine ⟨.nil, .nil, fun x => ?_⟩
  simp [empty]

end Ledger

theorem Options.related_dedupe (o : Options) :
    Options.Related { o with dedupe := true } { o with dedupe := false } Ledger.Dedupes where
  boundStem := rfl
  heapStem := rfl
  obligate pre post origin label _ _ h := h.obligate o pre post origin label
  recordHole _ _ _ _ _ _ h := ⟨h.thinned, h.different, h.seen⟩
  warn _ _ _ h := ⟨h.thinned, h.different, h.seen⟩

/-- An obligation is left out only if one that reads alike has been kept before, and then no
two that are kept read alike. -/
theorem dropped_obligation_reads_alike {p : TypedProgram} {o : Options} {all : Output}
    (h : p.verify { o with dedupe := false } = .ok all)
    (hdigest : Set.InjOn Sha256.digest {text | ∃ ob ∈ all.obligations, ob.text = text}) :
    ∃ out, p.verify { o with dedupe := true } = .ok out ∧
      Thinned (fun a b => a.text = b.text) all.obligations out.obligations ∧
      out.obligations.Pairwise fun a b => a.text ≠ b.text := by
  obtain ⟨l, l', hl, rfl, hdedupes⟩ :=
    TypedProgram.exists_related o.related_dedupe Ledger.dedupes_empty h
  refine ⟨l.output, hl, hdedupes.thinned.mono fun a ha b hb heq => ?_, ?_⟩
  · exact hdigest ⟨a, ha, rfl⟩ ⟨b, hb, rfl⟩ heq
  · exact hdedupes.different.imp fun hne heq => hne (congrArg Sha256.digest heq)

namespace Pigeonhole

def x (t : Ty) : TypedExpr := .ofVar (.bare "x") t
def y (t : Ty) : TypedExpr := .ofVar (.bare "y") t
def z (t : Ty) : TypedExpr := .ofVar (.bare "z") t

/-- Three values of a type, of which neighbours are claimed to be different and the outer ones
to be equal. -/
def sourceBlock (t : Ty) : Program :=
  ⟨[], [⟨.var, [.bare "x", .bare "y", .bare "z"], t, none, .none⟩], [],
    [.assert (.chain (.var (.bare "x") .none)
        [⟨.neq, .none, .var (.bare "y") .none⟩, ⟨.neq, .none, .var (.bare "z") .none⟩] .none) .none,
      .assert (.chain (.var (.bare "x") .none) [⟨.eq, .none, .var (.bare "z") .none⟩] .none) .none,
      .hole "" () .none], .none⟩

def source : Program :=
  ⟨[], [], [],
    [.hole "" () .none,
      .cond [⟨.lit (.bool true) .none, [.block (sourceBlock .bool) .none], .none⟩,
        ⟨.lit (.bool true) .none, [.block (sourceBlock .int) .none], .none⟩] .none], .none⟩

def differ (t : Ty) : TypedExpr :=
  .chain (x t) [⟨.neq, .funcs [t, t] .bool, .none, y t⟩, ⟨.neq, .funcs [t, t] .bool, .none, z t⟩]
    .bool .none

def agree (t : Ty) : TypedExpr := .compare (x t) .eq (z t)

def locals (t : Ty) : TypeEnv :=
  ⟨[(.bare "x", ⟨.var, t⟩), (.bare "y", ⟨.var, t⟩), (.bare "z", ⟨.var, t⟩)]⟩

def block (t : Ty) : TypedProgram :=
  ⟨[], [⟨.var, [.bare "x", .bare "y", .bare "z"], t, none, .none⟩], [],
    [.assert (differ t) .none, .assert (agree t) .none, .hole "" (locals t) .none], .none⟩

def typed : TypedProgram :=
  ⟨[], [], [],
    [.hole "" .empty .none,
      .cond [⟨.ofBool true, [.block (block .bool) .none], .none⟩,
        ⟨.ofBool true, [.block (block .int) .none], .none⟩] .none], .none⟩

theorem elaborate_source : source.elaborate = .ok typed := by cbv

theorem ofBlock_block (t : Ty) :
    (Wp.OpenBlock.ofBlock [∅] (block t) (.ofBool true)).renames.stmts (block t).stmts =
      (block t).stmts := by cbv

def record (o : Options) (t : Ty) (l : Ledger) : Ledger :=
  (l.obligate o (.assertion (differ t) .none) (.assertion (agree t) .none) ⟨.assertion, .none⟩
    none).recordHole (.assertion (agree t) .none) (.constant (.ofBool true)) (locals t) .none

theorem stmt_block (o : Options) (t : Ty) (origin : Origin) (label : Option String) (l : Ledger) :
    Structure.stmt o [∅] ⟨.constant (.ofBool true), origin, label⟩ (.block (block t) .none) l =
      .ok (differ t) (record o t l) := by
  simp only [Structure.stmt, Pred.expr, ofBlock_block]
  simp only [block, Segment.ofStmts, Structure.pullBack, Structure.segments, bind, EStateM.bind,
    pure, EStateM.pure, Structure.obligate, Structure.recordHole, modify, modifyGet,
    MonadStateOf.modifyGet, EStateM.modifyGet, Target.ofPred, Pred.loc]
  rfl

theorem exists_program (o : Options) : ∃ pre post, Structure.program o [] typed .empty =
    .ok () ((record o .int (record o .bool .empty)).recordHole pre post .empty .none) := by
  have hscope : NameSet.ofList (typed.boundNames.map (·.text)) = ∅ := rfl
  constructor
  constructor
  simp only [Structure.program, hscope]
  simp only [typed, List.getLast?, List.head?, List.getLast, Structure.assertionOf,
    Segment.ofStmts, Segment.consRun, Structure.segments, Structure.pullBack, bind, EStateM.bind,
    Structure.run, Structure.stmt, Structure.branches, stmt_block, Target.ofPred, Pred.loc,
    Pred.expr, pure, EStateM.pure]
  rfl

def opts (dedupe : Bool) : Options := { Options.default with dedupe := dedupe }

def obligation (t : Ty) : Obligation :=
  ⟨.assertion (differ t) .none, .assertion (agree t) .none,
    Obligation.idOf (differ t) (agree t) Options.default.idLength, none, ⟨.assertion, .none⟩⟩

theorem digest_obligation :
    Obligation.digest (differ .int) (agree .int) =
      Obligation.digest (differ .bool) (agree .bool) := by
  have hpre : (differ .int).text = (differ .bool).text := by cbv
  have hpost : (agree .int).text = (agree .bool).text := by cbv
  rw [Obligation.digest, hpre, hpost, Obligation.digest]

theorem record_of_new {b : Bool} {t : Ty} {l : Ledger}
    (h : Obligation.digest (differ t) (agree t) ∈ l.seen → b = false) :
    (record (opts b) t l).obligations = l.obligations ++ [obligation t] ∧
      (record (opts b) t l).seen = l.seen.insert (Obligation.digest (differ t) (agree t)) := by
  have hsame : (Pred.assertion (differ t) .none).expr.same
      (Pred.assertion (agree t) .none).expr = false := by
    simp [Pred.expr, differ, agree, TypedExpr.compare, TypedExpr.same, TypedExpr.sameLinks]
  rw [record, Ledger.obligate_of_new (o := opts b) hsame h]
  exact ⟨rfl, rfl⟩

theorem record_of_seen {t : Ty} {l : Ledger}
    (h : Obligation.digest (differ t) (agree t) ∈ l.seen) :
    (record (opts true) t l).obligations = l.obligations := by
  have hseen : Obligation.digest (Pred.assertion (differ t) .none).expr
      (Pred.assertion (agree t) .none).expr ∈ l.seen := h
  rw [record, Ledger.obligate_of_seen rfl hseen]
  rfl

theorem exists_all : ∃ all, typed.verify (opts false) = .ok all ∧
    all.obligations = [obligation .bool, obligation .int] := by
  obtain ⟨pre, post, h⟩ := exists_program (opts false)
  refine ⟨_, TypedProgram.verify_of_ok h, ?_⟩
  have hint := (record_of_new (l := record (opts false) .bool .empty) (t := .int) fun _ => rfl).1
  have hbool := (record_of_new (l := .empty) (t := .bool) fun _ => rfl).1
  rw [Ledger.obligations_output, Ledger.obligations_recordHole, hint, hbool]
  rfl

theorem exists_out : ∃ out, typed.verify (opts true) = .ok out ∧
    out.obligations = [obligation .bool] := by
  obtain ⟨pre, post, h⟩ := exists_program (opts true)
  refine ⟨_, TypedProgram.verify_of_ok h, ?_⟩
  have hempty : Obligation.digest (differ .bool) (agree .bool) ∉ Ledger.empty.seen :=
    NameSet.not_mem_empty _
  obtain ⟨hbool, hseen⟩ := record_of_new (b := true) fun hmem => absurd hmem hempty
  have hint : (record (opts true) .int (record (opts true) .bool .empty)).obligations =
      (record (opts true) .bool .empty).obligations := by
    apply record_of_seen
    rw [hseen, digest_obligation]
    exact NameSet.mem_insert.2 (.inl rfl)
  rw [Ledger.obligations_output, Ledger.obligations_recordHole, hint, hbool]
  rfl

theorem text_of_mem {all : Output} (h : all.obligations = [obligation .bool, obligation .int]) :
    ∀ ob ∈ all.obligations, ob.text = (obligation .bool).text := by
  have htext : (obligation .int).text = (obligation .bool).text := by cbv
  rw [h]
  simpa using htext

theorem injOn_digest {all : Output} (h : all.obligations = [obligation .bool, obligation .int]) :
    Set.InjOn Sha256.digest {text | ∃ ob ∈ all.obligations, ob.text = text} := by
  rintro _ ⟨a, ha, rfl⟩ _ ⟨b, hb, rfl⟩ _
  rw [text_of_mem h a ha, text_of_mem h b hb]

end Pigeonhole

open Pigeonhole

theorem pigeonhole_reads_alike : ∃ all, typed.verify { Options.default with dedupe := false } =
      .ok all ∧ Set.InjOn Sha256.digest {text | ∃ ob ∈ all.obligations, ob.text = text} ∧
    ∃ out, typed.verify { Options.default with dedupe := true } = .ok out ∧
      Thinned (fun a b => a.text = b.text) all.obligations out.obligations ∧
      out.obligations.Pairwise fun a b => a.text ≠ b.text := by
  obtain ⟨all, hall, hobligations⟩ := exists_all
  exact ⟨all, hall, injOn_digest hobligations,
    dropped_obligation_reads_alike hall (injOn_digest hobligations)⟩

/-- The obligation that is left out is not the same as the one that was kept. -/
theorem dropped_obligation_not_same : source.elaborate = .ok typed ∧
    ∃ all out, typed.verify { Options.default with dedupe := false } = .ok all ∧
      Set.InjOn Sha256.digest {text | ∃ ob ∈ all.obligations, ob.text = text} ∧
      typed.verify { Options.default with dedupe := true } = .ok out ∧
      ¬ Thinned Obligation.Same all.obligations out.obligations := by
  obtain ⟨all, hall, hobligations⟩ := exists_all
  obtain ⟨out, hout, hkept⟩ := exists_out
  refine ⟨elaborate_source, all, out, hall, injOn_digest hobligations, hout, fun hthinned => ?_⟩
  have hdiffer : (differ .bool).same (differ .int) = false := by cbv
  rw [hobligations, hkept] at hthinned
  rcases hthinned.mem_or_related (obligation .int) (by simp) with hmem | ⟨ob, hmem, hsame, -⟩
  · have heq : differ .int = differ .bool :=
      congrArg (fun ob : Obligation => ob.pre.expr) (List.mem_singleton.1 hmem)
    have hself : (differ .bool).same (differ .bool) = true := by cbv
    rw [heq, hself] at hdiffer
    cases hdiffer
  · rw [List.mem_singleton.1 hmem] at hsame
    exact absurd (hdiffer.symm.trans hsame) Bool.false_ne_true

end GuardedCommands
