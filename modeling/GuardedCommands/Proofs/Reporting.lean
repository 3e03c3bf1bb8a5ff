import GuardedCommands.Proofs.Deduplication

/-!
# Options change only what is reported

Besides the stems of new names, options say whether repeated obligations are left
out and how long identifiers are.  There is one complete run, which keeps every
obligation and identifies none, and under any options the output is the output of
this run with repetitions left out, if that is wanted, and with identifiers
added.

Repetitions are recognised by whole digests.  So short identifiers do not make
obligations fall together, however short they are.
-/

namespace GuardedCommands

/-! ## The first of every key -/

section Firsts

variable {α κ : Type} [DecidableEq κ] {key : α → κ} {l : List α} {a : α}

/-- The first member of every key, in order. -/
def firsts (key : α → κ) (l : List α) : List α := l.eraseDupsBy fun a b => key a == key b

theorem eraseDupsBy_loop_append (r : α → α → Bool) (l kept : List α) (a : α) :
    List.eraseDupsBy.loop r (l ++ [a]) kept =
      if (List.eraseDupsBy.loop r l kept).any (r a) then List.eraseDupsBy.loop r l kept
      else List.eraseDupsBy.loop r l kept ++ [a] := by
  induction l generalizing kept with
  | nil =>
    by_cases ha : kept.any (r a) = true
    · simp [List.eraseDupsBy.loop, ha]
    · simp [List.eraseDupsBy.loop, ha]
  | cons b l ih =>
    by_cases hb : kept.any (r b) = true
    · simp only [List.cons_append, List.eraseDupsBy.loop, hb]
      exact ih kept
    · simp only [List.cons_append, List.eraseDupsBy.loop, hb]
      exact ih (b :: kept)

theorem firsts_append (l : List α) (a : α) :
    firsts key (l ++ [a]) =
      if key a ∈ (firsts key l).map key then firsts key l else firsts key l ++ [a] := by
  have happend := eraseDupsBy_loop_append (fun a b => key a == key b) l [] a
  have hany : (firsts key l).any (fun b => key a == key b) = true ↔
      key a ∈ (firsts key l).map key := by
    simp only [List.any_eq_true, beq_iff_eq, List.mem_map, @eq_comm _ (key a)]
  simp only [← hany]
  exact happend

theorem mem_map_firsts {x : κ} : x ∈ (firsts key l).map key ↔ x ∈ l.map key := by
  induction l using List.reverseRecOn with
  | nil => rfl
  | append_singleton l a ih =>
    rw [firsts_append]
    by_cases ha : key a ∈ (firsts key l).map key
    · rw [if_pos ha, List.map_append, List.mem_append, ih, List.map_singleton,
        List.mem_singleton]
      constructor
      · exact .inl
      · rintro (hx | rfl)
        · exact hx
        · exact ih.1 ha
    · rw [if_neg ha, List.map_append, List.map_append, List.mem_append, List.mem_append, ih]

theorem firsts_append_of_mem (h : key a ∈ l.map key) : firsts key (l ++ [a]) = firsts key l := by
  rw [firsts_append, if_pos (mem_map_firsts.2 h)]

theorem firsts_append_of_not_mem (h : key a ∉ l.map key) :
    firsts key (l ++ [a]) = firsts key l ++ [a] := by
  rw [firsts_append, if_neg fun hmem => h (mem_map_firsts.1 hmem)]

theorem nodup_map_firsts (key : α → κ) (l : List α) : ((firsts key l).map key).Nodup := by
  induction l using List.reverseRecOn with
  | nil => exact List.nodup_nil
  | append_singleton l a ih =>
    rw [firsts_append]
    by_cases ha : key a ∈ (firsts key l).map key
    · rw [if_pos ha]
      exact ih
    · rw [if_neg ha, List.map_append, List.map_singleton, ← List.concat_eq_append]
      exact ih.concat ha

theorem firsts_map {f : α → α} (hf : ∀ a, key (f a) = key a) (l : List α) :
    firsts key (l.map f) = (firsts key l).map f := by
  have hkeys : ∀ l : List α, (l.map f).map key = l.map key := by
    intro l
    simp only [List.map_map, Function.comp_def, hf]
  induction l using List.reverseRecOn with
  | nil => rfl
  | append_singleton l a ih =>
    rw [List.map_append, List.map_singleton]
    by_cases ha : key a ∈ l.map key
    · rw [firsts_append_of_mem ha, ← ih]
      apply firsts_append_of_mem
      rwa [hf, hkeys]
    · rw [firsts_append_of_not_mem ha, List.map_append, List.map_singleton, ← ih]
      apply firsts_append_of_not_mem
      rwa [hf, hkeys]

end Firsts

/-! ## Identifiers -/

namespace Obligation

def key (ob : Obligation) : String := Sha256.digest ob.text

def identified (o : Options) (ob : Obligation) : Obligation :=
  { ob with id := shortId ob.key o.idLength }

def anonymous (ob : Obligation) : Obligation := { ob with id := "" }

@[simp] theorem key_identified (o : Options) (ob : Obligation) : (ob.identified o).key = ob.key :=
  rfl

@[simp] theorem anonymous_identified (o : Options) (ob : Obligation) :
    (ob.identified o).anonymous = ob.anonymous := rfl

theorem shortId_key (ob : Obligation) (n : Nat) :
    shortId ob.key n = String.ofList (ob.key.toList.take (min n 64)) := by
  have hlength : ob.key.toList.length = 64 := Sha256.length_digest ob.text
  have htake : ob.key.toList.take (min n 64) = ob.key.toList.take n := by
    rw [List.take_eq_take_iff]
    omega
  rw [htake, shortId]

end Obligation

/-! ## The complete run -/

namespace Options

def complete (o : Options) : Options := { o with dedupe := false, idLength := 0 }

def select (o : Options) (obs : List Obligation) : List Obligation :=
  (if o.dedupe then firsts Obligation.key obs else obs).map (Obligation.identified o)

def report (o : Options) (all : Output) : Output :=
  { all with obligations := o.select all.obligations }

variable {o : Options} {obs : List Obligation} {ob : Obligation}

theorem select_append_of_mem (hdedupe : o.dedupe = true) (h : ob.key ∈ obs.map (·.key)) :
    o.select (obs ++ [ob]) = o.select obs := by
  simp only [select, hdedupe, if_true, firsts_append_of_mem h]

theorem select_append_of_new (h : o.dedupe = true → ob.key ∉ obs.map (·.key)) :
    o.select (obs ++ [ob]) = o.select obs ++ [ob.identified o] := by
  by_cases hdedupe : o.dedupe = true
  · simp only [select, hdedupe, if_true, firsts_append_of_not_mem (h hdedupe), List.map_append,
      List.map_singleton]
  · simp only [select, hdedupe, Bool.false_eq_true, if_false, List.map_append, List.map_singleton]

end Options

namespace Ledger

variable {o : Options} {l all : Ledger}

/-- A ledger under options, beside the ledger of the complete run. -/
structure Selects (o : Options) (l all : Ledger) : Prop where
  obligations : l.obligations = o.select all.obligations
  seen : o.dedupe = true → ∀ x, x ∈ l.seen ↔ x ∈ all.obligations.map (·.key)
  holes : l.holes = all.holes
  warnings : l.warnings = all.warnings

theorem selects_empty (o : Options) : Selects o .empty .empty := by
  refine ⟨?_, fun _ x => ?_, rfl, rfl⟩
  · unfold Options.select
    split <;> rfl
  · simp [empty]

theorem Selects.obligate (h : Selects o l all) (pre post : Pred) (origin : Origin)
    (label : Option String) :
    Selects o (l.obligate o pre post origin label)
      (all.obligate o.complete pre post origin label) := by
  by_cases hsame : pre.expr.same post.expr = true
  · rw [obligate_of_same hsame, obligate_of_same hsame]
    exact h
  rw [Bool.not_eq_true] at hsame
  rw [obligate_of_new (l := all) hsame fun _ => rfl]
  have hkey : ∀ id, (⟨pre, post, id, label, origin⟩ : Obligation).key =
      Obligation.digest pre.expr post.expr := fun _ => rfl
  by_cases hknown : o.dedupe = true ∧ Obligation.digest pre.expr post.expr ∈ l.seen
  · obtain ⟨hdedupe, hseen⟩ := hknown
    have hmem := (h.seen hdedupe _).1 hseen
    rw [obligate_of_seen hdedupe hseen]
    refine ⟨?_, fun _ x => ?_, h.holes, h.warnings⟩
    · dsimp only
      rw [h.obligations, Options.select_append_of_mem hdedupe (by rwa [hkey])]
    · rw [h.seen hdedupe, List.map_append, List.mem_append, List.map_singleton,
        List.mem_singleton, hkey]
      constructor
      · exact .inl
      · rintro (hx | rfl)
        · exact hx
        · exact hmem
  · have hnew : o.dedupe = true → Obligation.digest pre.expr post.expr ∉ l.seen :=
      fun hdedupe hseen => hknown ⟨hdedupe, hseen⟩
    rw [obligate_of_new hsame fun hseen => Bool.eq_false_iff.2 fun hdedupe => hnew hdedupe hseen]
    refine ⟨?_, fun hdedupe x => ?_, h.holes, h.warnings⟩
    · dsimp only
      rw [h.obligations, Options.select_append_of_new fun hdedupe => ?_]
      · rfl
      · rw [hkey, ← h.seen hdedupe]
        exact hnew hdedupe
    · rw [NameSet.mem_insert, h.seen hdedupe, List.map_append, List.mem_append,
        List.map_singleton, List.mem_singleton, hkey, or_comm]

end Ledger

theorem Options.related_complete (o : Options) :
    Options.Related o o.complete (Ledger.Selects o) where
  boundStem := rfl
  heapStem := rfl
  obligate pre post origin label _ _ h := h.obligate pre post origin label
  recordHole _ _ _ _ _ _ h := by
    refine ⟨h.obligations, h.seen, ?_, h.warnings⟩
    simp only [Ledger.recordHole, h.holes]
  warn _ _ _ h := by
    refine ⟨h.obligations, h.seen, h.holes, ?_⟩
    simp only [Ledger.warn, h.warnings]

theorem Ledger.Selects.output {o : Options} {l all : Ledger} (h : Selects o l all) :
    l.output = o.report all.output := by
  simp only [Ledger.output, Options.report, h.obligations, h.holes, h.warnings]

/-- Under any options, the output is what they select from the complete one. -/
theorem TypedProgram.verify_eq_report (p : TypedProgram) (o : Options) :
    p.verify o = (p.verify o.complete).map o.report := by
  have hlockstep : Lockstep (Ledger.Selects o) (Structure.program o [] p)
      (Structure.program o.complete [] p) :=
    (Structure.lockstep o.related_complete).1 _ _ _ _
  rcases hlockstep .empty .empty (Ledger.selects_empty o) with
    ⟨_, l, all, hl, hall, h⟩ | ⟨e, l, all, hl, hall, -⟩
  · rw [verify_of_ok hl, verify_of_ok hall, h.output]
    rfl
  · simp only [verify, Verifier.program, Verifier.start, hl, hall]
    rfl

/-! ## Two options -/

/-- What the outputs of a program under two options have in common. -/
structure ReportedAlike (o o' : Options) (out out' : Output) : Prop where
  holes : out.holes = out'.holes
  warnings : out.warnings = out'.warnings
  /-- An identifier consists of the first digits of a digest. -/
  ids : ∀ ob ∈ out.obligations,
    ob.id = String.ofList ((Sha256.digest ob.text).toList.take (min o.idLength 64))
  /-- Identifiers aside, obligations do not depend on the length of identifiers. -/
  obligations : o.dedupe = o'.dedupe →
    out.obligations.map (·.anonymous) = out'.obligations.map (·.anonymous)
  /-- Identifiers aside, only the first obligation of every digest is kept, and all of these. -/
  kept : o.dedupe = true → o'.dedupe = false → out.obligations.map (·.anonymous) =
    (firsts (fun ob => Sha256.digest ob.text) out'.obligations).map (·.anonymous)
  distinct : o.dedupe = true → (out.obligations.map fun ob => Sha256.digest ob.text).Nodup

theorem Options.complete_congr {o o' : Options} (hbound : o.boundStem = o'.boundStem)
    (hheap : o.heapStem = o'.heapStem) : o.complete = o'.complete := by
  simp only [complete, hbound, hheap]

theorem Options.map_anonymous_select (o : Options) (obs : List Obligation) :
    (o.select obs).map (·.anonymous) =
      (if o.dedupe then firsts Obligation.key obs else obs).map (·.anonymous) := by
  simp only [select, List.map_map, Function.comp_def, Obligation.anonymous_identified]

theorem Options.reportedAlike (o o' : Options) (all : Output) :
    ReportedAlike o o' (o.report all) (o'.report all) where
  holes := rfl
  warnings := rfl
  ids ob hob := by
    obtain ⟨ob', -, rfl⟩ := List.mem_map.1 hob
    exact ob'.shortId_key o.idLength
  obligations hdedupe := by
    simp only [report, map_anonymous_select, hdedupe]
  kept hdedupe hdedupe' := by
    have hall : o'.select all.obligations = all.obligations.map (Obligation.identified o') := by
      rw [select, hdedupe', if_neg Bool.false_ne_true]
    have hfirsts : firsts Obligation.key (o'.select all.obligations) =
        (firsts Obligation.key all.obligations).map (Obligation.identified o') := by
      rw [hall, firsts_map (Obligation.key_identified o')]
    calc
      (o.select all.obligations).map (·.anonymous) =
          (firsts Obligation.key all.obligations).map (·.anonymous) := by
        rw [map_anonymous_select, if_pos hdedupe]
      _ = (firsts Obligation.key (o'.select all.obligations)).map (·.anonymous) := by
        rw [hfirsts, List.map_map]
        rfl
  distinct hdedupe := by
    have hkeys : (o.select all.obligations).map Obligation.key =
        (firsts Obligation.key all.obligations).map Obligation.key := by
      simp only [select, hdedupe, if_true, List.map_map, Function.comp_def,
        Obligation.key_identified]
    exact hkeys ▸ nodup_map_firsts Obligation.key all.obligations

/-- Options that agree on the stems of new names change only what is reported: a program fails
under both with the same error, or it has outputs under both that differ in the identifiers of
obligations and in repeated obligations. -/
theorem options_change_only_reporting {p : TypedProgram} {o o' : Options}
    (hbound : o.boundStem = o'.boundStem) (hheap : o.heapStem = o'.heapStem) :
    (∃ e, p.verify o = .error e ∧ p.verify o' = .error e) ∨
      ∃ out out', p.verify o = .ok out ∧ p.verify o' = .ok out' ∧ ReportedAlike o o' out out' := by
  have hverify := p.verify_eq_report o
  have hverify' := p.verify_eq_report o'
  rw [← Options.complete_congr hbound hheap] at hverify'
  cases hall : p.verify o.complete with
  | error e =>
    rw [hall] at hverify hverify'
    exact .inl ⟨e, hverify, hverify'⟩
  | ok all =>
    rw [hall] at hverify hverify'
    exact .inr ⟨_, _, hverify, hverify', o.reportedAlike o' all⟩

namespace Pigeonhole

def brief : Options := { opts true with idLength := 4 }

theorem firsts_obligations :
    firsts (fun ob => Sha256.digest ob.text) [obligation .bool, obligation .int] =
      [obligation .bool] := by
  have hkey : (obligation .int).key = (obligation .bool).key := digest_obligation
  have hmem : (obligation .int).key ∈ [obligation .bool].map Obligation.key := by
    rw [hkey]
    exact List.mem_singleton_self _
  change firsts Obligation.key ([obligation .bool] ++ [obligation .int]) = _
  rw [firsts_append_of_mem hmem]
  rfl

end Pigeonhole

open Pigeonhole

theorem pigeonhole_reported : brief.boundStem = (opts false).boundStem ∧
    brief.heapStem = (opts false).heapStem ∧
    ∃ out out', typed.verify brief = .ok out ∧ typed.verify (opts false) = .ok out' ∧
      ReportedAlike brief (opts false) out out' ∧
      out.obligations.length = 1 ∧ out'.obligations.length = 2 := by
  refine ⟨rfl, rfl, ?_⟩
  obtain ⟨all, hall, hobligations⟩ := exists_all
  rcases @options_change_only_reporting typed brief (opts false) rfl rfl with
    ⟨e, -, he⟩ | ⟨out, out', hout, hout', halike⟩
  · rw [hall] at he
    cases he
  · rw [hall] at hout'
    cases hout'
    refine ⟨out, all, hout, hall, halike, ?_, by rw [hobligations]; rfl⟩
    have hkept := congrArg List.length (halike.kept rfl rfl)
    rwa [hobligations, firsts_obligations, List.length_map, List.length_map] at hkept

end GuardedCommands
