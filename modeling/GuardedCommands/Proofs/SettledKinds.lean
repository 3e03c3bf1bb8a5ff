import GuardedCommands.Proofs.RecordedKinds

/-!
# Kinds that are settled decide every check

When all solutions of a context give the type names the same kinds, no metavariable can be
left in these kinds: it could be solved in two ways.  So the kinds are looked up as they
are recorded, and inference finds every kind that the rules give without touching the
context.  Whether a type passes the check depends on the recorded kinds only, and not on
the names that have been issued.
-/

namespace GuardedCommands

open Ty (HasKind)

open KindContext

/-! ## No metavariables are left -/

theorem Kind.eq_of_under_eq {v w : String → Kind} {k : Kind} (h : k.under v = k.under w) :
    ∀ x ∈ k.freeVars, v x = w x := by
  induction k with
  | star => simp [freeVars]
  | metavar n =>
    intro x hx
    rw [NameSet.mem_singleton.1 hx]
    exact h
  | arrow dom cod ihdom ihcod =>
    obtain ⟨hdom, hcod⟩ := Kind.arrow.inj h
    intro x hx
    rcases NameSet.mem_union.1 hx with hx | hx
    · exact ihdom hdom x hx
    · exact ihcod hcod x hx

theorem KindContext.ne_of_unsolved {entries : List KindEntry} (hmetas : (metasIn entries).Nodup)
    {x : String} (hx : x ∈ unsolvedIn entries) {n : Name} {k : Kind}
    (hn : .solved n k ∈ entries) : n.text ≠ x := by
  rintro rfl
  obtain ⟨a, b, rfl⟩ := List.append_of_mem hn
  have hnone := solution?_of_unsolved hmetas hx
  rw [solution?_of_solved hmetas] at hnone
  cases hnone

theorem KindContext.Ordered.exists_solvedBy_eq {ctx : KindContext} (h : ctx.Ordered)
    (w : String → Kind) :
    ∃ v, SolvedBy v ctx.entries ∧ ∀ x ∈ unsolvedIn ctx.entries, v x = w x := by
  obtain ⟨v, hv, hw⟩ := KindContext.exists_solvedBy h.earlier (by simpa using h.metas) w
  exact ⟨v, hv, fun x hx => hw x fun n k hn => ne_of_unsolved h.metas hx hn⟩

namespace KindState.Records

variable {κ : Kinding} {st : KindState} {x : String} {k : Kind}

theorem lookup?_eq (h : st.Records κ) (hx : κ x = some k) :
    st.context.lookup? x = some k ∧ k.Over [] := by
  have hordered := h.valid.ordered
  obtain ⟨v, hv, hstar⟩ := hordered.exists_solvedBy_eq fun _ => .star
  obtain ⟨w, hw, harrow⟩ := hordered.exists_solvedBy_eq fun _ => .arrow .star .star
  have hkind : ∀ {u}, SolvedBy u st.context.entries →
      (annotation? x st.context.entries).map (Kind.under u) = some k := fun hu =>
    (congrFun (h.kinding _ hu) x).trans hx
  obtain ⟨j, hj, hjv⟩ := Option.map_eq_some_iff.1 (hkind hv)
  have hjw : j.under w = k := by simpa [hj] using hkind hw
  have hover := hordered.over_zonk (k := j) (by simpa using hordered.earlier.over_annotation hj)
  have hground : (st.context.zonk j).Over [] := by
    intro y hy
    have hsame : (st.context.zonk j).under v = (st.context.zonk j).under w := by
      rw [under_zonk hv, under_zonk hw, hjv, hjw]
    have hyv := Kind.eq_of_under_eq hsame y hy
    rw [hstar y (hover y hy), harrow y (hover y hy)] at hyv
    cases hyv
  have hzonk : st.context.zonk j = k := by
    rw [← hjv, ← under_zonk hv, Kind.under_of_ground hground]
  exact ⟨by rw [lookup?, hj, Option.map_some, hzonk], hzonk ▸ hground⟩

end KindState.Records

theorem Ty.HasKind.ground {A : Discipline} {κ : Kinding} {t : Ty} {k : Kind}
    (h : HasKind A κ t k) (hκ : ∀ x k, κ x = some k → k.Over []) : k.Over [] := by
  induction h with
  | base | array => exact Kind.over_star
  | tuple | arrow => exact Kind.over_starArity _
  | data h | rigid h | metavar h => exact hκ _ _ h
  | app _ _ _ ihf _ => exact (Kind.over_arrow.1 ihf).2

/-! ## Checks succeed by the rules -/

namespace Kind

theorem step_self (k : Kind) : ∃ parts, step k k = .split parts ∧ ∀ eq ∈ parts, eq.1 = eq.2 := by
  cases k with
  | star | arrow dom cod => exact ⟨_, rfl, by simp⟩
  | metavar n => exact ⟨[], by simp [step], by simp⟩

theorem solveAll_of_eq (loc : Loc) (eqs : List (Kind × Kind)) (st : KindState)
    (h : ∀ eq ∈ eqs, eq.1 = eq.2) : solveAll loc eqs st = .ok () st := by
  fun_induction solveAll loc eqs st with
  | case1 => rfl
  | case2 st k l rest parts hstep ih =>
    rw [List.forall_mem_cons] at h
    obtain ⟨parts', hparts', heq⟩ := step_self k
    obtain rfl : k = l := h.1
    obtain rfl : parts' = parts := by
      rw [hparts'] at hstep
      cases hstep
      rfl
    exact ih (List.forall_mem_append.2 ⟨heq, h.2⟩)
  | case3 st k l rest x m hstep | case4 st k l rest x m hstep | case5 st k l rest hstep =>
    obtain ⟨parts, hparts, -⟩ := step_self k
    obtain rfl : k = l := h (k, l) (.head _)
    rw [hparts] at hstep
    cases hstep

theorem unify_self (k : Kind) (loc : Loc) (st : KindState) : unify k k loc st = .ok () st :=
  solveAll_of_eq loc _ st (by simp)

theorem zonk_of_ground {k : Kind} (h : k.Over []) (ctx : KindContext) : ctx.zonk k = k :=
  bind_eq_self fun n hn => absurd (h n.text hn) List.not_mem_nil

theorem applied_of_ground {l k : Kind} (h : (arrow l k).Over []) (loc : Loc) (st : KindState) :
    applied (.arrow l k) l loc st = .ok k st := by
  unfold applied
  rw [EStateM.bind_of_ok (show (get : KindM KindState) st = .ok st st from rfl), zonk_of_ground h]
  dsimp only
  rw [EStateM.bind_of_ok (unify_self l loc st)]
  exact congrArg (EStateM.Result.ok · st) (zonk_of_ground (over_arrow.1 h).2 st.context)

end Kind

namespace Ty

variable {κ : Kinding} {st : KindState}

theorem nameKind_of_recorded (hst : st.Records κ) {n : Name} {k : Kind} (h : κ n.text = some k) :
    nameKind n st = .ok k st := by
  unfold nameKind
  rw [EStateM.bind_of_ok (show (get : KindM KindState) st = .ok st st from rfl),
    (hst.lookup?_eq h).1]
  rfl

/-- Inference finds the kind that the rules give. -/
theorem kind_of_hasKind (hst : st.Records κ) {t : Ty} {k : Kind} (h : HasKind .free κ t k) :
    t.kind st = .ok k st := by
  induction h with
  | base | tuple | arrow => rfl
  | data h | rigid h | metavar h => exact nameKind_of_recorded hst h
  | array _ ih =>
    rw [kind, EStateM.bind_of_ok ih, EStateM.bind_of_ok (Kind.unify_self ..)]
    rfl
  | app hf ha _ ihf iha =>
    rw [kind, EStateM.bind_of_ok ihf, EStateM.bind_of_ok iha]
    exact Kind.applied_of_ground (hf.ground fun x k hx => (hst.lookup?_eq hx).2) _ st

theorem checkStar_of_hasKind (hst : st.Records κ) {t : Ty} (h : HasKind .free κ t .star)
    (loc : Loc) : t.checkStar loc st = .ok () st := by
  rw [checkStar, EStateM.bind_of_ok (kind_of_hasKind hst h), Kind.unify_self]

end Ty

theorem ElaborationM.checkClosed_ends {κ : Kinding} {st : ElaborationState} (hst : st.Records κ)
    (t : Ty) : Ends (checkClosed t) st
      (fun _ st' => st'.Records κ ∧ st'.inProgress = st.inProgress ∧ HasKind .free κ t .star)
      fun _ => ¬ HasKind .free κ t .star := by
  unfold Ends
  cases hcheck : checkClosed t st with
  | ok a st' =>
    obtain ⟨hrecords, hkind⟩ := records_of_checkClosed hst hcheck
    exact ⟨hrecords, (checkClosed_spec hcheck).1.inProgress, hkind⟩
  | error e st' =>
    intro hkind
    rw [checkClosed, ofKinds, Ty.checkStar_of_hasKind hst hkind] at hcheck
    cases hcheck

end GuardedCommands
