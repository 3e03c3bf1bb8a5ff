import GuardedCommands.Proofs.SettledKinds

/-!
# Unification of kinds is most general

Unification narrows choices down to those that make the two kinds equal, and it loses
none of these.  A metavariable is solved by a kind that every such choice gives it.  A
promotion puts in a new metavariable, which can be chosen only as the one that is
solved by it, so each choice from before goes on in one way.  It follows that
unification fails only where no choice is left: two kinds clash under every choice,
and a metavariable inside a kind is smaller than it.
-/

namespace GuardedCommands

open KindContext

/-! ## Choices that go on -/

/-- A context admits a choice of ground kinds for its metavariables if the choice respects the
solutions recorded in it. -/
structure KindState.Admits (st : KindState) (v : String → Kind) : Prop where
  ground : ∀ x ∈ metasIn st.context.entries, (v x).Over []
  solved : SolvedBy v st.context.entries

/-- From one context to a later one, the choice `v` goes on as `w`. -/
structure KindState.Continues (st : KindState) (v : String → Kind) (st' : KindState)
    (w : String → Kind) : Prop where
  evolves : st.Evolves st'
  admits : st'.Admits w
  same : ∀ x ∈ metasIn st.context.entries, w x = v x

/-- A computation succeeds, and the choice `v` goes on to its end. -/
def Keeps {α : Type} (m : KindM α) (st : KindState) (v : String → Kind)
    (Q : α → KindState → (String → Kind) → Prop) : Prop :=
  ∃ a st' w, m st = .ok a st' ∧ st.Continues v st' w ∧ Q a st' w

theorem KindContext.Ordered.over_solved {ctx : KindContext} (h : ctx.Ordered) {n : Name} {k : Kind}
    (hk : .solved n k ∈ ctx.entries) : k.Over (metasIn ctx.entries) := by
  obtain ⟨a, b, hab⟩ := List.append_of_mem hk
  have hearlier := h.earlier
  rw [hab, earlier_append] at hearlier
  intro x hx
  have hmem : x ∈ metasIn a := by simpa using hearlier.2.1 x hx
  simp [hab, hmem]

namespace KindState

variable {st st₁ st₂ : KindState} {v w u : String → Kind} {k : Kind}

theorem Admits.congr (hst : st.Valid) (hv : st.Admits v)
    (hsame : ∀ x ∈ metasIn st.context.entries, w x = v x) : st.Admits w := by
  refine ⟨fun x hx => hsame x hx ▸ hv.ground x hx, fun n k hk => ?_⟩
  rw [hsame _ (mem_metasIn_of_solved hk), hv.solved n k hk]
  exact Kind.under_congr fun x hx => (hsame x (hst.ordered.over_solved hk x hx)).symm

namespace Continues

theorem refl (hst : st.Valid) (hv : st.Admits v) : st.Continues v st v :=
  ⟨.refl hst, hv, fun _ _ => rfl⟩

theorem trans (h : st.Continues v st₁ w) (h' : st₁.Continues w st₂ u) : st.Continues v st₂ u :=
  ⟨h.evolves.trans h'.evolves, h'.admits, fun x hx =>
    (h'.same x (h.evolves.metas hx)).trans (h.same x hx)⟩

theorem under_eq (h : st.Continues v st₁ w) (hk : k.Over (metasIn st.context.entries)) :
    k.under w = k.under v :=
  Kind.under_congr fun x hx => h.same x (hk x hx)

end Continues

end KindState

namespace Keeps

variable {α β : Type} {m : KindM α} {f : α → KindM β} {st : KindState} {v : String → Kind}
  {Q Q' : α → KindState → (String → Kind) → Prop} {P : β → KindState → (String → Kind) → Prop}

theorem bind (h : Keeps m st v Q)
    (hf : ∀ a st' w, st.Continues v st' w → Q a st' w → Keeps (f a) st' w P) :
    Keeps (m >>= f) st v P := by
  obtain ⟨a, st₁, w, hm, h₁, hQ⟩ := h
  obtain ⟨b, st₂, u, hb, h₂, hP⟩ := hf a st₁ w h₁ hQ
  exact ⟨b, st₂, u, (EStateM.bind_of_ok hm).trans hb, h₁.trans h₂, hP⟩

theorem imp (h : Keeps m st v Q)
    (hQ : ∀ a st' w, st.Continues v st' w → Q a st' w → Q' a st' w) : Keeps m st v Q' := by
  obtain ⟨a, st₁, w, hm, h₁, hq⟩ := h
  exact ⟨a, st₁, w, hm, h₁, hQ a st₁ w h₁ hq⟩

theorem get {f : KindState → KindM β} (h : Keeps (f st) st v P) :
    Keeps (MonadState.get >>= f) st v P := h

theorem pure {a : α} (hst : st.Valid) (hv : st.Admits v) (hQ : Q a st v) :
    Keeps (Pure.pure a) st v Q :=
  ⟨a, st, v, rfl, .refl hst hv, hQ⟩

end Keeps

/-! ## Solving loses no choice -/

namespace Kind

variable {v : String → Kind} {k l j : Kind} {x : String}

theorem size_le_under (hx : x ∈ k.freeVars) : (v x).size ≤ (k.under v).size := by
  induction k with
  | star => simp [freeVars] at hx
  | metavar n => rw [NameSet.mem_singleton.1 hx, under_metavar]
  | arrow dom cod ihdom ihcod =>
    rw [under_arrow, size]
    rcases NameSet.mem_union.1 hx with hx | hx
    · have := ihdom hx
      omega
    · have := ihcod hx
      omega

theorem ne_under_arrow {dom cod : Kind} (hx : x ∈ (arrow dom cod).freeVars) :
    v x ≠ (arrow dom cod).under v := by
  intro heq
  have hsize := congrArg size heq
  rw [under_arrow, size] at hsize
  rcases NameSet.mem_union.1 hx with hx | hx
  · have := size_le_under (v := v) hx
    omega
  · have := size_le_under (v := v) hx
    omega

theorem step_ne_clash (h : k.under v = l.under v) : step k l ≠ .clash := by
  cases k with
  | metavar a =>
    cases l with
    | metavar b =>
      rw [step]
      split <;> simp
    | star | arrow => simp [step]
  | star =>
    cases l with
    | arrow c d => cases h
    | star | metavar => simp [step]
  | arrow a b =>
    cases l with
    | star => cases h
    | arrow | metavar => simp [step]

theorem under_eq_of_split {parts : List (Kind × Kind)} (hstep : step k l = .split parts)
    (h : k.under v = l.under v) : ∀ eq ∈ parts, eq.1.under v = eq.2.under v := by
  unfold step at hstep
  split at hstep
  · cases hstep
    simp
  · cases hstep
    rw [under_arrow, under_arrow, arrow.injEq] at h
    simp [h.1, h.2]
  · split at hstep
    · cases hstep
      simp
    · cases hstep
  all_goals cases hstep

theorem eq_of_step_solve (hstep : step k l = .solve x j) :
    ∃ a : Name, a.text = x ∧ (∀ b : Name, j = .metavar b → a.text ≠ b.text) ∧
      (k = .metavar a ∧ j = l ∨ l = .metavar a ∧ j = k) := by
  cases k with
  | metavar a =>
    cases l with
    | metavar b =>
      rw [step] at hstep
      split at hstep
      · cases hstep
      · next hne =>
        cases hstep
        refine ⟨a, rfl, fun b' hb => ?_, .inl ⟨rfl, rfl⟩⟩
        cases hb
        exact hne
    | star | arrow =>
      cases hstep
      exact ⟨a, rfl, by simp, .inl ⟨rfl, rfl⟩⟩
  | star | arrow =>
    cases l with
    | metavar b =>
      cases hstep
      exact ⟨b, rfl, by simp, .inr ⟨rfl, rfl⟩⟩
    | star | arrow => cases hstep

theorem under_eq_of_step_solve (hstep : step k l = .solve x j) (h : k.under v = l.under v) :
    (x ∈ k.freeVars ∨ x ∈ l.freeVars) ∧ x ∉ j.freeVars ∧ v x = j.under v := by
  obtain ⟨a, rfl, hne, heqs⟩ := eq_of_step_solve hstep
  have heq : v a.text = j.under v := by
    rcases heqs with ⟨rfl, rfl⟩ | ⟨rfl, rfl⟩
    · exact h
    · exact h.symm
  refine ⟨?_, fun hmem => ?_, heq⟩
  · rcases heqs with ⟨rfl, -⟩ | ⟨rfl, -⟩
    · exact .inl (by simp [freeVars])
    · exact .inr (by simp [freeVars])
  · cases j with
    | star => simp [freeVars] at hmem
    | metavar b => exact hne b rfl (NameSet.mem_singleton.1 hmem)
    | arrow dom cod => exact ne_under_arrow hmem heq

end Kind

theorem KindContext.exists_split? {x : String} {entries : List KindEntry}
    (h : x ∈ unsolvedIn entries) :
    ∃ before n after, split? x entries = some (before, n, after) := by
  induction entries with
  | nil => simp at h
  | cons e rest ih =>
    have hrest : x ∈ unsolvedIn rest →
        (∀ r, split? x rest = some r → split? x (e :: rest) = some (e :: r.1, r.2)) →
        ∃ before n after, split? x (e :: rest) = some (before, n, after) := by
      intro hx hcons
      obtain ⟨before, n, after, hsplit⟩ := ih hx
      exact ⟨e :: before, n, after, hcons _ hsplit⟩
    cases e with
    | annotated | solved => exact hrest h fun r hr => by simp [split?, hr]
    | unsolved n =>
      by_cases hn : n.text = x
      · exact ⟨[], n, rest, by simp [split?, hn]⟩
      · exact hrest ((List.mem_cons.1 h).resolve_left (Ne.symm hn)) fun r hr => by
          simp [split?, hn, hr]

theorem KindContext.SolvedBy.solve {v : String → Kind} {before after : List KindEntry} {n : Name}
    {k : Kind} (h : SolvedBy v (before ++ .unsolved n :: after)) (hn : v n.text = k.under v) :
    SolvedBy v (before ++ .solved n k :: after) := by
  intro m j hmem
  simp only [List.mem_append, List.mem_cons, KindEntry.solved.injEq] at hmem
  rcases hmem with hmem | ⟨rfl, rfl⟩ | hmem
  · exact h m j (by simp [hmem])
  · exact hn
  · exact h m j (by simp [hmem])

namespace KindState

variable {supply : Supply} {v : String → Kind} {n : Name} {k : Kind}

theorem continues_insert (before after : List KindEntry)
    (hst : Valid ⟨supply, ⟨before ++ after⟩⟩) (hv : Admits ⟨supply, ⟨before ++ after⟩⟩ v)
    (hk : k.Over []) :
    Continues ⟨supply, ⟨before ++ after⟩⟩ v
      ⟨supply.advance, ⟨before ++ .unsolved (supply.next "k") :: after⟩⟩
      (Function.update v (supply.next "k").text k) := by
  have hsame : ∀ x ∈ metasIn (before ++ after),
      Function.update v (supply.next "k").text k x = v x := by
    intro x hx
    refine Function.update_of_ne ?_ _ _
    rintro rfl
    exact hst.next_not_mem hx
  have hw := hv.congr hst hsame
  refine ⟨hst.insert before after, ⟨fun x hx => ?_, hw.solved.mono (by simp)⟩, hsame⟩
  by_cases hnew : x = (supply.next "k").text
  · rw [hnew, Function.update_self]
    exact hk
  · refine hw.ground x ?_
    simpa [hnew] using hx

theorem continues_solve (before after : List KindEntry)
    (hst : Valid ⟨supply, ⟨before ++ .unsolved n :: after⟩⟩)
    (hv : Admits ⟨supply, ⟨before ++ .unsolved n :: after⟩⟩ v) (hk : k.Over (metasIn before))
    (hn : v n.text = k.under v) :
    Continues ⟨supply, ⟨before ++ .unsolved n :: after⟩⟩ v
      ⟨supply, ⟨before ++ .solved n k :: after⟩⟩ v :=
  ⟨hst.solve before after hk, ⟨by simpa using hv.ground, hv.solved.solve hn⟩, fun _ _ => rfl⟩

end KindState

namespace Focus

variable {n : Name} {v : String → Kind} {f : Focus}

/-- The metavariable that comes to the front is chosen as the one that it stands for. -/
theorem continues_promote (h : (f.around n).Valid) (hv : (f.around n).Admits v) (x : String) :
    ∃ w, (f.around n).Continues v ((f.promote x).around n) w := by
  unfold promote
  split
  · next hany =>
    obtain ⟨a, m, b, hafter, rfl, hsolve⟩ := solveFirst_eq (k := .metavar (f.supply.next "k")) hany
    have hm : m.text ∈ metasIn (f.around n).context.entries := by simp [around, hafter]
    have hinsert := KindState.continues_insert f.before _ h hv (hv.ground _ hm)
    have hchosen := hinsert.same _ hm
    have hentries : f.before ++ .unsolved (f.supply.next "k") :: .unsolved n :: f.after =
        (f.before ++ .unsolved (f.supply.next "k") :: .unsolved n :: a) ++ .unsolved m :: b := by
      simp [hafter]
    rw [hentries] at hinsert
    have hsolved := KindState.continues_solve _ _ hinsert.evolves.valid hinsert.admits
      (k := .metavar (f.supply.next "k")) (Kind.over_metavar (by simp))
      (by rw [hchosen, Kind.under_metavar, Function.update_self])
    refine ⟨Function.update v (f.supply.next "k").text (v m.text), ?_⟩
    have hboth := hinsert.trans hsolved
    simpa [around, hsolve] using hboth
  · exact ⟨v, .refl h hv⟩

theorem continues_foldl_promote (h : (f.around n).Valid) (hv : (f.around n).Admits v)
    (xs : List String) : ∃ w, (f.around n).Continues v ((xs.foldl promote f).around n) w := by
  induction xs generalizing f v with
  | nil => exact ⟨v, .refl h hv⟩
  | cons x xs ih =>
    obtain ⟨w, hw⟩ := continues_promote h hv x
    obtain ⟨u, hu⟩ := ih hw.evolves.valid hw.admits
    exact ⟨u, hw.trans hu⟩

end Focus

theorem KindState.continues_solve? {st : KindState} {v : String → Kind} {x : String} {k : Kind}
    (hst : st.Valid) (hv : st.Admits v) (hx : x ∈ unsolvedIn st.context.entries)
    (hk : k.Over (unsolvedIn st.context.entries)) (hoccurs : x ∉ k.freeVars)
    (heq : v x = k.under v) :
    ∃ st' w, st.solve? x k = some st' ∧ st.Continues v st' w := by
  obtain ⟨before, n, after, hsplit⟩ := exists_split? hx
  obtain ⟨hentries, rfl⟩ := split?_eq_some hsplit
  have hstart : Focus.around ⟨before, after, st.supply, ∅⟩ n = st := by
    simp only [Focus.around, ← hentries]
  obtain ⟨w, hw⟩ := Focus.continues_foldl_promote (hstart.symm ▸ hst) (hstart.symm ▸ hv)
    k.freeVars.toList
  rw [hstart] at hw
  have hsolve : ∃ st', st.solve? n.text k = some st' := by
    unfold solve?
    rw [if_neg hoccurs, hsplit]
    exact ⟨_, rfl⟩
  obtain ⟨st', hsolve⟩ := hsolve
  refine ⟨st', w, hsolve, hst.solve? hk hsolve, ?_, hw.same⟩
  unfold solve? at hsolve
  rw [if_neg hoccurs, hsplit] at hsolve
  cases hsolve
  generalize hf : k.freeVars.toList.foldl Focus.promote ⟨before, after, st.supply, ∅⟩ = f at hw ⊢
  have hagrees : f.promoted.Agrees w := by
    rw [← hf]
    refine (Focus.solvedBy_foldl_promote (hf ▸ ?_)).2 fun y j hj => by simp at hj
    exact hw.admits.solved.mono (by simp [Focus.around])
  refine ⟨fun y hy => hw.admits.ground y ?_, hw.admits.solved.solve ?_⟩
  · simpa [Focus.around] using hy
  · calc w n.text = v n.text := hw.same _ (unsolvedIn_subset _ hx)
      _ = k.under w := by rw [heq, hw.under_eq (hk.mono (unsolvedIn_subset _))]
      _ = (k.apply f.promoted).under w := (Kind.under_apply hagrees k).symm
      _ = _ := (under_zonk hw.admits.solved _).symm

namespace Kind

variable {st : KindState} {v : String → Kind} {k l : Kind}

theorem solve_keeps {j : Kind} {x : String} {rest : List (Kind × Kind)} (hst : st.Valid)
    (heqs : Zonked st.context ((k, l) :: rest)) (hv : st.Admits v)
    (h : ∀ eq ∈ (k, l) :: rest, eq.1.under v = eq.2.under v) (hstep : step k l = .solve x j) :
    ∃ st' w, st.solve? x j = some st' ∧ st.Continues v st' w ∧
      ∀ eq ∈ rest.map fun eq => (st'.context.zonk eq.1, st'.context.zonk eq.2),
        eq.1.under w = eq.2.under w := by
  obtain ⟨heq, hrest⟩ := List.forall_mem_cons.1 h
  obtain ⟨⟨hk, hl⟩, hzonked⟩ := List.forall_mem_cons.1 heqs
  obtain ⟨hmem, hoccurs, hx⟩ := under_eq_of_step_solve hstep heq
  obtain ⟨st', w, hsolve, hw⟩ := KindState.continues_solve? hst hv (hmem.elim (hk x) (hl x))
    (step_solve heqs hstep) hoccurs hx
  refine ⟨st', w, hsolve, hw, fun eq heq => ?_⟩
  obtain ⟨eq, hmem, rfl⟩ := List.mem_map.1 heq
  obtain ⟨hk, hl⟩ := hzonked eq hmem
  have hknown := unsolvedIn_subset st.context.entries
  rw [under_zonk hw.admits.solved, under_zonk hw.admits.solved, hw.under_eq (hk.mono hknown),
    hw.under_eq (hl.mono hknown), hrest eq hmem]

theorem solveAll_keeps (loc : Loc) (eqs : List (Kind × Kind)) (hst : st.Valid)
    (heqs : Zonked st.context eqs) (hv : st.Admits v)
    (h : ∀ eq ∈ eqs, eq.1.under v = eq.2.under v) :
    Keeps (solveAll loc eqs) st v fun _ _ _ => True := by
  unfold Keeps
  fun_induction solveAll loc eqs st generalizing v with
  | case1 st => exact ⟨(), st, v, rfl, .refl hst hv, trivial⟩
  | case2 st k l rest parts hstep ih =>
    obtain ⟨heq, hrest⟩ := List.forall_mem_cons.1 h
    exact ih hst (step_zonked heqs hstep) hv
      (List.forall_mem_append.2 ⟨under_eq_of_split hstep heq, hrest⟩)
  | case3 st k l rest x m hstep st₁ hsolve ih =>
    have hmap := List.attach_map_val (l := rest)
      (f := fun eq => (st₁.context.zonk eq.1, st₁.context.zonk eq.2))
    rw [hmap] at ih
    obtain ⟨st₁', w, hsolve', hw, hrest⟩ := solve_keeps hst heqs hv h hstep
    obtain rfl : st₁ = st₁' := Option.some.inj (hsolve.symm.trans hsolve')
    obtain ⟨a, st₂, u, hrun, hu, -⟩ := ih hw.evolves.valid
      (Zonked.map_zonk (List.forall_mem_cons.1 heqs).2 hw.evolves) hw.admits hrest
    exact ⟨a, st₂, u, hrun, hw.trans hu, trivial⟩
  | case4 st k l rest x m hstep hnone =>
    obtain ⟨st', w, hsolve, -⟩ := solve_keeps hst heqs hv h hstep
    rw [hnone] at hsolve
    cases hsolve
  | case5 st k l rest hstep => exact absurd hstep (step_ne_clash (h _ (.head _)))

theorem unify_keeps (loc : Loc) (hst : st.Valid) (hk : k.Over (metasIn st.context.entries))
    (hl : l.Over (metasIn st.context.entries)) (hv : st.Admits v) (h : k.under v = l.under v) :
    Keeps (unify k l loc) st v fun _ _ _ => True := by
  refine solveAll_keeps loc _ hst (fun eq heq => ?_) hv fun eq heq => ?_
  · rw [List.mem_singleton.1 heq]
    exact ⟨hst.ordered.over_zonk hk, hst.ordered.over_zonk hl⟩
  · rw [List.mem_singleton.1 heq]
    simpa only [under_zonk hv.solved] using h

/-! ## Unified kinds -/

theorem same_of_under_eq (h : k.under (fun x => metavar (.bare x)) =
    l.under fun x => metavar (.bare x)) : k.same l = true := by
  induction k generalizing l with
  | star =>
    cases l with
    | star => rfl
    | arrow | metavar => cases h
  | arrow dom cod ihdom ihcod =>
    cases l with
    | arrow dom' cod' =>
      rw [under_arrow, under_arrow, arrow.injEq] at h
      rw [same, ihdom h.1, ihcod h.2, Bool.and_self]
    | star | metavar => cases h
  | metavar n =>
    cases l with
    | metavar m =>
      rw [under_metavar, under_metavar, metavar.injEq] at h
      have htext := congrArg Name.text h
      simpa [same, Name.same, Name.bare] using htext
    | star | arrow => cases h

/-- If every choice that a context allows for makes two kinds equal, they are the same once all
solutions are put in. -/
theorem same_zonk {ctx : KindContext} (hctx : ctx.Ordered) (hk : k.Over (metasIn ctx.entries))
    (hl : l.Over (metasIn ctx.entries))
    (h : ∀ v, SolvedBy v ctx.entries → k.under v = l.under v) :
    (ctx.zonk k).same (ctx.zonk l) = true := by
  -- unsolved metavariables stand for themselves
  obtain ⟨v, hv, hfree⟩ := hctx.exists_solvedBy_eq fun x => metavar (.bare x)
  have hbare : ∀ {j : Kind}, j.Over (metasIn ctx.entries) →
      (ctx.zonk j).under (fun x => metavar (.bare x)) = j.under v := by
    intro j hj
    rw [← under_zonk hv]
    exact under_congr fun x hx => (hfree x (hctx.over_zonk hj x hx)).symm
  exact same_of_under_eq (by rw [hbare hk, hbare hl, h v hv])

/-- Unification of two kinds makes them the same and keeps exactly the choices of ground kinds
that give them one kind; it fails only if there is no such choice.  The state is one in which the
context is in order and the supply issues only names that are not in it; `Reachable.valid` proves
this of every state that elaboration can reach. -/
theorem unify_most_general (hst : st.Valid) (hk : k.Over (metasIn st.context.entries))
    (hl : l.Over (metasIn st.context.entries)) (loc : Loc) :
    match unify k l loc st with
    | .ok _ st' =>
      (st'.context.zonk k).same (st'.context.zonk l) = true ∧
        metasIn st.context.entries ⊆ metasIn st'.context.entries ∧
        ∀ v, st.Admits v ∧ k.under v = l.under v ↔
          ∃ w, st'.Admits w ∧ ∀ x ∈ metasIn st.context.entries, w x = v x
    | .error _ _ => ∀ v, st.Admits v → k.under v ≠ l.under v := by
  cases hunify : unify k l loc st with
  | ok a st' =>
    have hevolves := (unify_evolves loc hst hk hl).of_ok hunify
    have hsound := fun v => solvedBy_of_unify (v := v) hunify
    refine ⟨same_zonk hevolves.valid.ordered (hk.mono hevolves.metas) (hl.mono hevolves.metas)
      fun v hv => (hsound v hv).2, hevolves.metas, fun v => ⟨?_, ?_⟩⟩
    · rintro ⟨hv, heq⟩
      obtain ⟨a', st'', w, hrun, hw, -⟩ := unify_keeps loc hst hk hl hv heq
      rw [hunify] at hrun
      cases hrun
      exact ⟨w, hw.admits, hw.same⟩
    · rintro ⟨w, hw, hsame⟩
      obtain ⟨hsolved, heq⟩ := hsound w hw.solved
      have hw : st.Admits w := ⟨fun x hx => hw.ground x (hevolves.metas hx), hsolved⟩
      refine ⟨hw.congr hst fun x hx => (hsame x hx).symm, ?_⟩
      rw [under_congr fun x hx => (hsame x (hk x hx)).symm, heq]
      exact under_congr fun x hx => hsame x (hl x hx)
  | error e st' =>
    intro v hv heq
    obtain ⟨a, st'', w, hrun, -⟩ := unify_keeps loc hst hk hl hv heq
    rw [hunify] at hrun
    cases hrun

end Kind

namespace Promotion

theorem reachable_before : Reachable before :=
  .step (.step .initial .pushUnsolved (by simp [KindOp.kinds])) .pushUnsolved
    (by simp [KindOp.kinds])

theorem unify_most_general_before :
    before.Valid ∧ (Kind.metavar early).Over (metasIn before.context.entries) ∧
      (Kind.arrow (.metavar late) .star).Over (metasIn before.context.entries) ∧
      ∃ st', Kind.unify (.metavar early) (.arrow (.metavar late) .star) .none
          before.toKindState = .ok () st' ∧
        (st'.context.zonk (.metavar early)).same
          (st'.context.zonk (.arrow (.metavar late) .star)) = true ∧
        metasIn before.context.entries ⊆ metasIn st'.context.entries ∧
        ∀ v, before.Admits v ∧ v early.text = .arrow (v late.text) .star ↔
          ∃ w, st'.Admits w ∧ ∀ x ∈ metasIn before.context.entries, w x = v x := by
  have hvalid := reachable_before.valid
  have hearly : (Kind.metavar early).Over (metasIn before.context.entries) :=
    Kind.over_metavar (by simp [metasIn_before])
  have hlate : (Kind.arrow (.metavar late) .star).Over (metasIn before.context.entries) :=
    Kind.over_arrow.2 ⟨Kind.over_metavar (by simp [metasIn_before]), Kind.over_star⟩
  have hrun : ∃ st', Kind.unify (.metavar early) (.arrow (.metavar late) .star) .none
      before.toKindState = .ok () st' := ⟨⟨⟨3⟩, ⟨[.unsolved (Supply.next ⟨2⟩ "k"),
        .solved early (.arrow (.metavar (Supply.next ⟨2⟩ "k")) .star),
        .solved late (.metavar (Supply.next ⟨2⟩ "k"))]⟩⟩, by cbv⟩
  obtain ⟨st', hrun⟩ := hrun
  have hgeneral := Kind.unify_most_general hvalid hearly hlate .none
  rw [hrun] at hgeneral
  exact ⟨hvalid, hearly, hlate, st', hrun, hgeneral⟩

end Promotion

end GuardedCommands
