import GuardedCommands.Proofs.KindOrder
import GuardedCommands.Proofs.Kinding

/-!
# Solutions of a context of kinds

A choice of kinds for metavariables solves a context if it agrees with every
solution that the context records.  Inference only narrows choices down: what
solves the context at its end has solved every context on the way.  So the rules of
kinding can be read off the run of inference, in which kinds were equated before
they were known.  Under any choice that solves the context at the end, kinds that
were unified are equal and types have the kinds that were found for them.
-/

namespace GuardedCommands

/-! ## Choices of kinds -/

namespace Kind

/-- A kind with a choice of kinds for metavariables put in. -/
def under (v : String → Kind) (k : Kind) : Kind := k.bind fun n => v n.text

variable {v w : String → Kind} {k : Kind} {s t : Subst}

@[simp] theorem under_star (v : String → Kind) : star.under v = star := rfl

@[simp] theorem under_metavar (v : String → Kind) (n : Name) : (metavar n).under v = v n.text := rfl

@[simp] theorem under_arrow (v : String → Kind) (dom cod : Kind) :
    (arrow dom cod).under v = arrow (dom.under v) (cod.under v) := rfl

@[simp] theorem under_starArity (v : String → Kind) (n : Nat) :
    (starArity n).under v = starArity n := by
  induction n with
  | zero => rfl
  | succ n ih => rw [starArity, under_arrow, under_star, ih]

theorem under_arrows (v : String → Kind) (args : List Kind) :
    (arrows args).under v = arrows (args.map (under v)) := by
  induction args with
  | nil => rfl
  | cons k args ih => exact congrArg (arrow (k.under v)) ih

theorem under_congr (h : ∀ x ∈ k.freeVars, v x = w x) : k.under v = k.under w := by
  induction k with
  | star => rfl
  | metavar n => exact h n.text (by simp [freeVars])
  | arrow dom cod ihdom ihcod =>
    rw [under_arrow, under_arrow, ihdom fun x hx => h x (NameSet.mem_union.2 (.inl hx)),
      ihcod fun x hx => h x (NameSet.mem_union.2 (.inr hx))]

theorem under_of_ground (h : k.Over []) : k.under v = k :=
  bind_eq_self fun n hn => absurd (h n.text hn) List.not_mem_nil

theorem under_bind {f : Name → Kind} (h : ∀ n, (f n).under v = v n.text) :
    (k.bind f).under v = k.under v := by
  induction k with
  | star => rfl
  | metavar n => exact h n
  | arrow dom cod ihdom ihcod => rw [bind, under_arrow, under_arrow, ihdom, ihcod]

def Subst.Agrees (v : String → Kind) (s : Subst) : Prop :=
  ∀ x k, s.get? x = some k → v x = k.under v

theorem under_apply (h : s.Agrees v) (k : Kind) : (k.apply s).under v = k.under v := by
  refine under_bind fun n => ?_
  cases hn : s.get? n.text with
  | none => rfl
  | some j => exact (h _ j hn).symm

theorem Subst.Agrees.compose (hs : s.Agrees v) (ht : t.Agrees v) : (s.compose t).Agrees v := by
  intro x k hk
  rw [Subst.compose, NameMap.get?_override, NameMap.get?_map] at hk
  cases hx : s.get? x with
  | some j =>
    rw [hx, Option.some_or] at hk
    cases hk
    exact hs x k hx
  | none =>
    rw [hx, Option.none_or] at hk
    obtain ⟨j, hj, rfl⟩ := Option.map_eq_some_iff.1 hk
    rw [under_apply hs]
    exact ht x j hj

end Kind

namespace KindContext

/-- A choice of kinds agrees with the solutions among some entries. -/
def SolvedBy (v : String → Kind) (entries : List KindEntry) : Prop :=
  ∀ n k, .solved n k ∈ entries → v n.text = k.under v

variable {v : String → Kind} {entries before after : List KindEntry} {n : Name} {k : Kind}
  {x : String}

theorem SolvedBy.mono {entries' : List KindEntry} (h : SolvedBy v entries')
    (hsub : ∀ n k, .solved n k ∈ entries → .solved n k ∈ entries') : SolvedBy v entries :=
  fun n k hk => h n k (hsub n k hk)

theorem SolvedBy.unsolve (h : SolvedBy v (before ++ .solved n k :: after)) :
    SolvedBy v (before ++ .unsolved n :: after) ∧ v n.text = k.under v :=
  ⟨h.mono (by simp; tauto), h n k (by simp)⟩

theorem mem_of_solution? (h : solution? x entries = some k) :
    ∃ n : Name, n.text = x ∧ .solved n k ∈ entries := by
  induction entries with
  | nil => cases h
  | cons e rest ih =>
    have hrest : solution? x rest = some k → ∃ n : Name, n.text = x ∧ .solved n k ∈ e :: rest :=
      fun h => (ih h).imp fun n hn => ⟨hn.1, .tail _ hn.2⟩
    cases e with
    | annotated m j | unsolved m => exact hrest h
    | solved m j =>
      rw [solution?] at h
      split at h
      · next hm =>
        cases h
        exact ⟨m, hm, .head _⟩
      · exact hrest h

theorem under_resolve (h : SolvedBy v entries) (depth : Nat) (n : Name) :
    (resolve entries depth n).under v = v n.text := by
  induction depth generalizing n with
  | zero => rfl
  | succ depth ih =>
    rw [resolve]
    cases hn : solution? n.text entries with
    | none => rfl
    | some k =>
      obtain ⟨m, hm, hmem⟩ := mem_of_solution? hn
      rw [← hm, h m k hmem]
      exact Kind.under_bind ih

theorem under_zonk {ctx : KindContext} (h : SolvedBy v ctx.entries) (k : Kind) :
    (ctx.zonk k).under v = k.under v :=
  Kind.under_bind fun n => under_resolve h _ n

theorem mem_metasIn_of_solved (h : .solved n k ∈ entries) : n.text ∈ metasIn entries := by
  induction entries with
  | nil => cases h
  | cons e rest ih =>
    rw [show metasIn (e :: rest) = metasIn [e] ++ metasIn rest from metasIn_append [e] rest]
    rcases List.mem_cons.1 h with rfl | h
    · simp
    · exact List.mem_append_right _ (ih h)

theorem exists_solvedBy {xs : List String} (hearlier : Earlier xs entries)
    (hnodup : (xs ++ metasIn entries).Nodup) (w : String → Kind) :
    ∃ v, SolvedBy v entries ∧ ∀ x, (∀ n k, .solved n k ∈ entries → n.text ≠ x) → v x = w x := by
  induction entries generalizing xs w with
  | nil => exact ⟨w, by simp [SolvedBy], fun _ _ => rfl⟩
  | cons e rest ih =>
    have hmetas : metasIn (e :: rest) = metasIn [e] ++ metasIn rest := metasIn_append [e] rest
    rw [hmetas, ← List.append_assoc] at hnodup
    cases e with
    | annotated n k | unsolved n =>
      obtain ⟨v, hv, hw⟩ := ih hearlier.2 hnodup w
      exact ⟨v, hv.mono (by simp), fun x hx => hw x fun m j hmem => hx m j (.tail _ hmem)⟩
    | solved n k =>
      obtain ⟨v, hv, hw⟩ := ih hearlier.2 hnodup (Function.update w n.text (k.under w))
      -- neither the metavariable nor those of its kind occur again
      have hfresh : ∀ x ∈ xs ++ [n.text], ∀ m j, .solved m j ∈ rest → m.text ≠ x := by
        rintro x hx m j hmem rfl
        exact (List.nodup_append.1 hnodup).2.2 _ hx _ (mem_metasIn_of_solved hmem) rfl
      have hn : v n.text = k.under w := by
        rw [hw _ (hfresh _ (by simp)), Function.update_self]
      have hk : k.under v = k.under w := by
        refine Kind.under_congr fun x hx => ?_
        have hxs : x ∈ xs := hearlier.1 x hx
        have hne : x ≠ n.text := by
          rintro rfl
          have := (List.nodup_append.1 (List.nodup_append.1 hnodup).1).2.2 _ hxs n.text
          simp at this
        rw [hw x (hfresh x (by simp [hxs])), Function.update_of_ne hne]
      refine ⟨v, fun m j hmem => ?_, fun x hx => ?_⟩
      · rcases List.mem_cons.1 hmem with heq | hmem
        · cases heq
          rw [hn, hk]
        · exact hv m j hmem
      · rw [hw x fun m j hmem => hx m j (.tail _ hmem),
          Function.update_of_ne (hx n k (.head _)).symm]

theorem Ordered.exists_solvedBy {ctx : KindContext} (h : ctx.Ordered) :
    ∃ v, SolvedBy v ctx.entries := by
  obtain ⟨v, hv, -⟩ := KindContext.exists_solvedBy h.earlier (by simpa using h.metas) fun _ => .star
  exact ⟨v, hv⟩

end KindContext

/-! ## Unification narrows choices down -/

section Unification

open KindContext

variable {v : String → Kind} {st st' : KindState} {x : String} {k l : Kind}

theorem Focus.solvedBy_promote {f : Focus}
    (h : SolvedBy v ((f.promote x).before ++ (f.promote x).after)) :
    SolvedBy v (f.before ++ f.after) ∧
      (f.promoted.Agrees v → (f.promote x).promoted.Agrees v) := by
  unfold promote at h ⊢
  split at h
  · next hany =>
    rw [if_pos hany]
    obtain ⟨a, m, b, hafter, hm, hsolve⟩ := solveFirst_eq (k := .metavar (f.supply.next "k")) hany
    dsimp only at h ⊢
    rw [hsolve] at h
    have hx : v x = v (f.supply.next "k").text := by
      rw [← hm]
      exact h m (.metavar (f.supply.next "k")) (by simp)
    refine ⟨h.mono fun n k hk => ?_, fun hf => Kind.Subst.Agrees.compose (fun y j hj => ?_) hf⟩
    · simp only [hafter, List.mem_append, List.mem_cons, reduceCtorEq, false_or] at hk
      simp only [List.mem_append, List.mem_cons]
      tauto
    · rw [NameMap.get?_singleton] at hj
      split at hj
      · next hy =>
        cases hj
        rw [hy]
        exact hx
      · cases hj
  · next hany =>
    rw [if_neg hany]
    exact ⟨h, id⟩

theorem Focus.solvedBy_foldl_promote {f : Focus} {xs : List String}
    (h : SolvedBy v ((xs.foldl promote f).before ++ (xs.foldl promote f).after)) :
    SolvedBy v (f.before ++ f.after) ∧
      (f.promoted.Agrees v → (xs.foldl promote f).promoted.Agrees v) := by
  induction xs generalizing f with
  | nil => exact ⟨h, id⟩
  | cons x xs ih =>
    obtain ⟨hx, hpromoted⟩ := ih h
    obtain ⟨hf, hpromote⟩ := solvedBy_promote hx
    exact ⟨hf, fun hagrees => hpromoted (hpromote hagrees)⟩

theorem KindState.solvedBy_of_solve? (h : st.solve? x k = some st')
    (hv : SolvedBy v st'.context.entries) :
    SolvedBy v st.context.entries ∧ v x = k.under v := by
  unfold solve? at h
  split at h
  · cases h
  split at h
  · cases h
  next before n after hsplit =>
  obtain ⟨hentries, rfl⟩ := split?_eq_some hsplit
  cases h
  obtain ⟨hv, hn⟩ := hv.unsolve
  rw [under_zonk hv] at hn
  obtain ⟨hold, hpromoted⟩ := Focus.solvedBy_foldl_promote (hv.mono (by simp; tauto))
  have hagrees := hpromoted fun y j hj => by simp at hj
  rw [Kind.under_apply hagrees] at hn
  refine ⟨?_, hn⟩
  rw [hentries]
  exact hold.mono (by simp)

namespace Kind

theorem under_eq_of_step {parts : List (Kind × Kind)} (h : step k l = .split parts)
    (hparts : ∀ eq ∈ parts, eq.1.under v = eq.2.under v) : k.under v = l.under v := by
  unfold step at h
  split at h
  · rfl
  · cases h
    simp only [List.mem_cons, List.not_mem_nil, or_false, forall_eq_or_imp, forall_eq] at hparts
    rw [under_arrow, under_arrow, hparts.1, hparts.2]
  · split at h
    · next heq => exact congrArg v heq
    · cases h
  all_goals cases h

theorem under_eq_of_solve {j : Kind} (h : step k l = .solve x j) (hx : v x = j.under v) :
    k.under v = l.under v := by
  unfold step at h
  split at h
  · cases h
  · cases h
  · split at h
    · cases h
    · cases h
      exact hx
  · cases h
    exact hx
  · cases h
    exact hx.symm
  · cases h

theorem solvedBy_of_solveAll {loc : Loc} {eqs : List (Kind × Kind)}
    (h : solveAll loc eqs st = .ok () st') (hv : SolvedBy v st'.context.entries) :
    SolvedBy v st.context.entries ∧ ∀ eq ∈ eqs, eq.1.under v = eq.2.under v := by
  fun_induction solveAll loc eqs st with
  | case1 st =>
    cases h
    exact ⟨hv, by simp⟩
  | case2 st k l rest parts hstep ih =>
    obtain ⟨hst, heqs⟩ := ih h
    obtain ⟨hparts, hrest⟩ := List.forall_mem_append.1 heqs
    exact ⟨hst, List.forall_mem_cons.2 ⟨under_eq_of_step hstep hparts, hrest⟩⟩
  | case3 st k l rest x m hstep st₁ hsolve ih =>
    have hmap := List.attach_map_val (l := rest)
      (f := fun eq => (st₁.context.zonk eq.1, st₁.context.zonk eq.2))
    rw [hmap] at ih
    obtain ⟨hst₁, hrest⟩ := ih h
    obtain ⟨hst, hx⟩ := KindState.solvedBy_of_solve? hsolve hst₁
    refine ⟨hst, List.forall_mem_cons.2 ⟨under_eq_of_solve hstep hx, fun eq heq => ?_⟩⟩
    have hzonked := hrest _ (List.mem_map_of_mem heq)
    simpa only [under_zonk hst₁] using hzonked
  | case4 | case5 => cases h

theorem solvedBy_of_unify {loc : Loc} (h : unify k l loc st = .ok () st')
    (hv : SolvedBy v st'.context.entries) :
    SolvedBy v st.context.entries ∧ k.under v = l.under v := by
  obtain ⟨hst, heqs⟩ := solvedBy_of_solveAll h hv
  have heq := heqs _ (.head _)
  simp only [under_zonk hst] at heq
  exact ⟨hst, heq⟩

theorem solvedBy_of_applied {arg r : Kind} {loc : Loc} (h : applied k arg loc st = .ok r st')
    (hv : SolvedBy v st'.context.entries) :
    SolvedBy v st.context.entries ∧ k.under v = arrow (arg.under v) (r.under v) := by
  obtain ⟨_, _, hget, h⟩ := EStateM.ok_of_bind h
  cases hget
  cases hzonk : st.context.zonk k with
  | star =>
    rw [hzonk] at h
    cases h
  | arrow dom cod =>
    rw [hzonk] at h
    obtain ⟨_, st₁, hunify, h⟩ := EStateM.ok_of_bind h
    cases h
    obtain ⟨hst, hdom⟩ := solvedBy_of_unify hunify hv
    refine ⟨hst, ?_⟩
    rw [← under_zonk hst k, hzonk, under_arrow, hdom, under_zonk hv]
  | metavar a =>
    rw [hzonk] at h
    dsimp only at h
    cases hsplit : split? a.text st.context.entries with
    | none =>
      rw [hsplit] at h
      cases h
    | some parts =>
      obtain ⟨before, n, after⟩ := parts
      obtain ⟨hentries, hn⟩ := split?_eq_some hsplit
      rw [hsplit] at h
      obtain ⟨dom, st₁, hdom, h⟩ := EStateM.ok_of_bind h
      obtain ⟨cod, st₂, hcod, h⟩ := EStateM.ok_of_bind h
      obtain ⟨_, st₃, hmodify, h⟩ := EStateM.ok_of_bind h
      obtain ⟨_, st₄, hunify, h⟩ := EStateM.ok_of_bind h
      cases h
      cases hmodify
      cases hdom
      cases hcod
      obtain ⟨hst, harg⟩ := solvedBy_of_unify hunify hv
      have harrow := hst n (.arrow (.metavar (st.supply.next "k"))
        (.metavar (st.supply.advance.next "k"))) (by simp)
      have hst : SolvedBy v st.context.entries := by
        rw [hentries]
        exact hst.mono (by simp; tauto)
      refine ⟨hst, ?_⟩
      rw [← under_zonk hst k, hzonk, under_metavar, ← hn, harrow, under_arrow, harg,
        under_zonk hv]

end Kind

end Unification

/-! ## The kinds of types -/

namespace KindContext

def kinding (v : String → Kind) (entries : List KindEntry) : Kinding :=
  fun x => (annotation? x entries).map (Kind.under v)

theorem annotation?_eq_lookup (x : String) (entries : List KindEntry) :
    annotation? x entries = NameMap.lookup x (annotationsIn entries) := by
  induction entries with
  | nil => rfl
  | cons e rest ih =>
    cases e with
    | annotated n k => simp only [annotation?, annotationsIn_annotated, NameMap.lookup, ih, eq_comm]
    | unsolved n | solved n k => exact ih

theorem kinding_congr {v : String → Kind} {entries entries' : List KindEntry}
    (h : annotationsIn entries' = annotationsIn entries) :
    kinding v entries' = kinding v entries := by
  funext x
  simp only [kinding, annotation?_eq_lookup, h]

end KindContext

namespace Ty

open KindContext

variable {v : String → Kind} {st st' : KindState}

theorem hasKind_of_nameKind {n : Name} {k : Kind} (h : nameKind n st = .ok k st')
    (hv : SolvedBy v st'.context.entries) :
    SolvedBy v st.context.entries ∧ kinding v st.context.entries n.text = some (k.under v) := by
  obtain ⟨_, _, hget, h⟩ := EStateM.ok_of_bind h
  cases hget
  cases hlookup : st.context.lookup? n.text with
  | none =>
    rw [hlookup] at h
    cases h
  | some j =>
    rw [hlookup] at h
    cases h
    obtain ⟨j, hj, rfl⟩ := Option.map_eq_some_iff.1 hlookup
    refine ⟨hv, ?_⟩
    rw [kinding, hj, Option.map_some, under_zonk hv]

theorem hasKind_of_kind (t : Ty) {k : Kind} (h : t.kind st = .ok k st')
    (hv : SolvedBy v st'.context.entries) :
    SolvedBy v st.context.entries ∧
      HasKind .free (kinding v st.context.entries) t (k.under v) := by
  induction t generalizing st k st' with
  | base b loc =>
    cases h
    exact ⟨hv, .base⟩
  | tuple n loc =>
    cases h
    rw [Kind.under_starArity]
    exact ⟨hv, .tuple⟩
  | arrow loc =>
    cases h
    rw [Kind.under_starArity]
    exact ⟨hv, .arrow⟩
  | data n =>
    obtain ⟨hst, hn⟩ := hasKind_of_nameKind h hv
    exact ⟨hst, .data hn⟩
  | rigid n =>
    obtain ⟨hst, hn⟩ := hasKind_of_nameKind h hv
    exact ⟨hst, .rigid hn⟩
  | metavar n =>
    obtain ⟨hst, hn⟩ := hasKind_of_nameKind h hv
    exact ⟨hst, .metavar hn⟩
  | array i t loc ih =>
    obtain ⟨j, st₁, ht, h⟩ := EStateM.ok_of_bind h
    obtain ⟨_, st₂, hunify, h⟩ := EStateM.ok_of_bind h
    cases h
    obtain ⟨hst₁, hstar⟩ := Kind.solvedBy_of_unify hunify hv
    obtain ⟨hst, ht⟩ := ih ht hst₁
    rw [hstar] at ht
    exact ⟨hst, .array ht⟩
  | app f a loc ihf iha =>
    obtain ⟨j, st₁, hf, h⟩ := EStateM.ok_of_bind h
    obtain ⟨l, st₂, ha, h⟩ := EStateM.ok_of_bind h
    obtain ⟨hst₂, harrow⟩ := Kind.solvedBy_of_applied h hv
    obtain ⟨hst₁, ha⟩ := iha ha hst₂
    have hgrows := ((f.kind_grows st).of_ok hf).1
    obtain ⟨hst, hf⟩ := ihf hf hst₁
    rw [harrow] at hf
    rw [kinding_congr hgrows.annotations] at ha
    exact ⟨hst, .app hf ha trivial⟩

theorem hasKind_of_checkStar {t : Ty} {loc : Loc} (h : t.checkStar loc st = .ok () st')
    (hv : SolvedBy v st'.context.entries) :
    SolvedBy v st.context.entries ∧ HasKind .free (kinding v st.context.entries) t .star := by
  obtain ⟨k, st₁, hkind, h⟩ := EStateM.ok_of_bind h
  obtain ⟨hst₁, hstar⟩ := Kind.solvedBy_of_unify h hv
  obtain ⟨hst, ht⟩ := hasKind_of_kind t hkind hst₁
  rw [hstar] at ht
  exact ⟨hst, ht⟩

end Ty

end GuardedCommands
