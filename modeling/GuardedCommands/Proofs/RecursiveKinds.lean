import GuardedCommands.Proofs.KindUnifiers
import GuardedCommands.Stmt

/-!
# Inference of kinds as recursion

Solutions are put into a kind by following each metavariable to its solution and going on
there.  Two kinds are unified by putting in solutions, taking the kinds apart, and going on
with the codomains in the context that the domains have left.  Following solutions ends
because in a context that is in order they lead to earlier metavariables.  Unification ends
because whatever changes the context leaves one unsolved metavariable less: a promotion
puts one in and solves another, and after it one more is solved.

The recursions are written down as relations between what they are called with and their
results, so that a derivation is a run that ends.
-/

namespace GuardedCommands

open KindContext

/-! ## Putting in solutions -/

namespace KindContext

/-- The runs that put the solutions of a context into a kind. -/
inductive Zonks (ctx : KindContext) : Kind → Kind → Prop
  | star : Zonks ctx .star .star
  | arrow {dom dom' cod cod' : Kind} (hdom : Zonks ctx dom dom') (hcod : Zonks ctx cod cod') :
      Zonks ctx (.arrow dom cod) (.arrow dom' cod')
  | solved {n : Name} {k k' : Kind} (hn : solution? n.text ctx.entries = some k)
      (hk : Zonks ctx k k') : Zonks ctx (.metavar n) k'
  | unsolved {n : Name} (hn : solution? n.text ctx.entries = none) :
      Zonks ctx (.metavar n) (.metavar n)

variable {ctx : KindContext} {k k' k'' : Kind}

theorem Zonks.unique (h : ctx.Zonks k k') (h' : ctx.Zonks k k'') : k' = k'' := by
  induction h generalizing k'' with
  | star =>
    cases h'
    rfl
  | arrow hdom hcod ihdom ihcod =>
    cases h' with
    | arrow hdom' hcod' => rw [ihdom hdom', ihcod hcod']
  | solved hn hk ih =>
    cases h' with
    | solved hn' hk' =>
      cases hn.symm.trans hn'
      exact ih hk'
    | unsolved hn' => cases hn.symm.trans hn'
  | unsolved hn =>
    cases h' with
    | solved hn' hk' => cases hn.symm.trans hn'
    | unsolved hn' => rfl

theorem zonks_bind {f : Name → Kind}
    (h : ∀ n : Name, n.text ∈ k.freeVars → ctx.Zonks (.metavar n) (f n)) :
    ctx.Zonks k (k.bind f) := by
  induction k with
  | star => exact .star
  | arrow dom cod ihdom ihcod =>
    exact .arrow (ihdom fun n hn => h n (NameSet.mem_union.2 (.inl hn)))
      (ihcod fun n hn => h n (NameSet.mem_union.2 (.inr hn)))
  | metavar n => exact h n (NameSet.mem_singleton.2 rfl)

/-- From a metavariable among the first entries there is no path through more solutions than
there are of these entries. -/
theorem zonks_resolve (before after : List KindEntry) (hmetas : (metasIn (before ++ after)).Nodup)
    (hearlier : Earlier [] (before ++ after)) {n : Name} (hn : n.text ∈ metasIn before)
    {depth : Nat} (hdepth : before.length ≤ depth) :
    Zonks ⟨before ++ after⟩ (.metavar n) (resolve (before ++ after) depth n) := by
  induction depth generalizing before after n with
  | zero =>
    rw [List.length_eq_zero_iff.1 (Nat.le_zero.1 hdepth)] at hn
    simp at hn
  | succ depth ih =>
    rcases mem_metasIn hn with hx | ⟨a, m, k, b, rfl, hm⟩
    · have hnone : solution? n.text (before ++ after) = none :=
        solution?_of_unsolved hmetas (by simp [hx])
      rw [resolve, hnone]
      exact .unsolved hnone
    · have hassoc : a ++ .solved m k :: b ++ after = a ++ .solved m k :: (b ++ after) := by simp
      rw [hassoc] at hmetas hearlier ⊢
      have hsome := solution?_of_solved hmetas
      rw [hm] at hsome
      rw [resolve, hsome]
      refine .solved hsome (zonks_bind fun i hi => ?_)
      have hmem : i.text ∈ metasIn a := by
        simpa using (earlier_append.1 hearlier).2.1 i.text hi
      refine ih _ _ hmetas hearlier hmem ?_
      simp only [List.length_append, List.length_cons] at hdepth
      omega

theorem Ordered.zonks_zonk (h : ctx.Ordered) (k : Kind) : ctx.Zonks k (ctx.zonk k) := by
  refine zonks_bind fun n _ => ?_
  by_cases hn : n.text ∈ metasIn ctx.entries
  · have hrun := zonks_resolve ctx.entries [] (by simpa using h.metas) (by simpa using h.earlier)
      hn le_rfl
    rwa [List.append_nil] at hrun
  · have hnone := solution?_of_not_mem hn
    have hresolve : resolve ctx.entries ctx.entries.length n = .metavar n := by
      cases ctx.entries.length with
      | zero => rfl
      | succ depth => rw [resolve, hnone]
    rw [hresolve]
    exact .unsolved hnone

theorem Ordered.zonks_iff (h : ctx.Ordered) : ctx.Zonks k k' ↔ ctx.zonk k = k' := by
  constructor
  · exact (h.zonks_zonk k).unique
  · rintro rfl
    exact h.zonks_zonk k

end KindContext

/-! ## What unification does to a context -/

/-- From one context to a later one solutions stay, and if anything changes there are fewer
metavariables to be solved. -/
structure KindState.Advances (st st' : KindState) : Prop where
  evolves : st.Evolves st'
  kept : ∀ n k, .solved n k ∈ st.context.entries → .solved n k ∈ st'.context.entries
  fewer : st' = st ∨ st'.unsolved < st.unsolved

namespace KindState.Advances

variable {st st₁ st₂ : KindState} {k k' : Kind}

theorem refl (h : st.Valid) : st.Advances st := ⟨.refl h, fun _ _ h => h, .inl rfl⟩

theorem trans (h : st.Advances st₁) (h' : st₁.Advances st₂) : st.Advances st₂ := by
  refine ⟨h.evolves.trans h'.evolves, fun n k hk => h'.kept n k (h.kept n k hk), ?_⟩
  rcases h'.fewer with rfl | hlt
  · exact h.fewer
  · rcases h.fewer with rfl | hlt'
    · exact .inr hlt
    · exact .inr (hlt.trans hlt')

theorem zonk_zonk (h : st.Advances st₁) (hst : st.Valid) (k : Kind) :
    st₁.context.zonk (st.context.zonk k) = st₁.context.zonk k := by
  have hordered := h.evolves.valid.ordered
  suffices hrun : ∀ {k k'}, st.context.Zonks k k' → st₁.context.zonk k' = st₁.context.zonk k from
    hrun (hst.ordered.zonks_zonk k)
  intro k k' hrun
  induction hrun with
  | star => rfl
  | arrow hdom hcod ihdom ihcod => exact congrArg₂ Kind.arrow ihdom ihcod
  | unsolved hn => rfl
  | solved hn hk ih =>
    obtain ⟨m, hm, hmem⟩ := mem_of_solution? hn
    obtain ⟨a, b, hab⟩ := List.append_of_mem (h.kept m _ hmem)
    have hsome := solution?_of_solved (hab ▸ hordered.metas)
    rw [← hab, hm] at hsome
    have hmetavar := Zonks.solved hsome (hordered.zonks_zonk _)
    rw [ih, (hordered.zonks_iff.1 hmetavar)]

end KindState.Advances

theorem Focus.mem_promote {f : Focus} {n : Name} {k : Kind} (x : String)
    (h : .solved n k ∈ f.before ++ f.after) :
    .solved n k ∈ (f.promote x).before ++ (f.promote x).after := by
  unfold promote
  split
  · next hany =>
    obtain ⟨a, m, b, hafter, hm, hsolve⟩ := solveFirst_eq (k := .metavar (f.supply.next "k")) hany
    simp only [hafter, List.mem_append, List.mem_cons, reduceCtorEq, false_or] at h
    simp only [hsolve, List.mem_append, List.mem_cons]
    tauto
  · exact h

theorem Focus.mem_foldl_promote {f : Focus} {n : Name} {k : Kind} (xs : List String)
    (h : .solved n k ∈ f.before ++ f.after) :
    .solved n k ∈ (xs.foldl promote f).before ++ (xs.foldl promote f).after := by
  induction xs generalizing f with
  | nil => exact h
  | cons x xs ih => exact ih (mem_promote x h)

theorem KindState.Valid.advances_solve? {st st' : KindState} {x : String} {k : Kind}
    (h : st.Valid) (hk : k.Over (unsolvedIn st.context.entries))
    (hsolve : st.solve? x k = some st') : st.Advances st' := by
  refine ⟨h.solve? hk hsolve, fun n j hj => ?_, .inr (unsolved_solve? hsolve)⟩
  unfold KindState.solve? at hsolve
  split at hsolve
  · cases hsolve
  split at hsolve
  · cases hsolve
  next before m after hsplit =>
  rw [(split?_eq_some hsplit).1] at hj
  cases hsolve
  have hkept := Focus.mem_foldl_promote (f := ⟨before, after, st.supply, ∅⟩) k.freeVars.toList
    (n := n) (k := j) (by simpa using hj)
  simp only [List.mem_append, List.mem_cons] at hkept ⊢
  tauto

namespace Kind

variable {st st' : KindState} {k l : Kind} {loc : Loc}

theorem advances_of_solveAll {eqs : List (Kind × Kind)} (hst : st.Valid)
    (heqs : Zonked st.context eqs) (h : solveAll loc eqs st = .ok () st') : st.Advances st' := by
  fun_induction solveAll loc eqs st with
  | case1 st =>
    cases h
    exact .refl hst
  | case2 st k l rest parts hstep ih => exact ih hst (step_zonked heqs hstep) h
  | case3 st k l rest x m hstep st₁ hsolve ih =>
    have hmap := List.attach_map_val (l := rest)
      (f := fun eq => (st₁.context.zonk eq.1, st₁.context.zonk eq.2))
    rw [hmap] at ih
    have hst₁ := hst.advances_solve? (step_solve heqs hstep) hsolve
    have hrest := Zonked.map_zonk (List.forall_mem_cons.1 heqs).2 hst₁.evolves
    exact hst₁.trans (ih hst₁.evolves.valid hrest h)
  | case4 | case5 => cases h

section Parts

variable {eqs rest : List (Kind × Kind)}

theorem solveAll_append (hst : st.Valid) (h : Zonked st.context (eqs ++ rest)) :
    solveAll loc (eqs ++ rest) st = match solveAll loc eqs st with
      | .ok _ st' =>
        solveAll loc (rest.map fun eq => (st'.context.zonk eq.1, st'.context.zonk eq.2)) st'
      | .error e st' => .error e st' := by
  fun_induction solveAll loc eqs st generalizing rest with
  | case1 st =>
    have hsame : (rest.map fun eq => (st.context.zonk eq.1, st.context.zonk eq.2)) = rest := by
      refine (List.map_congr_left fun eq heq => ?_).trans (List.map_id rest)
      obtain ⟨hk, hl⟩ := h eq heq
      rw [hst.ordered.zonk_eq_self hk, hst.ordered.zonk_eq_self hl, id]
    dsimp only
    rw [hsame, List.nil_append]
  | case2 st k l eqs parts hstep ih =>
    rw [List.cons_append, solveAll_cons_of_split hstep, ← List.append_assoc]
    refine ih hst ?_
    rw [List.append_assoc]
    exact step_zonked h hstep
  | case3 st k l eqs x m hstep st₁ hsolve ih =>
    have hmap := List.attach_map_val (l := eqs)
      (f := fun eq => (st₁.context.zonk eq.1, st₁.context.zonk eq.2))
    rw [hmap] at ih
    have hst₁ := hst.advances_solve? (step_solve h hstep) hsolve
    have hrest := Zonked.map_zonk (List.forall_mem_cons.1 h).2 hst₁.evolves
    rw [List.append_eq, List.map_append] at hrest
    rw [List.cons_append, solveAll_cons_of_solve hstep hsolve, List.map_append,
      ih hst₁.evolves.valid hrest]
    split
    · next st₂ hrun =>
      have hst₂ := advances_of_solveAll hst₁.evolves.valid (List.forall_mem_append.1 hrest).1 hrun
      simp only [List.map_map, Function.comp_def, hst₂.zonk_zonk hst₁.evolves.valid]
    · rfl
  | case4 st k l eqs x m hstep hnone =>
    rw [List.cons_append, solveAll_cons_of_stuck hstep hnone]
  | case5 st k l eqs hstep => rw [List.cons_append, solveAll_cons_of_clash hstep]

end Parts

end Kind

/-! ## The recursion of unification -/

/-- The runs that solve an unsolved metavariable by a kind, if that can be done. -/
inductive KindState.Solves (st : KindState) (x : String) (k : Kind) : Option KindState → Prop
  | occurs (hx : x ∈ k.freeVars) : Solves st x k none
  | unknown (hx : x ∉ k.freeVars) (hsplit : split? x st.context.entries = none) :
      Solves st x k none
  | solved {before after : List KindEntry} {n : Name} {f : Focus} {solution : Kind}
      (hx : x ∉ k.freeVars) (hsplit : split? x st.context.entries = some (before, n, after))
      (hf : k.freeVars.toList.foldl Focus.promote ⟨before, after, st.supply, ∅⟩ = f)
      (hsolution : (f.around n).context.Zonks (k.apply f.promoted) solution) :
      Solves st x k (some ⟨f.supply, ⟨f.before ++ .solved n solution :: f.after⟩⟩)

namespace Kind

/-- The runs that unify two kinds, with their results. -/
inductive Unifies (loc : Loc) :
    Kind → Kind → KindState → EStateM.Result ElaborationError KindState Unit → Prop
  | equal {k l k' l' : Kind} {st : KindState} (hk : st.context.Zonks k k')
      (hl : st.context.Zonks l l') (h : step k' l' = .split []) : Unifies loc k l st (.ok () st)
  | domainsFailed {k l a b c d : Kind} {e : ElaborationError} {st st' : KindState}
      (hk : st.context.Zonks k (.arrow a b)) (hl : st.context.Zonks l (.arrow c d))
      (h : Unifies loc a c st (.error e st')) : Unifies loc k l st (.error e st')
  | arrows {k l a b c d : Kind} {st st' : KindState}
      {r : EStateM.Result ElaborationError KindState Unit}
      (hk : st.context.Zonks k (.arrow a b)) (hl : st.context.Zonks l (.arrow c d))
      (h : Unifies loc a c st (.ok () st')) (h' : Unifies loc b d st' r) : Unifies loc k l st r
  | solved {k l k' l' j : Kind} {x : String} {st st' : KindState} (hk : st.context.Zonks k k')
      (hl : st.context.Zonks l l') (h : step k' l' = .solve x j) (hx : st.Solves x j (some st')) :
      Unifies loc k l st (.ok () st')
  | unsolvable {k l k' l' j : Kind} {x : String} {st : KindState} (hk : st.context.Zonks k k')
      (hl : st.context.Zonks l l') (h : step k' l' = .solve x j) (hx : st.Solves x j none) :
      Unifies loc k l st (.error (.kindUnifyFailed k' l' loc) st)
  | clash {k l k' l' : Kind} {st : KindState} (hk : st.context.Zonks k k')
      (hl : st.context.Zonks l l') (h : step k' l' = .clash) :
      Unifies loc k l st (.error (.kindUnifyFailed k' l' loc) st)

def splitState (supply : Supply) (before : List KindEntry) (n : Name) (after : List KindEntry) :
    KindState :=
  ⟨supply.advance.advance, ⟨before ++ [.unsolved (supply.next "k"),
    .unsolved (supply.advance.next "k"), .solved n (.arrow (.metavar (supply.next "k"))
      (.metavar (supply.advance.next "k")))] ++ after⟩⟩

/-- The runs in which a constructor takes an argument: its domain is unified with the kind of the
argument, and its codomain is the result. -/
inductive Takes (loc : Loc) (dom cod arg : Kind) (st : KindState) :
    EStateM.Result ElaborationError KindState Kind → Prop
  | taken {r : Kind} {st' : KindState} (h : Unifies loc dom arg st (.ok () st'))
      (hcod : st'.context.Zonks cod r) : Takes loc dom cod arg st (.ok r st')
  | failed {e : ElaborationError} {st' : KindState} (h : Unifies loc dom arg st (.error e st')) :
      Takes loc dom cod arg st (.error e st')

/-- The runs that find the kind of a constructor applied to an argument. -/
inductive Applies (loc : Loc) (k arg : Kind) (st : KindState) :
    EStateM.Result ElaborationError KindState Kind → Prop
  | arrow {dom cod : Kind} {r : EStateM.Result ElaborationError KindState Kind}
      (hk : st.context.Zonks k (.arrow dom cod)) (h : Takes loc dom cod arg st r) :
      Applies loc k arg st r
  | split {a n : Name} {before after : List KindEntry}
      {r : EStateM.Result ElaborationError KindState Kind} (hk : st.context.Zonks k (.metavar a))
      (hsplit : split? a.text st.context.entries = some (before, n, after))
      (h : Takes loc (.metavar (st.supply.next "k")) (.metavar (st.supply.advance.next "k")) arg
        (splitState st.supply before n after) r) : Applies loc k arg st r
  | unknown {a : Name} (hk : st.context.Zonks k (.metavar a))
      (hsplit : split? a.text st.context.entries = none) :
      Applies loc k arg st (.error (.kindUnifyFailed (.arrow arg .star) (.metavar a) loc) st)
  | star (hk : st.context.Zonks k .star) :
      Applies loc k arg st (.error (.kindUnifyFailed (.arrow arg .star) .star loc) st)

end Kind

/-! ## Every run ends -/

theorem KindState.Valid.solves_iff {st : KindState} {x : String} {k : Kind} {r : Option KindState}
    (hst : st.Valid) (hk : k.Over (unsolvedIn st.context.entries)) :
    st.Solves x k r ↔ st.solve? x k = r := by
  -- putting in solutions ends after the promotions too, which keep the context in order
  have hordered : ∀ {before n after}, x ∉ k.freeVars →
      split? x st.context.entries = some (before, n, after) →
      (Focus.around (k.freeVars.toList.foldl Focus.promote ⟨before, after, st.supply, ∅⟩)
        n).context.Ordered := by
    intro before n after hx hsplit
    obtain ⟨hentries, hn⟩ := split?_eq_some hsplit
    exact (promoting_of_split hst hk (hn ▸ hx) hentries).foldl_promote.evolves.valid.ordered
  constructor
  · intro h
    unfold KindState.solve?
    cases h with
    | occurs hx => rw [if_pos hx]
    | unknown hx hsplit => rw [if_neg hx, hsplit]
    | solved hx hsplit hf hsolution =>
      subst hf
      have hzonk := (hordered hx hsplit).zonks_iff.1 hsolution
      rw [if_neg hx, hsplit]
      rw [Focus.around] at hzonk
      simp only [hzonk]
  · rintro rfl
    unfold KindState.solve?
    split
    · next hx => exact .occurs hx
    · next hx =>
      split
      · next hsplit => exact .unknown hx hsplit
      · next hsplit => exact .solved hx hsplit rfl ((hordered hx hsplit).zonks_zonk _)

namespace Kind

variable {st : KindState} {k l : Kind} {loc : Loc}
  {r : EStateM.Result ElaborationError KindState Unit}

theorem Zonked.known {ctx : KindContext} {eqs : List (Kind × Kind)} (h : Zonked ctx eqs) :
    ∀ eq ∈ eqs, eq.1.Over (metasIn ctx.entries) ∧ eq.2.Over (metasIn ctx.entries) :=
  fun eq heq => ⟨(h eq heq).1.mono (unsolvedIn_subset _), (h eq heq).2.mono (unsolvedIn_subset _)⟩

theorem zonked_pair (hst : st.Valid) (hk : k.Over (metasIn st.context.entries))
    (hl : l.Over (metasIn st.context.entries)) :
    Zonked st.context [(st.context.zonk k, st.context.zonk l)] := by
  simpa [Zonked] using ⟨hst.ordered.over_zonk hk, hst.ordered.over_zonk hl⟩

theorem zonked_parts {a b c d : Kind} (hst : st.Valid) (hk : k.Over (metasIn st.context.entries))
    (hl : l.Over (metasIn st.context.entries)) (hab : st.context.zonk k = .arrow a b)
    (hcd : st.context.zonk l = .arrow c d) : Zonked st.context [(a, c), (b, d)] := by
  have hzonked := zonked_pair hst hk hl
  rw [hab, hcd] at hzonked
  have hstep : step (.arrow a b) (.arrow c d) = .split [(a, c), (b, d)] := rfl
  simpa using step_zonked hzonked hstep

theorem size_parts_lt {a b c d : Kind} (hst : st.Valid)
    (hk : k.Over (metasIn st.context.entries)) (hl : l.Over (metasIn st.context.entries))
    (hab : st.context.zonk k = .arrow a b) (hcd : st.context.zonk l = .arrow c d) :
    ∀ eq ∈ [(a, c), (b, d)], (st.context.zonk eq.1).size + (st.context.zonk eq.2).size <
      (st.context.zonk k).size + (st.context.zonk l).size := by
  intro eq heq
  obtain ⟨hfst, hsnd⟩ := zonked_parts hst hk hl hab hcd eq heq
  rw [hst.ordered.zonk_eq_self hfst, hst.ordered.zonk_eq_self hsnd, hab, hcd, size, size]
  simp only [List.mem_cons, List.not_mem_nil, or_false] at heq
  rcases heq with rfl | rfl
  · dsimp only
    omega
  · dsimp only
    omega

theorem unify_arrows {a b c d : Kind} (hst : st.Valid) (hk : k.Over (metasIn st.context.entries))
    (hl : l.Over (metasIn st.context.entries)) (hab : st.context.zonk k = .arrow a b)
    (hcd : st.context.zonk l = .arrow c d) :
    unify k l loc st = match unify a c loc st with
      | .ok _ st' => unify b d loc st'
      | .error e st' => .error e st' := by
  have hparts : Zonked st.context ([(a, c)] ++ [(b, d)]) := zonked_parts hst hk hl hab hcd
  obtain ⟨ha, hc⟩ := hparts (a, c) (by simp)
  have hfirst : unify a c loc st = solveAll loc [(a, c)] st := by
    rw [unify, hst.ordered.zonk_eq_self ha, hst.ordered.zonk_eq_self hc]
  have hstep : step (.arrow a b) (.arrow c d) = .split [(a, c), (b, d)] := rfl
  rw [hfirst, unify, hab, hcd, solveAll_cons_of_split hstep]
  exact solveAll_append hst hparts

theorem Unifies.unify_eq (h : Unifies loc k l st r) (hst : st.Valid)
    (hk : k.Over (metasIn st.context.entries)) (hl : l.Over (metasIn st.context.entries)) :
    unify k l loc st = r := by
  induction h with
  | equal hzk hzl hstep =>
    rw [hst.ordered.zonks_iff] at hzk hzl
    rw [unify, hzk, hzl, solveAll_cons_of_split hstep, List.append_nil, solveAll]
  | domainsFailed hzk hzl h ih =>
    rw [hst.ordered.zonks_iff] at hzk hzl
    obtain ⟨ha, hc⟩ := (zonked_parts hst hk hl hzk hzl).known _ (.head _)
    rw [unify_arrows hst hk hl hzk hzl, ih hst ha hc]
  | arrows hzk hzl h h' ih ih' =>
    rw [hst.ordered.zonks_iff] at hzk hzl
    have hparts := (zonked_parts hst hk hl hzk hzl).known
    obtain ⟨ha, hc⟩ := hparts _ (.head _)
    obtain ⟨hb, hd⟩ := hparts _ (.tail _ (.head _))
    have hfirst := ih hst ha hc
    have hst' := (unify_evolves loc hst ha hc).of_ok hfirst
    rw [unify_arrows hst hk hl hzk hzl, hfirst]
    exact ih' hst'.valid (hb.mono hst'.metas) (hd.mono hst'.metas)
  | solved hzk hzl hstep hx =>
    have hzonked := zonked_pair hst hk hl
    rw [hst.ordered.zonks_iff] at hzk hzl
    rw [hzk, hzl] at hzonked
    rw [hst.solves_iff (step_solve hzonked hstep)] at hx
    rw [unify, hzk, hzl, solveAll_cons_of_solve hstep hx, List.map_nil, solveAll]
  | unsolvable hzk hzl hstep hx =>
    have hzonked := zonked_pair hst hk hl
    rw [hst.ordered.zonks_iff] at hzk hzl
    rw [hzk, hzl] at hzonked
    rw [hst.solves_iff (step_solve hzonked hstep)] at hx
    rw [unify, hzk, hzl, solveAll_cons_of_stuck hstep hx]
  | clash hzk hzl hstep =>
    rw [hst.ordered.zonks_iff] at hzk hzl
    rw [unify, hzk, hzl, solveAll_cons_of_clash hstep]

theorem split_cases {parts : List (Kind × Kind)} (h : step k l = .split parts) :
    parts = [] ∨ ∃ a b c d, k = .arrow a b ∧ l = .arrow c d := by
  unfold step at h
  split at h
  · cases h
    exact .inl rfl
  · exact .inr ⟨_, _, _, _, rfl, rfl⟩
  · split at h
    · cases h
      exact .inl rfl
    · cases h
  all_goals cases h

/-- Unification ends: the domains of arrows are smaller, and the codomains too if the context is
as it was; otherwise fewer metavariables are left to be solved. -/
theorem exists_unifies (loc : Loc) {k l : Kind} {st : KindState} (hst : st.Valid)
    (hk : k.Over (metasIn st.context.entries)) (hl : l.Over (metasIn st.context.entries)) :
    ∃ r, Unifies loc k l st r := by
  have hzk := hst.ordered.zonks_zonk k
  have hzl := hst.ordered.zonks_zonk l
  cases hstep : step (st.context.zonk k) (st.context.zonk l) with
  | clash => exact ⟨_, .clash hzk hzl hstep⟩
  | solve x j =>
    have hx := (hst.solves_iff (x := x) (step_solve (zonked_pair hst hk hl) hstep)).2 rfl
    cases hsolve : st.solve? x j with
    | none => exact ⟨_, .unsolvable hzk hzl hstep (hsolve ▸ hx)⟩
    | some st' => exact ⟨_, .solved hzk hzl hstep (hsolve ▸ hx)⟩
  | split parts =>
    rcases split_cases hstep with rfl | ⟨a, b, c, d, hab, hcd⟩
    · exact ⟨_, .equal hzk hzl hstep⟩
    rw [hab] at hzk
    rw [hcd] at hzl
    have hparts := zonked_parts hst hk hl hab hcd
    have hsmaller := size_parts_lt hst hk hl hab hcd
    obtain ⟨ha, hc⟩ := hparts.known _ (.head _)
    obtain ⟨hb, hd⟩ := hparts.known _ (.tail _ (.head _))
    obtain ⟨r, hr⟩ := exists_unifies loc hst ha hc
    cases r with
    | error e st' => exact ⟨_, .domainsFailed hzk hzl hr⟩
    | ok _ st' =>
      have hst' : st.Advances st' :=
        advances_of_solveAll hst (zonked_pair hst ha hc) (hr.unify_eq hst ha hc)
      obtain ⟨r', hr'⟩ := exists_unifies loc hst'.evolves.valid (hb.mono hst'.evolves.metas)
        (hd.mono hst'.evolves.metas)
      exact ⟨_, .arrows hzk hzl hr hr'⟩
termination_by (st.unsolved, (st.context.zonk k).size + (st.context.zonk l).size)
decreasing_by
  · exact .right _ (hsmaller _ (.head _))
  · rcases hst'.fewer with rfl | hlt
    · exact .right _ (hsmaller _ (.tail _ (.head _)))
    · exact .left _ _ hlt

theorem unifies_iff (loc : Loc) (hst : st.Valid) (hk : k.Over (metasIn st.context.entries))
    (hl : l.Over (metasIn st.context.entries)) :
    Unifies loc k l st r ↔ unify k l loc st = r := by
  constructor
  · intro h
    exact h.unify_eq hst hk hl
  · rintro rfl
    obtain ⟨r, hr⟩ := exists_unifies loc hst hk hl
    rw [hr.unify_eq hst hk hl]
    exact hr

/-! ## Application -/

variable {arg dom cod : Kind} {result : EStateM.Result ElaborationError KindState Kind}

theorem takes_iff (hst : st.Valid) (hdom : dom.Over (metasIn st.context.entries))
    (harg : arg.Over (metasIn st.context.entries)) :
    Takes loc dom cod arg st result ↔
      (do unify dom arg loc; KindM.zonk cod : KindM Kind) st = result := by
  have hrun : (do unify dom arg loc; KindM.zonk cod : KindM Kind) st =
      match unify dom arg loc st with
      | .ok _ st' => .ok (st'.context.zonk cod) st'
      | .error e st' => .error e st' := by
    refine (EStateM.run_bind (s := st) (unify dom arg loc) fun _ => KindM.zonk cod).trans ?_
    rw [EStateM.run]
    cases unify dom arg loc st <;> rfl
  rw [hrun]
  constructor
  · intro h
    cases h with
    | taken h hcod =>
      have hunify := h.unify_eq hst hdom harg
      have hst' := (unify_evolves loc hst hdom harg).of_ok hunify
      rw [hunify, ← hst'.valid.ordered.zonks_iff.1 hcod]
    | failed h => rw [h.unify_eq hst hdom harg]
  · rintro rfl
    cases hunify : unify dom arg loc st with
    | ok _ st' =>
      have hst' := (unify_evolves loc hst hdom harg).of_ok hunify
      exact .taken ((unifies_iff loc hst hdom harg).2 hunify) (hst'.valid.ordered.zonks_zonk cod)
    | error e st' => exact .failed ((unifies_iff loc hst hdom harg).2 hunify)

theorem applied_of_arrow (hk : st.context.zonk k = .arrow dom cod) :
    applied k arg loc st = (do unify dom arg loc; KindM.zonk cod : KindM Kind) st := by
  unfold applied
  rw [EStateM.bind_of_ok (rfl : (get : KindM KindState) st = .ok st st), hk]

theorem applied_of_split {a n : Name} {before after : List KindEntry}
    (hk : st.context.zonk k = .metavar a)
    (hsplit : split? a.text st.context.entries = some (before, n, after)) :
    applied k arg loc st =
      (do unify (.metavar (st.supply.next "k")) arg loc
          KindM.zonk (.metavar (st.supply.advance.next "k")) : KindM Kind)
        (splitState st.supply before n after) := by
  unfold applied
  rw [EStateM.bind_of_ok (rfl : (get : KindM KindState) st = .ok st st), hk]
  dsimp only
  rw [hsplit]
  rfl

theorem applied_of_unknown {a : Name} (hk : st.context.zonk k = .metavar a)
    (hsplit : split? a.text st.context.entries = none) :
    applied k arg loc st = .error (.kindUnifyFailed (.arrow arg .star) (.metavar a) loc) st := by
  unfold applied
  rw [EStateM.bind_of_ok (rfl : (get : KindM KindState) st = .ok st st), hk]
  dsimp only
  rw [hsplit]
  rfl

theorem applied_of_star (hk : st.context.zonk k = .star) :
    applied k arg loc st = .error (.kindUnifyFailed (.arrow arg .star) .star loc) st := by
  unfold applied
  rw [EStateM.bind_of_ok (rfl : (get : KindM KindState) st = .ok st st), hk]
  rfl

theorem evolves_splitState {x : String} {n : Name} {before after : List KindEntry} (hst : st.Valid)
    (hsplit : split? x st.context.entries = some (before, n, after)) :
    st.Evolves (splitState st.supply before n after) := by
  obtain ⟨hentries, -⟩ := split?_eq_some hsplit
  obtain ⟨supply, ⟨entries⟩⟩ := st
  cases hentries
  exact hst.split

theorem applies_iff (loc : Loc) (hst : st.Valid) (hk : k.Over (metasIn st.context.entries))
    (harg : arg.Over (metasIn st.context.entries)) :
    Applies loc k arg st result ↔ applied k arg loc st = result := by
  have hordered := hst.ordered
  have hdom : ∀ {dom cod}, st.context.zonk k = .arrow dom cod →
      dom.Over (metasIn st.context.entries) := by
    intro dom cod hzonk
    have hover := hordered.over_zonk hk
    rw [hzonk, over_arrow] at hover
    exact hover.1.mono (unsolvedIn_subset _)
  have hfresh : ∀ {x before n after}, split? x st.context.entries = some (before, n, after) →
      (metavar (st.supply.next "k")).Over
        (metasIn (splitState st.supply before n after).context.entries) :=
    fun _ => over_metavar (by simp [splitState])
  constructor
  · intro h
    cases h with
    | arrow hzonk h =>
      rw [hordered.zonks_iff] at hzonk
      rw [applied_of_arrow hzonk]
      exact (takes_iff hst (hdom hzonk) harg).1 h
    | split hzonk hsplit h =>
      have hst' := evolves_splitState hst hsplit
      rw [applied_of_split (hordered.zonks_iff.1 hzonk) hsplit]
      exact (takes_iff hst'.valid (hfresh hsplit) (harg.mono hst'.metas)).1 h
    | unknown hzonk hsplit => exact applied_of_unknown (hordered.zonks_iff.1 hzonk) hsplit
    | star hzonk => exact applied_of_star (hordered.zonks_iff.1 hzonk)
  · rintro rfl
    have hzonks := hordered.zonks_zonk k
    cases hzonk : st.context.zonk k with
    | star =>
      rw [applied_of_star hzonk]
      exact .star (hzonk ▸ hzonks)
    | arrow dom cod =>
      rw [hzonk] at hzonks
      refine .arrow hzonks ?_
      rw [applied_of_arrow hzonk]
      exact (takes_iff hst (hdom hzonk) harg).2 rfl
    | metavar a =>
      rw [hzonk] at hzonks
      cases hsplit : split? a.text st.context.entries with
      | none =>
        rw [applied_of_unknown hzonk hsplit]
        exact .unknown hzonks hsplit
      | some parts =>
        obtain ⟨before, n, after⟩ := parts
        have hst' := evolves_splitState hst hsplit
        refine .split hzonks hsplit ?_
        rw [applied_of_split hzonk hsplit]
        exact (takes_iff hst'.valid (hfresh hsplit) (harg.mono hst'.metas)).2 rfl

end Kind

/-- In a context that is in order, putting in solutions ends on every kind.  If moreover the
supply issues only names that are not in the context, unification and application end on all
kinds over metavariables of the context, with a result or an error.  A unification that changes
the context leaves fewer metavariables to be solved, however many it has put in.  Both conditions
hold in every state that elaboration can reach, by `Reachable.valid`. -/
theorem kind_inference_terminates :
    (∀ ctx : KindContext, ctx.Ordered → ∀ k k', ctx.Zonks k k' ↔ ctx.zonk k = k') ∧
      ∀ st : KindState, st.Valid → ∀ k l : Kind, k.Over (metasIn st.context.entries) →
        l.Over (metasIn st.context.entries) → ∀ loc,
          (∀ r, Kind.Unifies loc k l st r ↔ Kind.unify k l loc st = r) ∧
          (∀ r, Kind.Applies loc k l st r ↔ Kind.applied k l loc st = r) ∧
          ∀ st', Kind.unify k l loc st = .ok () st' → st' = st ∨ st'.unsolved < st.unsolved := by
  refine ⟨fun ctx h k k' => h.zonks_iff, fun st hst k l hk hl loc => ⟨fun r => ?_, fun r => ?_, ?_⟩⟩
  · exact Kind.unifies_iff loc hst hk hl
  · exact Kind.applies_iff loc hst hk hl
  · intro st' h
    exact (Kind.advances_of_solveAll hst (Kind.zonked_pair hst hk hl) h).fewer

namespace Promotion

/-- The later metavariable is promoted, and the earlier one is split. -/
theorem promotion_terminates :
    before.context.Ordered ∧ before.Valid ∧
      (Kind.metavar early).Over (metasIn before.context.entries) ∧
      (Kind.arrow (.metavar late) .star).Over (metasIn before.context.entries) ∧
      (∃ st', Kind.Unifies .none (.metavar early) (.arrow (.metavar late) .star)
        before.toKindState (.ok () st') ∧ st'.unsolved < before.unsolved) ∧
      ∃ k st', Kind.Applies .none (.metavar early) (.arrow (.metavar late) .star)
        before.toKindState (.ok k st') := by
  have hvalid := reachable_before.valid
  have hearly : (Kind.metavar early).Over (metasIn before.context.entries) :=
    Kind.over_metavar (by simp [metasIn_before])
  have hlate : (Kind.arrow (.metavar late) .star).Over (metasIn before.context.entries) :=
    Kind.over_arrow.2 ⟨Kind.over_metavar (by simp [metasIn_before]), Kind.over_star⟩
  obtain ⟨hunifies, happlies, -⟩ :=
    kind_inference_terminates.2 before.toKindState hvalid _ _ hearly hlate .none
  refine ⟨hvalid.ordered, hvalid, hearly, hlate, ?_, ?_⟩
  · exact ⟨_, (hunifies _).2 (by cbv), by decide⟩
  · exact ⟨_, _, (happlies _).2 (by cbv)⟩

end Promotion

end GuardedCommands
