import GuardedCommands.Proofs.KindUnifiers

/-!
# Principal kinds of datatypes

A group of datatypes asks for kinds under which each datatype takes its parameters and
every argument of a constructor is a type of values.  Inference goes through the group
with metavariables in the place of the kinds.  Any kinds that meet the demands are a
choice for these metavariables, and the choice goes on through every step: each step
asks only for what the demands ask for too.  So inference succeeds wherever there are
such kinds, and what is left unsolved in the end is what the demands leave open.

Of all kinds that meet the demands, those that are returned are the smallest.  The
demands do not mention an order, so neither datatypes nor constructors need one.
-/

namespace GuardedCommands

open KindContext

open Ty (HasKind)

/-! ## Inference loses no choice -/

namespace KindState.Continues

variable {st st' : KindState} {v w : String → Kind}

theorem kinding_under (hst : st.Valid) (h : st.Continues v st' w) :
    kinding w st.context.entries = kinding v st.context.entries := by
  funext x
  rw [kinding, kinding]
  cases hx : annotation? x st.context.entries with
  | none => rfl
  | some k =>
    have hover := hst.ordered.earlier.over_annotation hx
    exact congrArg some (h.under_eq (by simpa using hover))

theorem kinding_eq (hst : st.Valid) (h : st.Continues v st' w)
    (hsame : annotationsIn st'.context.entries = annotationsIn st.context.entries) :
    kinding w st'.context.entries = kinding v st.context.entries :=
  (kinding_congr hsame).trans (h.kinding_under hst)

end KindState.Continues

namespace Keeps

variable {α β : Type} {m : KindM α} {st st₁ : KindState} {v w : String → Kind}
  {Q : α → KindState → (String → Kind) → Prop}

theorem and_ok {R : α → KindState → Prop} (h : Keeps m st v Q)
    (hR : ∀ a st', m st = .ok a st' → R a st') :
    Keeps m st v fun a st' w => Q a st' w ∧ R a st' := by
  obtain ⟨a, st', w, hm, hw, hq⟩ := h
  exact ⟨a, st', w, hm, hw, hq, hR a st' hm⟩

theorem of_step (m' : KindM α) (hw : st.Continues v st₁ w) (hm : m st = m' st₁)
    (h : Keeps m' st₁ w Q) : Keeps m st v Q := by
  obtain ⟨a, st', u, hrun, hu, hq⟩ := h
  exact ⟨a, st', u, hm.trans hrun, hw.trans hu, hq⟩

theorem forM {f : α → KindM PUnit} {I : KindState → (String → Kind) → Prop} {xs : List α}
    (hf : ∀ x ∈ xs, ∀ st v, st.Valid → st.Admits v → I st v → Keeps (f x) st v fun _ => I)
    (hst : st.Valid) (hv : st.Admits v) (hI : I st v) : Keeps (xs.forM f) st v fun _ => I := by
  induction xs generalizing st v with
  | nil => exact Keeps.pure hst hv hI
  | cons x xs ih =>
    obtain ⟨hx, hxs⟩ := List.forall_mem_cons.1 hf
    exact (hx st v hst hv hI).bind fun _ st₁ w hw hI => ih hxs hw.evolves.valid hw.admits hI

end Keeps

theorem KindState.continues_split {supply : Supply} {before after : List KindEntry} {n : Name}
    {v : String → Kind} {dom cod : Kind} (hst : Valid ⟨supply, ⟨before ++ .unsolved n :: after⟩⟩)
    (hv : Admits ⟨supply, ⟨before ++ .unsolved n :: after⟩⟩ v) (hn : v n.text = .arrow dom cod) :
    ∃ w, Continues ⟨supply, ⟨before ++ .unsolved n :: after⟩⟩ v
        ⟨supply.advance.advance, ⟨before ++ [.unsolved (supply.next "k"),
          .unsolved (supply.advance.next "k"), .solved n (.arrow (.metavar (supply.next "k"))
            (.metavar (supply.advance.next "k")))] ++ after⟩⟩ w ∧
      w (supply.next "k").text = dom ∧ w (supply.advance.next "k").text = cod := by
  have hground := hv.ground n.text (by simp)
  rw [hn, Kind.over_arrow] at hground
  have hdom := continues_insert before (.unsolved n :: after) hst hv hground.1
  have hcod := continues_insert (before ++ [.unsolved (supply.next "k")])
    (.unsolved n :: after) (by simpa using hdom.evolves.valid) (by simpa using hdom.admits)
    hground.2
  set w₁ := Function.update v (supply.next "k").text dom with hw₁
  set w := Function.update w₁ (supply.advance.next "k").text cod with hw
  have hwdom : w (supply.next "k").text = dom := by
    rw [hcod.same _ (by simp), hw₁, Function.update_self]
  have hwcod : w (supply.advance.next "k").text = cod := by rw [hw, Function.update_self]
  have hwn : w n.text = .arrow dom cod := by
    rw [hcod.same _ (by simp), hdom.same _ (by simp), hn]
  have hsolve := continues_solve (before ++ [.unsolved (supply.next "k"),
      .unsolved (supply.advance.next "k")]) after (n := n)
    (k := .arrow (.metavar (supply.next "k")) (.metavar (supply.advance.next "k")))
    (by simpa using hcod.evolves.valid) (by simpa using hcod.admits)
    (Kind.over_arrow.2 ⟨Kind.over_metavar (by simp), Kind.over_metavar (by simp)⟩)
    (by rw [hwn, Kind.under_arrow, Kind.under_metavar, Kind.under_metavar, hwdom, hwcod])
  refine ⟨w, ?_, hwdom, hwcod⟩
  simp only [List.append_assoc, List.cons_append, List.nil_append] at hcod hsolve ⊢
  exact (hdom.trans hcod).trans hsolve

namespace Kind

variable {st : KindState} {v : String → Kind} {k : Kind}

theorem over_of_arrows {xs : List String} {args : List Kind} (h : (arrows args).Over xs) :
    ∀ k ∈ args, k.Over xs := by
  induction args with
  | nil => simp
  | cons k args ih =>
    obtain ⟨hk, hargs⟩ := over_arrow.1 h
    exact List.forall_mem_cons.2 ⟨hk, ih hargs⟩

theorem zonk_keeps (hst : st.Valid) (hv : st.Admits v) (k : Kind) :
    Keeps (KindM.zonk k) st v fun j _ w => j.under w = k.under w :=
  ⟨_, st, v, rfl, .refl hst hv, under_zonk hv.solved k⟩

theorem applied_keeps {arg r : Kind} (loc : Loc) (hst : st.Valid) (hv : st.Admits v)
    (hk : k.Over (metasIn st.context.entries)) (harg : arg.Over (metasIn st.context.entries))
    (h : k.under v = .arrow (arg.under v) r) :
    Keeps (applied k arg loc) st v fun j _ w => j.under w = r := by
  have hover := hst.ordered.over_zonk hk
  rw [← under_zonk hv.solved] at h
  have hknown := unsolvedIn_subset st.context.entries
  refine Keeps.get ?_
  cases hhead : st.context.zonk k with
  | star =>
    rw [hhead] at h
    cases h
  | arrow dom cod =>
    rw [hhead, over_arrow] at hover
    rw [hhead, under_arrow, arrow.injEq] at h
    refine (unify_keeps loc hst (hover.1.mono hknown) harg hv h.1).bind fun _ st₁ w hw _ => ?_
    refine (zonk_keeps hw.evolves.valid hw.admits cod).imp fun j st₂ u hu hj => ?_
    rw [hj, (hw.trans hu).under_eq (hover.2.mono hknown), h.2]
  | metavar a =>
    rw [hhead] at h hover
    obtain ⟨before, n, after, hsplit⟩ := exists_split? (hover a.text (by simp [freeVars]))
    obtain ⟨hentries, hn⟩ := split?_eq_some hsplit
    dsimp only
    rw [hsplit]
    obtain ⟨supply, ⟨entries⟩⟩ := st
    cases hentries
    rw [under_metavar, ← hn] at h
    obtain ⟨w, hw, hdom, hcod⟩ := KindState.continues_split hst hv h
    refine Keeps.of_step (do unify (.metavar (supply.next "k")) arg loc
                             KindM.zonk (.metavar (supply.advance.next "k"))) hw rfl ?_
    refine (unify_keeps loc hw.evolves.valid (over_metavar (by simp))
      (harg.mono hw.evolves.metas) hw.admits ?_).bind fun _ st₁ u hu _ => ?_
    · rw [under_metavar, hdom, hw.under_eq harg]
    · refine (zonk_keeps hu.evolves.valid hu.admits _).imp fun j st₂ t ht hj => ?_
      rw [hj, (hu.trans ht).under_eq (over_metavar (by simp)), under_metavar, hcod]

end Kind

namespace Ty

variable {st : KindState} {v : String → Kind}

theorem nameKind_keeps {n : Name} {k : Kind} (hst : st.Valid) (hv : st.Admits v)
    (h : kinding v st.context.entries n.text = some k) :
    Keeps (nameKind n) st v fun j _ w => j.under w = k := by
  obtain ⟨j, hj, rfl⟩ := Option.map_eq_some_iff.1 h
  refine Keeps.get ?_
  rw [lookup?, hj, Option.map_some]
  exact Keeps.pure hst hv (under_zonk hv.solved j)

/-- Inference finds a kind that the choice turns into the one that the rules give. -/
theorem kind_keeps {κ : Kinding} {t : Ty} {k : Kind} (h : HasKind .free κ t k) (hst : st.Valid)
    (hv : st.Admits v) (hκ : kinding v st.context.entries = κ) :
    Keeps t.kind st v fun j st' w => j.under w = k ∧ j.Over (metasIn st'.context.entries) ∧
      annotationsIn st'.context.entries = annotationsIn st.context.entries := by
  have hknown : ∀ {t : Ty} {st : KindState}, st.Valid → ∀ j st', t.kind st = .ok j st' →
      j.Over (metasIn st'.context.entries) ∧
        annotationsIn st'.context.entries = annotationsIn st.context.entries := by
    intro t st hst j st' hrun
    exact ⟨((kind_evolves t hst).of_ok hrun).2, ((kind_grows t st).of_ok hrun).1.annotations⟩
  refine Keeps.and_ok ?_ (hknown hst)
  induction h generalizing st v with
  | base => exact Keeps.pure hst hv rfl
  | tuple | arrow => exact Keeps.pure hst hv (Kind.under_starArity ..)
  | data h | rigid h | metavar h => exact nameKind_keeps hst hv (hκ ▸ h)
  | array _ ih =>
    refine ((ih hst hv hκ).and_ok (hknown hst)).bind fun j st₁ w hw hj => ?_
    refine (Kind.unify_keeps _ hw.evolves.valid hj.2.1 Kind.over_star hw.admits hj.1).bind
      fun _ st₂ u hu _ => ?_
    exact Keeps.pure hu.evolves.valid hu.admits rfl
  | app _ _ _ ihf iha =>
    refine ((ihf hst hv hκ).and_ok (hknown hst)).bind fun j st₁ w hw hj => ?_
    have hκ₁ := (hw.kinding_eq hst hj.2.2).trans hκ
    refine ((iha hw.evolves.valid hw.admits hκ₁).and_ok (hknown hw.evolves.valid)).bind
      fun l st₂ u hu hl => ?_
    refine Kind.applied_keeps _ hu.evolves.valid hu.admits (hj.2.1.mono hu.evolves.metas)
      hl.2.1 ?_
    rw [hu.under_eq hj.2.1, hj.1, hl.1]

theorem checkStar_keeps {t : Ty} (loc : Loc) (hst : st.Valid) (hv : st.Admits v)
    (h : HasKind .free (kinding v st.context.entries) t .star) :
    Keeps (t.checkStar loc) st v fun _ st' w =>
      kinding w st'.context.entries = kinding v st.context.entries := by
  have hcheck : Keeps (t.checkStar loc) st v fun _ _ _ => True := by
    refine (kind_keeps h hst hv rfl).bind fun j st₁ w hw hj => ?_
    exact Kind.unify_keeps loc hw.evolves.valid hj.2.1 Kind.over_star hw.admits hj.1
  refine (hcheck.and_ok fun _ st' hrun =>
    ((checkStar_grows t loc st).of_ok hrun).1.annotations).imp fun _ st' w hw hsame => ?_
  exact hw.kinding_eq hst hsame.2

end Ty

/-! ## Names with chosen kinds -/

namespace KindM

variable {st : KindState} {v : String → Kind}

theorem annotateFresh_keeps {n : Name} {k : Kind} (hst : st.Valid) (hv : st.Admits v)
    (hn : n.text ∉ st.context.annotated) (hk : k.Over []) :
    Keeps (annotateFresh n) st v fun m st' w => w m.text = k ∧
      m.text ∈ metasIn st'.context.entries ∧
      annotationsIn st'.context.entries =
        annotationsIn st.context.entries ++ [(n.text, .metavar m)] := by
  obtain ⟨m, st', hrun, hevolves, hm⟩ :=
    (annotateFresh_evolves n hst).exists_ok fun _ h => hn h.2
  have hentries := entries_of_annotateFresh hrun
  have hmetas : metasIn st'.context.entries = metasIn st.context.entries ++ [m.text] := by
    simp [hentries]
  have hnew : m.text ∉ metasIn st.context.entries := by
    have hnodup := hevolves.valid.ordered.metas
    rw [hmetas] at hnodup
    exact fun hmem => (List.nodup_append.1 hnodup).2.2 _ hmem _ (by simp) rfl
  have hsame : ∀ x ∈ metasIn st.context.entries, Function.update v m.text k x = v x := by
    intro x hx
    refine Function.update_of_ne ?_ _ _
    rintro rfl
    exact hnew hx
  have hw := hv.congr hst hsame
  refine ⟨m, st', Function.update v m.text k, hrun, ⟨hevolves, ⟨fun x hx => ?_, ?_⟩, hsame⟩,
    Function.update_self .., hm, by simp [hentries]⟩
  · rw [hmetas, List.mem_append, List.mem_singleton] at hx
    rcases hx with hx | rfl
    · exact hw.ground x hx
    · rw [Function.update_self]
      exact hk
  · exact hw.solved.mono (by simp [hentries])

theorem mapM_keeps {α β : Type} {step : α → KindM β} (name : α → String) (kind : β → Kind)
    (hstep : ∀ x st v k, st.Valid → st.Admits v → name x ∉ st.context.annotated → k.Over [] →
      Keeps (step x) st v fun b st' w => (kind b).under w = k ∧
        (kind b).Over (metasIn st'.context.entries) ∧
        annotationsIn st'.context.entries =
          annotationsIn st.context.entries ++ [(name x, kind b)])
    {xs : List α} {ks : List Kind} (hlength : ks.length = xs.length) (hks : ∀ k ∈ ks, k.Over [])
    (hst : st.Valid) (hv : st.Admits v)
    (hnodup : (st.context.annotated ++ xs.map name).Nodup) :
    Keeps (xs.mapM step) st v fun bs st' w => bs.map (fun b => (kind b).under w) = ks ∧
      (∀ b ∈ bs, (kind b).Over (metasIn st'.context.entries)) ∧
      annotationsIn st'.context.entries =
        annotationsIn st.context.entries ++ (xs.map name).zip (bs.map kind) := by
  induction xs generalizing st v ks with
  | nil =>
    obtain rfl := List.length_eq_zero_iff.1 hlength
    exact Keeps.pure hst hv ⟨rfl, by simp, by simp⟩
  | cons x xs ih =>
    obtain ⟨k, ks, rfl⟩ := List.exists_cons_of_length_eq_add_one hlength
    obtain ⟨hk, hks⟩ := List.forall_mem_cons.1 hks
    have hx : name x ∉ st.context.annotated := fun hmem =>
      (List.nodup_append.1 hnodup).2.2 _ hmem _ (by simp) rfl
    rw [List.mapM_cons]
    refine (hstep x st v k hst hv hx hk).bind fun b st₁ w hw hstep => ?_
    obtain ⟨hb, hover, hone⟩ := hstep
    have hannotated : st₁.context.annotated = st.context.annotated ++ [name x] := by
      simp [KindContext.annotated, annotatedIn_eq_map, hone]
    refine (ih (by simpa using hlength) hks hw.evolves.valid hw.admits
      (by simpa [hannotated] using hnodup)).bind fun bs st₂ u hu hsteps => ?_
    obtain ⟨hbs, hovers, hrest⟩ := hsteps
    refine Keeps.pure hu.evolves.valid hu.admits ⟨?_, ?_, ?_⟩
    · rw [List.map_cons, hu.under_eq hover, hb, hbs]
    · exact List.forall_mem_cons.2 ⟨hover.mono hu.evolves.metas, hovers⟩
    · rw [hrest, hone]
      simp

end KindM

namespace Datatype

variable {st : KindState} {v : String → Kind} {d : Datatype}

theorem checkCtor_keeps {c : Ctor} (hst : st.Valid) (hv : st.Admits v)
    (hvars : ∀ t ∈ c.args, ∀ x ∈ t.rigidVars, x ∈ d.params.map (·.text))
    (h : ∀ t ∈ c.args, HasKind .free (kinding v st.context.entries) t .star) :
    Keeps (d.checkCtor c) st v fun _ st' w =>
      kinding w st'.context.entries = kinding v st.context.entries := by
  have hstray : (d.strayVars c).isEmpty = true := by
    refine List.isEmpty_iff.2 (List.eq_nil_iff_forall_not_mem.2 fun x hx => ?_)
    obtain ⟨hmem, hnot⟩ := NameSet.mem_sdiff.1 (NameSet.mem_def.2 hx)
    obtain ⟨t, ht, hx⟩ := NameSet.mem_unionMap.1 hmem
    exact hnot (NameSet.mem_ofList.2 (hvars t ht x hx))
  have hloop : Keeps (c.args.forM (·.checkStar c.loc)) st v fun _ s w =>
      kinding w s.context.entries = kinding v st.context.entries :=
    Keeps.forM (fun t ht s w hs hw hκ => (Ty.checkStar_keeps c.loc hs hw (hκ ▸ h t ht)).imp
      fun _ s' u _ hu => hu.trans hκ) hst hv rfl
  unfold checkCtor
  simpa [hstray] using hloop

theorem unannotate_keeps (x : String) (hst : st.Valid) (hv : st.Admits v) :
    Keeps (KindM.unannotate x) st v fun _ _ _ => True := by
  have hmetas : metasIn (st.context.unannotate x).entries = metasIn st.context.entries :=
    metasIn_eraseP x _
  refine ⟨⟨⟩, _, v, rfl, ⟨hst.unannotate x, ⟨fun y hy => hv.ground y (hmetas ▸ hy), ?_⟩,
    fun _ _ => rfl⟩, trivial⟩
  exact hv.solved.mono fun n k hk => List.mem_of_mem_eraseP hk

theorem inferMember_keeps {m : Name} (hst : st.Valid) (hv : st.Admits v)
    (hname : annotation? d.name.text st.context.entries = some (.metavar m))
    (hnodup : (st.context.annotated ++ d.params.map (·.text)).Nodup)
    (hvars : ∀ c ∈ d.ctors, ∀ t ∈ c.args, ∀ x ∈ t.rigidVars, x ∈ d.params.map (·.text))
    (h : d.KindedIn (kinding v st.context.entries)) :
    Keeps (d.inferMember m) st v fun _ st' _ =>
      annotationsIn st'.context.entries = annotationsIn st.context.entries := by
  obtain ⟨kinds, hlength, hkind, hargs⟩ := h
  have hm : m.text ∈ metasIn st.context.entries := by
    have hover := hst.ordered.earlier.over_annotation hname
    simpa [Kind.Over, Kind.freeVars] using hover
  have hchosen : v m.text = .arrows kinds := by
    rw [kinding, hname] at hkind
    exact Option.some.inj hkind
  have hground := Kind.over_of_arrows (hchosen ▸ hv.ground _ hm)
  have hmember : Keeps (d.inferMember m) st v fun _ _ _ => True := by
    refine (KindM.mapM_keeps (·.text) id (fun p s w k hs hw hp hk => ?_)
      hlength hground hst hv hnodup).bind fun params st₁ w₁ hw₁ hparams => ?_
    · refine (KindM.annotateFresh_keeps hs hw hp hk).bind fun b s₁ u hu hb => ?_
      exact Keeps.pure hu.evolves.valid hu.admits ⟨hb.1, Kind.over_metavar hb.2.1, hb.2.2⟩
    obtain ⟨hkinds, hover, hannotations⟩ := hparams
    have hκ : kinding w₁ st₁.context.entries =
        (kinding v st.context.entries).extend (d.params.map (·.text)) kinds := by
      rw [kinding_append hannotations, hw₁.kinding_under hst, ← hkinds, List.map_map]
      rfl
    have hctors : Keeps (d.ctors.forM d.checkCtor) st₁ w₁ fun _ s w =>
        kinding w s.context.entries = kinding w₁ st₁.context.entries :=
      Keeps.forM (fun c hc s w hs hw hsame => (checkCtor_keeps hs hw (hvars c hc)
        (hsame ▸ hκ ▸ hargs c hc)).imp fun _ s' u _ hu => hu.trans hsame)
        hw₁.evolves.valid hw₁.admits rfl
    refine hctors.bind fun _ st₂ w₂ hw₂ _ => ?_
    have hagree : params.map (Kind.under w₂) = kinds := by
      rw [← hkinds]
      exact List.map_congr_left fun k hk => hw₂.under_eq (hover k hk)
    refine (Kind.unify_keeps d.loc hw₂.evolves.valid
      (Kind.over_metavar (hw₂.evolves.metas (hw₁.evolves.metas hm)))
      (Kind.over_arrows fun k hk => (hover k hk).mono hw₂.evolves.metas) hw₂.admits ?_).bind
      fun _ st₃ w₃ hw₃ _ => ?_
    · rw [Kind.under_metavar, (hw₁.trans hw₂).same _ hm, hchosen, Kind.under_arrows, hagree]
    · exact Keeps.forM (fun p _ s w hs hw _ => unannotate_keeps p.text hs hw) hw₃.evolves.valid
        hw₃.admits trivial
  refine (hmember.and_ok fun _ st' hrun => ?_).imp fun _ _ _ _ h => h.2
  exact (grows_of_inferMember (List.nodup_append.1 hnodup).1 hrun).annotations

theorem members_keep {members : List (Datatype × Name)} (hst : st.Valid) (hv : st.Admits v)
    (hnames : ∀ e ∈ members, (e.1.name.text, .metavar e.2) ∈ annotationsIn st.context.entries)
    (hnodup : ∀ e ∈ members, (st.context.annotated ++ e.1.params.map (·.text)).Nodup)
    (hvars : ∀ e ∈ members, ∀ c ∈ e.1.ctors, ∀ t ∈ c.args, ∀ x ∈ t.rigidVars,
      x ∈ e.1.params.map (·.text))
    (h : ∀ e ∈ members, e.1.KindedIn (kinding v st.context.entries)) :
    Keeps (members.forM fun e => e.1.inferMember e.2) st v fun _ s w =>
      annotationsIn s.context.entries = annotationsIn st.context.entries ∧
        kinding w s.context.entries = kinding v st.context.entries := by
  refine Keeps.forM (I := fun s w =>
    annotationsIn s.context.entries = annotationsIn st.context.entries ∧
      kinding w s.context.entries = kinding v st.context.entries)
    (fun e he s w hs hw hI => ?_) hst hv ⟨rfl, rfl⟩
  obtain ⟨hsame, hκ⟩ := hI
  have hannotated : s.context.annotated = st.context.annotated := by
    rw [KindContext.annotated, annotatedIn_eq_map, hsame, ← annotatedIn_eq_map]
    rfl
  refine (inferMember_keeps hs hw (annotation?_of_mem hs.ordered.annotated (hsame ▸ hnames e he))
    (hannotated ▸ hnodup e he) (hvars e he) (hκ ▸ h e he)).imp fun _ s' u hu hsame' => ?_
  exact ⟨hsame'.trans hsame, (hu.kinding_eq hs hsame').trans hκ⟩

end Datatype

/-! ## The demands of a group -/

namespace Datatype

structure WellScoped (ds : List Datatype) : Prop where
  names : (ds.map (·.name.text)).Nodup
  params : ∀ d ∈ ds, (d.params.map (·.text)).Nodup
  apart : ∀ d ∈ ds, ∀ p ∈ d.params, p.text ∉ ds.map (·.name.text)
  vars : ∀ d ∈ ds, ∀ c ∈ d.ctors, ∀ t ∈ c.args, ∀ x ∈ t.rigidVars, x ∈ d.params.map (·.text)

def assigned (ds : List Datatype) (κ : String → Kind) : Kinding :=
  fun x => if x ∈ ds.map (·.name.text) then some (κ x) else none

/-- Ground kinds that suit all datatypes of a group. -/
structure Suits (ds : List Datatype) (κ : String → Kind) : Prop where
  ground : ∀ d ∈ ds, (κ d.name.text).Over []
  kinded : ∀ d ∈ ds, d.KindedIn (assigned ds κ)

variable {ds : List Datatype} {κ : String → Kind} {supply : Supply}

theorem lookup_assigned (ds : List Datatype) (κ : String → Kind) (x : String) :
    NameMap.lookup x ((ds.map (·.name.text)).zip (ds.map fun d => κ d.name.text)) =
      assigned ds κ x := by
  induction ds with
  | nil => rfl
  | cons d ds ih =>
    rw [List.map_cons, List.map_cons, List.zip_cons_cons, NameMap.lookup, ih]
    by_cases hx : x = d.name.text
    · simp [assigned, hx]
    · simp [assigned, hx]

theorem valid_empty (supply : Supply) : KindState.Valid ⟨supply, .empty⟩ :=
  ⟨⟨List.nodup_nil, List.nodup_nil, trivial⟩, fun _ _ => List.not_mem_nil⟩

theorem solveGroup_keeps (hds : WellScoped ds) (hκ : Suits ds κ) (supply : Supply)
    (v : String → Kind) : Keeps (solveGroup ds) ⟨supply, .empty⟩ v fun _ st' w =>
      kinding w st'.context.entries = assigned ds κ := by
  have hadmits : KindState.Admits ⟨supply, .empty⟩ v := by
    constructor <;> simp [KindContext.empty, SolvedBy]
  have hground : ∀ k ∈ ds.map (fun d => κ d.name.text), k.Over [] := by
    simpa using hκ.ground
  refine (KindM.mapM_keeps (·.name.text) .metavar (fun d s w k hs hw hd hk =>
    (KindM.annotateFresh_keeps hs hw hd hk).imp fun m s' u _ hm =>
      ⟨hm.1, Kind.over_metavar hm.2.1, hm.2.2⟩) (by simp) hground (valid_empty supply) hadmits
    (by simpa [KindContext.empty, KindContext.annotated] using hds.names)).bind
    fun metas st₁ w₁ hw₁ hmetas => ?_
  obtain ⟨hkinds, -, hannotations⟩ := hmetas
  have hannotations : annotationsIn st₁.context.entries =
      (ds.map (·.name.text)).zip (metas.map .metavar) := hannotations
  have hlength : metas.length = ds.length := by
    simpa using congrArg List.length hkinds
  have hassigned : kinding w₁ st₁.context.entries = assigned ds κ := by
    funext x
    rw [kinding_eq_lookup, hannotations, ← NameMap.lookup_map, ← List.zip_map_right, List.map_map,
      ← lookup_assigned, ← hkinds]
    rfl
  have hannotated : st₁.context.annotated = ds.map (·.name.text) := by
    rw [KindContext.annotated, annotatedIn_eq_map, hannotations,
      List.map_fst_zip (by simp [hlength])]
  have hmember : ∀ e ∈ ds.zip metas, e.1 ∈ ds := fun e he => (List.of_mem_zip he).1
  refine (members_keep hw₁.evolves.valid hw₁.admits (fun e he => ?_) (fun e he => ?_)
    (fun e he => hds.vars e.1 (hmember e he))
    fun e he => hassigned ▸ hκ.kinded e.1 (hmember e he)).bind fun _ st₂ w₂ hw₂ hrest => ?_
  · rw [hannotations, List.zip_map]
    exact List.mem_map.2 ⟨e, he, rfl⟩
  · have hd := hmember e he
    rw [hannotated]
    refine List.nodup_append.2 ⟨hds.names, hds.params e.1 hd, fun x hx y hy => ?_⟩
    rintro rfl
    obtain ⟨p, hp, rfl⟩ := List.mem_map.1 hy
    exact hds.apart e.1 hd p hp hx
  · exact Keeps.pure hw₂.evolves.valid hw₂.admits (hrest.2.trans hassigned)

end Datatype

/-! ## The most general kinds -/

theorem KindContext.zonk_defaultUnsolved {st : KindState} (hst : st.Valid) {k : Kind}
    (hk : k.Over (metasIn st.context.entries)) :
    st.context.defaultUnsolved.zonk k = (st.context.zonk k).under fun _ => .star := by
  have hvalid := hst.defaultUnsolved.valid
  obtain ⟨v, hv⟩ := hvalid.ordered.exists_solvedBy
  have hstar : ∀ x ∈ unsolvedIn st.context.entries, v x = .star := by
    intro x hx
    obtain ⟨e, he, hx⟩ := List.mem_filterMap.1 hx
    cases e with
    | annotated | solved => cases hx
    | unsolved n =>
      cases hx
      exact hv n .star (List.mem_map.2 ⟨_, he, rfl⟩)
  have hground : (st.context.defaultUnsolved.zonk k).Over _ :=
    hvalid.ordered.over_zonk (by rwa [metasIn_defaultUnsolved])
  rw [unsolvedIn_defaultUnsolved] at hground
  calc st.context.defaultUnsolved.zonk k
      = (st.context.defaultUnsolved.zonk k).under v := (Kind.under_of_ground hground).symm
    _ = k.under v := under_zonk hv k
    _ = (st.context.zonk k).under v := (under_zonk (solvedBy_defaultUnsolved hv) k).symm
    _ = (st.context.zonk k).under fun _ => .star :=
        Kind.under_congr fun x hx => hstar x (hst.ordered.over_zonk hk x hx)

namespace Datatype

variable {ds ds' : List Datatype} {κ : String → Kind} {supply : Supply}

theorem assigned_congr {κ' : String → Kind} (h : ∀ d ∈ ds, κ d.name.text = κ' d.name.text) :
    assigned ds κ = assigned ds κ' := by
  funext x
  unfold assigned
  split
  · next hx =>
    obtain ⟨d, hd, rfl⟩ := List.mem_map.1 hx
    rw [h d hd]
  · rfl

def found (st : KindState) (x : String) : Kind := (st.context.lookup? x).getD .star

theorem found_of_solveGroup {metas : List Name} {st : KindState}
    (h : solveGroup ds ⟨supply, .empty⟩ = .ok metas st) :
    metas.map (fun m => st.context.zonk (.metavar m)) = ds.map (fun d => found st d.name.text) ∧
      (∀ m ∈ metas, m.text ∈ metasIn st.context.entries) ∧
      (∀ d ∈ ds, (found st d.name.text).Over (unsolvedIn st.context.entries)) ∧
      ∀ v, SolvedBy v st.context.entries →
        kinding v st.context.entries = assigned ds fun x => (found st x).under v := by
  obtain ⟨hst, hlength, hannotations, -⟩ := kindedIn_of_solveGroup (valid_empty supply) rfl h
  have hannotated : st.context.annotated = ds.map (·.name.text) := by
    rw [KindContext.annotated, annotatedIn_eq_map, hannotations,
      List.map_fst_zip (by simp [hlength])]
  have hmeta : ∀ d m, (d, m) ∈ ds.zip metas →
      annotation? d.name.text st.context.entries = some (.metavar m) := by
    intro d m hmem
    refine annotation?_of_mem hst.ordered.annotated ?_
    rw [hannotations, List.zip_map]
    exact List.mem_map.2 ⟨_, hmem, rfl⟩
  have hfound : ∀ d m, (d, m) ∈ ds.zip metas →
      found st d.name.text = st.context.zonk (.metavar m) := by
    intro d m hmem
    rw [found, lookup?, hmeta d m hmem]
    rfl
  have hover : ∀ d m, (d, m) ∈ ds.zip metas →
      (Kind.metavar m).Over (metasIn st.context.entries) := by
    intro d m hmem
    simpa using hst.ordered.earlier.over_annotation (hmeta d m hmem)
  have hmember : ∀ d ∈ ds, ∃ m, (d, m) ∈ ds.zip metas := by
    intro d hd
    rw [← List.map_fst_zip hlength.ge] at hd
    obtain ⟨e, he, rfl⟩ := List.mem_map.1 hd
    exact ⟨e.2, he⟩
  refine ⟨?_, fun m hm => ?_, fun d hd => ?_, fun v hv => ?_⟩
  · calc metas.map (fun m => st.context.zonk (.metavar m))
        = ((ds.zip metas).map Prod.snd).map fun m => st.context.zonk (.metavar m) := by
          rw [List.map_snd_zip hlength.le]
      _ = ((ds.zip metas).map Prod.fst).map fun d => found st d.name.text := by
          rw [List.map_map, List.map_map]
          exact List.map_congr_left fun e he => (hfound e.1 e.2 he).symm
      _ = ds.map fun d => found st d.name.text := by rw [List.map_fst_zip hlength.ge]
  · rw [← List.map_snd_zip hlength.le] at hm
    obtain ⟨e, he, rfl⟩ := List.mem_map.1 hm
    exact hover e.1 e.2 he _ (by simp [Kind.freeVars])
  · obtain ⟨m, hmem⟩ := hmember d hd
    rw [hfound d m hmem]
    exact hst.ordered.over_zonk (hover d m hmem)
  · funext x
    unfold assigned
    split
    · next hx =>
      obtain ⟨d, hd, rfl⟩ := List.mem_map.1 hx
      obtain ⟨m, hmem⟩ := hmember d hd
      have hunder : (found st d.name.text).under v = (Kind.metavar m).under v := by
        rw [hfound d m hmem, under_zonk hv]
      rw [kinding, hmeta d m hmem, Option.map_some]
      exact congrArg some hunder.symm
    · next hx =>
      rw [kinding, Option.map_eq_none_iff, ← Option.not_isSome_iff_eq_none]
      exact fun hsome => hx (hannotated ▸ annotation?_isSome.1 hsome)

/-- The kinds that suit a group are the instances of those that have been found. -/
theorem suits_iff_instance {metas : List Name} {st : KindState} (hds : WellScoped ds)
    (h : solveGroup ds ⟨supply, .empty⟩ = .ok metas st) (κ : String → Kind) :
    Suits ds κ ↔ (∀ d ∈ ds, (κ d.name.text).Over []) ∧
      ∃ v, ∀ d ∈ ds, κ d.name.text = (found st d.name.text).under v := by
  obtain ⟨hst, -, -, hkinded⟩ := kindedIn_of_solveGroup (valid_empty supply) rfl h
  obtain ⟨-, -, hover, hsolved⟩ := found_of_solveGroup h
  constructor
  · intro hκ
    obtain ⟨metas', st', w, hrun, hw, hassigned⟩ := solveGroup_keeps hds hκ supply fun _ => .star
    rw [h] at hrun
    cases hrun
    rw [hsolved w hw.admits.solved] at hassigned
    refine ⟨hκ.ground, w, fun d hd => ?_⟩
    have hname := congrFun hassigned d.name.text
    simp only [assigned, if_pos (List.mem_map_of_mem hd)] at hname
    exact (Option.some.inj hname).symm
  · rintro ⟨hground, v, hv⟩
    obtain ⟨u, hu, hfree⟩ := hst.ordered.exists_solvedBy_eq v
    have hassigned : kinding u st.context.entries = assigned ds κ := by
      rw [hsolved u hu]
      refine assigned_congr fun d hd => ?_
      rw [hv d hd]
      exact Kind.under_congr fun x hx => hfree x (hover d hd x hx)
    exact ⟨hground, fun d hd => hassigned ▸ (hkinded u hu d hd).1⟩

theorem inferGroup_eq_found {metas : List Name} {st : KindState}
    (h : solveGroup ds ⟨supply, .empty⟩ = .ok metas st) :
    inferGroup ds ⟨supply, .empty⟩ =
      .ok (ds.map fun d => (found st d.name.text).under fun _ => .star)
        { st with context := st.context.defaultUnsolved } := by
  obtain ⟨hst, -, -, -⟩ := kindedIn_of_solveGroup (valid_empty supply) rfl h
  obtain ⟨hzonk, hmetas, -, -⟩ := found_of_solveGroup h
  refine inferGroup_ok_iff.2 ⟨metas, st, h, rfl, ?_⟩
  calc ds.map (fun d => (found st d.name.text).under fun _ => .star)
      = (ds.map fun d => found st d.name.text).map (Kind.under fun _ => .star) := by
        rw [List.map_map]
        rfl
    _ = metas.map fun m => (st.context.zonk (.metavar m)).under fun _ => .star := by
        rw [← hzonk, List.map_map]
        rfl
    _ = metas.map fun m => st.context.defaultUnsolved.zonk (.metavar m) :=
        List.map_congr_left fun m hm =>
          (zonk_defaultUnsolved hst (Kind.over_metavar (hmetas m hm))).symm

end Datatype

/-! ## The order of a group -/

theorem Kind.over_under_star (k : Kind) : (k.under fun _ => star).Over [] := by
  induction k with
  | star | metavar => exact over_star
  | arrow dom cod ihdom ihcod => exact over_arrow.2 ⟨ihdom, ihcod⟩

theorem Kind.one_le_size (k : Kind) : 1 ≤ k.size := by
  cases k <;> simp [size]

/-- Of all ground kinds that come from one kind, the one with `*` everywhere is the smallest. -/
theorem Kind.under_star_least {v : String → Kind} {k : Kind} (h : (k.under v).Over []) :
    (k.under fun _ => star).size ≤ (k.under v).size ∧
      ((k.under v).size ≤ (k.under fun _ => star).size → k.under v = k.under fun _ => star) := by
  induction k with
  | star => exact ⟨le_rfl, fun _ => rfl⟩
  | metavar n =>
    rw [under_metavar, under_metavar] at *
    cases hv : v n.text with
    | star => exact ⟨le_rfl, fun _ => rfl⟩
    | metavar m =>
      rw [hv] at h
      exact absurd (h m.text (by simp [freeVars])) List.not_mem_nil
    | arrow dom cod =>
      have hdom := dom.one_le_size
      simp only [size]
      omega
  | arrow dom cod ihdom ihcod =>
    rw [under_arrow, over_arrow] at h
    obtain ⟨hdom, heqdom⟩ := ihdom h.1
    obtain ⟨hcod, heqcod⟩ := ihcod h.2
    simp only [under_arrow, size]
    refine ⟨by omega, fun hle => ?_⟩
    rw [heqdom (by omega), heqcod (by omega)]

namespace Datatype

variable {ds ds' : List Datatype} {κ : String → Kind} {supply supply' : Supply}

def Alike (d d' : Datatype) : Prop :=
  d'.name = d.name ∧ d'.params = d.params ∧ d.ctors.Perm d'.ctors

/-- The same group with its datatypes, and the constructors of each, in another order. -/
def Reordered (ds ds' : List Datatype) : Prop := ∃ es, ds.Perm es ∧ List.Forall₂ Alike es ds'

theorem Reordered.symm (h : Reordered ds ds') : Reordered ds' ds := by
  obtain ⟨es, hperm, halike⟩ := h
  have hflip : List.Forall₂ Alike ds' es := by
    refine halike.flip.imp fun d' d h => ?_
    exact ⟨h.1.symm, h.2.1.symm, h.2.2.symm⟩
  have hcomp : Relation.Comp (List.Forall₂ Alike) List.Perm ds' ds := ⟨es, hflip, hperm.symm⟩
  rw [List.forall₂_comp_perm_eq_perm_comp_forall₂] at hcomp
  exact hcomp

theorem Reordered.exists_alike (h : Reordered ds ds') {d' : Datatype} (hd : d' ∈ ds') :
    ∃ d ∈ ds, Alike d d' := by
  obtain ⟨es, hperm, halike⟩ := h
  obtain ⟨i, hi, rfl⟩ := List.getElem_of_mem hd
  have hlength := halike.length_eq
  exact ⟨es[i], hperm.mem_iff.2 (List.getElem_mem _), halike.get (by omega) hi⟩

theorem Reordered.names (h : Reordered ds ds') :
    (ds.map (·.name.text)).Perm (ds'.map (·.name.text)) := by
  obtain ⟨es, hperm, halike⟩ := h
  refine (hperm.map _).trans (List.Perm.of_eq ?_)
  clear hperm
  induction halike with
  | nil => rfl
  | cons h _ ih => rw [List.map_cons, List.map_cons, ih, h.1]

theorem WellScoped.reordered (h : WellScoped ds) (hds : Reordered ds ds') : WellScoped ds' := by
  refine ⟨hds.names.nodup_iff.1 h.names, fun d' hd' => ?_, fun d' hd' p hp => ?_,
    fun d' hd' c hc => ?_⟩
  all_goals obtain ⟨d, hd, -, hparams, hctors⟩ := hds.exists_alike hd'
  · rw [hparams]
    exact h.params d hd
  · rw [← hds.names.mem_iff]
    exact h.apart d hd p (hparams ▸ hp)
  · rw [hparams]
    exact h.vars d hd c (hctors.mem_iff.2 hc)

theorem Suits.reordered (h : Suits ds κ) (hds : Reordered ds ds') : Suits ds' κ := by
  have hassigned : assigned ds' κ = assigned ds κ := by
    funext x
    simp only [assigned, hds.names.mem_iff]
  refine ⟨fun d' hd' => ?_, fun d' hd' => ?_⟩
  all_goals obtain ⟨d, hd, hname, hparams, hctors⟩ := hds.exists_alike hd'
  · rw [hname]
    exact h.ground d hd
  · obtain ⟨kinds, hlength, hkind, hargs⟩ := h.kinded d hd
    rw [hassigned]
    exact ⟨kinds, hparams ▸ hlength, hname ▸ hkind,
      hparams ▸ fun c hc => hargs c (hctors.mem_iff.2 hc)⟩

theorem suits_found {metas : List Name} {st : KindState} (hds : WellScoped ds)
    (h : solveGroup ds ⟨supply, .empty⟩ = .ok metas st) :
    Suits ds (fun x => (found st x).under fun _ => .star) ∧
      ∀ κ, Suits ds κ → ∀ d ∈ ds,
        ((found st d.name.text).under fun _ => .star).size ≤ (κ d.name.text).size ∧
          ((κ d.name.text).size ≤ ((found st d.name.text).under fun _ => .star).size →
            κ d.name.text = (found st d.name.text).under fun _ => .star) := by
  constructor
  · exact (suits_iff_instance hds h _).2
      ⟨fun d _ => Kind.over_under_star _, fun _ => .star, fun _ _ => rfl⟩
  · intro κ hκ d hd
    obtain ⟨hground, v, hv⟩ := (suits_iff_instance hds h κ).1 hκ
    rw [hv d hd]
    exact Kind.under_star_least (hv d hd ▸ hground d hd)

theorem found_reordered {metas metas' : List Name} {st st' : KindState} (hds : WellScoped ds)
    (horder : Reordered ds ds') (h : solveGroup ds ⟨supply, .empty⟩ = .ok metas st)
    (h' : solveGroup ds' ⟨supply', .empty⟩ = .ok metas' st') {d : Datatype} (hd : d ∈ ds') :
    ((found st' d.name.text).under fun _ => .star) =
      (found st d.name.text).under fun _ => .star := by
  obtain ⟨hsuits, hleast⟩ := suits_found hds h
  obtain ⟨hsuits', hleast'⟩ := suits_found (hds.reordered horder) h'
  obtain ⟨e, he, hname, -⟩ := horder.exists_alike hd
  have hle := (hleast _ (hsuits'.reordered horder.symm) e he).1
  rw [← hname] at hle
  exact ((hleast' _ (hsuits.reordered horder) d hd).2 hle).symm

/-- Inference of the kinds of a group succeeds exactly if some ground kinds suit it.  It returns
the most general ones with `*` for what they leave open, leaves the datatypes as the only names
and nothing unsolved, and finds the same kinds in whatever order the group stands. -/
theorem inferGroup_principal (hds : WellScoped ds) (supply : Supply) :
    ((∃ kinds st, inferGroup ds ⟨supply, .empty⟩ = .ok kinds st) ↔ ∃ κ, Suits ds κ) ∧
    ∀ kinds st, inferGroup ds ⟨supply, .empty⟩ = .ok kinds st →
      (∃ general : String → Kind,
        (∀ κ, Suits ds κ ↔ (∀ d ∈ ds, (κ d.name.text).Over []) ∧
          ∃ v, ∀ d ∈ ds, κ d.name.text = (general d.name.text).under v) ∧
        kinds = ds.map fun d => (general d.name.text).under fun _ => .star) ∧
      st.context.annotated = ds.map (·.name.text) ∧
      unsolvedIn st.context.entries = [] ∧
      ∀ ds' supply', Reordered ds ds' → ∃ κ : String → Kind,
        kinds = ds.map (fun d => κ d.name.text) ∧
        ∃ st', inferGroup ds' ⟨supply', .empty⟩ = .ok (ds'.map fun d => κ d.name.text) st' := by
  have hsuits : ∀ kinds st, inferGroup ds ⟨supply, .empty⟩ = .ok kinds st →
      ∃ metas st₁, solveGroup ds ⟨supply, .empty⟩ = .ok metas st₁ ∧
        kinds = ds.map (fun d => (found st₁ d.name.text).under fun _ => .star) ∧
        st.context = st₁.context.defaultUnsolved := by
    intro kinds st h
    obtain ⟨metas, st₁, hgroup, -, -⟩ := inferGroup_ok_iff.1 h
    rw [inferGroup_eq_found hgroup] at h
    cases h
    exact ⟨metas, st₁, hgroup, rfl, rfl⟩
  refine ⟨⟨?_, ?_⟩, fun kinds st h => ?_⟩
  · rintro ⟨kinds, st, h⟩
    obtain ⟨metas, st₁, hgroup, -⟩ := hsuits kinds st h
    exact ⟨_, (suits_found hds hgroup).1⟩
  · rintro ⟨κ, hκ⟩
    obtain ⟨metas, st₁, w, hgroup, -⟩ := solveGroup_keeps hds hκ supply fun _ => .star
    exact ⟨_, _, inferGroup_eq_found hgroup⟩
  · obtain ⟨metas, st₁, hgroup, hkinds, hcontext⟩ := hsuits kinds st h
    refine ⟨⟨found st₁, suits_iff_instance hds hgroup, hkinds⟩, ?_, ?_, fun ds' supply' hds' => ?_⟩
    · exact (annotated_of_inferGroup rfl h).2.2
    · rw [hcontext, unsolvedIn_defaultUnsolved]
    · obtain ⟨metas', st', w, hgroup', -⟩ := solveGroup_keeps (hds.reordered hds')
        ((suits_found hds hgroup).1.reordered hds') supply' fun _ => .star
      have hrun := inferGroup_eq_found hgroup'
      rw [List.map_congr_left fun d hd => found_reordered hds hds' hgroup hgroup' hd] at hrun
      exact ⟨fun x => (found st₁ x).under fun _ => .star, hkinds, _, hrun⟩

end Datatype

namespace HigherKinded

open Datatype

def pair : Datatype :=
  ⟨.bare "Apply", [.bare "f", .bare "a"],
    [⟨.bare "Applied", [.apply (.rigid (.bare "f")) (.rigid (.bare "a"))], .none⟩], .none⟩

def stop : Ctor := ⟨.bare "Stop", [], .none⟩

def inner : Ctor :=
  ⟨.bare "In", [.apply (.rigid (.bare "g")) (.apply (.data (.bare "Fix")) (.rigid (.bare "g")))],
    .none⟩

def fixed (ctors : List Ctor) : Datatype := ⟨.bare "Fix", [.bare "g"], ctors, .none⟩

def group : List Datatype := [pair, fixed [stop, inner]]

def shuffled : List Datatype := [fixed [inner, stop], pair]

def kinds : List Kind :=
  [.arrow (.arrow .star .star) (.arrow .star .star), .arrow (.arrow .star .star) .star]

theorem wellScoped : WellScoped group := by
  constructor <;> decide

theorem inferGroup_group : ∃ st, inferGroup group ⟨.initial, .empty⟩ = .ok kinds st :=
  ⟨_, by cbv⟩

theorem reordered : Reordered group shuffled :=
  ⟨[fixed [stop, inner], pair], .swap ..,
    .cons ⟨rfl, rfl, .swap ..⟩ (.cons ⟨rfl, rfl, .refl _⟩ .nil)⟩

theorem inferGroup_principal_group :
    WellScoped group ∧ (∃ κ, Suits group κ) ∧
      ∃ st', inferGroup shuffled ⟨.initial, .empty⟩ = .ok kinds.reverse st' := by
  obtain ⟨hiff, hprincipal⟩ := inferGroup_principal wellScoped .initial
  obtain ⟨st, hrun⟩ := inferGroup_group
  obtain ⟨-, -, -, horder⟩ := hprincipal kinds st hrun
  obtain ⟨κ, hκ, st', hrun'⟩ := horder shuffled .initial reordered
  refine ⟨wellScoped, hiff.1 ⟨kinds, st, hrun⟩, st', ?_⟩
  rw [hrun', hκ]
  rfl

end HigherKinded

end GuardedCommands
