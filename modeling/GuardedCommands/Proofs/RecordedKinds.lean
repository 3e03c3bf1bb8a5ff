import GuardedCommands.Proofs.KindSolutions
import GuardedCommands.Proofs.ProgramKinds

/-!
# Recorded kinds

The kinds of all datatypes are found together.  When they have been found nothing is
left open in the context, so all its solutions give the datatypes the same kinds,
those that are recorded for them.  Later checks add and solve metavariables of their
own, and forget the variables that they have given kinds, so the recorded kinds stay
what every solution gives.  Whatever is checked on the way is a type of values under
the recorded kinds: declared types as they stand, and the types of constructors and
signatures once their variables have kinds.
-/

namespace GuardedCommands

open KindContext

open Ty (HasKind)

theorem NameMap.lookup_map {α β : Type} (f : α → β) (x : String) (l : List (String × α)) :
    lookup x (l.map (Prod.map id f)) = (lookup x l).map f := by
  induction l with
  | nil => rfl
  | cons e l ih =>
    simp only [List.map_cons, lookup, Prod.map, id, ih]
    split <;> rfl

/-! ## Names that are given kinds -/

section Names

variable {v : String → Kind} {st st' : KindState} {κ : Kinding}

theorem KindContext.kinding_eq_lookup (v : String → Kind) (entries : List KindEntry) (x : String) :
    kinding v entries x = (NameMap.lookup x (annotationsIn entries)).map (Kind.under v) := by
  rw [kinding, annotation?_eq_lookup]

variable {ctx : KindContext} {xs : List String}

theorem KindContext.annotation?_of_mem (hnodup : ctx.annotated.Nodup) {x : String} {k : Kind}
    (h : (x, k) ∈ annotationsIn ctx.entries) : annotation? x ctx.entries = some k := by
  rw [KindContext.annotated, annotatedIn_eq_map] at hnodup
  rw [annotation?_eq_lookup]
  exact NameMap.lookup_of_mem hnodup h

theorem KindState.Adds.kinding_sub (h : KindState.Adds xs st st') :
    (kinding v st.context.entries).Sub (kinding v st'.context.entries) := by
  obtain ⟨new, -, hnew⟩ := h.annotations
  intro x k hx
  rw [kinding_eq_lookup] at hx
  obtain ⟨j, hj, rfl⟩ := Option.map_eq_some_iff.1 hx
  rw [kinding_eq_lookup, hnew, NameMap.lookup_append, hj]
  rfl

theorem KindContext.solvedBy_foldl_unannotate (h : SolvedBy v (xs.foldl unannotate ctx).entries) :
    SolvedBy v ctx.entries := by
  induction xs generalizing ctx with
  | nil => exact h
  | cons x xs ih =>
    refine (ih h).mono fun n k hk => ?_
    exact (List.mem_eraseP_of_neg (by simp [KindEntry.annotates])).2 hk

theorem KindContext.solvedBy_defaultUnsolved (h : SolvedBy v ctx.defaultUnsolved.entries) :
    SolvedBy v ctx.entries :=
  h.mono fun _ _ hk => List.mem_map.2 ⟨_, hk, rfl⟩

namespace KindM

variable {n m : Name} {α : Type} {xs : List α}

theorem entries_of_annotateFresh (h : annotateFresh n st = .ok m st') :
    st'.context.entries = st.context.entries ++ [.unsolved m, .annotated n (.metavar m)] := by
  rw [(annotateFresh_spec h).2.2]

theorem solvedBy_of_annotateFresh (h : annotateFresh n st = .ok m st')
    (hv : SolvedBy v st'.context.entries) : SolvedBy v st.context.entries := by
  rw [entries_of_annotateFresh h] at hv
  exact hv.mono (by simp)

theorem annotations_of_mapM {β : Type} {step : α → KindM β} {name : α → String} {kind : β → Kind}
    (hstep : ∀ {x b st st'}, step x st = .ok b st' →
      annotationsIn st'.context.entries =
        annotationsIn st.context.entries ++ [(name x, kind b)] ∧
      (SolvedBy v st'.context.entries → SolvedBy v st.context.entries)) {bs : List β}
    (h : xs.mapM step st = .ok bs st') :
    bs.length = xs.length ∧ annotationsIn st'.context.entries =
      annotationsIn st.context.entries ++ (xs.map name).zip (bs.map kind) ∧
      (SolvedBy v st'.context.entries → SolvedBy v st.context.entries) := by
  induction xs generalizing st bs with
  | nil =>
    cases h
    simp
  | cons x xs ih =>
    rw [List.mapM_cons] at h
    obtain ⟨b, st₁, hx, h⟩ := EStateM.ok_of_bind h
    obtain ⟨bs', st₂, hxs, h⟩ := EStateM.ok_of_bind h
    cases h
    obtain ⟨hold, hsolved⟩ := hstep hx
    obtain ⟨hlength, hnew, hsolved'⟩ := ih hxs
    refine ⟨by simp [hlength], ?_, fun hv => hsolved (hsolved' hv)⟩
    simp [hnew, hold]

theorem solvedBy_of_forM {f : α → KindM PUnit} {I : KindState → Prop} {Q : α → Prop}
    (hf : ∀ a ∈ xs, ∀ st st', I st → f a st = .ok () st' →
      I st' ∧ (SolvedBy v st'.context.entries → SolvedBy v st.context.entries ∧ Q a)) (hI : I st)
    (h : xs.forM f st = .ok () st') :
    I st' ∧ (SolvedBy v st'.context.entries →
      SolvedBy v st.context.entries ∧ ∀ a ∈ xs, Q a) := by
  induction xs generalizing st with
  | nil =>
    cases h
    exact ⟨hI, fun hv => ⟨hv, by simp⟩⟩
  | cons x xs ih =>
    obtain ⟨hx, hxs⟩ := List.forall_mem_cons.1 hf
    obtain ⟨_, st₁, hfirst, h⟩ := EStateM.ok_of_bind h
    obtain ⟨hI, hsolved⟩ := hx st st₁ hI hfirst
    obtain ⟨hI, hsolved'⟩ := ih hxs hI h
    refine ⟨hI, fun hv => ?_⟩
    obtain ⟨hv, hrest⟩ := hsolved' hv
    obtain ⟨hv, hQ⟩ := hsolved hv
    exact ⟨hv, List.forall_mem_cons.2 ⟨hQ, hrest⟩⟩

end KindM

end Names

/-! ## Groups of datatypes -/

def Kinding.extend (κ : Kinding) (names : List String) (kinds : List Kind) : Kinding :=
  fun x => (κ x).or (NameMap.lookup x (names.zip kinds))

theorem KindContext.kinding_append {v : String → Kind} {entries entries' : List KindEntry}
    {names : List String} {kinds : List Kind}
    (h : annotationsIn entries' = annotationsIn entries ++ names.zip kinds) :
    kinding v entries' = (kinding v entries).extend names (kinds.map (Kind.under v)) := by
  funext x
  rw [Kinding.extend, kinding_eq_lookup, kinding_eq_lookup, h, NameMap.lookup_append, Option.map_or,
    List.zip_map_right, NameMap.lookup_map]

namespace Datatype

/-- There are kinds for the parameters of a datatype under which the arguments of its
constructors are types of values, and the datatype is given the kind that takes these. -/
def KindedIn (κ : Kinding) (d : Datatype) : Prop :=
  ∃ kinds : List Kind, kinds.length = d.params.length ∧ κ d.name.text = some (.arrows kinds) ∧
    ∀ c ∈ d.ctors, ∀ t ∈ c.args, HasKind .free (κ.extend (d.params.map (·.text)) kinds) t .star

variable {v : String → Kind} {st st' : KindState} {κ : Kinding} {d : Datatype}

variable {c : Ctor} {m : Name}

theorem hasKind_of_checkCtor (h : d.checkCtor c st = .ok () st')
    (hv : SolvedBy v st'.context.entries) : SolvedBy v st.context.entries ∧
      ∀ t ∈ c.args, HasKind .free (kinding v st.context.entries) t .star := by
  unfold checkCtor at h
  dsimp only at h
  split at h
  · obtain ⟨_, _, hthrow, -⟩ := EStateM.ok_of_bind h
    cases hthrow
  · refine (KindM.solvedBy_of_forM (I := fun st₁ => annotationsIn st₁.context.entries =
      annotationsIn st.context.entries) (fun t _ st₁ st₂ hI hcheck => ?_) rfl h).2 hv
    have hgrows := ((t.checkStar_grows c.loc st₁).of_ok hcheck).1
    refine ⟨hgrows.annotations.trans hI, fun hv => ?_⟩
    rw [← kinding_congr hI]
    exact Ty.hasKind_of_checkStar hcheck hv

theorem hasKind_result {kinds : List Kind} (hname : κ d.name.text = some (.arrows kinds))
    (hparams : List.Forall₂ (fun p k => κ p.text = some k) d.params kinds) :
    HasKind .free κ d.result .star := by
  have happly : ∀ {ps : List Name} {ks : List Kind} {t : Ty},
      List.Forall₂ (fun p k => κ p.text = some k) ps ks → HasKind .free κ t (.arrows ks) →
        HasKind .free κ (ps.foldl (fun t p => t.apply (.rigid p)) t) .star := by
    intro ps ks t hps
    induction hps generalizing t with
    | nil => exact id
    | cons hp _ ih => exact fun ht => ih (.app ht (.rigid hp) trivial)
  exact happly hparams (.data hname)

theorem KindedIn.hasKind (h : d.KindedIn κ) (hnodup : (d.params.map (·.text)).Nodup)
    (hnew : ∀ p ∈ d.params, κ p.text = none) (hc : c ∈ d.ctors) :
    ∃ κ', κ.Sub κ' ∧ HasKind .free κ' (.funcs c.args d.result) .star := by
  obtain ⟨kinds, hlength, hname, hargs⟩ := h
  have hsub : κ.Sub (κ.extend (d.params.map (·.text)) kinds) := by
    intro x k hx
    rw [Kinding.extend, hx, Option.some_or]
  refine ⟨_, hsub, .funcs ⟨trivial, trivial⟩ (hargs c hc) (hasKind_result (hsub _ _ hname) ?_)⟩
  refine List.forall₂_iff_zip.2 ⟨hlength.symm, fun {p k} hmem => ?_⟩
  have hkeys : (((d.params.map (·.text)).zip kinds).map (·.1)).Nodup := by
    rwa [List.map_fst_zip (by simp [hlength])]
  have hpair : (p.text, k) ∈ (d.params.map (·.text)).zip kinds := by
    rw [List.zip_map_left]
    exact List.mem_map_of_mem hmem
  rw [Kinding.extend, hnew p (List.of_mem_zip hmem).1, Option.none_or,
    NameMap.lookup_of_mem hkeys hpair]

theorem kindedIn_of_inferMember
    (hname : annotation? d.name.text st.context.entries = some (.metavar m))
    (h : d.inferMember m st = .ok () st') (hv : SolvedBy v st'.context.entries) :
    SolvedBy v st.context.entries ∧ d.KindedIn (kinding v st.context.entries) := by
  obtain ⟨params, st₁, hparams, h⟩ := EStateM.ok_of_bind h
  obtain ⟨_, st₂, hctors, h⟩ := EStateM.ok_of_bind h
  obtain ⟨_, st₃, hunify, h⟩ := EStateM.ok_of_bind h
  rw [forM_unannotate h] at hv
  obtain ⟨hst₂, hkind⟩ := Kind.solvedBy_of_unify hunify (solvedBy_foldl_unannotate hv)
  have hctors := KindM.solvedBy_of_forM
    (I := fun s => annotationsIn s.context.entries = annotationsIn st₁.context.entries)
    (Q := fun c : Ctor => ∀ t ∈ c.args, HasKind .free (kinding v st₁.context.entries) t .star)
    (fun c _ s s' hI hcheck => ⟨(grows_of_checkCtor hcheck).annotations.trans hI, fun hv => by
      rw [← kinding_congr hI]
      exact hasKind_of_checkCtor hcheck hv⟩) rfl hctors
  obtain ⟨hst₁, hargs⟩ := hctors.2 hst₂
  have hnew : params.length = d.params.length ∧ annotationsIn st₁.context.entries =
      annotationsIn st.context.entries ++ (d.params.map (·.text)).zip (params.map id) ∧
      (SolvedBy v st₁.context.entries → SolvedBy v st.context.entries) := by
    refine KindM.annotations_of_mapM (fun {x b s s'} hx => ?_) hparams
    obtain ⟨m, s₁, hx, hb⟩ := EStateM.ok_of_bind hx
    cases hb
    exact ⟨by simp [KindM.entries_of_annotateFresh hx], KindM.solvedBy_of_annotateFresh hx⟩
  obtain ⟨hlength, hannotations, hst⟩ := hnew
  have hextend : kinding v st₁.context.entries = (kinding v st.context.entries).extend
      (d.params.map (·.text)) (params.map (Kind.under v)) := by
    rw [List.map_id] at hannotations
    exact kinding_append hannotations
  refine ⟨hst hst₁, params.map (Kind.under v), by simpa using hlength, ?_, hextend ▸ hargs⟩
  rw [kinding, hname, Option.map_some, hkind, Kind.under_arrows]

theorem nodup_of_inferMember (hnodup : st.context.annotated.Nodup)
    (h : d.inferMember m st = .ok () st') :
    (st.context.annotated ++ d.params.map (·.text)).Nodup := by
  obtain ⟨params, st₁, hparams, -⟩ := EStateM.ok_of_bind h
  have hadds := adds_of_params hparams
  exact hadds.annotated ▸ hadds.nodup hnodup

theorem kindedIn_of_members {members : List (Datatype × Name)}
    (hnodup : st.context.annotated.Nodup)
    (hnames : ∀ e ∈ members, (e.1.name.text, .metavar e.2) ∈ annotationsIn st.context.entries)
    (h : members.forM (fun e => e.1.inferMember e.2) st = .ok () st') :
    annotationsIn st'.context.entries = annotationsIn st.context.entries ∧
      (SolvedBy v st'.context.entries → SolvedBy v st.context.entries ∧ ∀ e ∈ members,
        e.1.KindedIn (kinding v st.context.entries) ∧
          (st.context.annotated ++ e.1.params.map (·.text)).Nodup) := by
  refine KindM.solvedBy_of_forM
    (I := fun s => annotationsIn s.context.entries = annotationsIn st.context.entries)
    (fun e he s s' hI hmember => ?_) rfl h
  have hsame : s.context.annotated = st.context.annotated := by
    rw [KindContext.annotated, annotatedIn_eq_map, hI, ← annotatedIn_eq_map]
    rfl
  rw [← hsame] at hnodup
  have hname : annotation? e.1.name.text s.context.entries = some (.metavar e.2) :=
    annotation?_of_mem hnodup (hI ▸ hnames e he)
  refine ⟨(grows_of_inferMember hnodup hmember).annotations.trans hI, fun hv => ?_⟩
  rw [← kinding_congr hI, ← hsame]
  obtain ⟨hsolved, hkinded⟩ := kindedIn_of_inferMember hname hmember hv
  exact ⟨hsolved, hkinded, nodup_of_inferMember hnodup hmember⟩

end Datatype

/-! ## Kinds that are settled -/

/-- Every solution of the context gives the type names the same kinds. -/
structure KindState.Records (κ : Kinding) (st : KindState) : Prop where
  valid : st.Valid
  kinding : ∀ v, SolvedBy v st.context.entries → kinding v st.context.entries = κ

namespace KindContext

theorem unsolvedIn_defaultUnsolved (ctx : KindContext) :
    unsolvedIn ctx.defaultUnsolved.entries = [] := by
  obtain ⟨entries⟩ := ctx
  simp only [defaultUnsolved]
  induction entries with
  | nil => rfl
  | cons e rest ih => cases e <;> simpa using ih

theorem Ordered.kinding_eq_lookup? {ctx : KindContext} (h : ctx.Ordered)
    (hsolved : unsolvedIn ctx.entries = []) {v : String → Kind} (hv : SolvedBy v ctx.entries) :
    kinding v ctx.entries = ctx.lookup? := by
  funext x
  rw [kinding, lookup?]
  cases hx : annotation? x ctx.entries with
  | none => rfl
  | some k =>
    have hground := h.over_zonk (k := k) (by simpa using h.earlier.over_annotation hx)
    rw [hsolved] at hground
    rw [Option.map_some, Option.map_some, ← under_zonk hv, Kind.under_of_ground hground]

end KindContext

namespace Datatype

variable {st st' : KindState}

theorem mapM_zonk (metas : List Name) (st : KindState) :
    metas.mapM (KindM.zonk <| .metavar ·) st =
      .ok (metas.map fun m => st.context.zonk (.metavar m)) st := by
  induction metas with
  | nil => rfl
  | cons m metas ih =>
    rw [List.mapM_cons, EStateM.bind_of_ok (show KindM.zonk (.metavar m) st = .ok _ st from rfl),
      EStateM.bind_of_ok ih]
    rfl

variable {ds : List Datatype}

theorem inferGroup_ok_iff {kinds : List Kind} :
    inferGroup ds st = .ok kinds st' ↔ ∃ metas st₂, solveGroup ds st = .ok metas st₂ ∧
      st' = { st₂ with context := st₂.context.defaultUnsolved } ∧
      kinds = metas.map fun m => st'.context.zonk (.metavar m) := by
  rw [inferGroup_eq]
  constructor
  · intro h
    obtain ⟨metas, st₂, hgroup, h⟩ := EStateM.ok_of_bind h
    obtain ⟨_, st₃, hdefault, h⟩ := EStateM.ok_of_bind h
    cases hdefault
    rw [mapM_zonk] at h
    cases h
    exact ⟨metas, st₂, hgroup, rfl, rfl⟩
  · rintro ⟨metas, st₂, hgroup, rfl, rfl⟩
    rw [EStateM.bind_of_ok hgroup]
    exact mapM_zonk metas _

theorem kindedIn_of_solveGroup {metas : List Name} (hst : st.Valid)
    (hnone : annotationsIn st.context.entries = []) (h : solveGroup ds st = .ok metas st') :
    st'.Valid ∧ metas.length = ds.length ∧
      annotationsIn st'.context.entries = (ds.map (·.name.text)).zip (metas.map .metavar) ∧
      ∀ v, SolvedBy v st'.context.entries → ∀ d ∈ ds,
        d.KindedIn (kinding v st'.context.entries) ∧
          (st'.context.annotated ++ d.params.map (·.text)).Nodup := by
  have hvalid := ((solveGroup_evolves ds hst).of_ok h).valid
  obtain ⟨metas', st₁, hmetas, h⟩ := EStateM.ok_of_bind h
  obtain ⟨_, st₂, hmembers, h⟩ := EStateM.ok_of_bind h
  cases h
  have hadds : KindState.Adds (ds.map (·.name.text)) st st₁ :=
    KindM.adds_of_mapM (fun hx => KindM.annotateFresh_adds hx) hmetas
  have hnodup := hadds.nodup hst.ordered.annotated
  have hnew : ∀ v, metas.length = ds.length ∧ annotationsIn st₁.context.entries =
      annotationsIn st.context.entries ++ (ds.map (·.name.text)).zip (metas.map .metavar) ∧
      (SolvedBy v st₁.context.entries → SolvedBy v st.context.entries) := fun v =>
    KindM.annotations_of_mapM (fun hx => ⟨by simp [KindM.entries_of_annotateFresh hx],
      KindM.solvedBy_of_annotateFresh hx⟩) hmetas
  obtain ⟨hlength, hannotations, -⟩ := hnew fun _ => .star
  rw [hnone, List.nil_append] at hannotations
  have hnames : ∀ e ∈ ds.zip metas, (e.1.name.text, Kind.metavar e.2) ∈
      annotationsIn st₁.context.entries := by
    intro e he
    rw [hannotations, List.zip_map]
    exact List.mem_map.2 ⟨e, he, rfl⟩
  have hkinded := fun v => kindedIn_of_members (v := v) hnodup hnames hmembers
  have hsame := (hkinded fun _ => .star).1
  refine ⟨hvalid, hlength, hsame.trans hannotations, fun v hv d hd => ?_⟩
  rw [← List.map_fst_zip hlength.ge] at hd
  obtain ⟨e, he, rfl⟩ := List.mem_map.1 hd
  rw [kinding_congr hsame, KindContext.annotated, annotatedIn_eq_map, hsame, ← annotatedIn_eq_map]
  exact ((hkinded v).2 hv).2 e he

theorem records_of_inferGroup {kinds : List Kind} (hst : st.Valid)
    (hnone : annotationsIn st.context.entries = []) (h : inferGroup ds st = .ok kinds st') :
    st'.Records st'.context.lookup? ∧
      (∀ x, st'.context.lookup? x = NameMap.lookup x ((ds.map (·.name.text)).zip kinds)) ∧
      ∀ d ∈ ds, ∀ c ∈ d.ctors, ∃ κ, Kinding.Sub st'.context.lookup? κ ∧
        HasKind .free κ (.funcs c.args d.result) .star := by
  obtain ⟨metas, st₂, hgroup, rfl, rfl⟩ := inferGroup_ok_iff.1 h
  obtain ⟨hst₂, -, hannotations, hkinded⟩ := kindedIn_of_solveGroup hst hnone hgroup
  have hvalid := hst₂.defaultUnsolved.valid
  have hsettled := fun v => hvalid.ordered.kinding_eq_lookup? (v := v)
    (unsolvedIn_defaultUnsolved st₂.context)
  have hsame := annotationsIn_defaultUnsolved st₂.context
  refine ⟨⟨hvalid, fun v hv => hsettled v hv⟩, fun x => ?_, fun d hd c hc => ?_⟩
  · rw [lookup?, annotation?_eq_lookup, hsame, hannotations, ← NameMap.lookup_map,
      ← List.zip_map_right, List.map_map]
    rfl
  · obtain ⟨v, hv⟩ := hvalid.ordered.exists_solvedBy
    obtain ⟨hkinded, hnodup⟩ := hkinded v (solvedBy_defaultUnsolved hv) d hd
    obtain ⟨-, hparams, hapart⟩ := List.nodup_append.1 hnodup
    have hnone : ∀ p ∈ d.params, kinding v st₂.context.entries p.text = none := by
      intro p hp
      have hp : p.text ∉ st₂.context.annotated := fun hmem =>
        hapart _ hmem _ (List.mem_map_of_mem hp) rfl
      rw [kinding, Option.map_eq_none_iff, ← Option.not_isSome_iff_eq_none]
      exact fun hsome => hp (annotation?_isSome.1 hsome)
    rw [← kinding_congr hsame, hsettled v hv] at hkinded hnone
    exact hkinded.hasKind hparams hnone hc

end Datatype

/-! ## Checks keep the recorded kinds -/

section Checks

variable {κ : Kinding}

namespace KindState.Records

variable {st st' : KindState}

theorem of_supply (h : st.Records κ) (hcontext : st'.context = st.context)
    (hsupply : st.supply.issued ≤ st'.supply.issued) : st'.Records κ := by
  obtain ⟨⟨hordered, hfresh⟩, hkinding⟩ := h
  rw [← hcontext] at hordered hfresh hkinding
  exact ⟨⟨hordered, fun i hi => hfresh i (hsupply.trans hi)⟩, hkinding⟩

theorem of_solutions (h : st.Records κ) (hvalid : st'.Valid) (hgrows : st.Grows st')
    (hsolved : ∀ v, SolvedBy v st'.context.entries → SolvedBy v st.context.entries) :
    st'.Records κ := by
  refine ⟨hvalid, fun v hv => ?_⟩
  rw [kinding_congr hgrows.annotations, h.kinding v (hsolved v hv)]

end KindState.Records

namespace ElaborationM

variable {st st' : ElaborationState}

theorem records_of_checkClosed {t : Ty} (hst : st.Records κ) (h : checkClosed t st = .ok () st') :
    st'.Records κ ∧ HasKind .free κ t .star := by
  have hvalid := ((checkClosed_evolves t hst.valid).of_ok h).valid
  have hgrows := (checkClosed_grows t st).of_ok h
  obtain ⟨kinds, hm, rfl⟩ := ofKinds_spec h
  have hcheck := fun v => Ty.hasKind_of_checkStar (v := v) hm
  refine ⟨hst.of_solutions hvalid hgrows fun v hv => (hcheck v hv).1, ?_⟩
  obtain ⟨v, hv⟩ := hvalid.ordered.exists_solvedBy
  obtain ⟨hv, ht⟩ := hcheck v hv
  rwa [hst.kinding v hv] at ht

theorem solvedBy_of_bindUnknown {v : String → Kind} {names bound : List String}
    {kinds kinds' : KindState} (h : bindUnknown names kinds = .ok bound kinds')
    (hv : SolvedBy v kinds'.context.entries) : SolvedBy v kinds.context.entries := by
  induction names generalizing kinds bound with
  | nil =>
    cases h
    exact hv
  | cons x names ih =>
    obtain ⟨_, _, hget, h⟩ := EStateM.ok_of_bind h
    cases hget
    split at h
    · exact ih h
    · obtain ⟨m, kinds₁, hm, h⟩ := EStateM.ok_of_bind h
      obtain ⟨bound', kinds₂, hbound, h⟩ := EStateM.ok_of_bind h
      cases h
      exact KindM.solvedBy_of_annotateFresh hm (ih hbound)

theorem records_of_checkOpen {t : Ty} (hst : st.Records κ) (h : checkOpen t st = .ok () st') :
    st'.Records κ ∧ ∃ κ', κ.Sub κ' ∧ HasKind .free κ' t .star := by
  have hvalid := ((checkOpen_evolves t hst.valid).of_ok h).valid
  have hgrows := (checkOpen_grows t hst.valid).of_ok h
  obtain ⟨kinds, hm, rfl⟩ := ofKinds_spec h
  obtain ⟨bound, kinds₁, hbound, hm⟩ := EStateM.ok_of_bind hm
  unfold thenForget at hm
  dsimp only at hm
  split at hm
  · next a kinds₂ hcheck =>
    cases hm
    have hcheck : ∀ v, SolvedBy v (bound.foldl unannotate kinds₂.context).entries →
        SolvedBy v kinds₁.context.entries ∧
          HasKind .free (kinding v kinds₁.context.entries) t .star :=
      fun v hv => Ty.hasKind_of_checkStar hcheck (solvedBy_foldl_unannotate hv)
    have hsolved := fun v hv => solvedBy_of_bindUnknown hbound (hcheck v hv).1
    refine ⟨hst.of_solutions hvalid hgrows hsolved, ?_⟩
    obtain ⟨v, hv⟩ := hvalid.ordered.exists_solvedBy
    refine ⟨kinding v kinds₁.context.entries, ?_, (hcheck v hv).2⟩
    rw [← hst.kinding v (hsolved v hv)]
    exact (bindUnknown_adds hbound).kinding_sub
  · cases hm

end ElaborationM

end Checks

end GuardedCommands
