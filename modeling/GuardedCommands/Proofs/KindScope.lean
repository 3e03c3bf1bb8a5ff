import GuardedCommands.Elaboration.Monad
import GuardedCommands.Proofs.Basic

/-!
# Type names in scope

A type has a kind only if all names in it have kinds.  Inference of kinds finds
kinds for names, but by itself it never adds a name to the context or takes one
out.  Parameters of datatypes and variables of signatures are added for a while and
forgotten again, so that between the parts of a program the context has the names
of its datatypes and no others.
-/

namespace GuardedCommands

/-! ## Names of a context -/

namespace KindContext

def annotatedIn (entries : List KindEntry) : List String :=
  entries.filterMap fun
    | .annotated n _ => some n.text
    | _ => none

def annotated (ctx : KindContext) : List String := annotatedIn ctx.entries

@[simp] theorem annotatedIn_append (a b : List KindEntry) :
    annotatedIn (a ++ b) = annotatedIn a ++ annotatedIn b :=
  List.filterMap_append

@[simp] theorem annotatedIn_annotated (n : Name) (k : Kind) (rest : List KindEntry) :
    annotatedIn (.annotated n k :: rest) = n.text :: annotatedIn rest := rfl

@[simp] theorem annotatedIn_unsolved (n : Name) (rest : List KindEntry) :
    annotatedIn (.unsolved n :: rest) = annotatedIn rest := rfl

@[simp] theorem annotatedIn_solved (n : Name) (k : Kind) (rest : List KindEntry) :
    annotatedIn (.solved n k :: rest) = annotatedIn rest := rfl

@[simp] theorem annotatedIn_nil : annotatedIn [] = [] := rfl

def annotationsIn (entries : List KindEntry) : List (String × Kind) :=
  entries.filterMap fun
    | .annotated n k => some (n.text, k)
    | _ => none

@[simp] theorem annotationsIn_append (a b : List KindEntry) :
    annotationsIn (a ++ b) = annotationsIn a ++ annotationsIn b :=
  List.filterMap_append

@[simp] theorem annotationsIn_annotated (n : Name) (k : Kind) (rest : List KindEntry) :
    annotationsIn (.annotated n k :: rest) = (n.text, k) :: annotationsIn rest := rfl

@[simp] theorem annotationsIn_unsolved (n : Name) (rest : List KindEntry) :
    annotationsIn (.unsolved n :: rest) = annotationsIn rest := rfl

@[simp] theorem annotationsIn_solved (n : Name) (k : Kind) (rest : List KindEntry) :
    annotationsIn (.solved n k :: rest) = annotationsIn rest := rfl

@[simp] theorem annotationsIn_nil : annotationsIn [] = [] := rfl

theorem annotatedIn_eq_map (entries : List KindEntry) :
    annotatedIn entries = (annotationsIn entries).map (·.1) := by
  induction entries with
  | nil => rfl
  | cons e rest ih => cases e <;> simpa using ih

theorem annotation?_isSome {x : String} {entries : List KindEntry} :
    (annotation? x entries).isSome ↔ x ∈ annotatedIn entries := by
  induction entries with
  | nil => simp [annotation?]
  | cons e rest ih =>
    cases e with
    | annotated n k =>
      by_cases hx : n.text = x
      · simp [annotation?, hx]
      · simp [annotation?, hx, ih, Ne.symm hx]
    | unsolved n | solved n k => simpa [annotation?] using ih

theorem annotationsIn_solveFirst (x : String) (k : Kind) (entries : List KindEntry) :
    annotationsIn (solveFirst x k entries) = annotationsIn entries := by
  induction entries with
  | nil => rfl
  | cons e rest ih =>
    cases e with
    | annotated n j | solved n j => simp [solveFirst, ih]
    | unsolved n =>
      simp only [solveFirst]
      split
      · simp
      · simp [ih]

theorem annotationsIn_unannotate (ctx : KindContext) (x : String) :
    annotationsIn (ctx.unannotate x).entries =
      (annotationsIn ctx.entries).eraseP (·.1 == x) := by
  obtain ⟨entries⟩ := ctx
  simp only [unannotate]
  induction entries with
  | nil => rfl
  | cons e rest ih =>
    cases e with
    | annotated n k =>
      by_cases hx : n.text = x
      · simp [KindEntry.annotates, hx]
      · rw [List.eraseP_cons_of_neg (by simp [KindEntry.annotates, hx])]
        simp [hx, ih]
    | unsolved n | solved n k => simpa [KindEntry.annotates] using ih

theorem annotationsIn_foldl_unannotate (xs : List String) (ctx : KindContext) :
    annotationsIn (xs.foldl unannotate ctx).entries =
      xs.foldl (fun as x => as.eraseP (·.1 == x)) (annotationsIn ctx.entries) := by
  induction xs generalizing ctx with
  | nil => rfl
  | cons x xs ih => rw [List.foldl_cons, ih, annotationsIn_unannotate, List.foldl_cons]

theorem annotationsIn_defaultUnsolved (ctx : KindContext) :
    annotationsIn ctx.defaultUnsolved.entries = annotationsIn ctx.entries := by
  obtain ⟨entries⟩ := ctx
  simp only [defaultUnsolved]
  induction entries with
  | nil => rfl
  | cons e rest ih => cases e <;> simpa using ih

theorem annotated_defaultUnsolved (ctx : KindContext) :
    ctx.defaultUnsolved.annotated = ctx.annotated := by
  simp only [annotated, annotatedIn_eq_map, annotationsIn_defaultUnsolved]

end KindContext

/-! ## Inference keeps the names -/

structure KindState.Grows (st st' : KindState) : Prop where
  supply : st.supply.issued ≤ st'.supply.issued
  annotations : KindContext.annotationsIn st'.context.entries =
    KindContext.annotationsIn st.context.entries

namespace KindState.Grows

variable {st st₁ st₂ : KindState}

theorem refl (st : KindState) : st.Grows st := ⟨le_rfl, rfl⟩

theorem trans (h : st.Grows st₁) (h' : st₁.Grows st₂) : st.Grows st₂ :=
  ⟨h.supply.trans h'.supply, h'.annotations.trans h.annotations⟩

theorem annotated (h : st.Grows st₁) : st₁.context.annotated = st.context.annotated := by
  simp only [KindContext.annotated, KindContext.annotatedIn_eq_map, h.annotations]

end KindState.Grows

theorem Focus.promote_spec (f : Focus) (x : String) :
    f.supply.issued ≤ (f.promote x).supply.issued ∧
      KindContext.annotationsIn (f.promote x).before = KindContext.annotationsIn f.before ∧
      KindContext.annotationsIn (f.promote x).after = KindContext.annotationsIn f.after := by
  unfold promote
  split
  · exact ⟨Nat.le_succ _, by simp, KindContext.annotationsIn_solveFirst ..⟩
  · exact ⟨le_rfl, rfl, rfl⟩

theorem Focus.foldl_promote_spec (xs : List String) (f : Focus) :
    f.supply.issued ≤ (xs.foldl promote f).supply.issued ∧
      KindContext.annotationsIn (xs.foldl promote f).before =
        KindContext.annotationsIn f.before ∧
      KindContext.annotationsIn (xs.foldl promote f).after =
        KindContext.annotationsIn f.after := by
  induction xs generalizing f with
  | nil => exact ⟨le_rfl, rfl, rfl⟩
  | cons x xs ih =>
    have hx := f.promote_spec x
    have hxs := ih (f.promote x)
    exact ⟨hx.1.trans hxs.1, hxs.2.1.trans hx.2.1, hxs.2.2.trans hx.2.2⟩

theorem KindState.grows_of_solve? {st st' : KindState} {x : String} {k : Kind}
    (h : st.solve? x k = some st') : st.Grows st' := by
  unfold solve? at h
  split at h
  · cases h
  · split at h
    · cases h
    · next before n after hsplit =>
      cases h
      have hf := Focus.foldl_promote_spec k.freeVars.toList ⟨before, after, st.supply, ∅⟩
      refine ⟨hf.1, ?_⟩
      simp only [(KindContext.split?_eq_some hsplit).1,
        KindContext.annotationsIn_append, KindContext.annotationsIn_solved,
        KindContext.annotationsIn_unsolved, hf.2.1, hf.2.2]

theorem KindM.ends_fresh {α : Type} {f : Name → KindM α} {st : KindState}
    {Q : α → KindState → Prop} {E : KindState → Prop}
    (h : Ends (f (st.supply.next "k")) { st with supply := st.supply.advance } Q E) :
    Ends (KindM.fresh >>= f) st Q E := h

namespace Kind

section SolveAll

variable {loc : Loc} {k l m : Kind} {x : String} {st st' : KindState}

theorem solveAll_cons_of_split {parts : List (Kind × Kind)} (h : step k l = .split parts)
    (rest : List (Kind × Kind)) :
    solveAll loc ((k, l) :: rest) st = solveAll loc (parts ++ rest) st := by
  rw [solveAll]
  split <;> simp_all

theorem solveAll_cons_of_solve (h : step k l = .solve x m) (h' : st.solve? x m = some st')
    (rest : List (Kind × Kind)) :
    solveAll loc ((k, l) :: rest) st =
      solveAll loc (rest.map fun eq => (st'.context.zonk eq.1, st'.context.zonk eq.2)) st' := by
  rw [solveAll]
  split <;> simp_all
  split <;> simp_all

theorem solveAll_cons_of_stuck (h : step k l = .solve x m) (h' : st.solve? x m = none)
    (rest : List (Kind × Kind)) :
    solveAll loc ((k, l) :: rest) st = .error (.kindUnifyFailed k l loc) st := by
  rw [solveAll]
  split <;> simp_all
  split <;> simp_all

theorem solveAll_cons_of_clash (h : step k l = .clash) (rest : List (Kind × Kind)) :
    solveAll loc ((k, l) :: rest) st = .error (.kindUnifyFailed k l loc) st := by
  rw [solveAll]
  split <;> simp_all

end SolveAll

theorem solveAll_grows (loc : Loc) (eqs : List (Kind × Kind)) (st : KindState) :
    Ends (solveAll loc eqs) st (fun _ => st.Grows) st.Grows := by
  unfold Ends
  fun_induction solveAll loc eqs st with
  | case1 st => exact .refl _
  | case2 st k l rest parts hstep ih => exact ih
  | case3 st k l rest x m hstep st₁ hsolve ih =>
    have hmap := List.attach_map_val (l := rest)
      (f := fun eq => (st₁.context.zonk eq.1, st₁.context.zonk eq.2))
    rw [hmap] at ih
    have hst := KindState.grows_of_solve? hsolve
    exact Ends.imp ih (fun _ _ h => hst.trans h) fun _ h => hst.trans h
  | case4 | case5 => exact .refl _

theorem unify_grows (k l : Kind) (loc : Loc) (st : KindState) :
    Ends (unify k l loc) st (fun _ => st.Grows) st.Grows :=
  solveAll_grows loc _ st

theorem applied_grows (k arg : Kind) (loc : Loc) (st : KindState) :
    Ends (applied k arg loc) st (fun _ => st.Grows) st.Grows := by
  refine Ends.get ?_
  cases hk : st.context.zonk k with
  | star => exact .refl _
  | arrow dom cod => exact (unify_grows dom arg loc _).bind fun _ st₁ h => h
  | metavar a =>
    dsimp only
    cases hsplit : KindContext.split? a.text st.context.entries with
    | none => exact .refl _
    | some parts =>
      obtain ⟨before, n, after⟩ := parts
      refine KindM.ends_fresh (KindM.ends_fresh (Ends.modify ?_))
      refine ((unify_grows ..).imp (fun _ _ => ?_) fun _ => ?_).bind fun _ st₁ h => h
      all_goals
        refine KindState.Grows.trans ⟨(Nat.le_succ _).trans (Nat.le_succ _), ?_⟩
        simp [(KindContext.split?_eq_some hsplit).1]

end Kind

namespace Ty

theorem mem_annotated_of_lookup? {ctx : KindContext} {x : String} {k : Kind}
    (h : ctx.lookup? x = some k) : x ∈ ctx.annotated := by
  apply KindContext.annotation?_isSome.1
  have hsome := congrArg Option.isSome h
  simpa [KindContext.lookup?] using hsome

theorem nameKind_grows (n : Name) (st : KindState) :
    Ends (nameKind n) st (fun _ st' => st.Grows st' ∧ n.text ∈ st.context.annotated) st.Grows := by
  refine Ends.get ?_
  cases hlookup : st.context.lookup? n.text with
  | none => exact .refl _
  | some k => exact ⟨.refl _, mem_annotated_of_lookup? hlookup⟩

theorem kind_grows (t : Ty) (st : KindState) :
    Ends t.kind st (fun _ st' => st.Grows st' ∧ ∀ x ∈ t.rigidVars, x ∈ st.context.annotated)
      st.Grows := by
  induction t generalizing st with
  | base | tuple | arrow => exact ⟨.refl _, by simp [rigidVars]⟩
  | array i t l ih =>
    refine (ih st).bind fun k st₁ ⟨h₁, hvars⟩ => ?_
    refine ((Kind.unify_grows k .star l st₁).imp (fun _ _ h₂ => ?_) fun _ h₂ => h₁.trans h₂).bind
      fun _ _ h => h
    exact ⟨h₁.trans h₂, hvars⟩
  | app f a l ihf iha =>
    refine (ihf st).bind fun k st₁ ⟨h₁, hf⟩ => ?_
    have harg : Ends a.kind st₁ (fun _ st₂ => st.Grows st₂ ∧
        ∀ x ∈ (app f a l).rigidVars, x ∈ st.context.annotated) st.Grows := by
      refine (iha st₁).imp (fun _ _ ⟨h₂, ha⟩ => ⟨h₁.trans h₂, fun x hx => ?_⟩)
        fun _ h₂ => h₁.trans h₂
      rcases NameSet.mem_union.1 hx with hx | hx
      · exact hf x hx
      · exact h₁.annotated ▸ ha x hx
    refine harg.bind fun j st₂ ⟨h₂, hvars⟩ => ?_
    exact (Kind.applied_grows k j l st₂).imp (fun _ _ h₃ => ⟨h₂.trans h₃, hvars⟩)
      fun _ h₃ => h₂.trans h₃
  | data n | metavar n =>
    exact (nameKind_grows n st).imp (fun _ _ h => ⟨h.1, by simp [rigidVars]⟩) fun _ h => h
  | rigid n =>
    exact (nameKind_grows n st).imp (fun _ _ h => ⟨h.1, by simpa [rigidVars] using h.2⟩)
      fun _ h => h

theorem checkStar_grows (t : Ty) (loc : Loc) (st : KindState) :
    Ends (t.checkStar loc) st
      (fun _ st' => st.Grows st' ∧ ∀ x ∈ t.rigidVars, x ∈ st.context.annotated) st.Grows := by
  refine (kind_grows t st).bind fun k st₁ ⟨h₁, hvars⟩ => ?_
  exact (Kind.unify_grows k .star loc st₁).imp (fun _ _ h₂ => ⟨h₁.trans h₂, hvars⟩)
    fun _ h₂ => h₁.trans h₂

end Ty

/-! ## Names that come and go -/

structure KindState.Adds (xs : List String) (st st' : KindState) : Prop where
  supply : st.supply.issued ≤ st'.supply.issued
  annotations : ∃ new : List (String × Kind), new.map (·.1) = xs ∧
    KindContext.annotationsIn st'.context.entries =
      KindContext.annotationsIn st.context.entries ++ new
  nodup : st.context.annotated.Nodup → st'.context.annotated.Nodup

namespace KindState.Adds

variable {st st₁ st₂ : KindState} {xs ys : List String}

theorem nil (st : KindState) : Adds [] st st :=
  ⟨le_rfl, ⟨[], rfl, (List.append_nil _).symm⟩, id⟩

theorem append (h : Adds xs st st₁) (h' : Adds ys st₁ st₂) : Adds (xs ++ ys) st st₂ := by
  obtain ⟨new, hnew, hold⟩ := h.annotations
  obtain ⟨new', hnew', hold'⟩ := h'.annotations
  refine ⟨h.supply.trans h'.supply, ⟨new ++ new', ?_, ?_⟩, fun hst => h'.nodup (h.nodup hst)⟩
  · rw [List.map_append, hnew, hnew']
  · rw [hold', hold, List.append_assoc]

theorem annotated (h : Adds xs st st₁) :
    st₁.context.annotated = st.context.annotated ++ xs := by
  obtain ⟨new, rfl, hold⟩ := h.annotations
  simp only [KindContext.annotated, KindContext.annotatedIn_eq_map, hold, List.map_append]

end KindState.Adds

theorem foldl_eraseP_append {old new : List (String × Kind)}
    (h : ((old ++ new).map (·.1)).Nodup) :
    (new.map (·.1)).foldl (fun as x => as.eraseP (·.1 == x)) (old ++ new) = old := by
  induction new with
  | nil => simp
  | cons a new ih =>
    have hsub : (old ++ new).Sublist (old ++ a :: new) :=
      (List.sublist_cons_self a new).append_left old
    have ha : ∀ b ∈ old, ¬ (b.1 == a.1) = true := by
      intro b hb hab
      rw [List.map_append, List.map_cons] at h
      exact (List.nodup_append.1 h).2.2 b.1 (List.mem_map_of_mem hb) a.1 (by simp)
        (beq_iff_eq.1 hab)
    rw [List.map_cons, List.foldl_cons, List.eraseP_append_right _ ha,
      List.eraseP_cons_of_pos (by simp)]
    exact ih (h.sublist (hsub.map _))

theorem KindState.grows_of_forget {st st₁ st₂ : KindState} {xs : List String}
    (hst : st.context.annotated.Nodup) (hadds : Adds xs st st₁) (hgrows : st₁.Grows st₂) :
    st.Grows { st₂ with context := xs.foldl KindContext.unannotate st₂.context } := by
  refine ⟨hadds.supply.trans hgrows.supply, ?_⟩
  have hnodup := hadds.nodup hst
  obtain ⟨new, rfl, hold⟩ := hadds.annotations
  rw [KindContext.annotated, KindContext.annotatedIn_eq_map, hold] at hnodup
  rw [KindContext.annotationsIn_foldl_unannotate, hgrows.annotations, hold,
    foldl_eraseP_append hnodup]

theorem EStateM.rel_of_forM {ε σ α : Type} {R : σ → σ → Prop} (hrefl : ∀ s, R s s)
    (htrans : ∀ {s s₁ s₂}, R s s₁ → R s₁ s₂ → R s s₂) {f : α → EStateM ε σ PUnit}
    (hf : ∀ {a s s'}, f a s = .ok () s' → R s s') {xs : List α} {s s' : σ}
    (h : xs.forM f s = .ok () s') : R s s' := by
  induction xs generalizing s with
  | nil =>
    cases h
    exact hrefl _
  | cons x xs ih =>
    obtain ⟨_, s₁, hx, h⟩ := EStateM.ok_of_bind h
    exact htrans (hf hx) (ih h)

theorem EStateM.state_of_mapM {ε σ α β : Type} {f : α → EStateM ε σ β}
    (hf : ∀ {a b s s'}, f a s = .ok b s' → s' = s) {xs : List α} {bs : List β} {s s' : σ}
    (h : xs.mapM f s = .ok bs s') : s' = s := by
  induction xs generalizing s bs with
  | nil =>
    cases h
    rfl
  | cons x xs ih =>
    rw [List.mapM_cons] at h
    obtain ⟨b, s₁, hx, h⟩ := EStateM.ok_of_bind h
    obtain ⟨bs', s₂, hxs, h⟩ := EStateM.ok_of_bind h
    cases h
    exact (ih hxs).trans (hf hx)

namespace KindM

open KindState (Adds Grows)

variable {st st' : KindState}

theorem annotateFresh_spec {n m : Name} (h : annotateFresh n st = .ok m st') :
    n.text ∉ st.context.annotated ∧ m = st.supply.next "k" ∧ st' =
      ⟨st.supply.advance, ⟨st.context.entries ++ [.unsolved m, .annotated n (.metavar m)]⟩⟩ := by
  obtain ⟨m', st₁, hpush, h⟩ := EStateM.ok_of_bind h
  obtain ⟨_, st₂, hannotate, h⟩ := EStateM.ok_of_bind h
  cases h
  cases hpush
  obtain ⟨_, _, hget, hannotate⟩ := EStateM.ok_of_bind hannotate
  cases hget
  split at hannotate
  · obtain ⟨_, _, hthrow, -⟩ := EStateM.ok_of_bind hannotate
    cases hthrow
  · next hnew =>
    cases hannotate
    rw [KindContext.annotation?_isSome] at hnew
    simp only [KindContext.push, KindContext.annotatedIn_append, KindContext.annotatedIn_unsolved,
      KindContext.annotatedIn_nil, List.append_nil] at hnew
    exact ⟨hnew, rfl, by simp [KindContext.push]⟩

theorem annotateFresh_adds {n m : Name} (h : annotateFresh n st = .ok m st') :
    Adds [n.text] st st' := by
  obtain ⟨hnew, rfl, rfl⟩ := annotateFresh_spec h
  refine ⟨Nat.le_succ _, ⟨[(n.text, .metavar (st.supply.next "k"))], rfl, by simp⟩, fun hst => ?_⟩
  have hnodup : (st.context.annotated ++ [n.text]).Nodup := by
    refine List.nodup_append.2 ⟨hst, by simp, fun x hx y hy hxy => hnew ?_⟩
    rw [← List.mem_singleton.1 hy, ← hxy]
    exact hx
  simpa [KindContext.annotated] using hnodup

theorem adds_of_mapM {α β : Type} {step : α → KindM β} {f : α → String}
    (hstep : ∀ {x b st st'}, step x st = .ok b st' → Adds [f x] st st') {xs : List α} {bs : List β}
    (h : xs.mapM step st = .ok bs st') : Adds (xs.map f) st st' := by
  induction xs generalizing st bs with
  | nil =>
    cases h
    exact .nil _
  | cons x xs ih =>
    rw [List.mapM_cons] at h
    obtain ⟨b, st₁, hx, h⟩ := EStateM.ok_of_bind h
    obtain ⟨bs', st₂, hxs, h⟩ := EStateM.ok_of_bind h
    cases h
    exact (hstep hx).append (ih hxs)

end KindM

namespace Datatype

open KindState (Adds Grows)

variable {st st' : KindState}

theorem grows_of_checkCtor {d : Datatype} {c : Ctor} (h : d.checkCtor c st = .ok () st') :
    st.Grows st' := by
  unfold checkCtor at h
  dsimp only at h
  split at h
  · obtain ⟨_, _, hthrow, -⟩ := EStateM.ok_of_bind h
    cases hthrow
  · exact EStateM.rel_of_forM Grows.refl Grows.trans
      (fun h => ((Ty.checkStar_grows _ _ _).of_ok h).1) h

theorem forM_unannotate {xs : List Name} (h : xs.forM (KindM.unannotate ·.text) st = .ok () st') :
    st' = { st with context := (xs.map (·.text)).foldl KindContext.unannotate st.context } := by
  induction xs generalizing st with
  | nil =>
    cases h
    rfl
  | cons x xs ih =>
    obtain ⟨_, st₁, hx, h⟩ := EStateM.ok_of_bind h
    cases hx
    exact ih h

theorem adds_of_params {ps : List Name} {params : List Kind}
    (h : (ps.mapM fun p => return .metavar (← KindM.annotateFresh p) : KindM (List Kind)) st =
      .ok params st') :
    Adds (ps.map (·.text)) st st' := by
  refine KindM.adds_of_mapM (fun {x b st st'} hx => ?_) h
  obtain ⟨m, st₄, hx, hb⟩ := EStateM.ok_of_bind hx
  cases hb
  exact KindM.annotateFresh_adds hx

theorem grows_of_inferMember {d : Datatype} {m : Name} (hst : st.context.annotated.Nodup)
    (h : d.inferMember m st = .ok () st') : st.Grows st' := by
  obtain ⟨params, st₁, hparams, h⟩ := EStateM.ok_of_bind h
  obtain ⟨_, st₂, hctors, h⟩ := EStateM.ok_of_bind h
  obtain ⟨_, st₃, hunify, h⟩ := EStateM.ok_of_bind h
  have hadds := adds_of_params hparams
  have hctors : st₁.Grows st₂ :=
    EStateM.rel_of_forM Grows.refl Grows.trans grows_of_checkCtor hctors
  rw [forM_unannotate h]
  exact KindState.grows_of_forget hst hadds 
    (hctors.trans ((Kind.unify_grows ..).of_ok hunify))

theorem annotated_of_inferGroup {ds : List Datatype} {kinds : List Kind}
    (hst : st.context.annotated = []) (h : inferGroup ds st = .ok kinds st') :
    st.supply.issued ≤ st'.supply.issued ∧ st'.context.annotated.Nodup ∧
      st'.context.annotated = ds.map (·.name.text) := by
  obtain ⟨metas, st₁, hmetas, h⟩ := EStateM.ok_of_bind h
  obtain ⟨_, st₂, hmembers, h⟩ := EStateM.ok_of_bind h
  obtain ⟨_, st₃, hdefault, h⟩ := EStateM.ok_of_bind h
  cases hdefault
  have hadds : Adds (ds.map (·.name.text)) st st₁ := 
    KindM.adds_of_mapM (fun hx => KindM.annotateFresh_adds hx) hmetas
  have hnodup := hadds.nodup (hst ▸ List.nodup_nil)
  have hmembers : st₁.context.annotated.Nodup → st₁.Grows st₂ :=
    EStateM.rel_of_forM (R := fun st st' => st.context.annotated.Nodup → st.Grows st')
      (fun _ _ => .refl _) (fun h h' hst => (h hst).trans (h' ((h hst).annotated ▸ hst)))
      (fun h hst => grows_of_inferMember hst h) hmembers
  have hgrows := hmembers hnodup
  have hzonk := EStateM.state_of_mapM (fun hx => by cases hx; rfl) h
  subst hzonk
  have hannotated : st₂.context.defaultUnsolved.annotated = ds.map (·.name.text) := by
    rw [KindContext.annotated_defaultUnsolved, hgrows.annotated, hadds.annotated, hst,
      List.nil_append]
  refine ⟨hadds.supply.trans hgrows.supply, ?_, hannotated⟩
  change st₂.context.defaultUnsolved.annotated.Nodup
  rwa [KindContext.annotated_defaultUnsolved, hgrows.annotated]

end Datatype

/-! ## The state of elaboration -/

structure ElaborationState.Extends (st st' : ElaborationState) : Prop where
  supply : st.supply.issued ≤ st'.supply.issued
  inProgress : st'.inProgress = st.inProgress
  annotated : st'.context.annotated = st.context.annotated

namespace ElaborationState.Extends

theorem refl (st : ElaborationState) : st.Extends st := ⟨le_rfl, rfl, rfl⟩

theorem trans {st st₁ st₂ : ElaborationState} (h : st.Extends st₁) (h' : st₁.Extends st₂) :
    st.Extends st₂ :=
  { supply := h.supply.trans h'.supply
    inProgress := h'.inProgress.trans h.inProgress
    annotated := h'.annotated.trans h.annotated }

end ElaborationState.Extends

namespace ElaborationM

variable {st st' : ElaborationState}

theorem ofKinds_spec {α : Type} {m : KindM α} {a : α} (h : ofKinds m st = .ok a st') :
    ∃ kinds, m st.toKindState = .ok a kinds ∧ st' = { st with toKindState := kinds } := by
  unfold ofKinds at h
  split at h
  · next kinds hm =>
    cases h
    exact ⟨kinds, hm, rfl⟩
  · cases h

theorem checkClosed_spec {t : Ty} (h : checkClosed t st = .ok () st') :
    st.Extends st' ∧ ∀ x ∈ t.rigidVars, x ∈ st.context.annotated := by
  obtain ⟨kinds, hm, rfl⟩ := ofKinds_spec h
  obtain ⟨hgrows, hnames⟩ := (Ty.checkStar_grows ..).of_ok hm
  exact ⟨⟨hgrows.supply, rfl, hgrows.annotated⟩, hnames⟩

theorem bindUnknown_adds {names bound : List String} {kinds kinds' : KindState}
    (h : bindUnknown names kinds = .ok bound kinds') : KindState.Adds bound kinds kinds' := by
  induction names generalizing kinds bound with
  | nil =>
    cases h
    exact .nil _
  | cons x names ih =>
    obtain ⟨_, _, hget, h⟩ := EStateM.ok_of_bind h
    cases hget
    split at h
    · exact ih h
    · obtain ⟨m, kinds₁, hm, h⟩ := EStateM.ok_of_bind h
      obtain ⟨bound', kinds₂, hbound, h⟩ := EStateM.ok_of_bind h
      cases h
      exact (KindM.annotateFresh_adds hm).append (ih hbound)

theorem thenForget_grows {α : Type} {bound : List String} {m : KindM α} {kinds kinds₁ : KindState}
    (hkinds : kinds.context.annotated.Nodup) (hadds : kinds.Adds bound kinds₁)
    (hm : Ends m kinds₁ (fun _ => kinds₁.Grows) kinds₁.Grows) :
    Ends (thenForget bound m) kinds₁ (fun _ => kinds.Grows) kinds.Grows := by
  unfold Ends thenForget at *
  cases hresult : m kinds₁ with
  | ok a kinds₂ | error e kinds₂ =>
    rw [hresult] at hm
    exact KindState.grows_of_forget hkinds hadds hm

theorem checkOpen_extends {t : Ty} (hst : st.context.annotated.Nodup)
    (h : checkOpen t st = .ok () st') : st.Extends st' := by
  obtain ⟨kinds, hm, rfl⟩ := ofKinds_spec h
  obtain ⟨bound, kinds₁, hbound, hm⟩ := EStateM.ok_of_bind hm
  have hcheck := (t.checkStar_grows t.loc kinds₁).imp (fun _ _ h => h.1) fun _ h => h
  have hgrows := (thenForget_grows hst (bindUnknown_adds hbound) hcheck).of_ok hm
  exact ⟨hgrows.supply, rfl, hgrows.annotated⟩

end ElaborationM

end GuardedCommands
