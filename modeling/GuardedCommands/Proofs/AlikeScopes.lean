import GuardedCommands.Proofs.FunctionSolutions
import GuardedCommands.Proofs.SettledKinds

/-!
# Elaboration in scopes that are alike

Two environments are alike if every name that one has the other has too, with a type that
allows the same, and with the very same type if it may be assigned to.  Once no function is
in progress, types of names are closed and nothing that is found touches them.  What an
expression admits then depends only on what types allow, and a check of kinds on the kinds
that are recorded.  So whether something is accepted does not depend on which of two alike
environments it stands in, nor on the names that have been issued: two runs both succeed or
both fail.
-/

namespace GuardedCommands

open Ty (Subst Assignment HasKind)

open ElaborationM

/-! ## Runs that end together -/

structure ElaborationState.Idle (κ : Kinding) (st : ElaborationState) : Prop where
  records : st.Records κ
  inProgress : ∀ x, x ∉ st.inProgress

variable {κ : Kinding} {A : Discipline} {k : Kind}

theorem ElaborationState.Idle.of_issues {st st₁ : ElaborationState} (h : st.Idle κ)
    (hissues : Issues st st₁) : st₁.Idle κ :=
  ⟨h.records.of_supply hissues.context hissues.supply, hissues.inProgress ▸ h.inProgress⟩

inductive EndTogether (κ : Kinding) {α β : Type} (R : α → β → Prop) :
    EStateM.Result ElaborationError ElaborationState α →
      EStateM.Result ElaborationError ElaborationState β → Prop
  | ok {a b st st'} (hst : st.Idle κ) (hst' : st'.Idle κ) (h : R a b) :
      EndTogether κ R (.ok a st) (.ok b st')
  | error {e e' st st'} : EndTogether κ R (.error e st) (.error e' st')

/-- Two computations both succeed or both fail, whatever has been issued before. -/
def Together (κ : Kinding) {α β : Type} (m : ElaborationM α) (m' : ElaborationM β)
    (R : α → β → Prop) : Prop :=
  ∀ st st' : ElaborationState, st.Idle κ → st'.Idle κ → EndTogether κ R (m st) (m' st')

namespace Together

variable {κ : Kinding} {α β γ δ : Type} {m : ElaborationM α} {m' : ElaborationM β}
  {R : α → β → Prop} {S : γ → δ → Prop}

theorem bind {f : α → ElaborationM γ} {f' : β → ElaborationM δ} (hm : Together κ m m' R)
    (hf : ∀ a b, R a b → Together κ (f a) (f' b) S) : Together κ (m >>= f) (m' >>= f') S := by
  intro st st' hst hst'
  have hrun : (m >>= f) st = EStateM.bind m f st := rfl
  have hrun' : (m' >>= f') st' = EStateM.bind m' f' st' := rfl
  rw [hrun, hrun', EStateM.bind, EStateM.bind]
  have hends := hm st st' hst hst'
  generalize m st = r at hends
  generalize m' st' = r' at hends
  cases hends with
  | ok hst hst' h => exact hf _ _ h _ _ hst hst'
  | error => exact .error

theorem imp {R' : α → β → Prop} (h : Together κ m m' R) (hR : ∀ a b, R a b → R' a b) :
    Together κ m m' R' := by
  intro st st' hst hst'
  have hends := h st st' hst hst'
  generalize m st = r at hends
  generalize m' st' = r' at hends
  cases hends with
  | ok hst hst' h => exact .ok hst hst' (hR _ _ h)
  | error => exact .error

variable {a : α}

theorem exists_ok (h : Together κ m m' R) {st st' st₁ : ElaborationState} (hst : st.Idle κ)
    (hst' : st'.Idle κ) (hm : m st = .ok a st₁) : ∃ b st₁', m' st' = .ok b st₁' ∧ R a b := by
  have hends := h st st' hst hst'
  rw [hm] at hends
  generalize m' st' = r' at hends
  cases hends with
  | ok _ _ hR => exact ⟨_, _, rfl, hR⟩

theorem pure {b : β} (h : R a b) : Together κ (Pure.pure a) (Pure.pure b) R :=
  fun _ _ hst hst' => .ok hst hst' h

theorem throw {e e' : ElaborationError} :
    Together κ (MonadExcept.throw e : ElaborationM α) (MonadExcept.throw e' : ElaborationM β) R :=
  fun _ _ _ _ => .error

theorem ofExcept (x : Except ElaborationError α) :
    Together κ (MonadExcept.ofExcept x) (MonadExcept.ofExcept x) fun a b => x = .ok a ∧ b = a := by
  intro st st' hst hst'
  cases x with
  | ok a => exact .ok hst hst' ⟨rfl, rfl⟩
  | error e => exact .error

theorem of_ends {Q : Prop} {A : α → Prop} {B : β → Prop}
    (hm : ∀ st, st.Idle κ → Ends m st (fun a st₁ => st₁.Idle κ ∧ A a ∧ Q) fun _ => ¬ Q)
    (hm' : ∀ st, st.Idle κ → Ends m' st (fun b st₁ => st₁.Idle κ ∧ B b ∧ Q) fun _ => ¬ Q) :
    Together κ m m' fun a b => A a ∧ B b ∧ Q := by
  intro st st' hst hst'
  have hends := hm st hst
  have hends' := hm' st' hst'
  unfold Ends at hends hends'
  generalize m st = r at hends
  generalize m' st' = r' at hends'
  cases r with
  | ok a st₁ =>
    obtain ⟨hst₁, hA, hQ⟩ := hends
    cases r' with
    | ok b st₁' => exact .ok hst₁ hends'.1 ⟨hA, hends'.2.1, hQ⟩
    | error e st₁' => exact absurd hQ hends'
  | error e st₁ =>
    cases r' with
    | ok b st₁' => exact absurd hends'.2.2 hends
    | error e' st₁' => exact .error

end Together

def Ty.Subst.OnMetas (s : Subst) : Prop := ∀ x t, s.get? x = some t → x ∈ metaNames

theorem Ty.Subst.onMetas_empty : Subst.OnMetas ∅ := by
  intro x t h
  cases h

theorem Ty.Subst.OnMetas.compose {s t : Subst} (hs : s.OnMetas) (ht : t.OnMetas) :
    (s.compose t).OnMetas := by
  intro x u hu
  rcases Subst.of_get?_compose hu with hu | ⟨v, hv, -⟩
  · exact hs x u hu
  · exact ht x v hv

def FoundOnMetas {α β : Type} (r : Inferred α) (r' : Inferred β) : Prop :=
  r.2.OnMetas ∧ r'.2.OnMetas

theorem Together.of_finds {α β : Type} {view : α → Ty} {view' : β → Ty}
    {m : ElaborationM (Inferred α)} {m' : ElaborationM (Inferred β)} {P : Problem}
    (hm : ∀ st, st.Idle κ → Finds view ∅ st st m P)
    (hm' : ∀ st, st.Idle κ → Finds view' ∅ st st m' P) : Together κ m m' FoundOnMetas := by
  have hends : ∀ {α : Type} {view : α → Ty} {m : ElaborationM (Inferred α)},
      (∀ st, st.Idle κ → Finds view ∅ st st m P) → ∀ st, st.Idle κ →
        Ends m st (fun r st₁ => st₁.Idle κ ∧ r.2.OnMetas ∧ ∃ v τ, P v τ)
          fun _ => ¬ ∃ v τ, P v τ := by
    intro α view m hm st hst
    refine (hm st hst).imp (fun r st₁ hr => ?_) fun _ hnone => ?_
    · obtain ⟨U, hprogress, -, hsound, -⟩ := hr
      refine ⟨hst.of_issues hprogress.issues, fun x t ht => hprogress.mem_metaNames ht, ?_⟩
      exact ⟨_, _, hsound _ (hprogress.maps.resolved.holds_after Ty.atoms)⟩
    · rintro ⟨v, τ, hP⟩
      exact hnone v τ hP
  exact (Together.of_ends (hends hm) (hends hm')).imp fun r r' h => ⟨h.1, h.2.1⟩

/-! ## Environments that are alike -/

/-- Two names are alike in what their types allow, and the same if they may be assigned to. -/
structure TypeInfo.Alike (i i' : TypeInfo) : Prop where
  isMutable : i'.isMutable = i.isMutable
  allows : ∀ τ, i.ty.Allows τ ↔ i'.ty.Allows τ
  target : i.isMutable = true → i'.ty = i.ty ∧ i.ty.Over ∅

def TypeEnv.General (env : TypeEnv) : Prop :=
  ∀ e ∈ env.entries, e.2.ty.Closed ∧ e.2.ty.HeadsRooted

structure TypeEnv.Alike (env env' : TypeEnv) : Prop where
  left : env.General
  right : env'.General
  lookup : ∀ x, Option.Rel TypeInfo.Alike (env.lookup? x) (env'.lookup? x)

namespace TypeEnv

variable {κ : Kinding} {env env' : TypeEnv} {s s' : Subst} {st : ElaborationState}

theorem General.subst_eq (h : env.General) (hs : s.OnMetas) : env.subst s = env :=
  subst_eq_self (fun e he => (h e he).1) hs

theorem General.ready (h : env.General) (hst : st.Idle κ) : env.Ready ∅ st where
  known := Set.empty_subset _
  sorted e he := (h e he).1.sorted
  headsRooted e he := (h e he).2
  pending x hx := absurd hx (hst.inProgress x)

theorem General.uses_eq (h : env.General) (v : Assignment) : env.uses v = env.allows :=
  uses_eq_allows (fun e he => (h e he).1) v

theorem Alike.allows_eq (h : env.Alike env') : env'.allows = env.allows := by
  funext x τ
  refine propext ?_
  have hx := h.lookup x
  unfold allows
  revert hx
  generalize env.lookup? x = a
  generalize env'.lookup? x = b
  rintro (hinfo | _)
  · simp [hinfo.allows τ]
  · simp

theorem Alike.contains_eq (h : env.Alike env') (x : String) :
    env'.contains x = env.contains x := by
  have hx := h.lookup x
  unfold contains
  revert hx
  generalize env.lookup? x = a
  generalize env'.lookup? x = b
  rintro (_ | _) <;> rfl

theorem Alike.append (h : env.Alike env') {new : List (Name × TypeInfo)}
    (hnew : ∀ e ∈ new, e.2.ty.Over ∅) : Alike ⟨env.entries ++ new⟩ ⟨env'.entries ++ new⟩ := by
  have hgeneral : ∀ {env : TypeEnv}, env.General → General ⟨env.entries ++ new⟩ := by
    intro env henv e he
    rcases List.mem_append.1 he with he | he
    · exact henv e he
    · exact ⟨(hnew e he).closed, (hnew e he).headsRooted⟩
  refine ⟨hgeneral h.left, hgeneral h.right, fun x => ?_⟩
  rw [lookup?_append, lookup?_append]
  cases hx : (⟨new⟩ : TypeEnv).lookup? x with
  | none => simpa using h.lookup x
  | some info =>
    obtain ⟨e, he, rfl⟩ := mem_of_lookup? hx
    exact .some ⟨rfl, fun τ => Iff.rfl, fun _ => ⟨rfl, hnew e he⟩⟩

/-! ## Expressions -/

theorem Alike.together_mutableTy (h : env.Alike env') (x : Name) :
    Together κ (env.mutableTy x) (env'.mutableTy x) fun t t' => t' = t ∧ t.Over ∅ := by
  have hx := h.lookup x.text
  unfold mutableTy
  revert hx
  generalize env.lookup? x.text = a
  generalize env'.lookup? x.text = b
  rintro (@⟨info, info', hinfo⟩ | _)
  · dsimp only
    rw [hinfo.isMutable]
    split
    · next hmutable => exact .pure (hinfo.target hmutable)
    · exact .throw
  · exact .throw

end TypeEnv

namespace Expr

variable {κ : Kinding} {env env' : TypeEnv} {U : Set String} {st : ElaborationState}

theorem expect_principal (henv : env.Ready U st) {t : Ty} (ht : t.Simple U) (e : Expr) :
    Finds (fun _ => .bool) U st st (e.expect env t) fun v τ =>
      τ = .bool ∧ e.Admits (env.uses v) (t.value v) := by
  unfold expect
  refine .infer (Q := fun v a τ => t.value v = a ∧ τ = .bool) (infer_principal e) henv
    (fun v τ => ?_) (fun hw => ?_) fun typed s₁ U₁ st₁ hs₁ hty => ?_
  · constructor
    · rintro ⟨hτ, h⟩
      exact ⟨_, h, rfl, hτ⟩
    · rintro ⟨_, h, rfl, hτ⟩
      exact ⟨hτ, h⟩
  · funext a τ
    rw [hw.value (ht.vars.mono henv.known)]
  · refine .unify (Q := fun _ τ => τ = .bool) hs₁ (hs₁.simple_subst ht) hty (fun v τ hv => ?_)
      fun s₂ U₂ hs₂ => ?_
    · rw [hv.value_subst]
    · exact .pure (hs₁.compose hs₂) Ty.simple_bool fun v τ _ => Iff.rfl

theorem together_infer (h : env.Alike env') (e : Expr) :
    Together κ (e.infer env) (e.infer env') FoundOnMetas := by
  refine .of_finds (P := fun _ => e.Admits env.allows)
    (fun st hst => (infer_principal e (h.left.ready hst)).congr fun v τ => ?_)
    fun st hst => (infer_principal e (h.right.ready hst)).congr fun v τ => ?_
  · rw [h.left.uses_eq]
  · rw [h.right.uses_eq, h.allows_eq]

theorem together_expect (h : env.Alike env') {t : Ty} (ht : t.Over ∅) (e : Expr) :
    Together κ (e.expect env t) (e.expect env' t) FoundOnMetas := by
  have ht : t.Simple ∅ := ⟨ht, ht.headsRooted⟩
  refine .of_finds (P := fun v τ => τ = .bool ∧ e.Admits env.allows (t.value v))
    (fun st hst => (expect_principal (h.left.ready hst) ht e).congr fun v τ => ?_)
    fun st hst => (expect_principal (h.right.ready hst) ht e).congr fun v τ => ?_
  · rw [h.left.uses_eq]
  · rw [h.right.uses_eq, h.allows_eq]

theorem together_expectEach (h : env.Alike env') {s s' : Subst} (hs : s.OnMetas) (hs' : s'.OnMetas)
    {es : List (Ty × Expr)} (hes : ∀ e ∈ es, e.1.Over ∅) :
    Together κ (expectEach env s es) (expectEach env' s' es) FoundOnMetas := by
  induction es generalizing s s' with
  | nil => exact .pure ⟨hs, hs'⟩
  | cons e es ih =>
    obtain ⟨t, e⟩ := e
    obtain ⟨ht, hes⟩ := List.forall_mem_cons.1 hes
    have hsame : ∀ s : Subst, t.subst s = t := fun s => ht.subst_eq_self (by simp)
    unfold expectEach
    rw [h.left.subst_eq hs, h.right.subst_eq hs', hsame, hsame]
    refine (together_expect h ht e).bind fun r r' hr => ?_
    exact (ih (hr.1.compose hs) (hr.2.compose hs') hes).bind fun r r' hr => .pure hr

theorem together_expectAll (h : env.Alike env') {t : Ty} (ht : t.Over ∅) (es : List Expr) :
    Together κ (expectAll env t es) (expectAll env' t es) FoundOnMetas :=
  together_expectEach h Ty.Subst.onMetas_empty Ty.Subst.onMetas_empty (by simpa using fun _ _ => ht)

theorem together_expectOption (h : env.Alike env') {t : Ty} (ht : t.Over ∅) (e : Option Expr) :
    Together κ (expectOption env t e) (expectOption env' t e) FoundOnMetas := by
  cases e with
  | none => exact .pure ⟨Ty.Subst.onMetas_empty, Ty.Subst.onMetas_empty⟩
  | some e => exact (together_expect h ht e).bind fun r r' hr => .pure hr

end Expr

/-! ## Declarations -/

theorem Ty.HasKind.mem_rigidVars {t : Ty} (h : HasKind A κ t k) :
    ∀ x ∈ t.rigidVars, (κ x).isSome := by
  induction h with
  | rigid h => simp [Ty.rigidVars, h]
  | array _ ih => exact ih
  | app _ _ _ ihf iha =>
    intro x hx
    rcases NameSet.mem_union.1 hx with hx | hx
    · exact ihf x hx
    · exact iha x hx
  | base | tuple | arrow | data | metavar => simp [Ty.rigidVars]

theorem Ty.HasKind.over_empty {t : Ty} (h : HasKind A κ t k) (ht : t.Plain {x | (κ x).isSome}) :
    t.Over ∅ :=
  Ty.over_empty (by simp [ht.1]) fun x hx => ht.2 x hx (h.mem_rigidVars x hx)

namespace Declaration

variable {κ : Kinding} {env env' : TypeEnv}

theorem together_checkClosed (t : Ty) :
    Together κ (checkClosed t) (checkClosed t) fun _ _ => HasKind .free κ t .star := by
  have hends : ∀ st : ElaborationState, st.Idle κ → Ends (checkClosed t) st
      (fun _ st₁ => st₁.Idle κ ∧ True ∧ HasKind .free κ t .star)
      fun _ => ¬ HasKind .free κ t .star := by
    intro st hst
    refine (checkClosed_ends hst.records t).imp (fun _ st₁ h => ?_) fun _ h => h
    obtain ⟨hrecords, hprogress, hkind⟩ := h
    exact ⟨⟨hrecords, hprogress ▸ hst.inProgress⟩, trivial, hkind⟩
  exact (Together.of_ends hends hends).imp fun _ _ h => h.2.2

theorem together_declareAll (h : env.Alike env') {ds : List (Declaration Expr)}
    (hds : ∀ d ∈ ds, d.ty.Plain {x | (κ x).isSome}) :
    Together κ (declareAll env ds) (declareAll env' ds) TypeEnv.Alike := by
  induction ds generalizing env env' with
  | nil => exact .pure h
  | cons d ds ih =>
    obtain ⟨hd, hds⟩ := List.forall_mem_cons.1 hds
    unfold declareAll
    refine (together_checkClosed d.ty).bind fun _ _ hkind => ih ?_ hds
    refine h.append fun e he => ?_
    obtain ⟨x, -, rfl⟩ := List.mem_map.1 he
    exact hkind.over_empty hd

theorem together_inferProps (h : env.Alike env') {s s' : Subst} (hs : s.OnMetas) (hs' : s'.OnMetas)
    (ds : List (Declaration Expr)) :
    Together κ (inferProps env s ds) (inferProps env' s' ds) FoundOnMetas := by
  induction ds generalizing s s' with
  | nil => exact .pure ⟨hs, hs'⟩
  | cons d ds ih =>
    unfold inferProps
    rw [h.left.subst_eq hs, h.right.subst_eq hs']
    refine (Expr.together_expectOption h Ty.over_bool d.prop).bind fun r r' hr => ?_
    exact (ih (hr.1.compose hs) (hr.2.compose hs')).bind fun r r' hr => .pure hr

end Declaration

/-! ## Statements -/

namespace Stmt

variable {κ : Kinding} {env env' : TypeEnv}

theorem checkBlock_eq (h : env.Alike env') (b : Program) :
    checkBlock env' b = checkBlock env b := by
  unfold checkBlock
  simp only [h.contains_eq]

theorem together_checkBlock (h : env.Alike env') (b : Program) :
    Together κ (checkBlock env b) (checkBlock env' b) fun _ _ => True := by
  rw [checkBlock_eq h]
  unfold checkBlock
  cases b.defns with
  | cons d ds => exact .throw
  | nil =>
    dsimp only
    cases (b.decls.flatMap (·.names)).find? fun x => env.contains x.text with
    | some x => exact .throw
    | none => exact (Together.ofExcept _).imp fun _ _ _ => trivial

theorem together_expectCell (h : env.Alike env') (x : Name) (loc : Loc) :
    Together κ (env.expectCell x loc) (env'.expectCell x loc)
      fun s s' => s.OnMetas ∧ s'.OnMetas := by
  unfold TypeEnv.expectCell
  refine (h.together_mutableTy x).bind fun _ t ht => ?_
  obtain ⟨rfl, ht⟩ := ht
  refine (Together.ofExcept (t.unify .int (x.loc.merge loc))).imp fun _ s hs => ?_
  obtain ⟨hok, rfl⟩ := hs
  obtain ⟨U, hmaps, -⟩ := Ty.unify_sound ht Ty.over_int hok
  have hmetas : s.OnMetas := fun y u hu => (hmaps.solved hu).1.elim
  exact ⟨hmetas, hmetas⟩

theorem together_inferAssign (h : env.Alike env') (xs : List Name) (es : List Expr) (loc : Loc) :
    Together κ (inferAssign env xs es loc) (inferAssign env' xs es loc) FoundOnMetas := by
  have htargets : Together κ (xs.mapM env.mutableTy) (xs.mapM env'.mutableTy)
      fun ts ts' => ts' = ts ∧ ∀ t ∈ ts, t.Over ∅ := by
    induction xs with
    | nil => exact .pure ⟨rfl, by simp⟩
    | cons x xs ih =>
      rw [List.mapM_cons, List.mapM_cons]
      refine (h.together_mutableTy x).bind fun t t' ht => ih.bind fun ts ts' hts => ?_
      exact .pure ⟨by rw [ht.1, hts.1], List.forall_mem_cons.2 ⟨ht.2, hts.2⟩⟩
  unfold inferAssign
  refine htargets.bind fun ts ts' hts => ?_
  obtain ⟨rfl, hover⟩ := hts
  dsimp only
  split
  · exact .throw
  split
  · exact .throw
  refine (Expr.together_expectEach h Ty.Subst.onMetas_empty Ty.Subst.onMetas_empty
    fun e he => hover e.1 (List.of_mem_zip he).1).bind fun r r' hr => .pure hr

def ofUpdate (loc : Loc) : TypedExpr → TypedStmt
  | .update a i v _ _ => .arrayAssign a i v loc
  | _ => .skip loc

theorem inferArrayAssign_eq (env : TypeEnv) (a i v : Expr) (loc : Loc) :
    inferArrayAssign env a i v loc = (do
      match a.asName? with
      | some x => discard (env.mutableTy x)
      | none => pure ()
      let (t, s) ← (Expr.update a i v loc).infer env
      return (ofUpdate loc t, s)) := by
  rw [Expr.infer]
  unfold inferArrayAssign
  cases a.asName? <;> simp only [bind_assoc, pure_bind, ofUpdate]

theorem together_inferArrayAssign (h : env.Alike env') (a i v : Expr) (loc : Loc) :
    Together κ (inferArrayAssign env a i v loc) (inferArrayAssign env' a i v loc) FoundOnMetas := by
  rw [inferArrayAssign_eq, inferArrayAssign_eq]
  have hupdate := (Expr.together_infer (κ := κ) h (.update a i v loc)).bind fun r r' hr =>
    Together.pure (show FoundOnMetas (ofUpdate loc r.1, r.2) (ofUpdate loc r'.1, r'.2) from hr)
  cases a.asName? with
  | none => exact hupdate
  | some x =>
    refine Together.bind (R := fun _ _ => True) ?_ fun _ _ _ => hupdate
    exact (h.together_mutableTy x).bind fun _ _ _ => .pure trivial

def Alike (κ : Kinding) (t : SourceStmt) : Prop :=
  (∀ u ∈ t.declaredTypes, u.Plain {x | (κ x).isSome}) → ∀ {env env' : TypeEnv}, env.Alike env' →
    Together κ (infer env t) (infer env' t) FoundOnMetas

def ListAlike (κ : Kinding) (ts : List SourceStmt) : Prop :=
  (∀ u ∈ listTypes ts, u.Plain {x | (κ x).isSome}) → ∀ {env env' : TypeEnv} {s s' : Subst},
    env.Alike env' → s.OnMetas → s'.OnMetas →
      Together κ (inferList env s ts) (inferList env' s' ts) FoundOnMetas

def CmdsAlike (κ : Kinding) (cs : List SourceCmd) : Prop :=
  (∀ u ∈ cmdsTypes cs, u.Plain {x | (κ x).isSome}) → ∀ {env env' : TypeEnv} {s s' : Subst},
    env.Alike env' → s.OnMetas → s'.OnMetas →
      Together κ (inferCmds env s cs) (inferCmds env' s' cs) FoundOnMetas

variable {ts : List SourceStmt} {cs : List SourceCmd}

theorem ListAlike.start (hts : ListAlike κ ts)
    (htypes : ∀ u ∈ listTypes ts, u.Plain {x | (κ x).isSome}) (h : env.Alike env') :
    Together κ (inferList env ∅ ts) (inferList env' ∅ ts) FoundOnMetas :=
  hts htypes h Ty.Subst.onMetas_empty Ty.Subst.onMetas_empty

theorem alike_skip (loc : Loc) : (skip loc : SourceStmt).Alike κ := by
  intro _ env env' h
  rw [infer, infer]
  exact .pure ⟨Ty.Subst.onMetas_empty, Ty.Subst.onMetas_empty⟩

theorem alike_abort (loc : Loc) : (abort loc : SourceStmt).Alike κ := by
  intro _ env env' h
  rw [infer, infer]
  exact .pure ⟨Ty.Subst.onMetas_empty, Ty.Subst.onMetas_empty⟩

theorem alike_hole (text : String) (loc : Loc) : (hole text () loc : SourceStmt).Alike κ := by
  intro _ env env' h
  rw [infer, infer]
  exact .pure ⟨Ty.Subst.onMetas_empty, Ty.Subst.onMetas_empty⟩

theorem alike_assign (xs : List Name) (es : List Expr) (loc : Loc) :
    (assign xs es loc : SourceStmt).Alike κ := by
  intro _ env env' h
  rw [infer, infer]
  exact together_inferAssign h xs es loc

theorem alike_arrayAssign (a i v : Expr) (loc : Loc) :
    (arrayAssign a i v loc : SourceStmt).Alike κ := by
  intro _ env env' h
  rw [infer, infer]
  exact together_inferArrayAssign h a i v loc

theorem alike_assert (e : Expr) (loc : Loc) : (assert e loc : SourceStmt).Alike κ := by
  intro _ env env' h
  rw [infer, infer]
  exact (Expr.together_expect h Ty.over_bool e).bind fun r r' hr => .pure hr

theorem alike_invariant (inv : Expr) (bound : Option Expr) (loc : Loc) :
    (invariant inv bound loc : SourceStmt).Alike κ := by
  intro _ env env' h
  rw [infer, infer]
  refine (Expr.together_expect h Ty.over_bool inv).bind fun r r' hr => ?_
  dsimp only
  rw [h.left.subst_eq hr.1, h.right.subst_eq hr.2]
  refine (Expr.together_expectOption h Ty.over_int bound).bind fun b b' hb => .pure ?_
  exact ⟨hb.1.compose hr.1, hb.2.compose hr.2⟩

theorem alike_alloc (x : Name) (es : List Expr) (loc : Loc) :
    (alloc x es loc : SourceStmt).Alike κ := by
  intro _ env env' h
  rw [infer, infer]
  refine (together_expectCell h x loc).bind fun s s' hs => ?_
  rw [h.left.subst_eq hs.1, h.right.subst_eq hs.2]
  refine (Expr.together_expectAll h Ty.over_int es).bind fun r r' hr => .pure ?_
  exact ⟨hr.1.compose hs.1, hr.2.compose hs.2⟩

theorem alike_lookup (x : Name) (e : Expr) (loc : Loc) :
    (lookup x e loc : SourceStmt).Alike κ := by
  intro _ env env' h
  rw [infer, infer]
  refine (together_expectCell h x loc).bind fun s s' hs => ?_
  rw [h.left.subst_eq hs.1, h.right.subst_eq hs.2]
  refine (Expr.together_expect h Ty.over_int e).bind fun r r' hr => .pure ?_
  exact ⟨hr.1.compose hs.1, hr.2.compose hs.2⟩

theorem alike_mutate (c v : Expr) (loc : Loc) : (mutate c v loc : SourceStmt).Alike κ := by
  intro _ env env' h
  rw [infer, infer]
  refine (Expr.together_expect h Ty.over_int c).bind fun r r' hr => ?_
  dsimp only
  rw [h.left.subst_eq hr.1, h.right.subst_eq hr.2]
  refine (Expr.together_expect h Ty.over_int v).bind fun q q' hq => .pure ?_
  exact ⟨hq.1.compose hr.1, hq.2.compose hr.2⟩

theorem alike_dispose (e : Expr) (loc : Loc) : (dispose e loc : SourceStmt).Alike κ := by
  intro _ env env' h
  rw [infer, infer]
  exact (Expr.together_expect h Ty.over_int e).bind fun r r' hr => .pure hr

theorem alike_loop (hcs : CmdsAlike κ cs) (loc : Loc) : (loop cs loc : SourceStmt).Alike κ := by
  intro htypes env env' h
  rw [declaredTypes] at htypes
  rw [infer, infer]
  exact (hcs htypes h Ty.Subst.onMetas_empty Ty.Subst.onMetas_empty).bind fun r r' hr => .pure hr

theorem alike_cond (hcs : CmdsAlike κ cs) (loc : Loc) : (cond cs loc : SourceStmt).Alike κ := by
  intro htypes env env' h
  rw [declaredTypes] at htypes
  rw [infer, infer]
  exact (hcs htypes h Ty.Subst.onMetas_empty Ty.Subst.onMetas_empty).bind fun r r' hr => .pure hr

theorem alike_block {b : Program} (hstmts : ListAlike κ b.stmts) (loc : Loc) :
    (block b loc : SourceStmt).Alike κ := by
  intro htypes env env' h
  rw [declaredTypes] at htypes
  obtain ⟨hdecls, hlist⟩ := List.forall_mem_append.1 htypes
  rw [infer, infer]
  refine (together_checkBlock h b).bind fun _ _ _ => ?_
  refine (Declaration.together_declareAll h (by simpa using hdecls)).bind
    fun inner inner' hinner => ?_
  refine (Declaration.together_inferProps hinner Ty.Subst.onMetas_empty Ty.Subst.onMetas_empty
    b.decls).bind fun r r' hr => ?_
  dsimp only
  rw [hinner.left.subst_eq hr.1, hinner.right.subst_eq hr.2]
  refine (Expr.together_expectAll hinner Ty.over_bool b.props).bind fun q q' hq => ?_
  have hs := hq.1.compose hr.1
  have hs' := hq.2.compose hr.2
  rw [hinner.left.subst_eq hs, hinner.right.subst_eq hs']
  exact (hstmts.start hlist hinner).bind fun u u' hu => .pure ⟨hu.1.compose hs, hu.2.compose hs'⟩

theorem cmdsAlike_nil : CmdsAlike κ [] := by
  intro _ env env' s s' h hs hs'
  rw [inferCmds, inferCmds]
  exact .pure ⟨hs, hs'⟩

theorem cmdsAlike_cons {c : SourceCmd} (hbody : ListAlike κ c.body) (hcs : CmdsAlike κ cs) :
    CmdsAlike κ (c :: cs) := by
  intro htypes env env' s s' h hs hs'
  rw [cmdsTypes] at htypes
  obtain ⟨hbodytypes, hothertypes⟩ := List.forall_mem_append.1 htypes
  rw [inferCmds, inferCmds, h.left.subst_eq hs, h.right.subst_eq hs']
  refine (Expr.together_expect h Ty.over_bool c.guard).bind fun r r' hr => ?_
  dsimp only
  rw [h.left.subst_eq hr.1, h.right.subst_eq hr.2]
  refine (hbody.start hbodytypes h).bind fun q q' hq => ?_
  refine (hcs hothertypes h ((hq.1.compose hr.1).compose hs)
    ((hq.2.compose hr.2).compose hs')).bind fun u u' hu => .pure hu

theorem listAlike_nil : ListAlike κ [] := by
  intro _ env env' s s' h hs hs'
  rw [inferList, inferList]
  exact .pure ⟨hs, hs'⟩

theorem listAlike_cons {t : SourceStmt} (ht : t.Alike κ) (hts : ListAlike κ ts) :
    ListAlike κ (t :: ts) := by
  intro htypes env env' s s' h hs hs'
  rw [listTypes] at htypes
  obtain ⟨htype, hothertypes⟩ := List.forall_mem_append.1 htypes
  rw [inferList, inferList, h.left.subst_eq hs, h.right.subst_eq hs']
  refine (ht htype h).bind fun r r' hr => ?_
  exact (hts hothertypes h (hr.1.compose hs) (hr.2.compose hs')).bind fun q q' hq => .pure hq

mutual

theorem infer_alike (κ : Kinding) : (t : SourceStmt) → t.Alike κ
  | .skip loc => alike_skip loc
  | .abort loc => alike_abort loc
  | .assign xs es loc => alike_assign xs es loc
  | .arrayAssign a i v loc => alike_arrayAssign a i v loc
  | .assert e loc => alike_assert e loc
  | .invariant inv bound loc => alike_invariant inv bound loc
  | .loop cs loc => alike_loop (inferCmds_alike κ cs) loc
  | .cond cs loc => alike_cond (inferCmds_alike κ cs) loc
  | .hole text () loc => alike_hole text loc
  | .alloc x es loc => alike_alloc x es loc
  | .lookup x e loc => alike_lookup x e loc
  | .mutate c v loc => alike_mutate c v loc
  | .dispose e loc => alike_dispose e loc
  | .block b loc => alike_block (inferList_alike κ b.stmts) loc

theorem inferCmds_alike (κ : Kinding) : (cs : List SourceCmd) → CmdsAlike κ cs
  | [] => cmdsAlike_nil
  | c :: cs => cmdsAlike_cons (inferList_alike κ c.body) (inferCmds_alike κ cs)

theorem inferList_alike (κ : Kinding) : (ts : List SourceStmt) → ListAlike κ ts
  | [] => listAlike_nil
  | t :: ts => listAlike_cons (infer_alike κ t) (inferList_alike κ ts)

end

end Stmt

end GuardedCommands
