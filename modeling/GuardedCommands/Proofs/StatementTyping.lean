import GuardedCommands.Proofs.ExpressionTyping

/-!
# Elaborated statements are well typed

Every statement is looked at in the environment to which all earlier findings have
been applied, so what holds of single expressions carries over to statements and
blocks.  A block declares its types in full: they have kinds, and no type variable
has one, so there are no variables in them.  There is one lemma for each kind of
statement, and one induction over all of them.
-/

namespace GuardedCommands

open Ty (Subst)

open TypedExpr (HasTy)

/-! ## Declared types -/

namespace Ty

/-- A type as it is written: it has no metavariables, and none of its variables is
named like a datatype. -/
def Plain (D : Set String) (t : Ty) : Prop := t.metavars = ∅ ∧ ∀ x ∈ t.rigidVars, x ∉ D

theorem over_empty {t : Ty} (hmetas : ∀ x, x ∉ t.metavars) (hrigid : ∀ x, x ∉ t.rigidVars) :
    t.Over ∅ := by
  induction t with
  | rigid n => exact hrigid n.text (by simp [rigidVars])
  | metavar n => exact absurd (by simp [metavars]) (hmetas n.text)
  | array i t l ih => exact ih hmetas hrigid
  | app f a l ihf iha =>
    constructor
    · exact ihf (fun x hx => hmetas x (NameSet.mem_union.2 (.inl hx)))
        (fun x hx => hrigid x (NameSet.mem_union.2 (.inl hx)))
    · exact iha (fun x hx => hmetas x (NameSet.mem_union.2 (.inr hx)))
        (fun x hx => hrigid x (NameSet.mem_union.2 (.inr hx)))
  | base | tuple | arrow | data => trivial

theorem Plain.over_empty {D : Set String} {t : Ty} (h : t.Plain D) {names : List String}
    (hD : ∀ x ∈ names, x ∈ D) (hnames : ∀ x ∈ t.rigidVars, x ∈ names) : t.Over ∅ := by
  apply Ty.over_empty
  · intro x hx
    rw [h.1] at hx
    exact NameSet.not_mem_empty x hx
  · exact fun x hx => h.2 x hx (hD x (hnames x hx))

end Ty

namespace TypeEnv

theorem eq_of_entries {env env' : TypeEnv} (h : env.entries = env'.entries) : env = env' := by
  cases env
  cases env'
  exact congrArg mk h

variable {ε : Type}

theorem declare_congr {ε' : Type} {ds : List (Declaration ε)} {ds' : List (Declaration ε')}
    (h : ds.map (fun d => (d.sort, d.names, d.ty)) = ds'.map fun d => (d.sort, d.names, d.ty))
    (env : TypeEnv) : env.declare ds = env.declare ds' := by
  have hfold : ∀ {ε : Type} (ds : List (Declaration ε)), env.declare ds =
      (ds.map fun d => (d.sort, d.names, d.ty)).foldl
        (fun env d => env.insertAll d.2.1 ⟨d.1.role, d.2.2⟩) env := by
    intro ε ds
    rw [List.foldl_map]
    rfl
  rw [hfold, hfold, h]

theorem entries_declare (env : TypeEnv) (ds : List (Declaration ε)) :
    (env.declare ds).entries =
      env.entries ++ ds.flatMap fun d => d.names.map fun x => (x, ⟨d.sort.role, d.ty⟩) := by
  induction ds generalizing env with
  | nil => simp [declare]
  | cons d ds ih =>
    have hcons : env.declare (d :: ds) = (env.insertAll d.names ⟨d.sort.role, d.ty⟩).declare ds :=
      rfl
    rw [hcons, ih]
    simp [insertAll]

end TypeEnv

namespace Scope

variable {Γ : Scope} {U : Set String} {st st₁ : ElaborationState} {s S : Subst}

variable {ε : Type} {ds : List (Declaration ε)}

theorem env_declare (Γ : Scope) (ds : List (Declaration ε)) :
    (Γ.declare ds).env = Γ.env.declare ds := by
  apply TypeEnv.eq_of_entries
  simp [env, declare, TypeEnv.entries_declare]

theorem subst_declare (h : ∀ d ∈ ds, d.ty.Over ∅) (Γ : Scope) (s : Subst) :
    (Γ.declare ds).subst s = (Γ.subst s).declare ds := by
  have hsame : ∀ d ∈ ds, d.ty.subst s = d.ty := fun d hd => (h d hd).subst_eq_self (by simp)
  simp only [declare, subst, mk.injEq, true_and]
  apply TypeEnv.eq_of_entries
  simp only [TypeEnv.subst, TypeEnv.entries_declare, List.map_append, List.map_flatMap,
    List.map_map]
  congr 1
  exact List.flatMap_congr fun d hd => by simp [Function.comp_def, hsame d hd]

theorem Ready.declare (hΓ : Γ.Ready U st) (h : ∀ d ∈ ds, d.ty.Over ∅) :
    (Γ.declare ds).Ready U st := by
  constructor
  · exact hΓ.known
  · exact hΓ.schemes
  · exact hΓ.mutables
  · intro e he
    rw [Scope.declare, TypeEnv.entries_declare] at he
    rcases List.mem_append.1 he with he | he
    · exact hΓ.fixed e he
    · obtain ⟨d, hd, he⟩ := List.mem_flatMap.1 he
      obtain ⟨x, -, rfl⟩ := List.mem_map.1 he
      exact (h d hd).mono (Set.empty_subset U)
  · intro x hx
    change x ∈ ((Γ.fixed.declare ds).entries.map (·.1)).map (·.text)
    rw [TypeEnv.entries_declare, List.map_append, List.map_append]
    exact List.mem_append_left _ (hΓ.pending x hx)

end Scope

/-! ## The steps that rules are made of -/

structure Scope.Settled (D : Set String) (Γ : Scope) (U : Set String) (st : ElaborationState) :
    Prop extends Γ.Ready U st where
  typeNames : ∀ x ∈ st.context.annotated, x ∈ D

variable {D : Set String} {Γ : Scope} {U U₁ : Set String} {st st' st₁ st₂ : ElaborationState}
  {s s₁ s₂ S : Subst}

theorem Scope.Settled.after (hΓ : Γ.Settled D U st) (hs : Solving U st s U₁ st₁) :
    (Γ.subst s).Settled D U₁ st₁ :=
  { toReady := hΓ.toReady.after hs
    typeNames := hs.annotated ▸ hΓ.typeNames }

def Scope.FixedBy (Γ : Scope) (S : Subst) : Prop := Γ.schemes.subst S = Γ.schemes

theorem Scope.FixedBy.env_subst (h : Γ.FixedBy S) : Γ.env.subst S = (Γ.subst S).env := by
  apply TypeEnv.eq_of_entries
  have hentries := congrArg TypeEnv.entries h
  simp only [TypeEnv.subst, env, subst, List.map_append] at hentries ⊢
  rw [hentries]

namespace TypeEnv

theorem mutableTy_spec {x : Name} {t : Ty} (hΓ : Γ.Ready U st)
    (h : Γ.env.mutableTy x st = .ok t st') :
    st = st' ∧ t.Over U ∧ ∀ S : Subst, (Γ.subst S).Assignable x (t.subst S) := by
  unfold mutableTy at h
  rw [Scope.lookup?_env] at h
  cases hfixed : Γ.fixed.lookup? x.text with
  | some info =>
    rw [hfixed, Option.some_or] at h
    dsimp only at h
    split at h
    · next hmutable =>
      cases h
      obtain ⟨e, he, heq⟩ := mem_of_lookup? hfixed
      refine ⟨rfl, heq ▸ hΓ.fixed e he, fun S => ⟨{ info with ty := info.ty.subst S }, ?_⟩⟩
      rw [Scope.lookup?_env, Scope.subst, lookup?_subst, hfixed]
      exact ⟨rfl, hmutable, rfl⟩
    · cases h
  | none =>
    rw [hfixed, Option.none_or] at h
    cases hscheme : Γ.schemes.lookup? x.text with
    | none =>
      rw [hscheme] at h
      cases h
    | some info =>
      rw [hscheme] at h
      dsimp only at h
      split at h
      · next hmutable =>
        cases h
        obtain ⟨e, he, heq⟩ := mem_of_lookup? hscheme
        have hground : info.ty.Over ∅ := heq ▸ hΓ.mutables e he (heq ▸ hmutable)
        refine ⟨rfl, hground.mono (Set.empty_subset U), fun S => ⟨info, ?_, hmutable, ?_⟩⟩
        · rw [Scope.lookup?_env, Scope.subst, lookup?_subst, hfixed]
          exact hscheme
        · exact (hground.subst_eq_self (by simp)).symm
      · cases h

theorem expectCell_spec {x : Name} {loc : Loc} (hΓ : Γ.Ready U st)
    (h : Γ.env.expectCell x loc st = .ok s st') :
    ∃ U', Solving U st s U' st' ∧ ∀ S : Subst, S.Absorbs s →
      ∃ t, (Γ.subst S).Assignable x t ∧ t ≈ .int := by
  obtain ⟨t, st₁, ht, h⟩ := EStateM.ok_of_bind h
  obtain ⟨rfl, hover, hassignable⟩ := mutableTy_spec hΓ ht
  obtain ⟨U', hs, hequiv⟩ := ElaborationM.unify_spec hΓ.known hover Ty.over_int h
  exact ⟨U', hs, fun S hS => ⟨_, hassignable S, hequiv S hS⟩⟩

end TypeEnv

namespace Declaration

variable {ds : List (Declaration Expr)}

theorem declareAll_spec {env env' : TypeEnv} (h : declareAll env ds st = .ok env' st') :
    st.Extends st' ∧ env' = env.declare ds ∧
      ∀ d ∈ ds, ∀ x ∈ d.ty.rigidVars, x ∈ st.context.annotated := by
  induction ds generalizing env st with
  | nil =>
    cases h
    exact ⟨.refl _, rfl, by simp⟩
  | cons d ds ih =>
    obtain ⟨_, st₁, hcheck, h⟩ := EStateM.ok_of_bind h
    obtain ⟨hext, hnames⟩ := ElaborationM.checkClosed_spec hcheck
    obtain ⟨hext', henv, hothers⟩ := ih h
    refine ⟨hext.trans hext', henv, List.forall_mem_cons.2 ⟨hnames, fun d hd x hx => ?_⟩⟩
    exact hext.annotated ▸ hothers d hd x hx

theorem inferProps_sound {typed : List TypedDeclaration} (hΓ : Γ.Ready U st)
    (hs : Solving U st s U₁ st₁) (h : inferProps Γ.env s ds st₁ = .ok (typed, s₁) st₂) :
    typed.map (fun d => (d.sort, d.names, d.ty)) = ds.map (fun d => (d.sort, d.names, d.ty)) ∧
      ∃ U₂, Solving U st s₁ U₂ st₂ ∧ ∀ S : Subst, S.Absorbs s₁ → S.Absorbs s ∧
        ∀ d ∈ typed, ∀ e ∈ d.prop, HasTy (Γ.subst S) (e.substTy S) .bool := by
  induction ds generalizing s U₁ st₁ typed with
  | nil =>
    cases h
    exact ⟨rfl, U₁, hs, fun S hS => ⟨hS, by simp⟩⟩
  | cons d ds ih =>
    obtain ⟨⟨prop, s₂⟩, st₃, h₁, h⟩ := EStateM.ok_of_bind h
    obtain ⟨⟨others, s₃⟩, st₄, h₂, h⟩ := EStateM.ok_of_bind h
    cases h
    obtain ⟨U₂, hs₂, hprop⟩ := Expr.expectOption_after hΓ hs Ty.over_bool h₁
    obtain ⟨hheads, U₃, hs₃, hothers⟩ := ih (hs.compose hs₂) h₂
    refine ⟨by simp [hheads], U₃, hs₃, fun S hS => ?_⟩
    obtain ⟨hS₂, hothers⟩ := hothers S hS
    have hS₀ := hs.absorbs hs₂ hS₂
    exact ⟨hS₀, List.forall_mem_cons.2 ⟨hprop S hS₀ hS₂.later, hothers⟩⟩

end Declaration

namespace Stmt

variable {b : Program} {ts : List SourceStmt} {xs : List Name} {cs : List SourceCmd}

theorem state_of_checkBlock {env : TypeEnv} (h : checkBlock env b st = .ok () st') : st = st' := by
  unfold checkBlock at h
  cases hdefns : b.defns with
  | cons d ds =>
    rw [hdefns] at h
    cases h
  | nil =>
    rw [hdefns] at h
    dsimp only at h
    cases hfind : (b.decls.flatMap (·.names)).find? fun x => env.contains x.text with
    | some x =>
      rw [hfind] at h
      cases h
    | none =>
      rw [hfind] at h
      exact (EStateM.ok_of_ofExcept h).2

/-! ## The rules -/

mutual

def declaredTypes : SourceStmt → List Ty
  | .loop cmds _ | .cond cmds _ => cmdsTypes cmds
  | .block b _ => b.decls.map (·.ty) ++ listTypes b.stmts
  | .skip _ | .abort _ | .assign .. | .arrayAssign .. | .assert .. | .invariant .. | .hole ..
  | .alloc .. | .lookup .. | .mutate .. | .dispose .. => []

def cmdsTypes : List SourceCmd → List Ty
  | [] => []
  | c :: cs => listTypes c.body ++ cmdsTypes cs

def listTypes : List SourceStmt → List Ty
  | [] => []
  | t :: ts => t.declaredTypes ++ listTypes ts

end

def Sound (D : Set String) (t : SourceStmt) : Prop :=
  (∀ u ∈ t.declaredTypes, u.Plain D) →
    ∀ {Γ : Scope} {U : Set String} {st : ElaborationState} {typed : TypedStmt} {s : Subst}
      {st' : ElaborationState}, Γ.Settled D U st → infer Γ.env t st = .ok (typed, s) st' →
        ∃ U', Solving U st s U' st' ∧ ∀ S : Subst, S.Absorbs s → Γ.FixedBy S →
          (typed.substTy S).WellTyped (Γ.subst S)

def ListSound (D : Set String) (ts : List SourceStmt) : Prop :=
  (∀ u ∈ listTypes ts, u.Plain D) →
    ∀ {Γ : Scope} {U U₁ : Set String} {st st₁ st₂ : ElaborationState} {typed : List TypedStmt}
      {s s' : Subst}, Γ.Settled D U st → Solving U st s U₁ st₁ →
        inferList Γ.env s ts st₁ = .ok (typed, s') st₂ →
          ∃ U₂, Solving U st s' U₂ st₂ ∧ ∀ S : Subst, S.Absorbs s' → Γ.FixedBy S → S.Absorbs s ∧
            ListTyped (Γ.subst S) (substTyList S typed)

def CmdsSound (D : Set String) (cs : List SourceCmd) : Prop :=
  (∀ u ∈ cmdsTypes cs, u.Plain D) →
    ∀ {Γ : Scope} {U U₁ : Set String} {st st₁ st₂ : ElaborationState} {typed : List TypedCmd}
      {s s' : Subst}, Γ.Settled D U st → Solving U st s U₁ st₁ →
        inferCmds Γ.env s cs st₁ = .ok (typed, s') st₂ →
          ∃ U₂, Solving U st s' U₂ st₂ ∧ ∀ S : Subst, S.Absorbs s' → Γ.FixedBy S → S.Absorbs s ∧
            CmdsTyped (Γ.subst S) (substTyCmds S typed)

theorem Sound.after {t : SourceStmt} {typed : TypedStmt} (ht : t.Sound D)
    (htypes : ∀ u ∈ t.declaredTypes, u.Plain D) (hΓ : Γ.Settled D U st)
    (hs : Solving U st s U₁ st₁) (h : infer (Γ.env.subst s) t st₁ = .ok (typed, s₁) st₂) :
    ∃ U₂, Solving U₁ st₁ s₁ U₂ st₂ ∧ ∀ S : Subst, S.Absorbs s → S.Absorbs s₁ → Γ.FixedBy S →
      (typed.substTy S).WellTyped (Γ.subst S) := by
  rw [← hΓ.env_subst hs] at h
  obtain ⟨U₂, hs₁, htyped⟩ := ht htypes (hΓ.after hs) h
  refine ⟨U₂, hs₁, fun S hS hS₁ hfixed => ?_⟩
  have htyped := htyped S hS₁ hfixed
  rwa [Scope.subst_subst hS] at htyped

theorem ListSound.after {typed : List TypedStmt} (hts : ListSound D ts)
    (htypes : ∀ u ∈ listTypes ts, u.Plain D) (hΓ : Γ.Settled D U st) (hs : Solving U st s U₁ st₁)
    (h : inferList (Γ.env.subst s) ∅ ts st₁ = .ok (typed, s₁) st₂) :
    ∃ U₂, Solving U₁ st₁ s₁ U₂ st₂ ∧ ∀ S : Subst, S.Absorbs s → S.Absorbs s₁ → Γ.FixedBy S →
      ListTyped (Γ.subst S) (substTyList S typed) := by
  rw [← hΓ.env_subst hs] at h
  obtain ⟨U₂, hs₁, htyped⟩ := hts htypes (hΓ.after hs) (.of_maps (.empty U₁) hs.finish) h
  refine ⟨U₂, hs₁, fun S hS hS₁ hfixed => ?_⟩
  have htyped := (htyped S hS₁ hfixed).2
  rwa [Scope.subst_subst hS] at htyped

theorem sound_skip (loc : Loc) : (skip loc : SourceStmt).Sound D := by
  intro _ Γ U st typed s st' hΓ h
  rw [infer] at h
  cases h
  refine ⟨U, .of_maps (.empty U) hΓ.known, fun S hS _ => ?_⟩
  rw [substTy]
  exact .skip

theorem sound_abort (loc : Loc) : (abort loc : SourceStmt).Sound D := by
  intro _ Γ U st typed s st' hΓ h
  rw [infer] at h
  cases h
  refine ⟨U, .of_maps (.empty U) hΓ.known, fun S hS _ => ?_⟩
  rw [substTy]
  exact .abort

theorem sound_hole (text : String) (loc : Loc) : (hole text () loc : SourceStmt).Sound D := by
  intro _ Γ U st typed s st' hΓ h
  rw [infer] at h
  cases h
  refine ⟨U, .of_maps (.empty U) hΓ.known, fun S hS hfixed => ?_⟩
  rw [substTy, hfixed.env_subst]
  exact .hole

theorem forall₂_of_zip {A : Name → Ty → Prop} {B : Ty → TypedExpr → Prop} {ts : List Ty}
    {es : List Expr} {typed : List TypedExpr} (h : List.Forall₂ A xs ts)
    (hlength : ts.length = es.length) (h' : List.Forall₂ (fun p e => B p.1 e) (ts.zip es) typed) :
    List.Forall₂ (fun x e => ∃ t, A x t ∧ B t e) xs typed := by
  induction h generalizing es typed with
  | nil =>
    cases h'
    exact .nil
  | cons hx _ ih =>
    cases es with
    | nil => simp at hlength
    | cons e es =>
      cases h' with
      | cons he hes => exact .cons ⟨_, hx, he⟩ (ih (by simpa using hlength) hes)

theorem mapM_mutableTy_spec {ts : List Ty} (hΓ : Γ.Ready U st)
    (h : xs.mapM Γ.env.mutableTy st = .ok ts st') :
    st = st' ∧ List.Forall₂
      (fun x t => t.Over U ∧ ∀ S : Subst, (Γ.subst S).Assignable x (t.subst S)) xs ts := by
  induction xs generalizing ts with
  | nil =>
    cases h
    exact ⟨rfl, .nil⟩
  | cons x xs ih =>
    rw [List.mapM_cons] at h
    obtain ⟨t, st₁, ht, h⟩ := EStateM.ok_of_bind h
    obtain ⟨ts', st₂, hts, h⟩ := EStateM.ok_of_bind h
    cases h
    obtain ⟨rfl, hx⟩ := TypeEnv.mutableTy_spec hΓ ht
    obtain ⟨rfl, hxs⟩ := ih hts
    exact ⟨rfl, .cons hx hxs⟩

theorem sound_assign (xs : List Name) (es : List Expr) (loc : Loc) :
    (assign xs es loc : SourceStmt).Sound D := by
  intro _ Γ U st typed s st' hΓ h
  rw [infer] at h
  obtain ⟨ts, st₁, hts, h⟩ := EStateM.ok_of_bind h
  obtain ⟨rfl, htargets⟩ := mapM_mutableTy_spec hΓ.toReady hts
  dsimp only at h
  split at h
  · obtain ⟨_, _, hthrow, -⟩ := EStateM.ok_of_bind h
    cases hthrow
  · split at h
    · obtain ⟨_, _, hthrow, -⟩ := EStateM.ok_of_bind h
      cases hthrow
    · next hnames hexprs =>
      obtain ⟨⟨es', s₁⟩, st₂, hes, h⟩ := EStateM.ok_of_bind h
      cases h
      have hstart : Solving U st ∅ U st := .of_maps (.empty U) hΓ.known
      have hover : ∀ e ∈ ts.zip es, e.1.Over U := fun e he =>
        forall_mem_of_forall₂ htargets (fun _ _ h => h.1) _ (List.of_mem_zip he).1
      obtain ⟨U', hs, htyped⟩ := Expr.expectEach_sound hΓ.toReady hstart hover hes
      refine ⟨U', hs, fun S hS _ => ?_⟩
      have hlength : ts.length = es.length := by
        have := htargets.length_eq
        omega
      have hassign := forall₂_of_zip (A := fun x t => (Γ.subst S).Assignable x (t.subst S))
        (B := fun t e => HasTy (Γ.subst S) (e.substTy S) (t.subst S))
        (htargets.imp fun _ _ h => h.2 S) hlength (htyped S hS).2
      rw [substTy]
      refine .assign (List.forall₂_map_right_iff.2 (hassign.imp fun x e he => ?_))
      obtain ⟨t, hx, he⟩ := he
      exact ⟨t.subst S, hx, he⟩

theorem sound_arrayAssign (a i v : Expr) (loc : Loc) :
    (arrayAssign a i v loc : SourceStmt).Sound D := by
  intro _ Γ U st typed s st' hΓ h
  rw [infer] at h
  unfold inferArrayAssign at h
  have hvar : ∀ x, a.asName? = some x → ∀ S : Subst, ∃ t, (Γ.subst S).Assignable x t := by
    intro x hx S
    rw [hx] at h
    obtain ⟨_, st₁, htarget, -⟩ := EStateM.ok_of_bind h
    obtain ⟨t, st₂, ht, -⟩ := EStateM.ok_of_bind htarget
    exact ⟨_, (TypeEnv.mutableTy_spec hΓ.toReady ht).2.2 S⟩
  -- the target is looked up first if it is a name, and nothing else depends on that
  cases hname : a.asName?
  all_goals rw [hname] at h
  on_goal 2 =>
    obtain ⟨_, st₀, htarget, h⟩ := EStateM.ok_of_bind h
    obtain ⟨t, st₁, ht, htarget⟩ := EStateM.ok_of_bind htarget
    cases htarget
    obtain ⟨rfl, -⟩ := TypeEnv.mutableTy_spec hΓ.toReady ht
  all_goals
    obtain ⟨⟨a', s₁⟩, st₁, h₁, h⟩ := EStateM.ok_of_bind h
    obtain ⟨⟨i', s₂⟩, st₂, h₂, h⟩ := EStateM.ok_of_bind h
    obtain ⟨⟨v', s₃⟩, st₃, h₃, h⟩ := EStateM.ok_of_bind h
    obtain ⟨s₄, st₄, h₄, h⟩ := EStateM.ok_of_bind h
    cases h
    obtain ⟨U', hs, -, htyped⟩ := Expr.update_spec (Expr.infer_sound a) (Expr.infer_sound i)
      (Expr.infer_sound v) hΓ.toReady h₁ h₂ h₃ h₄
    refine ⟨U', hs, fun S hS _ => ?_⟩
    obtain ⟨ha, hi, hv, harray⟩ := htyped S hS
    have herase : a'.erase = a := Expr.infer_erase _ a _ _ _ h₁
    rw [substTy]
    refine .arrayAssign (fun x hx => hvar x ?_ S) ha hi hv harray
    rwa [TypedExpr.erase_substTy, herase] at hx

theorem sound_assert (e : Expr) (loc : Loc) : (assert e loc : SourceStmt).Sound D := by
  intro _ Γ U st typed s st' hΓ h
  rw [infer] at h
  obtain ⟨⟨e', s₁⟩, st₁, h₁, h⟩ := EStateM.ok_of_bind h
  cases h
  obtain ⟨U', hs, htyped⟩ := Expr.expect_sound hΓ.toReady Ty.over_bool h₁
  refine ⟨U', hs, fun S hS _ => ?_⟩
  rw [substTy]
  exact .assert (htyped S hS)

theorem sound_invariant (inv : Expr) (bound : Option Expr) (loc : Loc) :
    (invariant inv bound loc : SourceStmt).Sound D := by
  intro _ Γ U st typed s st' hΓ h
  rw [infer] at h
  obtain ⟨⟨inv', s₁⟩, st₁, h₁, h⟩ := EStateM.ok_of_bind h
  obtain ⟨⟨bound', s₂⟩, st₂, h₂, h⟩ := EStateM.ok_of_bind h
  cases h
  obtain ⟨U₁, hs₁, hinv⟩ := Expr.expect_sound hΓ.toReady Ty.over_bool h₁
  obtain ⟨U₂, hs₂, hbound⟩ := Expr.expectOption_after hΓ.toReady hs₁ Ty.over_int h₂
  refine ⟨U₂, hs₁.compose hs₂, fun S hS _ => ?_⟩
  have hS₁ := hs₁.absorbs hs₂ hS
  rw [substTy]
  refine .invariant (hinv S hS₁) fun b hb => ?_
  obtain ⟨b', hb', rfl⟩ := Option.mem_map.1 hb
  exact hbound S hS₁ hS.later b' hb'

theorem sound_alloc (x : Name) (es : List Expr) (loc : Loc) :
    (alloc x es loc : SourceStmt).Sound D := by
  intro _ Γ U st typed s st' hΓ h
  rw [infer] at h
  obtain ⟨s₁, st₁, h₁, h⟩ := EStateM.ok_of_bind h
  obtain ⟨⟨es', s₂⟩, st₂, h₂, h⟩ := EStateM.ok_of_bind h
  cases h
  obtain ⟨U₁, hs₁, hcell⟩ := TypeEnv.expectCell_spec hΓ.toReady h₁
  obtain ⟨U₂, hs₂, hes⟩ := Expr.expectAll_after hΓ.toReady hs₁ Ty.over_int h₂
  refine ⟨U₂, hs₁.compose hs₂, fun S hS _ => ?_⟩
  have hS₁ := hs₁.absorbs hs₂ hS
  obtain ⟨t, hx, ht⟩ := hcell S hS₁
  rw [substTy]
  refine .alloc hx ht fun e he => ?_
  obtain ⟨e', he', rfl⟩ := List.mem_map.1 he
  exact hes S hS₁ hS.later e' he'

theorem sound_lookup (x : Name) (e : Expr) (loc : Loc) :
    (lookup x e loc : SourceStmt).Sound D := by
  intro _ Γ U st typed s st' hΓ h
  rw [infer] at h
  obtain ⟨s₁, st₁, h₁, h⟩ := EStateM.ok_of_bind h
  obtain ⟨⟨e', s₂⟩, st₂, h₂, h⟩ := EStateM.ok_of_bind h
  cases h
  obtain ⟨U₁, hs₁, hcell⟩ := TypeEnv.expectCell_spec hΓ.toReady h₁
  obtain ⟨U₂, hs₂, he⟩ := Expr.expect_after hΓ.toReady hs₁ Ty.over_int h₂
  refine ⟨U₂, hs₁.compose hs₂, fun S hS _ => ?_⟩
  have hS₁ := hs₁.absorbs hs₂ hS
  obtain ⟨t, hx, ht⟩ := hcell S hS₁
  rw [substTy]
  exact .lookup hx ht (he S hS₁ hS.later)

theorem sound_mutate (c v : Expr) (loc : Loc) : (mutate c v loc : SourceStmt).Sound D := by
  intro _ Γ U st typed s st' hΓ h
  rw [infer] at h
  obtain ⟨⟨c', s₁⟩, st₁, h₁, h⟩ := EStateM.ok_of_bind h
  obtain ⟨⟨v', s₂⟩, st₂, h₂, h⟩ := EStateM.ok_of_bind h
  cases h
  obtain ⟨U₁, hs₁, hc⟩ := Expr.expect_sound hΓ.toReady Ty.over_int h₁
  obtain ⟨U₂, hs₂, hv⟩ := Expr.expect_after hΓ.toReady hs₁ Ty.over_int h₂
  refine ⟨U₂, hs₁.compose hs₂, fun S hS _ => ?_⟩
  have hS₁ := hs₁.absorbs hs₂ hS
  rw [substTy]
  exact .mutate (hc S hS₁) (hv S hS₁ hS.later)

theorem sound_dispose (e : Expr) (loc : Loc) : (dispose e loc : SourceStmt).Sound D := by
  intro _ Γ U st typed s st' hΓ h
  rw [infer] at h
  obtain ⟨⟨e', s₁⟩, st₁, h₁, h⟩ := EStateM.ok_of_bind h
  cases h
  obtain ⟨U', hs, htyped⟩ := Expr.expect_sound hΓ.toReady Ty.over_int h₁
  refine ⟨U', hs, fun S hS _ => ?_⟩
  rw [substTy]
  exact .dispose (htyped S hS)

theorem sound_loop (hcs : CmdsSound D cs) (loc : Loc) : (loop cs loc : SourceStmt).Sound D := by
  intro htypes Γ U st typed s st' hΓ h
  rw [declaredTypes] at htypes
  rw [infer] at h
  obtain ⟨⟨cs', s₁⟩, st₁, h₁, h⟩ := EStateM.ok_of_bind h
  cases h
  obtain ⟨U', hs, htyped⟩ := hcs htypes hΓ (.of_maps (.empty U) hΓ.known) h₁
  refine ⟨U', hs, fun S hS hfixed => ?_⟩
  rw [substTy]
  exact .loop (htyped S hS hfixed).2

theorem sound_cond (hcs : CmdsSound D cs) (loc : Loc) : (cond cs loc : SourceStmt).Sound D := by
  intro htypes Γ U st typed s st' hΓ h
  rw [declaredTypes] at htypes
  rw [infer] at h
  obtain ⟨⟨cs', s₁⟩, st₁, h₁, h⟩ := EStateM.ok_of_bind h
  cases h
  obtain ⟨U', hs, htyped⟩ := hcs htypes hΓ (.of_maps (.empty U) hΓ.known) h₁
  refine ⟨U', hs, fun S hS hfixed => ?_⟩
  rw [substTy]
  exact .cond (htyped S hS hfixed).2

theorem sound_block (hstmts : ListSound D b.stmts) (loc : Loc) :
    (block b loc : SourceStmt).Sound D := by
  intro htypes Γ U st typed s st' hΓ h
  rw [declaredTypes] at htypes
  obtain ⟨hdecls, hlist⟩ := List.forall_mem_append.1 htypes
  rw [infer] at h
  obtain ⟨_, st₀, h₀, h⟩ := EStateM.ok_of_bind h
  obtain ⟨env, st₁, h₁, h⟩ := EStateM.ok_of_bind h
  obtain ⟨⟨decls, s₁⟩, st₂, h₂, h⟩ := EStateM.ok_of_bind h
  obtain ⟨⟨props, s₂⟩, st₃, h₃, h⟩ := EStateM.ok_of_bind h
  obtain ⟨⟨stmts, s₃⟩, st₄, h₄, h⟩ := EStateM.ok_of_bind h
  cases h
  cases state_of_checkBlock h₀
  obtain ⟨hext, henv, hnames⟩ := Declaration.declareAll_spec h₁
  rw [← Scope.env_declare] at henv
  subst henv
  have hground : ∀ d ∈ b.decls, d.ty.Over ∅ := fun d hd =>
    (hdecls _ (List.mem_map_of_mem hd)).over_empty hΓ.typeNames (hnames d hd)
  have hinner : (Γ.declare b.decls).Settled D
      (U ∪ issued st.supply.issued st₁.supply.issued) st₁ :=
    { toReady := (hΓ.toReady.declare hground).extend hext
      typeNames := hext.annotated ▸ hΓ.typeNames }
  obtain ⟨hheads, U₁, hs₁, hprop⟩ :=
    Declaration.inferProps_sound hinner.toReady (.of_maps (.empty _) hinner.known) h₂
  obtain ⟨U₂, hs₂, hprops⟩ := Expr.expectAll_after hinner.toReady hs₁ Ty.over_bool h₃
  have hs₁₂ := hs₁.compose hs₂
  obtain ⟨U₃, hs₃, htyped⟩ := hstmts.after hlist hinner hs₁₂ h₄
  refine ⟨U₃, .after_extends hext hΓ.known (hs₁₂.compose hs₃), fun S hS hfixed => ?_⟩
  have hS₁₂ := hs₁₂.absorbs hs₃ hS
  have hS₁ := hs₁.absorbs hs₂ hS₁₂
  have hscope : (Γ.subst S).declare (decls.map (·.substTy S)) = (Γ.declare b.decls).subst S := by
    rw [Scope.subst_declare hground]
    refine congrArg (Scope.mk _) (TypeEnv.declare_congr ?_ _)
    rw [← hheads, List.map_map]
    rfl
  rw [substTy]
  refine .block rfl ?_ ?_ ?_
  · intro d hd e he
    obtain ⟨d', hd', rfl⟩ := List.mem_map.1 hd
    obtain ⟨e', he', rfl⟩ := Option.mem_map.1 he
    rw [hscope]
    exact (hprop S hS₁).2 d' hd' e' he'
  · intro e he
    obtain ⟨e', he', rfl⟩ := List.mem_map.1 he
    rw [hscope]
    exact hprops S hS₁ hS₁₂.later e' he'
  · rw [hscope]
    exact htyped S hS₁₂ hS.later hfixed

theorem cmdsSound_nil : CmdsSound D [] := by
  intro _ Γ U U₁ st st₁ st₂ typed s s' hΓ hs h
  rw [inferCmds] at h
  cases h
  refine ⟨U₁, hs, fun S hS _ => ⟨hS, ?_⟩⟩
  rw [substTyCmds]
  exact .nil

theorem cmdsSound_cons {c : SourceCmd} (hbody : ListSound D c.body) (hcs : CmdsSound D cs) :
    CmdsSound D (c :: cs) := by
  intro htypes Γ U U₁ st st₁ st₂ typed s s' hΓ hs h
  rw [cmdsTypes] at htypes
  obtain ⟨hbodytypes, hothertypes⟩ := List.forall_mem_append.1 htypes
  rw [inferCmds] at h
  obtain ⟨⟨guard, s₁⟩, st₃, h₁, h⟩ := EStateM.ok_of_bind h
  obtain ⟨⟨body, s₂⟩, st₄, h₂, h⟩ := EStateM.ok_of_bind h
  obtain ⟨⟨others, s₃⟩, st₅, h₃, h⟩ := EStateM.ok_of_bind h
  cases h
  obtain ⟨U₂, hs₁, hguard⟩ := Expr.expect_after hΓ.toReady hs Ty.over_bool h₁
  rw [← hΓ.env_subst hs] at h₂
  obtain ⟨U₃, hs₂, hbody'⟩ := hbody.after hbodytypes (hΓ.after hs) hs₁ h₂
  have hs₁₂ := hs₁.compose hs₂
  obtain ⟨U₄, hs₃, hothers⟩ := hcs hothertypes hΓ (hs.compose hs₁₂) h₃
  refine ⟨U₄, hs₃, fun S hS hfixed => ?_⟩
  obtain ⟨hS₂, hothers⟩ := hothers S hS hfixed
  have hS₀ := hs.absorbs hs₁₂ hS₂
  have hS₁ := hs₁.absorbs hs₂ hS₂.later
  have hbody' := hbody' S hS₁ hS₂.later.later hfixed
  rw [Scope.subst_subst hS₀] at hbody'
  refine ⟨hS₀, ?_⟩
  rw [substTyCmds]
  exact .cons (hguard S hS₀ hS₁) hbody' hothers

theorem listSound_nil : ListSound D [] := by
  intro _ Γ U U₁ st st₁ st₂ typed s s' hΓ hs h
  rw [inferList] at h
  cases h
  refine ⟨U₁, hs, fun S hS _ => ⟨hS, ?_⟩⟩
  rw [substTyList]
  exact .nil

theorem listSound_cons {t : SourceStmt} (ht : t.Sound D) (hts : ListSound D ts) :
    ListSound D (t :: ts) := by
  intro htypes Γ U U₁ st st₁ st₂ typed s s' hΓ hs h
  rw [listTypes] at htypes
  obtain ⟨htype, hothertypes⟩ := List.forall_mem_append.1 htypes
  rw [inferList] at h
  obtain ⟨⟨t', s₁⟩, st₃, h₁, h⟩ := EStateM.ok_of_bind h
  obtain ⟨⟨others, s₂⟩, st₄, h₂, h⟩ := EStateM.ok_of_bind h
  cases h
  obtain ⟨U₂, hs₁, ht'⟩ := ht.after htype hΓ hs h₁
  obtain ⟨U₃, hs₂, hothers⟩ := hts hothertypes hΓ (hs.compose hs₁) h₂
  refine ⟨U₃, hs₂, fun S hS hfixed => ?_⟩
  obtain ⟨hS₁, hothers⟩ := hothers S hS hfixed
  have hS₀ := hs.absorbs hs₁ hS₁
  refine ⟨hS₀, ?_⟩
  rw [substTyList]
  exact .cons (ht' S hS₀ hS₁.later hfixed) hothers

mutual

theorem infer_sound (D : Set String) : (t : SourceStmt) → t.Sound D
  | .skip loc => sound_skip loc
  | .abort loc => sound_abort loc
  | .assign xs es loc => sound_assign xs es loc
  | .arrayAssign a i v loc => sound_arrayAssign a i v loc
  | .assert e loc => sound_assert e loc
  | .invariant inv bound loc => sound_invariant inv bound loc
  | .loop cs loc => sound_loop (inferCmds_sound D cs) loc
  | .cond cs loc => sound_cond (inferCmds_sound D cs) loc
  | .hole text () loc => sound_hole text loc
  | .alloc x es loc => sound_alloc x es loc
  | .lookup x e loc => sound_lookup x e loc
  | .mutate c v loc => sound_mutate c v loc
  | .dispose e loc => sound_dispose e loc
  | .block b loc => sound_block (inferList_sound D b.stmts) loc

theorem inferCmds_sound (D : Set String) : (cs : List SourceCmd) → CmdsSound D cs
  | [] => cmdsSound_nil
  | c :: cs => cmdsSound_cons (inferList_sound D c.body) (inferCmds_sound D cs)

theorem inferList_sound (D : Set String) : (ts : List SourceStmt) → ListSound D ts
  | [] => listSound_nil
  | t :: ts => listSound_cons (infer_sound D t) (inferList_sound D ts)

end

end Stmt

end GuardedCommands
