import GuardedCommands.Proofs.RecordedKinds

/-!
# Kinds of written types

Elaboration looks at the kinds of a program only where types are written.  Inference
of types takes names from the supply and leaves the context of kinds alone, so every
check finds the context with the recorded kinds.  A program that has been elaborated
has therefore types of values wherever it has types.
-/

namespace GuardedCommands

open ElaborationM

open Ty (HasKind)

/-- A computation that keeps the recorded kinds, and gives a result only if `Q` holds. -/
structure Checks (κ : Kinding) {α : Type} (m : ElaborationM α) (Q : Prop) : Prop where
  of_ok : ∀ {st a st'}, st.Records κ → m st = .ok a st' → st'.Records κ ∧ Q

namespace Checks

variable {κ : Kinding} {α β : Type} {m : ElaborationM α} {f : α → ElaborationM β} {P Q : Prop}

theorem bind (hm : Checks κ m P) (hf : ∀ a, P → Checks κ (f a) Q) : Checks κ (m >>= f) Q := by
  constructor
  intro st b st' hst h
  obtain ⟨a, st₁, hms, hfs⟩ := EStateM.ok_of_bind h
  obtain ⟨hst₁, hP⟩ := hm.of_ok hst hms
  exact (hf a hP).of_ok hst₁ hfs

theorem imp (hm : Checks κ m P) (h : P → Q) : Checks κ m Q :=
  ⟨fun hst hms => (hm.of_ok hst hms).imp_right h⟩

theorem pure {a : α} (h : Q) : Checks κ (Pure.pure a : ElaborationM α) Q := by
  constructor
  intro st b st' hst hs
  cases hs
  exact ⟨hst, h⟩

theorem throw {e : ElaborationError} : Checks κ (MonadExcept.throw e : ElaborationM α) Q := by
  constructor
  intro st b st' _ hs
  cases hs

theorem of_supply (h : ∀ st a st', m st = .ok a st' →
    st'.context = st.context ∧ st.supply.issued ≤ st'.supply.issued) : Checks κ m True := by
  constructor
  intro st a st' hst hs
  obtain ⟨hcontext, hsupply⟩ := h st a st' hs
  exact ⟨hst.of_supply hcontext hsupply, trivial⟩

theorem ofExcept (x : Except ElaborationError α) :
    Checks κ (MonadExcept.ofExcept x : ElaborationM α) True := by
  refine .of_supply fun st a st' hs => ?_
  obtain ⟨-, rfl⟩ := EStateM.ok_of_ofExcept hs
  exact ⟨rfl, le_rfl⟩

theorem fresh (hint : String) : Checks κ (ElaborationM.fresh hint) True := by
  refine .of_supply fun st a st' hs => ?_
  cases hs
  exact ⟨rfl, Nat.le_succ _⟩

theorem mapM {γ : Type} {g : γ → ElaborationM α} (hg : ∀ c, Checks κ (g c) True) (cs : List γ) :
    Checks κ (cs.mapM g) True := by
  induction cs with
  | nil => exact .pure trivial
  | cons c cs ih =>
    rw [List.mapM_cons]
    exact (hg c).bind fun _ _ => ih.bind fun _ _ => .pure trivial

theorem forM {γ : Type} {g : γ → ElaborationM PUnit} {R : γ → Prop}
    (hg : ∀ c, Checks κ (g c) (R c)) (cs : List γ) : Checks κ (cs.forM g) (∀ c ∈ cs, R c) := by
  induction cs with
  | nil => exact .pure (by simp)
  | cons c cs ih =>
    exact (hg c).bind fun _ hc => ih.imp fun hcs => List.forall_mem_cons.2 ⟨hc, hcs⟩

end Checks

/-! ## Inference of types -/

section Inference

variable {κ : Kinding}

namespace ElaborationM

theorem checks_unify (t u : Ty) (loc : Loc) : Checks κ (unify t u loc) True := .ofExcept _

theorem checks_freshMeta : Checks κ freshMeta True :=
  (Checks.fresh "t").bind fun _ _ => .pure trivial

theorem checks_chainOpTy (o : ChainOp) : Checks κ (chainOpTy o) True := by
  refine .of_supply fun st t st' hs => ?_
  cases o <;> cases hs <;> exact ⟨rfl, by simp [Supply.advance]⟩

theorem checks_freshMetas (names : List String) : Checks κ (freshMetas names) True :=
  .mapM (fun _ => checks_freshMeta.bind fun _ _ => .pure trivial) names

theorem checks_instantiate (x : String) (t : Ty) : Checks κ (instantiate x t) True := by
  have hget : Checks κ (get : ElaborationM ElaborationState) True := by
    refine .of_supply fun st a st' hs => ?_
    cases hs
    exact ⟨rfl, le_rfl⟩
  refine hget.bind fun st _ => ?_
  split
  · exact .pure trivial
  · exact (checks_freshMetas _).bind fun _ _ => .pure trivial

theorem checks_generalize (env : TypeEnv) (t : Ty) : Checks κ (generalize env t) True :=
  (Checks.mapM (fun _ => (Checks.fresh "a").bind fun _ _ => .pure trivial) _).bind
    fun _ _ => .pure trivial

end ElaborationM

namespace Expr

theorem checks_nameTy (env : TypeEnv) (x : Name) (loc : Loc) :
    Checks κ (nameTy env x loc) True := by
  unfold nameTy
  split
  · exact checks_instantiate _ _
  · exact .throw

theorem checks_resultOf (f a : Ty) (loc : Loc) : Checks κ (resultOf f a loc) True :=
  checks_freshMeta.bind fun _ _ => (checks_unify ..).bind fun _ _ => .pure trivial

theorem checks_bindAll (env : TypeEnv) (xs : List Name) : Checks κ (bindAll env xs) True := by
  induction xs generalizing env with
  | nil => exact .pure trivial
  | cons x xs ih =>
    exact checks_freshMeta.bind fun _ _ => (ih _).bind fun _ _ => .pure trivial

mutual

theorem checks_infer (env : TypeEnv) : (e : Expr) → Checks κ (e.infer env) True
  | .lit l loc => by
    rw [infer]
    exact .pure trivial
  | .var x loc | .const x loc => by
    rw [infer]
    exact (checks_nameTy env x loc).bind fun _ _ => .pure trivial
  | .op (.arith o) loc => by
    rw [infer]
    exact .pure trivial
  | .op (.chain o) loc => by
    rw [infer]
    exact (checks_chainOpTy o).bind fun _ _ => .pure trivial
  | .chain head links loc => by
    rw [infer]
    exact (checks_infer env head).bind fun _ _ =>
      (checks_inferLinks env loc _ _ links).bind fun _ _ => .pure trivial
  | .app f a loc | .index f a loc => by
    rw [infer]
    exact (checks_infer env f).bind fun _ _ => (checks_infer _ a).bind fun _ _ =>
      (checks_resultOf ..).bind fun _ _ => .pure trivial
  | .lam x body loc => by
    rw [infer]
    exact checks_freshMeta.bind fun _ _ => (checks_infer _ body).bind fun _ _ => .pure trivial
  | .quant q xs range body loc => by
    rw [infer]
    refine (checks_bindAll env xs).bind fun _ _ => (checks_infer _ range).bind fun _ _ =>
      (checks_unify ..).bind fun _ _ => (checks_infer _ body).bind fun _ _ =>
        (checks_infer _ q).bind fun _ _ => ?_
    dsimp only
    split
    · exact (checks_unify ..).bind fun _ _ => .pure trivial
    · exact checks_freshMeta.bind fun _ _ => (checks_unify ..).bind fun _ _ =>
        (checks_unify ..).bind fun _ _ => .pure trivial
  | .update a i v loc => by
    rw [infer]
    exact (checks_infer env a).bind fun _ _ => (checks_infer _ i).bind fun _ _ =>
      (checks_infer _ v).bind fun _ _ => (checks_unify ..).bind fun _ _ => .pure trivial
  | .tuple es loc | .caseOf e cs loc => by
    rw [infer]
    exact .throw

theorem checks_inferLinks (env : TypeEnv) (loc : Loc) (prev : Ty) (s : Ty.Subst) :
    (links : List (ChainLink Expr)) → Checks κ (inferLinks env loc prev s links) True
  | [] => by
    rw [inferLinks]
    exact .pure trivial
  | link :: rest => by
    rw [inferLinks]
    exact (checks_infer _ link.rhs).bind fun _ _ => (checks_chainOpTy _).bind fun _ _ =>
      checks_freshMeta.bind fun _ _ => (checks_unify ..).bind fun _ _ =>
        (checks_unify ..).bind fun _ _ => (checks_inferLinks env loc _ _ rest).bind
          fun _ _ => .pure trivial

end

theorem checks_expect (env : TypeEnv) (t : Ty) (e : Expr) : Checks κ (e.expect env t) True :=
  (checks_infer env e).bind fun _ _ => (checks_unify ..).bind fun _ _ => .pure trivial

theorem checks_expectEach (env : TypeEnv) (s : Ty.Subst) (es : List (Ty × Expr)) :
    Checks κ (expectEach env s es) True := by
  induction es generalizing s with
  | nil => exact .pure trivial
  | cons e es ih => exact (checks_expect ..).bind fun _ _ => (ih _).bind fun _ _ => .pure trivial

theorem checks_expectAll (env : TypeEnv) (t : Ty) (es : List Expr) :
    Checks κ (expectAll env t es) True :=
  checks_expectEach ..

theorem checks_expectOption (env : TypeEnv) (t : Ty) (e : Option Expr) :
    Checks κ (expectOption env t e) True := by
  cases e with
  | none => exact .pure trivial
  | some e => exact (checks_expect env t e).bind fun _ _ => .pure trivial

end Expr

end Inference

/-! ## Declarations and statements -/

section Statements

variable {κ : Kinding}

theorem TypeEnv.checks_mutableTy (env : TypeEnv) (x : Name) : Checks κ (env.mutableTy x) True := by
  unfold mutableTy
  split
  · exact .throw
  · split
    · exact .pure trivial
    · exact .throw

theorem TypeEnv.checks_expectCell (env : TypeEnv) (x : Name) (loc : Loc) :
    Checks κ (env.expectCell x loc) True :=
  (checks_mutableTy env x).bind fun _ _ => checks_unify ..

namespace Declaration

theorem checks_declareAll (env : TypeEnv) (ds : List (Declaration Expr)) :
    Checks κ (declareAll env ds) (AllValues .free κ (ds.map (·.ty))) := by
  induction ds generalizing env with
  | nil => exact .pure .nil
  | cons d ds ih =>
    have hty : Checks κ (checkClosed d.ty) (HasKind .free κ d.ty .star) :=
      ⟨fun hst h => records_of_checkClosed hst h⟩
    exact hty.bind fun _ hty => (ih _).imp fun hds => AllValues.cons_iff.2 ⟨hty, hds⟩

theorem checks_inferProps (env : TypeEnv) (s : Ty.Subst) (ds : List (Declaration Expr)) :
    Checks κ (inferProps env s ds) True := by
  induction ds generalizing s with
  | nil => exact .pure trivial
  | cons d ds ih =>
    exact (Expr.checks_expectOption ..).bind fun _ _ => (ih _).bind fun _ _ => .pure trivial

end Declaration

namespace Stmt

theorem checks_inferAssign (env : TypeEnv) (xs : List Name) (es : List Expr) (loc : Loc) :
    Checks κ (inferAssign env xs es loc) True := by
  unfold inferAssign
  refine (Checks.mapM (fun x => env.checks_mutableTy x) xs).bind fun _ _ => ?_
  dsimp only
  split
  · exact .bind (P := False) .throw fun _ h => h.elim
  · split
    · exact .bind (P := False) .throw fun _ h => h.elim
    · exact (Expr.checks_expectEach ..).bind fun _ _ => .pure trivial

theorem checks_inferArrayAssign (env : TypeEnv) (a i v : Expr) (loc : Loc) :
    Checks κ (inferArrayAssign env a i v loc) True := by
  unfold inferArrayAssign
  split
  on_goal 1 =>
    rename_i x _
    have hname : Checks κ (discard (env.mutableTy x)) True :=
      (env.checks_mutableTy x).bind fun _ _ => .pure trivial
    refine hname.bind fun _ _ => ?_
  all_goals
    exact (Expr.checks_infer env a).bind fun _ _ => (Expr.checks_infer _ i).bind fun _ _ =>
      (Expr.checks_infer _ v).bind fun _ _ => (checks_unify ..).bind fun _ _ => .pure trivial

mutual

theorem checks_infer (env : TypeEnv) :
    (t : SourceStmt) → Checks κ (infer env t) (AllValues .free κ t.declaredTypes)
  | .skip loc | .abort loc | .hole text _ loc => by
    rw [infer, declaredTypes]
    exact .pure .nil
  | .assign xs es loc => by
    rw [infer, declaredTypes]
    exact (checks_inferAssign env xs es loc).imp fun _ => .nil
  | .arrayAssign a i v loc => by
    rw [infer, declaredTypes]
    exact (checks_inferArrayAssign env a i v loc).imp fun _ => .nil
  | .assert e loc | .dispose e loc => by
    rw [infer, declaredTypes]
    exact (Expr.checks_expect ..).bind fun _ _ => .pure .nil
  | .invariant inv bound loc => by
    rw [infer, declaredTypes]
    exact (Expr.checks_expect ..).bind fun _ _ => (Expr.checks_expectOption ..).bind
      fun _ _ => .pure .nil
  | .loop cs loc | .cond cs loc => by
    rw [infer, declaredTypes]
    exact (checks_inferCmds env ∅ cs).bind fun _ h => .pure h
  | .alloc x es loc => by
    rw [infer, declaredTypes]
    exact (env.checks_expectCell x loc).bind fun _ _ => (Expr.checks_expectAll ..).bind
      fun _ _ => .pure .nil
  | .lookup x e loc => by
    rw [infer, declaredTypes]
    exact (env.checks_expectCell x loc).bind fun _ _ => (Expr.checks_expect ..).bind
      fun _ _ => .pure .nil
  | .mutate c v loc => by
    rw [infer, declaredTypes]
    exact (Expr.checks_expect ..).bind fun _ _ => (Expr.checks_expect ..).bind
      fun _ _ => .pure .nil
  | .block b loc => by
    rw [infer, declaredTypes]
    have hcheck : Checks κ (checkBlock env b) True := .of_supply fun st _ st' hs => by
      rw [state_of_checkBlock hs]
      exact ⟨rfl, le_rfl⟩
    exact hcheck.bind fun _ _ => (Declaration.checks_declareAll env b.decls).bind
      fun _ hdecls => (Declaration.checks_inferProps ..).bind fun _ _ =>
        (Expr.checks_expectAll ..).bind fun _ _ => (checks_inferList _ ∅ b.stmts).bind
          fun _ hstmts => .pure (AllValues.append_iff.2 ⟨hdecls, hstmts⟩)

theorem checks_inferCmds (env : TypeEnv) (s : Ty.Subst) :
    (cs : List SourceCmd) → Checks κ (inferCmds env s cs) (AllValues .free κ (cmdsTypes cs))
  | [] => by
    rw [inferCmds, cmdsTypes]
    exact .pure .nil
  | c :: cs => by
    rw [inferCmds, cmdsTypes]
    exact (Expr.checks_expect ..).bind fun _ _ => (checks_inferList _ ∅ c.body).bind
      fun _ hbody => (checks_inferCmds env _ cs).bind fun _ hcs =>
        .pure (AllValues.append_iff.2 ⟨hbody, hcs⟩)

theorem checks_inferList (env : TypeEnv) (s : Ty.Subst) :
    (ts : List SourceStmt) → Checks κ (inferList env s ts) (AllValues .free κ (listTypes ts))
  | [] => by
    rw [inferList, listTypes]
    exact .pure .nil
  | t :: ts => by
    rw [inferList, listTypes]
    exact (checks_infer _ t).bind fun _ ht => (checks_inferList env _ ts).bind fun _ hts =>
      .pure (AllValues.append_iff.2 ⟨ht, hts⟩)

end

end Stmt

end Statements

/-! ## Programs -/

namespace Program

variable {κ : Kinding} {p : Program}

theorem checks_startFunctions (ds : List Definition) : Checks κ (startFunctions ds) True := by
  fun_induction startFunctions ds with
  | case1 => exact .pure trivial
  | case2 n body rest loc ds ih =>
    have hmodify : Checks κ (modify fun st : ElaborationState =>
        { st with inProgress := st.inProgress.insert n.text }) True :=
      .of_supply fun st _ st' hs => by
        cases hs
        exact ⟨rfl, le_rfl⟩
    exact checks_freshMeta.bind fun _ _ => hmodify.bind fun _ _ => ih.bind fun _ _ => .pure trivial
  | case3 d ds hd ih => exact ih

theorem checks_inferBodies (signatures : NameMap Ty) (env : TypeEnv) (s : Ty.Subst)
    (ps : List Pending) : Checks κ (inferBodies signatures env s ps) True := by
  induction ps generalizing s with
  | nil => exact .pure trivial
  | cons q ps ih =>
    unfold inferBodies
    refine (Expr.checks_infer ..).bind fun _ _ => (checks_unify ..).bind fun _ _ => ?_
    dsimp only
    split
    · exact (ih _).bind fun _ _ => .pure trivial
    · have hskolemize : ∀ t, Checks κ (skolemize t) True := fun t =>
        (checks_freshMetas _).bind fun _ _ => .pure trivial
      exact (hskolemize _).bind fun _ _ => (checks_unify ..).bind fun _ _ =>
        (ih _).bind fun _ _ => .pure trivial

theorem checks_generalizeAll (ambient : TypeEnv) (s : Ty.Subst) (ps : List Pending) :
    Checks κ (generalizeAll ambient s ps) True := by
  induction ps generalizing s with
  | nil => exact .pure trivial
  | cons q ps ih =>
    exact (checks_generalize ..).bind fun _ _ => (ih _).bind fun _ _ => .pure trivial

theorem checks_inferFunctions (env : TypeEnv) : Checks κ (p.inferFunctions env) True := by
  unfold inferFunctions
  refine (checks_startFunctions _).bind fun pending _ => ?_
  split
  · exact .pure trivial
  · have hmodify : Checks κ (modify fun st : ElaborationState => { st with
        inProgress := pending.foldl (fun ns q => ns.erase q.name.text) st.inProgress }) True :=
      .of_supply fun st _ st' hs => by
        cases hs
        exact ⟨rfl, le_rfl⟩
    exact (checks_inferBodies ..).bind fun _ _ => (Checks.ofExcept _).bind fun _ _ =>
      hmodify.bind fun _ _ => (checks_generalizeAll ..).bind fun _ _ => .pure trivial

theorem checks_inferSignatureProps (env : TypeEnv) (s : Ty.Subst) (ds : List Definition) :
    Checks κ (inferSignatureProps env s ds) True := by
  fun_induction inferSignatureProps env s ds with
  | case1 => exact .pure trivial
  | case2 s n t prop loc ds ih =>
    exact (Expr.checks_expectOption ..).bind fun _ _ => (ih _).bind fun _ _ => .pure trivial
  | case3 s d ds h ih => exact ih

theorem checks_checkSignatures : Checks κ p.checkSignatures (∀ n t prop loc,
    .signature n t prop loc ∈ p.defns → ∃ κ', κ.Sub κ' ∧ HasKind .free κ' t .star) := by
  refine (Checks.forM (R := fun d => ∀ n t prop loc, d = .signature n t prop loc →
    ∃ κ', κ.Sub κ' ∧ HasKind .free κ' t .star) (fun d => ?_) p.defns).imp
      fun h n t prop loc hmem => h _ hmem n t prop loc rfl
  cases d with
  | signature n t prop loc =>
    have hopen : Checks κ (checkOpen t) (∃ κ', κ.Sub κ' ∧ HasKind .free κ' t .star) :=
      ⟨fun hst h => records_of_checkOpen hst h⟩
    refine hopen.imp fun h n' t' prop' loc' heq => ?_
    cases heq
    exact h
  | datatype | function => exact .pure fun _ _ _ _ heq => by cases heq

end Program

def TypedDefinition.recordedKind? : TypedDefinition → Option (String × Kind)
  | .datatype d k => some (d.name.text, k)
  | .signature .. | .function .. => none

def TypedProgram.kinds (p : TypedProgram) : Kinding := fun x =>
  NameMap.lookup x (p.defns.filterMap (·.recordedKind?))

namespace Program

variable {p : Program}

theorem recorded_typedDefinitions (ds : List Definition) (kinds : List Kind)
    (props : List (Option TypedExpr)) (fs : List FunctionType) :
    (typedDefinitions ds kinds props fs).filterMap (·.recordedKind?) =
      ((ds.filterMap fun
        | .datatype d => some d
        | _ => none).map (·.name.text)).zip kinds := by
  fun_induction typedDefinitions ds kinds props fs with
  | case1 d ds k kinds props fs ih => simpa [TypedDefinition.recordedKind?] using ih
  | case2 n t prop loc ds kinds prop' props fs ih | case3 n body rest loc ds kinds props f fs ih =>
    simpa [TypedDefinition.recordedKind?] using ih
  | case4 d ds kinds props fs hdatatype hsignature hfunction ih =>
    cases d with
    | datatype d =>
      cases kinds with
      | nil => simpa using ih
      | cons k kinds => exact absurd rfl (hdatatype d k kinds rfl)
    | signature | function => simpa using ih
  | case5 kinds props fs => rfl

theorem records_of_inferKinds {kinds : List Kind} {st' : ElaborationState}
    (h : p.inferKinds .initial = .ok kinds st') :
    ∃ κ : Kinding, st'.Records κ ∧
      (∀ x, κ x = NameMap.lookup x ((p.datatypes.map (·.name.text)).zip kinds)) ∧
      ∀ d ∈ p.datatypes, ∀ c ∈ d.ctors, ∃ κ', κ.Sub κ' ∧
        HasKind .free κ' (.funcs c.args d.result) .star := by
  have hvalid : KindState.Valid .initial := by
    refine ⟨⟨List.nodup_nil, List.nodup_nil, trivial⟩, ?_⟩
    simp [KindState.initial, KindContext.empty]
  unfold inferKinds at h
  cases hds : p.datatypes with
  | nil =>
    rw [hds] at h
    cases h
    exact ⟨fun _ => none, ⟨hvalid, fun v _ => rfl⟩, fun _ => rfl, by simp⟩
  | cons d ds =>
    rw [hds] at h
    obtain ⟨kindState, hkinds, rfl⟩ := ElaborationM.ofKinds_spec h
    exact ⟨_, Datatype.records_of_inferGroup hvalid rfl hkinds⟩

theorem isSome_of_inferKinds {kinds : List Kind} {st' : ElaborationState} {κ : Kinding}
    (h : p.inferKinds .initial = .ok kinds st')
    (hκ : ∀ x, κ x = NameMap.lookup x ((p.datatypes.map (·.name.text)).zip kinds)) (x : String) :
    (κ x).isSome ↔ x ∈ p.datatypes.map (·.name.text) := by
  have hlength := length_inferKinds p _ _ _ h
  rw [hκ, ← Option.ne_none_iff_isSome, Ne, NameMap.lookup_eq_none, not_not,
    List.map_fst_zip (by simp [hlength])]

theorem kinds_substTy (S : Ty.Subst) (q : TypedProgram) : (q.substTy S).kinds = q.kinds := by
  have hsame : ∀ d : TypedDefinition, (d.substTy S).recordedKind? = d.recordedKind? := by
    intro d
    cases d <;> rfl
  funext x
  simp only [TypedProgram.kinds, TypedProgram.substTy, List.filterMap_map, Function.comp_def, hsame]

structure WellKinded (A : Discipline) (κ : Kinding) (p : Program) : Prop where
  closed : AllValues A κ p.closedTypes
  opened : ∀ t ∈ p.openTypes, ∃ κ', κ.Sub κ' ∧ HasKind A κ' t .star

/-- Kinds are recorded for the datatypes, and with these all written types are types of values. -/
theorem wellKinded_of_infer {typed : TypedProgram} {st' : ElaborationState}
    (h : p.infer .initial = .ok typed st') :
    (∀ x, (typed.kinds x).isSome ↔ x ∈ p.datatypes.map (·.name.text)) ∧
      p.WellKinded .free typed.kinds := by
  obtain ⟨-, -, kinds, st₃, h₃, env, st₄, h₄, st₅, h₅, functions, outer, s, st₆, h₆, decls, s₁,
    st₇, h₇, es, s₂, st₈, h₈, sigProps, s₃, st₉, h₉, stmts, s₄, h₁₀, rfl⟩ := infer_cases h
  obtain ⟨κ, hst₃, hκ, hctors⟩ := records_of_inferKinds h₃
  have hkinds : (TypedProgram.substTy (s₄.compose s₃)
      ⟨typedDefinitions p.defns kinds sigProps functions, decls, es, stmts, p.loc⟩).kinds = κ := by
    rw [kinds_substTy]
    funext x
    rw [TypedProgram.kinds, recorded_typedDefinitions, hκ]
    rfl
  rw [hkinds]
  have hnames := isSome_of_inferKinds h₃ hκ
  obtain ⟨hst₄, hdecls⟩ := (Declaration.checks_declareAll _ p.decls).of_ok hst₃ h₄
  obtain ⟨hst₅, hsignatures⟩ := checks_checkSignatures.of_ok hst₄ h₅
  obtain ⟨hst₆, -⟩ := (checks_inferFunctions _).of_ok hst₅ h₆
  obtain ⟨hst₇, -⟩ := (Declaration.checks_inferProps _ _ p.decls).of_ok hst₆ h₇
  obtain ⟨hst₈, -⟩ := (Expr.checks_expectAll _ _ p.props).of_ok hst₇ h₈
  obtain ⟨hst₉, -⟩ := (checks_inferSignatureProps _ _ p.defns).of_ok hst₈ h₉
  obtain ⟨-, hstmts⟩ := (Stmt.checks_inferList _ ∅ p.stmts).of_ok hst₉ h₁₀
  refine ⟨hnames, AllValues.append_iff.2 ⟨hdecls, hstmts⟩, fun t ht => ?_⟩
  rcases List.mem_append.1 ht with ht | ht
  · obtain ⟨d, hd, ht⟩ := List.mem_flatMap.1 ht
    obtain ⟨c, hc, rfl⟩ := List.mem_map.1 ht
    exact hctors d hd c hc
  · obtain ⟨d, hd, hsome⟩ := List.mem_filterMap.1 ht
    cases d with
    | signature n t prop loc =>
      cases hsome
      exact hsignatures n t prop loc hd
    | datatype | function => cases hsome

end Program

end GuardedCommands
