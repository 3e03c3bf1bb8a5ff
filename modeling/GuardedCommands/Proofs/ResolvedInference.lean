import GuardedCommands.Proofs.RecursiveUnification
import GuardedCommands.Proofs.TypingProblems

/-!
# Inference keeps what it finds resolved

The rules of inference apply a substitution to some types and not to others: the argument
type of an application, the right side of a link or the type of a new element are taken as
they are.  This is right because no rule ever sees a metavariable again that has been
solved.  From an environment whose metavariables have been issued, inference solves only
these and new ones, in terms of those that are left, and the type that it returns is over
those that are left.

It follows that the substitutions that are composed on the way never have a name in common,
although composition has a rule for that case.  To say this of all compositions, also of
those in a run that fails later, inference is written over a composition that is given.
Whatever the composition does with substitutions that share a name, the run is the same.
-/

namespace GuardedCommands

open Ty (Subst)

/-! ## Inference over a given composition -/

/-- A way to do one substitution after another, which may fail. -/
abbrev Composition := Subst → Subst → Except ElaborationError Subst

def Composition.Proper (c : Composition) : Prop :=
  ∀ s t : Subst, (∀ x ∈ t.keys, x ∉ s.keys) → c s t = .ok (s.compose t)

namespace Ty

def solveWith (c : Composition) (loc : Loc) (eqs : List Equation) (s : Subst) :
    Except ElaborationError Subst :=
  match eqs with
  | [] => .ok s
  | (t, u) :: rest =>
    match _h : step loc t u with
    | .split parts => solveWith c loc (parts ++ rest) s
    | .bind x v => do
      let s ← c (.singleton x v) s
      solveWith c loc (substEquations (.singleton x v) rest) s
    | .fail e => .error e
termination_by equationMeasure eqs
decreasing_by
  · exact measure_split _h
  · exact measure_bind _h

def unifyWith (c : Composition) (t u : Ty) (loc : Loc) : Except ElaborationError Subst :=
  solveWith c loc [(t, u)] ∅

end Ty

namespace Expr

open ElaborationM

variable (c : Composition)

def resultOfWith (f arg : Ty) (loc : Loc) : ElaborationM (Inferred Ty) := do
  let result ← freshMeta
  let s ← ofExcept (f.unifyWith c (.func arg result) loc)
  return (result.subst s, s)

mutual

def inferWith (env : TypeEnv) : Expr → ElaborationM (Inferred TypedExpr)
  | .lit l loc => return (.lit l l.ty loc, ∅)
  | .var x loc => return (.var x (← nameTy env x loc) loc, ∅)
  | .const x loc => return (.const x (← nameTy env x loc) loc, ∅)
  | .op (.arith o) loc => return (.op (.arith o) o.ty loc, ∅)
  | .op (.chain o) loc => return (.op (.chain o) (← chainOpTy o) loc, ∅)
  | .chain head links loc => do
    let (head, s) ← head.inferWith env
    let (links, s) ← inferLinksWith env loc head.ty s links
    return (.chain head links .bool loc, s)
  | .app f a loc => do
    let (f, s₁) ← f.inferWith env
    let (a, s₂) ← a.inferWith (env.subst s₁)
    let (t, s₃) ← resultOfWith c (f.ty.subst s₂) a.ty loc
    let s ← ofExcept (c s₂ s₁)
    let s ← ofExcept (c s₃ s)
    return (.app f a t loc, s)
  | .lam x body loc => do
    let param ← freshMeta
    let (body, s) ← body.inferWith (env.insert x ⟨.const, param⟩)
    let param := param.subst s
    return (.lam ⟨x, param⟩ body (.func param body.ty) loc, s)
  | .quant q xs range body loc => do
    let (inner, binders) ← bindAll env xs
    let (range, s₁) ← range.inferWith inner
    let s₂ ← ofExcept (range.ty.unifyWith c .bool range.loc)
    let s ← ofExcept (c s₂ s₁)
    let (body, s₃) ← body.inferWith (inner.subst s)
    let s ← ofExcept (c s₃ s)
    let counts := q.isHash
    let (q, s₄) ← q.inferWith (env.subst s)
    let s ← ofExcept (c s₄ s)
    let (t, s) ← if counts then do
        let s₅ ← ofExcept ((body.ty.subst s).unifyWith c .bool body.loc)
        let s ← ofExcept (c s₅ s)
        pure (Ty.int, s)
      else do
        let a ← freshMeta
        let s₅ ← ofExcept ((q.ty.subst s).unifyWith c (.funcs [a, a] a) (q.loc.merge loc))
        let s ← ofExcept (c s₅ s)
        let s₆ ← ofExcept ((a.subst s).unifyWith c (body.ty.subst s) (body.loc.merge loc))
        let s ← ofExcept (c s₆ s)
        pure (a.subst s, s)
    return (.quant q (binders.map (·.subst s)) range body t loc, s)
  | .index a i loc => do
    let (a, s₁) ← a.inferWith env
    let (i, s₂) ← i.inferWith (env.subst s₁)
    let (t, s₃) ← resultOfWith c (a.ty.subst s₂) i.ty loc
    let s ← ofExcept (c s₂ s₁)
    let s ← ofExcept (c s₃ s)
    return (.index a i t loc, s)
  | .update a i v loc => do
    let (a, s₁) ← a.inferWith env
    let (i, s₂) ← i.inferWith (env.subst s₁)
    let s ← ofExcept (c s₂ s₁)
    let (v, s₃) ← v.inferWith (env.subst s)
    let s ← ofExcept (c s₃ s)
    let s₄ ← ofExcept ((a.ty.subst s).unifyWith c (.func (i.ty.subst s) v.ty) loc)
    let s ← ofExcept (c s₄ s)
    return (.update a i v (a.ty.subst s) loc, s)
  | .tuple _ loc => throw (.unsupported .tuple loc)
  | .caseOf _ _ loc => throw (.unsupported .caseOf loc)

def inferLinksWith (env : TypeEnv) (loc : Loc) (prev : Ty) (s : Subst) :
    List (ChainLink Expr) → ElaborationM (Inferred (List (TypedLink TypedExpr)))
  | [] => return ([], s)
  | link :: rest => do
    let (rhs, s₁) ← link.rhs.inferWith (env.subst s)
    let s ← ofExcept (c s₁ s)
    let opTy ← chainOpTy link.op
    let result ← freshMeta
    let s₂ ← ofExcept (opTy.unifyWith c (.funcs [prev.subst s, rhs.ty] result) (link.loc.merge loc))
    let s ← ofExcept (c s₂ s)
    let s₃ ← ofExcept ((result.subst s).unifyWith c .bool (link.loc.merge loc))
    let s ← ofExcept (c s₃ s)
    let (links, s') ← inferLinksWith env loc (rhs.ty.subst s) s rest
    return (⟨link.op, opTy.subst s, link.loc, rhs⟩ :: links, s')

end

def expectWith (env : TypeEnv) (expected : Ty) (e : Expr) : ElaborationM (Inferred TypedExpr) := do
  let (typed, s₁) ← e.inferWith c env
  let s₂ ← ofExcept ((expected.subst s₁).unifyWith c typed.ty e.loc)
  let s ← ofExcept (c s₂ s₁)
  return (typed, s)

end Expr

/-! ## Unification -/

namespace Ty

variable {c : Composition}

theorem solveWith_eq (hc : c.Proper) (loc : Loc) (eqs : List Equation) (s : Subst)
    (hs : ∀ x ∈ equationVars eqs, s.get? x = none) :
    solveWith c loc eqs s = solve loc eqs s := by
  fun_induction solveWith c loc eqs s with
  | case1 s => rw [solve]
  | case2 s t u rest parts hstep ih =>
    rw [solve_cons_of_split hstep]
    refine ih fun x hx => hs x ?_
    obtain ⟨-, hvars⟩ := step_split hstep
    simp only [mem_equationVars_append, equationVars, NameSet.mem_union] at hx ⊢
    rcases hx with hx | hx
    · exact .inl (NameSet.mem_union.1 (hvars x hx))
    · exact .inr hx
  | case3 s t u rest x v hstep ih =>
    obtain ⟨hx, hxv, hvars⟩ := step_bind hstep
    have hmem : ∀ z, z ∈ t.freeVars ∪ u.freeVars ∨ z ∈ equationVars rest → s.get? z = none := by
      intro z hz
      refine hs z ?_
      simpa only [equationVars, NameSet.mem_union] using hz
    have happart : ∀ y ∈ s.keys, y ∉ (NameMap.singleton x v).keys := by
      intro y hy hyx
      rw [NameMap.mem_keys_singleton.1 hyx, NameMap.mem_keys_iff, hmem x (.inl hx)] at hy
      cases hy
    rw [solve_cons_of_bind hstep, hc _ _ happart]
    refine ih _ fun z hz => ?_
    obtain ⟨hzx, hz⟩ := mem_equationVars_subst hxv hz
    have hnone : s.get? z = none := hmem z (hz.symm.imp_left (hvars z))
    simp [hzx, hnone]
  | case4 s t u rest e hstep => rw [solve_cons_of_fail hstep]

theorem unifyWith_eq (hc : c.Proper) (t u : Ty) (loc : Loc) :
    t.unifyWith c u loc = t.unify u loc :=
  solveWith_eq hc loc [(t, u)] ∅ fun x _ => NameMap.get?_empty x

/-- Unification as recursion on two types, over a composition that is given: what is found for
the first part is composed with what is then found for the second. -/
theorem Parts.unifyWith_eq (hc : c.Proper) {loc : Loc} {t u : Ty} {part : Equation} {v w : Ty}
    (h : Parts loc (t, u) part (v, w)) :
    t.unifyWith c u loc = (part.1.unifyWith c part.2 loc).bind fun s =>
      ((v.subst s).unifyWith c (w.subst s) loc).bind (c · s) := by
  simp only [Ty.unifyWith_eq hc, h.unify_eq]
  have hfirst := unified_unify loc part.1 part.2
  cases hs : part.1.unify part.2 loc with
  | error e => rfl
  | ok s =>
    simp only [Except.bind]
    have hsecond := unified_unify loc (v.subst s) (w.subst s)
    cases hr : (v.subst s).unify (w.subst s) loc with
    | error e => rfl
    | ok r =>
      rw [hs] at hfirst
      rw [hr] at hsecond
      exact (hc r s fun x hx hx' => hfirst.disjoint hsecond x hx' hx).symm

end Ty

/-! ## With the ordinary composition -/

namespace Composition

def ordinary : Composition := fun s t => .ok (s.compose t)

theorem proper_ordinary : ordinary.Proper := fun _ _ _ => rfl

/-- The composition that refuses substitutions with a name in common. -/
def strict : Composition := fun s t =>
  match t.keys.toList.filter s.keys.contains with
  | [] => .ok (s.compose t)
  | names => .error (.duplicatedIdentifiers names .none)

theorem proper_strict : strict.Proper := by
  intro s t hapart
  have hnone : t.keys.toList.filter s.keys.contains = [] := by
    rw [List.filter_eq_nil_iff]
    intro x hx hmem
    exact hapart x hx (NameSet.contains_iff.1 hmem)
  simp [strict, hnone]

end Composition

namespace Expr

open ElaborationM

theorem composed_ordinary {α : Type} (s t : Subst) (f : Subst → ElaborationM α) :
    (do let r ← ofExcept (Composition.ordinary s t); f r) = f (s.compose t) := rfl

theorem unified_ordinary (t u : Ty) (loc : Loc) :
    ofExcept (t.unifyWith .ordinary u loc) = unify t u loc := by
  rw [Ty.unifyWith_eq Composition.proper_ordinary]
  rfl

theorem resultOfWith_ordinary (f a : Ty) (loc : Loc) :
    resultOfWith .ordinary f a loc = resultOf f a loc := by
  simp only [resultOfWith, unified_ordinary]
  rfl

mutual

theorem inferWith_ordinary (env : TypeEnv) : (e : Expr) → e.inferWith .ordinary env = e.infer env
  | .lit .. | .var .. | .const .. | .op (.arith _) _ | .op (.chain _) _ | .tuple ..
  | .caseOf .. => by
    rw [inferWith, infer]
  | .chain head links loc => by
    simp only [inferWith, infer, inferWith_ordinary _ head, inferLinksWith_ordinary _ _ _ _ links]
  | .app f a loc | .index f a loc => by
    simp only [inferWith, infer, inferWith_ordinary _ f, inferWith_ordinary _ a,
      resultOfWith_ordinary, composed_ordinary]
  | .lam x body loc => by
    simp only [inferWith, infer, inferWith_ordinary _ body]
  | .quant q xs range body loc => by
    simp only [inferWith, infer, inferWith_ordinary _ q, inferWith_ordinary _ range,
      inferWith_ordinary _ body, unified_ordinary, composed_ordinary]
  | .update a i v loc => by
    simp only [inferWith, infer, inferWith_ordinary _ a, inferWith_ordinary _ i,
      inferWith_ordinary _ v, unified_ordinary, composed_ordinary]

theorem inferLinksWith_ordinary (env : TypeEnv) (loc : Loc) (prev : Ty) (s : Subst) :
    (links : List (ChainLink Expr)) →
      inferLinksWith .ordinary env loc prev s links = inferLinks env loc prev s links
  | [] => by rw [inferLinksWith, inferLinks]
  | link :: rest => by
    simp only [inferLinksWith, inferLinks, inferWith_ordinary _ link.rhs,
      inferLinksWith_ordinary _ _ _ _ rest, unified_ordinary, composed_ordinary]

end
end Expr

/-! ## Environments -/

namespace TypeEnv

def metavars (env : TypeEnv) : Set String := {x | ∃ en ∈ env.entries, x ∈ en.2.ty.metavars}

/-- All metavariables of an environment are unknowns, its rigid variables are not named like
metavariables, and a function that is being defined has a type without rigid variables. -/
structure Clear (env : TypeEnv) (U : Set String) (st : ElaborationState) : Prop where
  known : U ⊆ issued 0 st.supply.issued
  sorted : ∀ en ∈ env.entries, en.2.ty.Sorted U
  pending : ∀ x ∈ st.inProgress, ∀ info, env.lookup? x = some info → info.ty.Over U

namespace Clear

variable {env : TypeEnv} {U U₁ : Set String} {st st₁ : ElaborationState} {s : Subst}

theorem after (henv : env.Clear U st) (hs : Solving U st s U₁ st₁) :
    (env.subst s).Clear U₁ st₁ := by
  constructor
  · exact hs.finish
  · intro en hen
    obtain ⟨en', hen', rfl⟩ := List.mem_map.1 hen
    exact (henv.sorted en' hen').solved hs
  · intro x hx info hinfo
    rw [hs.inProgress] at hx
    rw [lookup?_subst] at hinfo
    obtain ⟨info', hinfo', rfl⟩ := Option.map_eq_some_iff.1 hinfo
    exact hs.over_subst (henv.pending x hx info' hinfo')

theorem extend (henv : env.Clear U st) (h : st.Extends st₁) :
    env.Clear (U ∪ issued st.supply.issued st₁.supply.issued) st₁ := by
  constructor
  · exact Set.union_subset (henv.known.trans (issued_mono le_rfl h.supply))
      (issued_mono (Nat.zero_le _) le_rfl)
  · exact fun en hen => (henv.sorted en hen).mono Set.subset_union_left
  · intro x hx info hinfo
    rw [h.inProgress] at hx
    exact (henv.pending x hx info hinfo).mono Set.subset_union_left

theorem insert (henv : env.Clear U st) {t : Ty} (ht : t.Over U) (x : Name) :
    (env.insert x ⟨.const, t⟩).Clear U st := by
  constructor
  · exact henv.known
  · intro en hen
    rcases List.mem_append.1 hen with hen | hen
    · exact henv.sorted en hen
    · rw [List.mem_singleton.1 hen]
      exact ht.sorted subset_rfl
  · intro y hy info hinfo
    rw [lookup?_insert] at hinfo
    split at hinfo
    · cases hinfo
      exact ht
    · exact henv.pending y hy info hinfo

end Clear

end TypeEnv

theorem Expr.nameTy_over {env : TypeEnv} {U : Set String} {st st' : ElaborationState} {x : Name}
    {loc : Loc} {t : Ty} (henv : env.Clear U st) (h : nameTy env x loc st = .ok t st') :
    st.Extends st' ∧ t.Over (U ∪ issued st.supply.issued st'.supply.issued) := by
  unfold nameTy at h
  cases hinfo : env.lookup? x.text with
  | none =>
    rw [hinfo] at h
    cases h
  | some info =>
    rw [hinfo] at h
    dsimp only at h
    rw [ElaborationM.instantiate_apply] at h
    split at h
    · next hpending =>
      cases h
      exact ⟨.refl _, (henv.pending _ hpending info hinfo).mono Set.subset_union_left⟩
    · obtain ⟨metas, st₁, hmetas, h⟩ := EStateM.ok_of_bind h
      cases h
      obtain ⟨en, hen, rfl⟩ := TypeEnv.mem_of_lookup? hinfo
      obtain ⟨hext, hnames, hovers⟩ := ElaborationM.freshMetas_spec hmetas
      have hmeta := henv.known.trans (issued_subset_metaNames _ _)
      exact ⟨hext, (henv.sorted en hen).over_instance hmeta hnames hovers⟩

/-! ## Runs -/

/-- From a state two computations run alike, and `Q` holds of what they return. -/
def SameRun {α : Type} (st : ElaborationState) (m m' : ElaborationM α)
    (Q : α → ElaborationState → Prop) : Prop :=
  m st = m' st ∧ ∀ a st', m' st = .ok a st' → Q a st'

namespace SameRun

variable {α β : Type} {st : ElaborationState} {m m' : ElaborationM α}
  {Q : α → ElaborationState → Prop} {R : β → ElaborationState → Prop}

theorem refl (h : ∀ a st', m st = .ok a st' → Q a st') : SameRun st m m Q := ⟨rfl, h⟩

theorem pure {a : α} (h : Q a st) : SameRun st (Pure.pure a) (Pure.pure a) Q :=
  .refl fun _ _ hrun => by cases hrun; exact h

theorem throw {e : ElaborationError} :
    SameRun st (MonadExcept.throw e) (MonadExcept.throw e) Q :=
  .refl fun _ _ hrun => by cases hrun

theorem bind {f f' : α → ElaborationM β} (hm : SameRun st m m' Q)
    (hf : ∀ a st', Q a st' → SameRun st' (f a) (f' a) R) :
    SameRun st (m >>= f) (m' >>= f') R := by
  obtain ⟨hsame, hQ⟩ := hm
  cases hrun : m' st with
  | ok a st' =>
    have h := hf a st' (hQ a st' hrun)
    unfold SameRun
    rw [EStateM.bind_of_ok (hsame.trans hrun), EStateM.bind_of_ok hrun]
    exact h
  | error e st' =>
    have hfail : ∀ {m : ElaborationM α} {f : α → ElaborationM β}, m st = .error e st' →
        (m >>= f) st = .error e st' := by
      intro m f hm
      simp [Bind.bind, EStateM.bind, hm]
    unfold SameRun
    rw [hfail (hsame.trans hrun), hfail hrun]
    exact ⟨rfl, fun _ _ h => by cases h⟩

theorem composed {c : Composition} (hc : c.Proper) {s t : Subst}
    (hapart : ∀ x ∈ t.keys, x ∉ s.keys) {f : Subst → ElaborationM α}
    (h : SameRun st (f (s.compose t)) m' Q) : SameRun st (ofExcept (c s t) >>= f) m' Q := by
  rw [hc s t hapart]
  exact h

end SameRun

theorem Solving.apart {U U₁ U₂ : Set String} {st st₁ st₂ : ElaborationState} {s₁ s₂ : Subst}
    (h : Solving U st s₁ U₁ st₁) (h' : Solving U₁ st₁ s₂ U₂ st₂) : ∀ x ∈ s₁.keys, x ∉ s₂.keys := by
  intro x hx hx'
  obtain ⟨t, ht⟩ := Option.isSome_iff_exists.1 (NameMap.mem_keys_iff.1 hx)
  rw [NameMap.mem_keys_iff, (h.widen h').disjoint h'.maps x t ht] at hx'
  cases hx'

/-! ## The rules -/

namespace Expr

open ElaborationM

variable {c : Composition} {env : TypeEnv} {U U₁ : Set String} {st st₁ : ElaborationState}
  {s : Subst} {t u : Ty} {loc : Loc}

theorem sameRun_freshMeta : SameRun st freshMeta freshMeta fun t st' =>
    st.Extends st' ∧ t.Over (issued st.supply.issued st'.supply.issued) :=
  .refl fun _ _ h => freshMeta_spec h

theorem sameRun_unify (hc : c.Proper) (hU : U ⊆ issued 0 st.supply.issued) (ht : t.Over U)
    (hu : u.Over U) : SameRun st (ofExcept (t.unifyWith c u loc)) (unify t u loc) fun s st' =>
      ∃ U', Solving U st s U' st' := by
  rw [Ty.unifyWith_eq hc]
  refine .refl fun s st' h => ?_
  obtain ⟨U', hs, -⟩ := unify_spec hU ht hu h
  exact ⟨U', hs⟩

theorem sameRun_resultOf (hc : c.Proper) (hU : U ⊆ issued 0 st.supply.issued) (ht : t.Over U)
    (hu : u.Over U) : SameRun st (resultOfWith c t u loc) (resultOf t u loc) fun r st' =>
      ∃ U', Solving U st r.2 U' st' ∧ r.1.Over U' := by
  have heq : resultOfWith c t u loc = resultOf t u loc := by
    simp only [resultOfWith, Ty.unifyWith_eq hc]
    rfl
  rw [heq]
  refine .refl fun r st' h => ?_
  obtain ⟨U', hs, hty, -⟩ := resultOf_spec hU ht hu h
  exact ⟨U', hs, hty⟩

theorem bindAll_clear {xs : List Name} {inner : TypeEnv} {bs : List Binder}
    {st' : ElaborationState} (henv : env.Clear U st)
    (h : bindAll env xs st = .ok (inner, bs) st') :
    st.Extends st' ∧ inner.Clear (U ∪ issued st.supply.issued st'.supply.issued) st' := by
  induction xs generalizing env U st inner bs with
  | nil =>
    cases h
    rw [issued_self, Set.union_empty]
    exact ⟨.refl _, henv⟩
  | cons x xs ih =>
    obtain ⟨t, st₁, ht, h⟩ := EStateM.ok_of_bind h
    obtain ⟨⟨inner', bs'⟩, st₂, hrest, h⟩ := EStateM.ok_of_bind h
    cases h
    obtain ⟨hext, hover⟩ := freshMeta_spec ht
    have hbound := (henv.extend hext).insert (hover.mono Set.subset_union_right) x
    obtain ⟨hext', hinner⟩ := ih hbound hrest
    rw [Set.union_assoc, issued_union hext.supply hext'.supply] at hinner
    exact ⟨hext.trans hext', hinner⟩

/-- Inference of the type of an expression composes apart, solves only unknowns and new
metavariables, and returns a type over those that are left. -/
def Resolves (c : Composition) (e : Expr) : Prop :=
  ∀ {env : TypeEnv} {U : Set String} {st : ElaborationState}, env.Clear U st →
    SameRun st (e.inferWith c env) (e.infer env) fun r st' =>
      ∃ U', Solving U st r.2 U' st' ∧ r.1.ty.Over U'

def LinksResolve (c : Composition) (links : List (ChainLink Expr)) : Prop :=
  ∀ {env : TypeEnv} {U U₁ : Set String} {st st₁ : ElaborationState} {loc : Loc} {prev : Ty}
    {s : Subst}, env.Clear U st → Solving U st s U₁ st₁ → prev.Over U₁ →
      SameRun st₁ (inferLinksWith c env loc prev s links) (inferLinks env loc prev s links)
        fun r st' => ∃ U', Solving U st r.2 U' st'

theorem resolves_lit (l : Lit) (loc : Loc) : (lit l loc).Resolves c := by
  intro env U st henv
  rw [inferWith, infer]
  exact .pure ⟨U, .of_maps (.empty U) henv.known, by cases l <;> trivial⟩

theorem resolves_var (x : Name) (loc : Loc) : (var x loc).Resolves c := by
  intro env U st henv
  rw [inferWith, infer]
  refine (SameRun.refl fun t st' h => nameTy_over henv h).bind ?_
  rintro t st' ⟨hext, hover⟩
  exact .pure ⟨_, .of_extends hext henv.known, hover⟩

theorem resolves_const (x : Name) (loc : Loc) : (const x loc).Resolves c := by
  intro env U st henv
  rw [inferWith, infer]
  refine (SameRun.refl fun t st' h => nameTy_over henv h).bind ?_
  rintro t st' ⟨hext, hover⟩
  exact .pure ⟨_, .of_extends hext henv.known, hover⟩

theorem resolves_op (o : Op) (loc : Loc) : (op o loc).Resolves c := by
  intro env U st henv
  cases o with
  | arith o =>
    rw [inferWith, infer]
    refine .pure ⟨U, .of_maps (.empty U) henv.known, ?_⟩
    cases o <;> simp [TypedExpr.ty, ArithOp.ty, Ty.funcs, Ty.int, Ty.bool, Ty.Over]
  | chain o =>
    rw [inferWith, infer]
    refine (SameRun.refl fun t st' h => chainOpTy_spec h).bind ?_
    rintro t st' ⟨hext, hover, -⟩
    exact .pure ⟨_, .of_extends hext henv.known, hover.mono Set.subset_union_right⟩

theorem resolves_chain {head : Expr} {links : List (ChainLink Expr)} (hhead : head.Resolves c)
    (hlinks : LinksResolve c links) (loc : Loc) : (chain head links loc).Resolves c := by
  intro env U st henv
  rw [inferWith, infer]
  refine (hhead henv).bind ?_
  rintro ⟨head', s₁⟩ st₁ ⟨U₁, hs₁, hty⟩
  refine (hlinks henv hs₁ hty).bind ?_
  rintro ⟨links', s₂⟩ st₂ ⟨U₂, hs₂⟩
  exact .pure ⟨U₂, hs₂, trivial⟩

theorem sameRun_application (hc : c.Proper) {f a : Expr} (hf : f.Resolves c) (ha : a.Resolves c)
    (henv : env.Clear U st) (node : TypedExpr → TypedExpr → Ty → TypedExpr)
    (hnode : ∀ f a t, (node f a t).ty = t) :
    SameRun st
      (do
        let (f, s₁) ← f.inferWith c env
        let (a, s₂) ← a.inferWith c (env.subst s₁)
        let (t, s₃) ← resultOfWith c (f.ty.subst s₂) a.ty loc
        let s ← ofExcept (c s₂ s₁)
        let s ← ofExcept (c s₃ s)
        return (node f a t, s))
      (do
        let (f, s₁) ← f.infer env
        let (a, s₂) ← a.infer (env.subst s₁)
        let (t, s₃) ← resultOf (f.ty.subst s₂) a.ty loc
        return (node f a t, s₃.compose (s₂.compose s₁)))
      fun r st' => ∃ U', Solving U st r.2 U' st' ∧ r.1.ty.Over U' := by
  refine (hf henv).bind ?_
  rintro ⟨f', s₁⟩ st₁ ⟨U₁, hs₁, hfty⟩
  refine (ha (henv.after hs₁)).bind ?_
  rintro ⟨a', s₂⟩ st₂ ⟨U₂, hs₂, haty⟩
  refine (sameRun_resultOf hc hs₂.finish (hs₂.over_subst hfty) haty).bind ?_
  rintro ⟨t, s₃⟩ st₃ ⟨U₃, hs₃, hty⟩
  have hs₁₂ := hs₁.compose hs₂
  refine .composed hc (hs₁.apart hs₂) (.composed hc (hs₁₂.apart hs₃) (.pure ?_))
  exact ⟨U₃, hs₁₂.compose hs₃, (hnode f' a' t).symm ▸ hty⟩

theorem resolves_app {f a : Expr} (hc : c.Proper) (hf : f.Resolves c) (ha : a.Resolves c)
    (loc : Loc) : (app f a loc).Resolves c := by
  intro env U st henv
  rw [inferWith, infer]
  exact sameRun_application hc hf ha henv (fun f a t => .app f a t loc) fun _ _ _ => rfl

theorem resolves_index {a i : Expr} (hc : c.Proper) (ha : a.Resolves c) (hi : i.Resolves c)
    (loc : Loc) : (index a i loc).Resolves c := by
  intro env U st henv
  rw [inferWith, infer]
  exact sameRun_application hc ha hi henv (fun a i t => .index a i t loc) fun _ _ _ => rfl

theorem resolves_lam {x : Name} {body : Expr} (hbody : body.Resolves c) (loc : Loc) :
    (lam x body loc).Resolves c := by
  intro env U st henv
  rw [inferWith, infer]
  refine sameRun_freshMeta.bind ?_
  rintro param st₁ ⟨hext, hover⟩
  have hover := hover.mono (Set.subset_union_right (s := U))
  refine (hbody ((henv.extend hext).insert hover x)).bind ?_
  rintro ⟨body', s⟩ st₂ ⟨U₁, hs, hty⟩
  refine .pure ⟨U₁, .after_extends hext henv.known hs, ?_⟩
  exact Ty.over_func.2 ⟨hs.over_subst hover, hty⟩

theorem resolves_update {a i v : Expr} (hc : c.Proper) (ha : a.Resolves c) (hi : i.Resolves c)
    (hv : v.Resolves c) (loc : Loc) : (update a i v loc).Resolves c := by
  intro env U st henv
  rw [inferWith, infer]
  refine (ha henv).bind ?_
  rintro ⟨a', s₁⟩ st₁ ⟨U₁, hs₁, haty⟩
  refine (hi (henv.after hs₁)).bind ?_
  rintro ⟨i', s₂⟩ st₂ ⟨U₂, hs₂, hity⟩
  have hs₁₂ := hs₁.compose hs₂
  refine .composed hc (hs₁.apart hs₂) ((hv (henv.after hs₁₂)).bind ?_)
  rintro ⟨v', s₃⟩ st₃ ⟨U₃, hs₃, hvty⟩
  have hs₁₃ := hs₁₂.compose hs₃
  have hext := hs₂.toExtends.trans hs₃.toExtends
  have haty' := hs₁.over_later hs₁₃ hext haty
  have hity' := hs₁₂.over_later hs₁₃ hs₃.toExtends hity
  refine .composed hc (hs₁₂.apart hs₃) ((sameRun_unify hc hs₃.finish haty'
    (Ty.over_func.2 ⟨hity', hvty⟩)).bind ?_)
  rintro s₄ st₄ ⟨U₄, hs₄⟩
  have hs := hs₁₃.compose hs₄
  refine .composed hc (hs₁₃.apart hs₄) (.pure ⟨U₄, hs, ?_⟩)
  exact hs₁.over_later hs (hext.trans hs₄.toExtends) haty

theorem sameRun_operator {α : Type} {op body : Ty} {sb : Subst} {Ub : Set String}
    {stb : ElaborationState} {loc' : Loc} {k : Inferred Ty → ElaborationM α}
    {Q : α → ElaborationState → Prop} (hc : c.Proper) (hbody : Solving U st sb Ub stb)
    (hext : stb.Extends st₁) (hs : Solving U st s U₁ st₁) (hbodyty : body.Over Ub)
    (hopty : op.Over U₁)
    (hk : ∀ r st' U', Solving U st r.2 U' st' → r.1.Over U' → SameRun st' (k r) (k r) Q) :
    SameRun st₁
      (do
        let a ← freshMeta
        let s₅ ← ofExcept ((op.subst s).unifyWith c (.funcs [a, a] a) loc)
        let s ← ofExcept (c s₅ s)
        let s₆ ← ofExcept ((a.subst s).unifyWith c (body.subst s) loc')
        let s ← ofExcept (c s₆ s)
        let r ← pure (a.subst s, s)
        k r)
      (do
        let a ← freshMeta
        let s₅ ← unify (op.subst s) (.funcs [a, a] a) loc
        let s₆ ← unify (a.subst (s₅.compose s)) (body.subst (s₅.compose s)) loc'
        let r ← pure (a.subst (s₆.compose (s₅.compose s)), s₆.compose (s₅.compose s))
        k r)
      Q := by
  refine sameRun_freshMeta.bind ?_
  rintro a st₂ ⟨hnew, ha⟩
  have hstart := (Solving.of_extends hnew hs.finish).finish
  have hopty := (hs.over_later hs (.refl _) hopty).mono
    (Set.subset_union_left (t := issued st₁.supply.issued st₂.supply.issued))
  have hfuncs : (Ty.funcs [a, a] a).Over (U₁ ∪ issued st₁.supply.issued st₂.supply.issued) := by
    simpa [Ty.funcs] using ha.mono (Set.subset_union_right (s := U₁))
  refine (sameRun_unify hc hstart hopty hfuncs).bind ?_
  rintro s₅ st₃ ⟨U₂, hs₅⟩
  have hs₅' := Solving.after_extends hnew hs.finish hs₅
  have hs' := hs.compose hs₅'
  have haty := hs'.over_issued hs.supply hs₅.supply ha
  have hbodyty := hbody.over_later hs' (hext.trans hs₅'.toExtends) hbodyty
  refine .composed hc (hs.apart hs₅') ((sameRun_unify hc hs₅.finish haty hbodyty).bind ?_)
  rintro s₆ st₄ ⟨U₃, hs₆⟩
  have hs'' := hs'.compose hs₆
  refine .composed hc (hs'.apart hs₆) (hk _ _ U₃ hs'' ?_)
  exact hs''.over_issued hs.supply (hs₅.supply.trans hs₆.supply) ha

theorem resolves_quant {q range body : Expr} {xs : List Name} (hc : c.Proper) (hq : q.Resolves c)
    (hrange : range.Resolves c) (hbody : body.Resolves c) (loc : Loc) :
    (quant q xs range body loc).Resolves c := by
  intro env U st henv
  rw [inferWith, infer]
  refine (SameRun.refl (Q := fun r st' => st.Extends st' ∧
    r.1.Clear (U ∪ issued st.supply.issued st'.supply.issued) st') ?_).bind ?_
  · rintro ⟨inner, bs⟩ st' h
    exact bindAll_clear henv h
  rintro ⟨inner, bs⟩ st₁ ⟨hext, hinner⟩
  refine (hrange hinner).bind ?_
  rintro ⟨range', s₁⟩ st₂ ⟨U₁, hs₁, hrangety⟩
  refine (sameRun_unify hc hs₁.finish hrangety Ty.over_bool).bind ?_
  rintro s₂ st₃ ⟨U₂, hs₂⟩
  have hs₁₂ := hs₁.compose hs₂
  refine .composed hc (hs₁.apart hs₂) ((hbody (hinner.after hs₁₂)).bind ?_)
  rintro ⟨body', s₃⟩ st₄ ⟨U₃, hs₃, hbodyty⟩
  have hs₁₃ := Solving.after_extends hext henv.known (hs₁₂.compose hs₃)
  refine .composed hc (hs₁₂.apart hs₃) ((hq (henv.after hs₁₃)).bind ?_)
  rintro ⟨q', s₄⟩ st₅ ⟨U₄, hs₄, hqty⟩
  have hs := hs₁₃.compose hs₄
  refine .composed hc (hs₁₃.apart hs₄) ?_
  dsimp only
  split
  · have hbodyty := hs₁₃.over_later hs hs₄.toExtends hbodyty
    refine (sameRun_unify hc hs₄.finish hbodyty Ty.over_bool).bind ?_
    rintro s₅ st₆ ⟨U₅, hs₅⟩
    exact .composed hc (hs.apart hs₅) (.pure ⟨U₅, hs.compose hs₅, Ty.over_int⟩)
  · refine sameRun_operator hc hs₁₃ hs₄.toExtends hs hbodyty hqty ?_
    rintro ⟨t, s⟩ st₆ U₅ hs hty
    exact .pure ⟨U₅, hs, hty⟩

theorem linksResolve_nil : LinksResolve c [] := by
  intro env U U₁ st st₁ loc prev s henv hs hprev
  rw [inferLinksWith, inferLinks]
  exact .pure ⟨U₁, hs⟩

theorem linksResolve_cons {link : ChainLink Expr} {rest : List (ChainLink Expr)} (hc : c.Proper)
    (hrhs : link.rhs.Resolves c) (hrest : LinksResolve c rest) :
    LinksResolve c (link :: rest) := by
  intro env U U₁ st st₁ loc prev s henv hs hprev
  rw [inferLinksWith, inferLinks]
  refine (hrhs (henv.after hs)).bind ?_
  rintro ⟨rhs, s₁⟩ st₂ ⟨U₂, hs₁, hrhsty⟩
  have hs₀₁ := hs.compose hs₁
  have hprevty := hs.over_later hs₀₁ hs₁.toExtends hprev
  refine .composed hc (hs.apart hs₁)
    ((SameRun.refl fun t st' h => chainOpTy_spec h).bind ?_)
  rintro opTy st₃ ⟨hext₁, hopty, -⟩
  refine sameRun_freshMeta.bind ?_
  rintro result st₄ ⟨hext₂, hresult⟩
  have hext := hext₁.trans hext₂
  have hstart := (Solving.of_extends hext hs₁.finish).finish
  have hopty := (hopty.mono (issued_mono le_rfl hext₂.supply)).mono
    (Set.subset_union_right (s := U₂))
  have hresult := hresult.mono (issued_mono hext₁.supply le_rfl)
  have hfuncs : (Ty.funcs [prev.subst (s₁.compose s), rhs.ty] result).Over
      (U₂ ∪ issued st₂.supply.issued st₄.supply.issued) := by
    simp only [Ty.funcs, List.foldr, Ty.over_func]
    exact ⟨hprevty.mono Set.subset_union_left, hrhsty.mono Set.subset_union_left,
      hresult.mono Set.subset_union_right⟩
  refine (sameRun_unify hc hstart hopty hfuncs).bind ?_
  rintro s₂ st₅ ⟨U₃, hs₂⟩
  have hs₂' := Solving.after_extends hext hs₁.finish hs₂
  have hs₀₂ := hs₀₁.compose hs₂'
  have hresultty := hs₀₂.over_issued hs₀₁.supply hs₂.supply hresult
  refine .composed hc (hs₀₁.apart hs₂')
    ((sameRun_unify hc hs₂.finish hresultty Ty.over_bool).bind ?_)
  rintro s₃ st₆ ⟨U₄, hs₃⟩
  have hs₀₃ := hs₀₂.compose hs₃
  have hrhsty' := hs₀₁.over_later hs₀₃ (hs₂'.toExtends.trans hs₃.toExtends) hrhsty
  refine .composed hc (hs₀₂.apart hs₃) ((hrest henv hs₀₃ hrhsty').bind ?_)
  rintro ⟨links, s₄⟩ st₇ ⟨U₅, hs₄⟩
  exact .pure ⟨U₅, hs₄⟩

mutual

theorem infer_resolves (hc : c.Proper) : (e : Expr) → e.Resolves c
  | .lit l loc => resolves_lit l loc
  | .var x loc => resolves_var x loc
  | .const x loc => resolves_const x loc
  | .op o loc => resolves_op o loc
  | .chain head links loc =>
    resolves_chain (infer_resolves hc head) (inferLinks_resolve hc links) loc
  | .app f a loc => resolves_app hc (infer_resolves hc f) (infer_resolves hc a) loc
  | .lam x body loc => resolves_lam (infer_resolves hc body) loc
  | .quant q xs range body loc =>
    resolves_quant hc (infer_resolves hc q) (infer_resolves hc range) (infer_resolves hc body) loc
  | .index a i loc => resolves_index hc (infer_resolves hc a) (infer_resolves hc i) loc
  | .update a i v loc =>
    resolves_update hc (infer_resolves hc a) (infer_resolves hc i) (infer_resolves hc v) loc
  | .tuple es loc | .caseOf e cs loc => fun _ => by
    rw [inferWith, infer]
    exact .throw

theorem inferLinks_resolve (hc : c.Proper) : (links : List (ChainLink Expr)) → LinksResolve c links
  | [] => linksResolve_nil
  | link :: rest => linksResolve_cons hc (infer_resolves hc link.rhs) (inferLinks_resolve hc rest)

end

theorem expectWith_eq (hc : c.Proper) (henv : env.Clear U st) {expected : Ty}
    (hexpected : expected.Over U) (e : Expr) :
    e.expectWith c env expected st = e.expect env expected st := by
  have hrun : SameRun st (e.expectWith c env expected) (e.expect env expected)
      fun _ _ => True := by
    refine (infer_resolves hc e henv).bind ?_
    rintro ⟨typed, s₁⟩ st₁ ⟨U₁, hs₁, hty⟩
    refine (sameRun_unify hc hs₁.finish (hs₁.over_subst hexpected) hty).bind ?_
    rintro s₂ st₂ ⟨U₂, hs₂⟩
    exact .composed hc (hs₁.apart hs₂) (.pure trivial)
  exact hrun.1

end Expr

/-- Inference keeps its substitutions resolved.  Let the metavariables of an environment have been
issued, let no rigid variable be named like a metavariable and let the types of definitions in
progress have no rigid variables.  What inference finds binds metavariables of the environment and
new ones only, in terms of such metavariables and of no name that it binds, and it has been applied
to the type that is returned.  So substitutions are composed only where their domains are disjoint:
a composition that does something else with other substitutions leads to the same result or
error. -/
theorem inference_keeps_resolved {env : TypeEnv} {st : ElaborationState}
    (hissued : env.metavars ⊆ issued 0 st.supply.issued)
    (hrigid : ∀ en ∈ env.entries, ∀ x ∈ en.2.ty.rigidVars, x ∉ metaNames)
    (hpending : ∀ x ∈ st.inProgress, ∀ info, env.lookup? x = some info →
      ∀ y, y ∉ info.ty.rigidVars)
    (e : Expr) :
    (∀ te s st', e.infer env st = .ok (te, s) st' →
      (∀ x ∈ s.keys, x ∈ env.metavars ∪ issued st.supply.issued st'.supply.issued) ∧
      (∀ x ∈ s.keys, ∀ t ∈ s.values, x ∉ t.freeVars) ∧
      te.ty.subst s = te.ty ∧
      (∀ x ∈ te.ty.metavars, x ∈ env.metavars ∪ issued st.supply.issued st'.supply.issued) ∧
      ∀ t ∈ s.values, ∀ x ∈ t.metavars,
        x ∈ env.metavars ∪ issued st.supply.issued st'.supply.issued) ∧
    ∀ c : Composition, c.Proper →
      e.inferWith c env st = e.infer env st ∧
        ∀ expected : Ty, expected.Over env.metavars →
          e.expectWith c env expected st = e.expect env expected st := by
  have henv : env.Clear env.metavars st := by
    refine ⟨hissued, fun en hen => ?_, fun x hx info hinfo => ?_⟩
    · exact Ty.sorted_of_mem (fun y hy => ⟨en, hen, hy⟩) (hrigid en hen)
    · obtain ⟨en, hen, rfl⟩ := TypeEnv.mem_of_lookup? hinfo
      exact Ty.over_of_mem (fun y hy => ⟨en, hen, hy⟩) (hpending x hx _ hinfo)
  constructor
  · intro te s st' hrun
    obtain ⟨U', hs, hty⟩ :=
      (Expr.infer_resolves Composition.proper_ordinary e henv).2 (te, s) st' hrun
    have hrange : ∀ t ∈ s.values, t.Over U' := by
      intro t ht
      obtain ⟨x, hx⟩ := NameMap.mem_values_iff.1 ht
      exact (hs.maps.solved hx).2.2
    have hbound : ∀ x ∈ s.keys, x ∈ env.metavars ∪ issued st.supply.issued st'.supply.issued ∧
        x ∉ U' := by
      intro x hx
      obtain ⟨t, ht⟩ := Option.isSome_iff_exists.1 (NameMap.mem_keys_iff.1 hx)
      exact ⟨(hs.maps.solved ht).1, (hs.maps.solved ht).2.1⟩
    have hmetas : ∀ t : Ty, t.Over U' → ∀ x ∈ t.metavars,
        x ∈ env.metavars ∪ issued st.supply.issued st'.supply.issued :=
      fun t ht x hx => hs.maps.subset (ht.mem x (t.metavars_subset_freeVars x hx))
    refine ⟨fun x hx => (hbound x hx).1, fun x hx t ht hmem => ?_, ?_, hmetas _ hty,
      fun t ht => hmetas t (hrange t ht)⟩
    · exact (hbound x hx).2 ((hrange t ht).mem x hmem)
    · exact hty.subst_eq_self fun x hx => hs.maps.get?_eq_none hx
  · intro c hc
    exact ⟨(Expr.infer_resolves hc e henv).1, fun expected hexpected =>
      Expr.expectWith_eq hc henv hexpected e⟩

namespace Recursion

def argument : Name := Supply.next ⟨0⟩ "t"

def function : Name := Supply.next ⟨1⟩ "t"

def env : TypeEnv := ⟨[(.bare "x", ⟨.const, .metavar argument⟩),
  (.bare "f", ⟨.const, .metavar function⟩)]⟩

def state : ElaborationState :=
  { ElaborationState.initial with supply := ⟨2⟩, inProgress := {"f"} }

def comparison : Expr :=
  .chain (.app (.var (.bare "f") .none) (.var (.bare "x") .none) .none)
    [⟨.eq, .none, .var (.bare "x") .none⟩] .none

theorem unknown_mem : ∀ en ∈ env.entries, ∀ x ∈ en.2.ty.metavars,
    x = argument.text ∨ x = function.text := by
  decide

theorem accepted : ∃ r st', comparison.infer env state = .ok r st' := by
  have hok : (match comparison.infer env state with
      | .ok _ _ => true
      | .error _ _ => false) = true := by
    cbv
  cases hrun : comparison.infer env state with
  | ok r st' => exact ⟨r, st', rfl⟩
  | error e st' => simp [hrun] at hok

theorem comparison_resolved : ∃ te s st', comparison.infer env state = .ok (te, s) st' ∧
    (∀ x ∈ s.keys, ∀ t ∈ s.values, x ∉ t.freeVars) ∧ te.ty.subst s = te.ty ∧
    comparison.inferWith .strict env state = .ok (te, s) st' := by
  have hissued : env.metavars ⊆ issued 0 state.supply.issued := by
    rintro x ⟨en, hen, hx⟩
    rcases unknown_mem en hen x hx with rfl | rfl
    · exact mem_issued (Nat.zero_le _) (by decide)
    · exact mem_issued (Nat.zero_le _) (by decide)
  have hnone : ∀ en ∈ env.entries, en.2.ty.rigidVars = ∅ := by decide
  obtain ⟨hfound, hcomposed⟩ := inference_keeps_resolved hissued
    (fun en hen x hx => by simp [hnone en hen] at hx)
    (fun x _ info hinfo y hy => by
      obtain ⟨en, hen, rfl⟩ := TypeEnv.mem_of_lookup? hinfo
      simp [hnone en hen] at hy) comparison
  have hsame := (hcomposed .strict Composition.proper_strict).1
  obtain ⟨⟨te, s⟩, st', hrun⟩ := accepted
  obtain ⟨-, hresolved, happlied, -⟩ := hfound te s st' hrun
  exact ⟨te, s, st', hrun, hresolved, happlied, hsame.trans hrun⟩

end Recursion

end GuardedCommands
