import GuardedCommands.Elaboration.Program
import GuardedCommands.Proofs.KindScope
import GuardedCommands.Proofs.Mirrors
import GuardedCommands.Proofs.Unification
import GuardedCommands.Proofs.Unlocated

/-!
# Unification and kinds without locations

Unification of types, and the inference of kinds with its unification, compare texts
and shapes alone.  Run on trees without locations they therefore mirror themselves:
every step gives the result, the context or the error that it gives with locations,
without its locations.
-/

namespace GuardedCommands

/-! ## Kinds and errors -/

namespace Kind

def unlocated : Kind → Kind
  | .star => .star
  | .arrow dom cod => .arrow dom.unlocated cod.unlocated
  | .metavar n => .metavar n.unlocated

@[simp] theorem text_unlocated (k : Kind) : k.unlocated.text = k.text := by
  induction k with
  | arrow dom cod ihdom ihcod =>
    have harrow : dom.unlocated.isArrow = dom.isArrow := by cases dom <;> rfl
    simp only [unlocated, text, harrow, ihdom, ihcod]
  | _ => rfl

@[simp] theorem freeVars_unlocated (k : Kind) : k.unlocated.freeVars = k.freeVars := by
  induction k with
  | arrow dom cod ihdom ihcod => simp only [unlocated, freeVars, ihdom, ihcod]
  | _ => rfl

@[simp] theorem unlocated_starArity (n : Nat) : (starArity n).unlocated = starArity n := by
  induction n with
  | zero => rfl
  | succ n ih => simp only [starArity, unlocated, ih]

@[simp] theorem arrows_unlocated (ks : List Kind) :
    arrows (ks.map unlocated) = (arrows ks).unlocated := by
  induction ks with
  | nil => rfl
  | cons k ks ih =>
    have hcons : ∀ (k : Kind) ks, arrows (k :: ks) = .arrow k (arrows ks) := fun _ _ => rfl
    rw [List.map_cons, hcons, hcons, ih, unlocated]

theorem bind_unlocated {f f' : Name → Kind} (h : ∀ n, f' n.unlocated = (f n).unlocated)
    (k : Kind) : k.unlocated.bind f' = (k.bind f).unlocated := by
  induction k with
  | star => rfl
  | arrow dom cod ihdom ihcod => simp only [unlocated, bind, ihdom, ihcod]
  | metavar n => exact h n

def Subst.unlocated (s : Subst) : Subst := s.map Kind.unlocated

theorem apply_unlocated (s : Subst) (k : Kind) :
    apply s.unlocated k.unlocated = (apply s k).unlocated := by
  refine bind_unlocated (fun n => ?_) k
  rw [Subst.unlocated, NameMap.get?_map, Name.text_unlocated]
  cases s.get? n.text <;> rfl

theorem Subst.compose_unlocated (s t : Subst) :
    s.unlocated.compose t.unlocated = (s.compose t).unlocated := by
  calc s.unlocated.compose t.unlocated
      = s.unlocated.override ((t.map Kind.unlocated).map (apply s.unlocated)) := rfl
    _ = s.unlocated.override ((t.map (apply s)).map Kind.unlocated) := by
        rw [NameMap.map_map_of_comm (apply_unlocated s)]
    _ = (s.compose t).unlocated := NameMap.override_map Kind.unlocated s _

end Kind

namespace ElaborationError

def unlocated : ElaborationError → ElaborationError
  | .notInScope x _ => .notInScope x .none
  | .unifyFailed t u _ => .unifyFailed t.unlocated u.unlocated .none
  | .kindUnifyFailed k l _ => .kindUnifyFailed k.unlocated l.unlocated .none
  | .recursiveType x t _ => .recursiveType x t.unlocated .none
  | .assignToConst x _ => .assignToConst x .none
  | .undefinedType x _ => .undefinedType x .none
  | .duplicatedIdentifiers xs _ => .duplicatedIdentifiers xs .none
  | .redundantNames xs _ => .redundantNames xs .none
  | .redundantExprs es _ => .redundantExprs es .none
  | .missingArguments xs _ => .missingArguments xs .none
  | .unsupported w _ => .unsupported w .none

theorem message_unlocated (e : ElaborationError) : e.unlocated.message = e.message := by
  cases e with
  | unifyFailed t u l =>
    have ht := Ty.text_unlocated t
    have hu := Ty.text_unlocated u
    change "cannot unify " ++ quoted t.unlocated.text ++ " with " ++ quoted u.unlocated.text = _
    rw [ht, hu]
    rfl
  | kindUnifyFailed k l loc =>
    have hk := Kind.text_unlocated k
    have hl := Kind.text_unlocated l
    change "cannot unify kind " ++ quoted k.unlocated.text ++ " with " ++
      quoted l.unlocated.text = _
    rw [hk, hl]
    rfl
  | recursiveType x t l =>
    have ht := Ty.text_unlocated t
    change "recursive type: " ++ quoted x ++ " occurs in " ++ quoted t.unlocated.text = _
    rw [ht]
    rfl
  | _ => rfl

theorem code_unlocated (e : ElaborationError) : e.unlocated.code = e.code := by
  cases e <;> simp only [unlocated, code]

end ElaborationError

/-! ## Unification of types -/

namespace Ty

def Equation.unlocated (eq : Equation) : Equation := (eq.1.unlocated, eq.2.unlocated)

def Step.unlocated : Step → Step
  | .split eqs => .split (eqs.map Equation.unlocated)
  | .bind x t => .bind x t.unlocated
  | .fail e => .fail e.unlocated

theorem bindStep_unlocated (loc : Loc) (x : Name) (t : Ty) :
    bindStep .none x.unlocated t.unlocated = (bindStep loc x t).unlocated := by
  have hother : (if x.text ∈ t.unlocated.freeVars then
      Step.fail (.recursiveType x.text t.unlocated .none) else .bind x.text t.unlocated) =
      (if x.text ∈ t.freeVars then Step.fail (.recursiveType x.text t loc)
        else .bind x.text t).unlocated := by
    rw [freeVars_unlocated, apply_ite Step.unlocated]
    rfl
  cases t with
  | rigid n | metavar n =>
    simp only [bindStep, unlocated]
    rw [apply_ite Step.unlocated]
    rfl
  | _ => exact hother

theorem step_unlocated (loc : Loc) (t u : Ty) :
    step .none t.unlocated u.unlocated = (step loc t u).unlocated := by
  cases t with
  | rigid n | metavar n => exact bindStep_unlocated loc n u
  | base b l =>
    cases u with
    | rigid n | metavar n => exact bindStep_unlocated loc n (.base b l)
    | base =>
      simp only [step, unlocated]
      rw [apply_ite Step.unlocated]
      rfl
    | _ => rfl
  | tuple k l =>
    cases u with
    | rigid n | metavar n => exact bindStep_unlocated loc n (.tuple k l)
    | tuple =>
      simp only [step, unlocated]
      rw [apply_ite Step.unlocated]
      rfl
    | _ => rfl
  | data d =>
    cases u with
    | rigid n | metavar n => exact bindStep_unlocated loc n (.data d)
    | data =>
      simp only [step, unlocated]
      rw [apply_ite Step.unlocated]
      rfl
    | _ => rfl
  | arrow l =>
    cases u with
    | rigid n | metavar n => exact bindStep_unlocated loc n (.arrow l)
    | _ => rfl
  | array i a l =>
    cases u with
    | rigid n | metavar n => exact bindStep_unlocated loc n (.array i a l)
    | app f cod =>
      cases f with
      | app g dom => cases g <;> rfl
      | _ => rfl
    | _ => rfl
  | app f cod l =>
    cases u with
    | rigid n | metavar n =>
      simpa only [step, unlocated] using bindStep_unlocated loc n (.app f cod l)
    | _ =>
      -- Only with an array on the right does it matter whether this is a function type.
      cases f with
      | app g dom => cases g <;> rfl
      | _ => rfl

theorem substEquations_unlocated (s : Subst) (eqs : List Equation) :
    substEquations s.unlocated (eqs.map Equation.unlocated) =
      (substEquations s eqs).map Equation.unlocated := by
  simp [substEquations, Equation.unlocated]

theorem solve_unlocated (loc : Loc) (eqs : List Equation) (s : Subst) :
    solve .none (eqs.map Equation.unlocated) s.unlocated =
      Except.mirror ElaborationError.unlocated Subst.unlocated (solve loc eqs s) := by
  induction eqs, s using solve.induct loc with
  | case1 s => simp [solve]
  | case2 s t u rest parts hstep ih =>
    have hstep' := step_unlocated loc t u
    rw [hstep] at hstep'
    rw [List.map_cons, Equation.unlocated, solve_cons_of_split hstep',
      solve_cons_of_split hstep, ← List.map_append, ih]
  | case3 s t u rest x v hstep found ih =>
    have hstep' := step_unlocated loc t u
    rw [hstep] at hstep'
    rw [List.map_cons, Equation.unlocated, solve_cons_of_bind hstep',
      solve_cons_of_bind hstep, ← ih]
    rw [← substEquations_unlocated, ← Subst.compose_unlocated]
    rfl
  | case4 s t u rest e hstep =>
    have hstep' := step_unlocated loc t u
    rw [hstep] at hstep'
    rw [List.map_cons, Equation.unlocated, solve_cons_of_fail hstep',
      solve_cons_of_fail hstep, Except.mirror_error]

theorem unify_unlocated (t u : Ty) (loc : Loc) :
    t.unlocated.unify u.unlocated .none =
      Except.mirror ElaborationError.unlocated Subst.unlocated (t.unify u loc) :=
  solve_unlocated loc [(t, u)] ∅

end Ty

/-! ## Contexts of kinds -/

namespace KindEntry

def unlocated : KindEntry → KindEntry
  | .annotated n k => .annotated n.unlocated k.unlocated
  | .unsolved n => .unsolved n.unlocated
  | .solved n k => .solved n.unlocated k.unlocated

theorem annotates_unlocated (x : String) (e : KindEntry) :
    e.unlocated.annotates x = e.annotates x := by
  cases e <;> rfl

theorem leaves_unlocated (x : String) (e : KindEntry) : e.unlocated.leaves x = e.leaves x := by
  cases e <;> rfl

end KindEntry

namespace KindContext

def unlocated (ctx : KindContext) : KindContext := ⟨ctx.entries.map KindEntry.unlocated⟩

theorem annotation?_unlocated (x : String) (entries : List KindEntry) :
    annotation? x (entries.map KindEntry.unlocated) =
      (annotation? x entries).map Kind.unlocated := by
  induction entries with
  | nil => rfl
  | cons e rest ih =>
    cases e with
    | annotated n k =>
      by_cases hx : n.text = x <;> simp [KindEntry.unlocated, annotation?, hx, ih]
    | _ => simp [KindEntry.unlocated, annotation?, ih]

theorem solution?_unlocated (x : String) (entries : List KindEntry) :
    solution? x (entries.map KindEntry.unlocated) = (solution? x entries).map Kind.unlocated := by
  induction entries with
  | nil => rfl
  | cons e rest ih =>
    cases e with
    | solved n k => by_cases hx : n.text = x <;> simp [KindEntry.unlocated, solution?, hx, ih]
    | _ => simp [KindEntry.unlocated, solution?, ih]

theorem resolve_unlocated (entries : List KindEntry) (depth : Nat) (n : Name) :
    resolve (entries.map KindEntry.unlocated) depth n.unlocated =
      (resolve entries depth n).unlocated := by
  induction depth generalizing n with
  | zero => rfl
  | succ depth ih =>
    simp only [resolve, Name.text_unlocated, solution?_unlocated]
    cases solution? n.text entries with
    | none => rfl
    | some k => exact Kind.bind_unlocated ih k

theorem zonk_unlocated (ctx : KindContext) (k : Kind) :
    ctx.unlocated.zonk k.unlocated = (ctx.zonk k).unlocated := by
  simp only [zonk, unlocated, List.length_map]
  exact Kind.bind_unlocated (resolve_unlocated ctx.entries _) k

theorem lookup?_unlocated (ctx : KindContext) (x : String) :
    ctx.unlocated.lookup? x = (ctx.lookup? x).map Kind.unlocated := by
  simp only [lookup?]
  rw [unlocated, annotation?_unlocated, Option.map_map, Option.map_map]
  exact congrFun (congrArg _ (funext (zonk_unlocated ctx))) _

theorem push_unlocated (ctx : KindContext) (e : KindEntry) :
    ctx.unlocated.push e.unlocated = (ctx.push e).unlocated := by
  simp [push, unlocated]

theorem unannotate_unlocated (ctx : KindContext) (x : String) :
    ctx.unlocated.unannotate x = (ctx.unannotate x).unlocated := by
  simp [unannotate, unlocated, List.eraseP_map, Function.comp_def, KindEntry.annotates_unlocated]

theorem defaultUnsolved_unlocated (ctx : KindContext) :
    ctx.unlocated.defaultUnsolved = ctx.defaultUnsolved.unlocated := by
  simp only [defaultUnsolved, unlocated, List.map_map, mk.injEq]
  apply List.map_congr_left
  intro e _
  cases e <;> rfl

theorem split?_unlocated (x : String) (entries : List KindEntry) :
    split? x (entries.map KindEntry.unlocated) =
      (split? x entries).map fun (before, n, after) =>
        (before.map KindEntry.unlocated, n.unlocated, after.map KindEntry.unlocated) := by
  induction entries with
  | nil => rfl
  | cons e rest ih =>
    cases e with
    | unsolved n =>
      by_cases hx : n.text = x <;>
        simp [KindEntry.unlocated, split?, hx, ih, Function.comp_def]
    | _ => simp [KindEntry.unlocated, split?, ih, Function.comp_def]

theorem solveFirst_unlocated (x : String) (k : Kind) (entries : List KindEntry) :
    solveFirst x k.unlocated (entries.map KindEntry.unlocated) =
      (solveFirst x k entries).map KindEntry.unlocated := by
  induction entries with
  | nil => rfl
  | cons e rest ih =>
    cases e with
    | unsolved n => by_cases hx : n.text = x <;> simp [KindEntry.unlocated, solveFirst, hx, ih]
    | _ => simp [KindEntry.unlocated, solveFirst, ih]

end KindContext

namespace Focus

def unlocated (f : Focus) : Focus :=
  ⟨f.before.map KindEntry.unlocated, f.after.map KindEntry.unlocated, f.supply,
    f.promoted.unlocated⟩

theorem promote_unlocated (f : Focus) (x : String) :
    f.unlocated.promote x = (f.promote x).unlocated := by
  have hany : f.unlocated.after.any (·.leaves x) = f.after.any (·.leaves x) := by
    simp [unlocated, List.any_map, Function.comp_def, KindEntry.leaves_unlocated]
  simp only [promote, hany]
  by_cases hx : f.after.any (·.leaves x) = true
  · have hsolve := KindContext.solveFirst_unlocated x (.metavar (f.supply.next "k")) f.after
    have hcompose := Kind.Subst.compose_unlocated (.singleton x (.metavar (f.supply.next "k")))
      f.promoted
    rw [if_pos hx, if_pos hx]
    simp only [unlocated, List.map_append, ← hsolve, ← hcompose]
    rfl
  · rw [if_neg hx, if_neg hx]

end Focus

namespace KindState

def unlocated (st : KindState) : KindState := ⟨st.supply, st.context.unlocated⟩

theorem solve?_unlocated (st : KindState) (x : String) (k : Kind) :
    st.unlocated.solve? x k.unlocated = (st.solve? x k).map unlocated := by
  simp only [solve?, Kind.freeVars_unlocated]
  split
  · rfl
  · simp only [unlocated, KindContext.unlocated, KindContext.split?_unlocated]
    cases KindContext.split? x st.context.entries with
    | none => rfl
    | some found =>
      obtain ⟨before, n, after⟩ := found
      have hfocus : k.freeVars.toList.foldl Focus.promote ⟨before.map KindEntry.unlocated,
          after.map KindEntry.unlocated, st.supply, ∅⟩ = _ :=
        @List.foldl_hom _ _ _ Focus.unlocated _ _ _ ⟨before, after, st.supply, ∅⟩
          Focus.promote_unlocated
      simp only [Option.map_some, hfocus]
      generalize k.freeVars.toList.foldl Focus.promote ⟨before, after, st.supply, ∅⟩ = f
      have hzonk := KindContext.zonk_unlocated ⟨f.before ++ .unsolved n :: f.after⟩
        (k.apply f.promoted)
      rw [← Kind.apply_unlocated] at hzonk
      simp only [KindContext.unlocated, List.map_append, List.map_cons,
        KindEntry.unlocated] at hzonk
      simp only [unlocated, KindContext.unlocated, Focus.unlocated, List.map_append,
        List.map_cons, KindEntry.unlocated, hzonk]

end KindState

namespace Kind

def Step.unlocated : Step → Step
  | .split eqs => .split (eqs.map fun eq => (eq.1.unlocated, eq.2.unlocated))
  | .solve x k => .solve x k.unlocated
  | .clash => .clash

theorem step_unlocated (k l : Kind) : step k.unlocated l.unlocated = (step k l).unlocated := by
  cases k with
  | metavar a =>
    cases l with
    | metavar b =>
      simp only [step, unlocated]
      rw [apply_ite Step.unlocated]
      rfl
    | _ => rfl
  | _ => cases l <;> rfl

theorem solveAll_unlocated (loc : Loc) (eqs : List (Kind × Kind)) (st : KindState) :
    solveAll .none (eqs.map fun eq => (eq.1.unlocated, eq.2.unlocated)) st.unlocated =
      EStateM.mirror ElaborationError.unlocated KindState.unlocated id (solveAll loc eqs st) := by
  induction eqs, st using solveAll.induct with
  | case1 st => simp [solveAll, EStateM.mirror]
  | case2 st k l rest parts hstep ih =>
    have hstep' := step_unlocated k l
    rw [hstep] at hstep'
    rw [List.map_cons, solveAll_cons_of_split hstep', solveAll_cons_of_split hstep,
      ← List.map_append, ih]
  | case3 st k l rest x m hstep st' hsolve ih =>
    have hmap := List.attach_map_val (l := rest)
      (f := fun eq => (st'.context.zonk eq.1, st'.context.zonk eq.2))
    rw [hmap] at ih
    have hstep' := step_unlocated k l
    have hsolve' := KindState.solve?_unlocated st x m
    rw [hstep] at hstep'
    rw [hsolve] at hsolve'
    rw [List.map_cons, solveAll_cons_of_solve hstep' hsolve',
      solveAll_cons_of_solve hstep hsolve, ← ih]
    simp only [List.map_map, Function.comp_def, ← KindContext.zonk_unlocated]
    rfl
  | case4 st k l rest x m hstep hsolve =>
    have hstep' := step_unlocated k l
    have hsolve' := KindState.solve?_unlocated st x m
    rw [hstep] at hstep'
    rw [hsolve] at hsolve'
    rw [List.map_cons, solveAll_cons_of_stuck hstep' hsolve',
      solveAll_cons_of_stuck hstep hsolve]
    rfl
  | case5 st k l rest hstep =>
    have hstep' := step_unlocated k l
    rw [hstep] at hstep'
    rw [List.map_cons, solveAll_cons_of_clash hstep', solveAll_cons_of_clash hstep]
    rfl

end Kind

/-! ## Inference of kinds -/

abbrev KindM.Mirrors {α β : Type} (u : α → β) (m : KindM α) (m' : KindM β) : Prop :=
  GuardedCommands.Mirrors ElaborationError.unlocated KindState.unlocated u m m'

theorem Kind.unify_mirrors (k l : Kind) (loc : Loc) :
    KindM.Mirrors id (unify k l loc) (unify k.unlocated l.unlocated .none) := by
  intro st
  have hsolve := solveAll_unlocated loc [(st.context.zonk k, st.context.zonk l)] st
  simp only [List.map_cons, List.map_nil, ← KindContext.zonk_unlocated] at hsolve
  exact hsolve

namespace KindM

theorem zonk_mirrors (k : Kind) : Mirrors Kind.unlocated (zonk k) (zonk k.unlocated) := by
  apply Mirrors.bind .get
  intro st
  exact .pure (KindContext.zonk_unlocated st.context k)

theorem fresh_mirrors : Mirrors Name.unlocated fresh fresh := .modifyGet fun _ => rfl

theorem pushUnsolved_mirrors : Mirrors Name.unlocated pushUnsolved pushUnsolved := by
  apply fresh_mirrors.bind
  intro n
  apply Mirrors.bind (.modifies fun st => ?_)
  · intro _
    exact .pure rfl
  · exact congrArg (KindState.mk st.supply) (KindContext.push_unlocated st.context (.unsolved n))

theorem annotate_mirrors (n : Name) (k : Kind) :
    Mirrors id (annotate n k) (annotate n.unlocated k.unlocated) := by
  apply Mirrors.bind .get
  intro st
  have hknown : (KindContext.annotation? n.text st.unlocated.context.entries).isSome =
      (KindContext.annotation? n.text st.context.entries).isSome := by
    rw [KindState.unlocated, KindContext.unlocated, KindContext.annotation?_unlocated,
      Option.isSome_map]
  have hpush : Mirrors id
      (modify fun st => { st with context := st.context.push (.annotated n k) })
      (modify fun st => { st with
        context := st.context.push (.annotated n.unlocated k.unlocated) }) :=
    .modifies fun st =>
      congrArg (KindState.mk st.supply) (KindContext.push_unlocated st.context (.annotated n k))
  simp only [Name.text_unlocated, hknown]
  split
  · exact .throw_bind rfl
  · exact hpush

theorem unannotate_mirrors (x : String) : Mirrors id (unannotate x) (unannotate x) :=
  .modifies fun st =>
    congrArg (KindState.mk st.supply) (KindContext.unannotate_unlocated st.context x)

theorem defaultUnsolved_mirrors : Mirrors id defaultUnsolved defaultUnsolved :=
  .modifies fun st =>
    congrArg (KindState.mk st.supply) (KindContext.defaultUnsolved_unlocated st.context)

theorem annotateFresh_mirrors (n : Name) :
    Mirrors Name.unlocated (annotateFresh n) (annotateFresh n.unlocated) := by
  apply pushUnsolved_mirrors.bind
  intro m
  apply (annotate_mirrors n (.metavar m)).bind
  intro _
  exact .pure rfl

end KindM

namespace Kind

theorem applied_mirrors (k arg : Kind) (loc : Loc) :
    KindM.Mirrors unlocated (applied k arg loc) (applied k.unlocated arg.unlocated .none) := by
  apply Mirrors.bind .get
  intro st
  have hzonk : st.unlocated.context.zonk k.unlocated = (st.context.zonk k).unlocated :=
    KindContext.zonk_unlocated st.context k
  have hsplit : ∀ x : String, KindContext.split? x st.unlocated.context.entries = _ :=
    fun x => KindContext.split?_unlocated x st.context.entries
  rw [hzonk]
  cases st.context.zonk k with
  | star => exact .throw rfl
  | arrow dom cod =>
    apply (unify_mirrors dom arg loc).bind
    intro _
    exact KindM.zonk_mirrors cod
  | metavar a =>
    simp only [unlocated, Name.text_unlocated, hsplit]
    cases KindContext.split? a.text st.context.entries with
    | none => exact .throw rfl
    | some found =>
      obtain ⟨before, n, after⟩ := found
      apply KindM.fresh_mirrors.bind
      intro dom
      apply KindM.fresh_mirrors.bind
      intro cod
      apply Mirrors.bind (.modifies fun st => ?_)
      · intro _
        apply (unify_mirrors (.metavar dom) arg loc).bind
        intro _
        exact KindM.zonk_mirrors (.metavar cod)
      · simp [KindState.unlocated, KindContext.unlocated, KindEntry.unlocated, unlocated]

end Kind

namespace Ty

theorem nameKind_mirrors (n : Name) :
    KindM.Mirrors Kind.unlocated (nameKind n) (nameKind n.unlocated) := by
  apply Mirrors.bind .get
  intro st
  have hlookup : st.unlocated.context.lookup? n.text = _ :=
    KindContext.lookup?_unlocated st.context n.text
  rw [Name.text_unlocated, hlookup]
  cases st.context.lookup? n.text with
  | none => exact .throw rfl
  | some k => exact .pure rfl

theorem kind_mirrors (t : Ty) : KindM.Mirrors Kind.unlocated t.kind t.unlocated.kind := by
  induction t with
  | base b l => exact .pure rfl
  | array i t l ih =>
    apply ih.bind
    intro k
    apply (Kind.unify_mirrors k .star l).bind
    intro _
    exact .pure rfl
  | tuple n l => exact .pure (Kind.unlocated_starArity _).symm
  | arrow l => exact .pure rfl
  | app f a l ihf iha =>
    apply ihf.bind
    intro k
    apply iha.bind
    intro k'
    exact Kind.applied_mirrors k k' l
  | data n | rigid n | metavar n => exact nameKind_mirrors n

theorem checkStar_mirrors (t : Ty) (loc : Loc) :
    KindM.Mirrors id (t.checkStar loc) (t.unlocated.checkStar .none) := by
  apply (kind_mirrors t).bind
  intro k
  exact Kind.unify_mirrors k .star loc

end Ty

namespace Datatype

theorem strayVars_unlocated (d : Datatype) (c : Ctor) :
    d.unlocated.strayVars c.unlocated = d.strayVars c := by
  simp only [strayVars, unlocated, Ctor.unlocated, Name.map_text_unlocated]
  rw [NameSet.unionMap_map]
  simp only [Ty.rigidVars_unlocated]

theorem checkCtor_mirrors (d : Datatype) (c : Ctor) :
    KindM.Mirrors id (d.checkCtor c) (d.unlocated.checkCtor c.unlocated) := by
  have hargs : KindM.Mirrors id (c.args.forM (·.checkStar c.loc))
      (c.unlocated.args.forM (·.checkStar .none)) :=
    .forM (fun t => Ty.checkStar_mirrors t c.loc) c.args
  unfold checkCtor
  simp only [strayVars_unlocated]
  split
  · exact .throw_bind rfl
  · exact hargs

theorem inferMember_mirrors (d : Datatype) (m : Name) :
    KindM.Mirrors id (d.inferMember m) (d.unlocated.inferMember m.unlocated) := by
  have hparam : ∀ p : Name, KindM.Mirrors Kind.unlocated
      (do return .metavar (← KindM.annotateFresh p))
      (do return .metavar (← KindM.annotateFresh p.unlocated)) := by
    intro p
    apply (KindM.annotateFresh_mirrors p).bind
    intro n
    exact .pure rfl
  apply (Mirrors.mapM hparam d.params).bind
  intro params
  apply (Mirrors.forM (checkCtor_mirrors d) d.ctors).bind
  intro _
  rw [Kind.arrows_unlocated]
  apply (Kind.unify_mirrors (.metavar m) (.arrows params) d.loc).bind
  intro _
  exact .forM (w := Name.unlocated) (fun p => KindM.unannotate_mirrors p.text) d.params

theorem inferGroup_mirrors (ds : List Datatype) :
    KindM.Mirrors (List.map Kind.unlocated) (inferGroup ds) (inferGroup (ds.map unlocated)) := by
  apply (Mirrors.mapM (w := unlocated) (k := fun d => KindM.annotateFresh d.name)
    (fun d : Datatype => KindM.annotateFresh_mirrors d.name) ds).bind
  intro metas
  rw [List.zip_map]
  apply (Mirrors.forM (w := Prod.map unlocated Name.unlocated)
    (fun p : Datatype × Name => inferMember_mirrors p.1 p.2) _).bind
  intro _
  apply KindM.defaultUnsolved_mirrors.bind
  intro _
  exact .mapM (w := Name.unlocated) (fun n => KindM.zonk_mirrors (.metavar n)) metas

end Datatype

end GuardedCommands
