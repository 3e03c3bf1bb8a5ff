import GuardedCommands.Proofs.FunctionTyping
import GuardedCommands.Proofs.TypeValues

/-!
# Typing problems

Typing rules for source expressions say which types an expression admits when it is known
at which types names may be used.  Names that are bound have one type; the types of all
others come from an environment under an assignment, in which metavariables stand for what
the assignment says and rigid variables for anything.

What a computation has to find is a problem: a relation between assignments and types.
The computation finds it if the solutions of the problem are, but for metavariables that
are new, the assignments under which its result holds, and if it fails only where there is
no solution.  The rules of the judgement follow the steps of inference: a step may choose
new metavariables and rule assignments out, and leaves the problem that is still to be
solved.
-/

namespace GuardedCommands

open Ty (Subst Assignment)

/-! ## Types that expressions admit -/

abbrev Uses := String → Ty → Prop

namespace Uses

def bind (Γ : Uses) (x : String) (a : Ty) : Uses := fun y b => if y = x then b = a else Γ y b

def bindAll (Γ : Uses) (bs : List (String × Ty)) : Uses := bs.foldl (fun Γ b => Γ.bind b.1 b.2) Γ

end Uses

def ChainOp.Admits : ChainOp → Ty → Prop
  | .eq, t | .neq, t => ∃ a, t = .fn a (.fn a .bool)
  | .lt, t | .lte, t | .gt, t | .gte, t => t = .fn .int (.fn .int .bool)
  | .eqProp, t => t = .fn .bool (.fn .bool .bool)

namespace Expr

/-- A quantifier may have type `t` if its operator has type `c` and its body type `a`.  A
quantifier that counts has a proposition for a body. -/
def Quantifies (q : Expr) (a c t : Ty) : Prop :=
  if q.isHash then a = .bool ∧ t = .int else c = .fn a (.fn a a) ∧ t = a

mutual

def Admits (Γ : Uses) : Expr → Ty → Prop
  | .lit l _, t => t = l.ty
  | .var x _, t | .const x _, t => Γ x.text t
  | .op (.arith o) _, t => t = o.ty.canonical
  | .op (.chain o) _, t => o.Admits t
  | .chain head links _, t => t = .bool ∧ ∃ a, head.Admits Γ a ∧ LinksAdmit Γ a links
  | .app f e _, t | .index f e _, t => ∃ a, f.Admits Γ (.fn a t) ∧ e.Admits Γ a
  | .lam x body _, t => ∃ a b, body.Admits (Γ.bind x.text a) b ∧ t = .fn a b
  | .quant q xs range body _, t => ∃ bs : List (String × Ty), bs.map (·.1) = xs.map (·.text) ∧
      range.Admits (Γ.bindAll bs) .bool ∧ ∃ a, body.Admits (Γ.bindAll bs) a ∧
        ∃ c, q.Admits Γ c ∧ q.Quantifies a c t
  | .update e i d _, t => e.Admits Γ t ∧ ∃ a b, i.Admits Γ a ∧ d.Admits Γ b ∧ t = .fn a b
  | .tuple .., _ | .caseOf .., _ => False

def LinksAdmit (Γ : Uses) (left : Ty) : List (ChainLink Expr) → Prop
  | [] => True
  | link :: rest => ∃ right, link.rhs.Admits Γ right ∧
      link.op.Admits (.fn left (.fn right .bool)) ∧ LinksAdmit Γ right rest

end

end Expr

/-! ## Assignments that agree -/

def unissued (n : Nat) : Set String := {x | ∃ i, n ≤ i ∧ x = (Supply.next ⟨i⟩ "t").text}

theorem not_mem_unissued {n : Nat} {x : String} (h : x ∈ issued 0 n) : x ∉ unissued n := by
  obtain ⟨i, -, hi, rfl⟩ := h
  rintro ⟨j, hj, heq⟩
  have := Supply.next_injective heq
  omega

namespace Ty.Assignment

def Agrees (n : Nat) (w v : Assignment) : Prop := ∀ x, x ∉ unissued n → w x = v x

variable {n m : Nat} {u v w : Assignment} {t : Ty}

theorem Agrees.refl (v : Assignment) : v.Agrees n v := fun _ _ => rfl

theorem Agrees.symm (h : w.Agrees n v) : v.Agrees n w := fun x hx => (h x hx).symm

theorem Agrees.trans (h : w.Agrees m v) (hnm : n ≤ m) (h' : v.Agrees n u) : w.Agrees n u := by
  intro x hx
  have hxm : x ∉ unissued m := by
    rintro ⟨i, hi, heq⟩
    exact hx ⟨i, hnm.trans hi, heq⟩
  rw [h x hxm, h' x hx]

theorem Agrees.mono (h : w.Agrees m v) (hnm : n ≤ m) : w.Agrees n v := h.trans hnm (.refl v)

theorem Agrees.value (h : w.Agrees n v) (ht : t.Over (issued 0 n)) : t.value w = t.value v :=
  Ty.value_congr fun x hx => h x (not_mem_unissued (ht.mem x hx))

theorem agrees_update (v : Assignment) (n : Nat) (a : Ty) :
    Agrees n (Function.update v (Supply.next ⟨n⟩ "t").text a) v := by
  intro x hx
  exact Function.update_of_ne (fun heq => hx ⟨n, le_rfl, heq⟩) a v

open Classical in
noncomputable def join (v w : Assignment) : Assignment :=
  fun x => if x ∈ metaNames then v x else w x

theorem join_of_mem {x : String} (h : x ∈ metaNames) : v.join w x = v x := if_pos h

theorem join_of_not_mem {x : String} (h : x ∉ metaNames) : v.join w x = w x := if_neg h

end Ty.Assignment

/-! ## Types of names -/

namespace Ty

/-- The types that a use of something may have: its metavariables are known, its rigid
variables stand for anything. -/
def Gives (v : Assignment) (t τ : Ty) : Prop := ∃ w : Assignment, t.value (v.join w) = τ

variable {t u τ : Ty} {U V : Set String} {s : Subst} {v w : Assignment} {n : Nat}

theorem Over.gives_iff (ht : t.Over U) (hU : U ⊆ metaNames) : t.Gives v τ ↔ t.value v = τ := by
  have hsame : ∀ w, t.value (v.join w) = t.value v := fun w =>
    value_congr fun x hx => Assignment.join_of_mem (hU (ht.mem x hx))
  simp only [Gives, hsame]
  constructor
  · rintro ⟨-, h⟩
    exact h
  · exact fun h => ⟨v, h⟩

def Subst.Meta (s : Subst) : Prop :=
  ∀ x t, s.get? x = some t → x ∈ metaNames ∧ ∀ y ∈ t.freeVars, y ∈ metaNames

theorem Subst.Holds.join (h : s.Holds v) (hs : s.Meta) (w : Assignment) : s.Holds (v.join w) := by
  intro x t ht
  obtain ⟨hx, hvars⟩ := hs x t ht
  rw [Assignment.join_of_mem hx, h x t ht]
  exact value_congr fun y hy => (Assignment.join_of_mem (hvars y hy)).symm

theorem Subst.Holds.gives_subst (h : s.Holds v) (hs : s.Meta) :
    (t.subst s).Gives v τ ↔ t.Gives v τ := by
  simp only [Gives, (h.join hs _).value_subst]

theorem mem_metavars_or_rigidVars {x : String} (h : x ∈ t.freeVars) :
    x ∈ t.metavars ∨ x ∈ t.rigidVars := by
  induction t with
  | rigid n => exact .inr h
  | metavar n => exact .inl h
  | array i t l ih => exact ih h
  | app f a l ihf iha =>
    simp only [freeVars, metavars, rigidVars, NameSet.mem_union] at h ⊢
    rcases h with h | h
    · exact (ihf h).imp .inl .inl
    · exact (iha h).imp .inr .inr
  | base | tuple | arrow | data => simp [freeVars] at h

theorem rigidVars_subset_freeVars (t : Ty) : ∀ x ∈ t.rigidVars, x ∈ t.freeVars := by
  induction t with
  | rigid n => simp [rigidVars, freeVars]
  | array i t l ih => exact ih
  | app f a l ihf iha =>
    intro x hx
    rcases NameSet.mem_union.1 hx with hx | hx
    · exact NameSet.mem_union.2 (.inl (ihf x hx))
    · exact NameSet.mem_union.2 (.inr (iha x hx))
  | metavar | base | tuple | arrow | data => simp [rigidVars]

theorem Sorted.not_mem_metaNames (h : t.Sorted U) : ∀ x ∈ t.rigidVars, x ∉ metaNames := by
  induction t with
  | rigid n =>
    intro x hx
    rw [NameSet.mem_singleton.1 hx]
    exact h
  | array i t l ih => exact ih h
  | app f a l ihf iha =>
    intro x hx
    rcases NameSet.mem_union.1 hx with hx | hx
    · exact ihf h.1 x hx
    · exact iha h.2 x hx
  | metavar | base | tuple | arrow | data => simp [rigidVars]

theorem sorted_of_mem (hm : ∀ x ∈ t.metavars, x ∈ U) (hr : ∀ x ∈ t.rigidVars, x ∉ metaNames) :
    t.Sorted U := by
  induction t with
  | rigid n => exact hr n.text (NameSet.mem_singleton.2 rfl)
  | metavar n => exact hm n.text (NameSet.mem_singleton.2 rfl)
  | array i t l ih => exact ih hm hr
  | app f a l ihf iha =>
    constructor
    · exact ihf (fun x hx => hm x (NameSet.mem_union.2 (.inl hx)))
        (fun x hx => hr x (NameSet.mem_union.2 (.inl hx)))
    · exact iha (fun x hx => hm x (NameSet.mem_union.2 (.inr hx)))
        (fun x hx => hr x (NameSet.mem_union.2 (.inr hx)))
  | base | tuple | arrow | data => trivial

theorem over_of_mem (hm : ∀ x ∈ t.metavars, x ∈ U) (hr : ∀ x, x ∉ t.rigidVars) : t.Over U := by
  induction t with
  | rigid n => exact hr n.text (NameSet.mem_singleton.2 rfl)
  | metavar n => exact hm n.text (NameSet.mem_singleton.2 rfl)
  | array i t l ih => exact ih hm hr
  | app f a l ihf iha =>
    constructor
    · exact ihf (fun x hx => hm x (NameSet.mem_union.2 (.inl hx)))
        (fun x hx => hr x (NameSet.mem_union.2 (.inl hx)))
    · exact iha (fun x hx => hm x (NameSet.mem_union.2 (.inr hx)))
        (fun x hx => hr x (NameSet.mem_union.2 (.inr hx)))
  | base | tuple | arrow | data => trivial

theorem Sorted.mono (h : t.Sorted U) (hUV : U ⊆ V) : t.Sorted V := by
  induction t with
  | rigid n => exact h
  | metavar n => exact hUV h
  | array i t l ih => exact ih h
  | app f a l ihf iha => exact ⟨ihf h.1, iha h.2⟩
  | base | tuple | arrow | data => trivial

theorem Sorted.over_subst (h : t.Sorted U) (hUV : U ⊆ V)
    (hrigid : ∀ x ∈ t.rigidVars, ∃ u, s.get? x = some u ∧ u.Over V)
    (hfixed : ∀ x ∈ t.metavars, s.get? x = none) : (t.subst s).Over V := by
  induction t with
  | rigid n =>
    obtain ⟨u, hu, hover⟩ := hrigid n.text (by simp [rigidVars])
    simpa [Ty.subst, hu] using hover
  | metavar n =>
    have hn := hfixed n.text (by simp [metavars])
    simpa [Ty.subst, hn] using hUV h
  | array i t l ih => exact ih h hrigid hfixed
  | app f a l ihf iha =>
    constructor
    · exact ihf h.1 (fun x hx => hrigid x (NameSet.mem_union.2 (.inl hx)))
        fun x hx => hfixed x (NameSet.mem_union.2 (.inl hx))
    · exact iha h.2 (fun x hx => hrigid x (NameSet.mem_union.2 (.inr hx)))
        fun x hx => hfixed x (NameSet.mem_union.2 (.inr hx))
  | base | tuple | arrow | data => trivial

theorem Sorted.get?_instance {metas : List (String × Ty)} (h : t.Sorted U) (hU : U ⊆ metaNames)
    (hnames : metas.map (·.1) = t.rigidVars.toList) :
    ∀ y ∈ t.metavars, (NameMap.ofList metas).get? y = none := by
  intro y hy
  by_contra hsome
  have hmem := NameMap.isSome_get?_ofList.1 (Option.ne_none_iff_isSome.1 hsome)
  rw [hnames] at hmem
  exact h.not_mem_metaNames y hmem (hU (h.mem y hy))

theorem Sorted.over_instance {metas : List (String × Ty)} (h : t.Sorted U) (hU : U ⊆ metaNames)
    (hnames : metas.map (·.1) = t.rigidVars.toList) (hmetas : ∀ e ∈ metas, e.2.Over V) :
    (t.subst (.ofList metas)).Over (U ∪ V) := by
  refine h.over_subst Set.subset_union_left (fun y hy => ?_) (h.get?_instance hU hnames)
  have hmem : y ∈ metas.map (·.1) := by
    rw [hnames]
    exact hy
  obtain ⟨m, hm⟩ := Option.isSome_iff_exists.1 (NameMap.isSome_get?_ofList.2 hmem)
  exact ⟨m, hm, (hmetas _ (NameMap.mem_of_get?_ofList hm)).mono Set.subset_union_right⟩

theorem Sorted.gives_congr (ht : t.Sorted (issued 0 n)) (h : w.Agrees n v) :
    t.Gives w τ ↔ t.Gives v τ := by
  have hsame : ∀ w', t.value (w.join w') = t.value (v.join w') := by
    refine fun w' => value_congr fun x hx => ?_
    by_cases hmeta : x ∈ metaNames
    · rcases mem_metavars_or_rigidVars hx with hx | hx
      · rw [Assignment.join_of_mem hmeta, Assignment.join_of_mem hmeta]
        exact h x (not_mem_unissued (ht.mem x hx))
      · exact absurd hmeta (ht.not_mem_metaNames x hx)
    · rw [Assignment.join_of_not_mem hmeta, Assignment.join_of_not_mem hmeta]
  simp only [Gives, hsame]

structure Simple (U : Set String) (t : Ty) : Prop where
  vars : t.Over U
  headsRooted : t.HeadsRooted

theorem Simple.mono (h : t.Simple U) (hUV : U ⊆ V) : t.Simple V := ⟨h.vars.mono hUV, h.headsRooted⟩

theorem simple_int : Ty.int.Simple U := ⟨trivial, trivial⟩

theorem simple_bool : Ty.bool.Simple U := ⟨trivial, trivial⟩

@[simp] theorem simple_func {a b : Ty} : (func a b).Simple U ↔ a.Simple U ∧ b.Simple U := by
  constructor
  · intro h
    obtain ⟨ha, hb⟩ := over_func.1 h.vars
    obtain ⟨ha', hb'⟩ := headsRooted_func.1 h.headsRooted
    exact ⟨⟨ha, ha'⟩, ⟨hb, hb'⟩⟩
  · rintro ⟨ha, hb⟩
    exact ⟨over_func.2 ⟨ha.vars, hb.vars⟩, headsRooted_func.2 ⟨ha.headsRooted, hb.headsRooted⟩⟩

end Ty

namespace TypeEnv

def uses (env : TypeEnv) (v : Assignment) : Uses := fun x τ =>
  ∃ info, env.lookup? x = some info ∧ info.ty.Gives v τ

variable {env : TypeEnv} {U : Set String} {st st₁ : ElaborationState} {s : Subst}
  {v w : Assignment}

theorem lookup?_insert (env : TypeEnv) (x : Name) (info : TypeInfo) (y : String) :
    (env.insert x info).lookup? y = if y = x.text then some info else env.lookup? y := by
  rw [insert, lookup?_append]
  by_cases hy : y = x.text
  · simp [lookup?, hy]
  · simp [lookup?, hy, Ne.symm hy]

theorem uses_insert {t : Ty} (ht : t.Over U) (hU : U ⊆ metaNames) (env : TypeEnv) (x : Name) :
    (env.insert x ⟨.const, t⟩).uses v = (env.uses v).bind x.text (t.value v) := by
  funext y τ
  simp only [uses, lookup?_insert, Uses.bind]
  by_cases hy : y = x.text
  · simp [hy, ht.gives_iff hU, eq_comm]
  · simp [hy]

theorem uses_subst (hv : s.Holds v) (hs : s.Meta) (env : TypeEnv) :
    (env.subst s).uses v = env.uses v := by
  funext y τ
  simp only [uses, lookup?_subst]
  cases env.lookup? y with
  | none => simp
  | some info => simp [hv.gives_subst hs]

/-- The types of an environment have no variables that inference must not see, and apply
none. -/
structure Ready (env : TypeEnv) (U : Set String) (st : ElaborationState) : Prop where
  known : U ⊆ issued 0 st.supply.issued
  sorted : ∀ e ∈ env.entries, e.2.ty.Sorted U
  headsRooted : ∀ e ∈ env.entries, e.2.ty.HeadsRooted
  pending : ∀ x ∈ st.inProgress, ∀ info, env.lookup? x = some info → info.ty.Over U

theorem Ready.uses_congr (h : env.Ready U st) (hw : w.Agrees st.supply.issued v) :
    env.uses w = env.uses v := by
  funext x τ
  simp only [uses]
  refine propext (exists_congr fun info => and_congr_right fun hinfo => ?_)
  obtain ⟨e, he, rfl⟩ := mem_of_lookup? hinfo
  exact ((h.sorted e he).mono h.known).gives_congr hw

end TypeEnv

/-! ## Progress -/

structure Issues (st st₁ : ElaborationState) : Prop extends st.Extends st₁ where
  context : st₁.context = st.context

theorem Issues.refl (st : ElaborationState) : Issues st st := ⟨.refl st, rfl⟩

theorem Issues.trans {st st₁ st₂ : ElaborationState} (h : Issues st st₁) (h' : Issues st₁ st₂) :
    Issues st st₂ :=
  ⟨h.toExtends.trans h'.toExtends, h'.context.trans h.context⟩

structure Progress (U : Set String) (st : ElaborationState) (s : Subst) (U₁ : Set String)
    (st₁ : ElaborationState) : Prop extends Solving U st s U₁ st₁ where
  context : st₁.context = st.context
  headsRooted : s.HeadsRooted

namespace Progress

variable {U U₁ U₂ : Set String} {st st₁ st₂ : ElaborationState} {s s₁ s₂ : Subst} {t : Ty}
  {v w : Assignment}

theorem issues (h : Progress U st s U₁ st₁) : Issues st st₁ := ⟨h.toExtends, h.context⟩

theorem empty (hU : U ⊆ issued 0 st.supply.issued) : Progress U st ∅ U st :=
  ⟨.of_maps (.empty U) hU, rfl, Ty.Subst.headsRooted_empty⟩

theorem compose (h : Progress U st s₁ U₁ st₁) (h' : Progress U₁ st₁ s₂ U₂ st₂) :
    Progress U st (s₂.compose s₁) U₂ st₂ :=
  ⟨h.toSolving.compose h'.toSolving, h'.context.trans h.context,
    h'.headsRooted.compose h.headsRooted⟩

theorem extend (h : Progress U st s U₁ st₁) (h' : Issues st₁ st₂) :
    Progress U st s (U₁ ∪ issued st₁.supply.issued st₂.supply.issued) st₂ :=
  ⟨h.toSolving.extend h'.toExtends, h'.context.trans h.context, h.headsRooted⟩

theorem after_issues (h : Issues st st₁) (hU : U ⊆ issued 0 st.supply.issued)
    (h' : Progress (U ∪ issued st.supply.issued st₁.supply.issued) st₁ s U₂ st₂) :
    Progress U st s U₂ st₂ :=
  ⟨.after_extends h.toExtends hU h'.toSolving, h'.context.trans h.context, h'.headsRooted⟩

theorem simple_subst (h : Progress U st s U₁ st₁) (ht : t.Simple U) : (t.subst s).Simple U₁ :=
  ⟨h.over_subst ht.vars, ht.headsRooted.subst h.headsRooted⟩

theorem simple_later (h : Progress U st s₁ U₁ st₁) (h' : Progress U st s₂ U₂ st₂)
    (hissues : Issues st₁ st₂) (ht : t.Simple U₁) : (t.subst s₂).Simple U₂ :=
  ⟨h.over_later h'.toSolving hissues.toExtends ht.vars, ht.headsRooted.subst h'.headsRooted⟩

theorem subset_metaNames (h : Progress U st s U₁ st₁) : U₁ ⊆ metaNames :=
  h.finish.trans (issued_subset_metaNames _ _)

theorem isMeta (h : Progress U st s U₁ st₁) : s.Meta := fun _ _ ht =>
  ⟨h.mem_metaNames ht, fun y hy => h.subset_metaNames ((h.maps.solved ht).2.2.mem y hy)⟩

theorem holds_compose (h : Progress U st s₁ U₁ st₁) (h' : Progress U₁ st₁ s₂ U₂ st₂) :
    (s₂.compose s₁).Holds v ↔ s₁.Holds v ∧ s₂.Holds v :=
  Ty.Subst.holds_compose ((h.widen h'.toSolving).disjoint h'.maps)

theorem holds_congr (h : Progress U st s U₁ st₁) (hw : w.Agrees st₁.supply.issued v) :
    s.Holds w ↔ s.Holds v := by
  have hsame : ∀ {w v : Assignment}, w.Agrees st₁.supply.issued v → s.Holds w → s.Holds v := by
    intro w v hw hs x t ht
    have hover : t.Over (issued 0 st₁.supply.issued) := (h.maps.solved ht).2.2.mono h.finish
    rw [← hw x (not_mem_unissued (h.mem_issued ht)), hs x t ht, hw.value hover]
  exact ⟨hsame hw, hsame hw.symm⟩

theorem value_congr (h : Progress U st s U₁ st₁) (ht : t.Simple U₁)
    (hw : w.Agrees st₁.supply.issued v) : t.value w = t.value v :=
  hw.value (ht.vars.mono h.finish)

end Progress

theorem Ty.Sorted.solved {U U₁ : Set String} {st st₁ : ElaborationState} {s : Subst} {t : Ty}
    (ht : t.Sorted U) (hs : Solving U st s U₁ st₁) : (t.subst s).Sorted U₁ := by
  induction t with
  | rigid n =>
    have hn : s.get? n.text = none := by
      cases hn : s.get? n.text with
      | none => rfl
      | some u => exact absurd (hs.mem_metaNames hn) ht
    have hsame : (Ty.rigid n).subst s = .rigid n := by simp [Ty.subst, hn]
    rw [hsame]
    exact ht
  | metavar n =>
    have hover : (Ty.metavar n).Over U := ht
    exact (hs.over_subst hover).sorted subset_rfl
  | array i t l ih => exact ih ht
  | app f a l ihf iha => exact ⟨ihf ht.1, iha ht.2⟩
  | base | tuple | arrow | data => trivial

namespace TypeEnv.Ready

variable {env : TypeEnv} {U U₁ : Set String} {st st₁ : ElaborationState} {s : Subst}

theorem after (henv : env.Ready U st) (hs : Progress U st s U₁ st₁) :
    (env.subst s).Ready U₁ st₁ := by
  constructor
  · exact hs.finish
  · intro e he
    obtain ⟨e', he', rfl⟩ := List.mem_map.1 he
    exact (henv.sorted e' he').solved hs.toSolving
  · intro e he
    obtain ⟨e', he', rfl⟩ := List.mem_map.1 he
    exact (henv.headsRooted e' he').subst hs.headsRooted
  · intro x hx info hinfo
    rw [hs.inProgress] at hx
    rw [lookup?_subst] at hinfo
    obtain ⟨info', hinfo', rfl⟩ := Option.map_eq_some_iff.1 hinfo
    exact hs.over_subst (henv.pending x hx info' hinfo')

theorem issue (henv : env.Ready U st) (h : Issues st st₁) :
    env.Ready (U ∪ issued st.supply.issued st₁.supply.issued) st₁ := by
  constructor
  · exact Set.union_subset (henv.known.trans (issued_mono le_rfl h.supply))
      (issued_mono (Nat.zero_le _) le_rfl)
  · exact fun e he => (henv.sorted e he).mono Set.subset_union_left
  · exact henv.headsRooted
  · intro x hx info hinfo
    rw [h.inProgress] at hx
    exact (henv.pending x hx info hinfo).mono Set.subset_union_left

theorem insert (henv : env.Ready U st) {t : Ty} (ht : t.Simple U) (x : Name) :
    (env.insert x ⟨.const, t⟩).Ready U st := by
  constructor
  · exact henv.known
  · intro e he
    rcases List.mem_append.1 he with he | he
    · exact henv.sorted e he
    · rw [List.mem_singleton.1 he]
      exact ht.vars.sorted subset_rfl
  · intro e he
    rcases List.mem_append.1 he with he | he
    · exact henv.headsRooted e he
    · rw [List.mem_singleton.1 he]
      exact ht.headsRooted
  · intro y hy info hinfo
    rw [lookup?_insert] at hinfo
    split at hinfo
    · cases hinfo
      exact ht.vars
    · exact henv.pending y hy info hinfo

end TypeEnv.Ready

/-! ## Finding solutions -/

/-- What has to be found: types under assignments. -/
abbrev Problem := Assignment → Ty → Prop

/-- A computation takes new metavariables and returns a type that may have the values of a
problem. -/
def Chooses {β : Type} (view : β → Ty) (U : Set String) (st : ElaborationState)
    (m : ElaborationM β) (A : Problem) : Prop :=
  Ends m st
    (fun b st' => Issues st st' ∧
      (view b).Simple (U ∪ issued st.supply.issued st'.supply.issued) ∧
      (∀ v, A v ((view b).value v)) ∧
      ∀ v a, A v a → ∃ w, w.Agrees st.supply.issued v ∧ (view b).value w = a)
    fun _ => ∀ v a, ¬ A v a

/-- A computation that goes on in state `st` finds the solutions of a problem, and what it
returns makes a step of inference from `U` and `st₀`: every assignment under which the
result holds is a solution, every solution can be changed into such an assignment by new
choices for new metavariables, and without a result there is no solution. -/
def Finds {α : Type} (view : α → Ty) (U : Set String) (st₀ st : ElaborationState)
    (m : ElaborationM (Inferred α)) (P : Problem) : Prop :=
  Ends m st
    (fun r st' => ∃ U', Progress U st₀ r.2 U' st' ∧ (view r.1).Simple U' ∧
      (∀ v, r.2.Holds v → P v ((view r.1).value v)) ∧
      ∀ v τ, P v τ → ∃ w, w.Agrees st.supply.issued v ∧ r.2.Holds w ∧ (view r.1).value w = τ)
    fun _ => ∀ v τ, ¬ P v τ

namespace Finds

variable {α β : Type} {view : α → Ty} {U₀ U V : Set String} {st₀ st st₁ : ElaborationState}
  {m : ElaborationM β} {f : β → ElaborationM (Inferred α)} {P : Problem} {s : Subst}
  {t u : Ty} {loc : Loc}

theorem congr {m : ElaborationM (Inferred α)} {Q : Problem} (h : Finds view U₀ st₀ st m P)
    (hPQ : ∀ v τ, P v τ ↔ Q v τ) : Finds view U₀ st₀ st m Q := by
  have hsame : P = Q := by
    funext v τ
    exact propext (hPQ v τ)
  exact hsame ▸ h

theorem step (h : Ends m st (fun a st₁ => st.supply.issued ≤ st₁.supply.issued ∧
      ∃ Q : Problem, (∀ v τ, Q v τ → P v τ) ∧
        (∀ v τ, P v τ → ∃ w, w.Agrees st.supply.issued v ∧ Q w τ) ∧
        Finds view U₀ st₀ st₁ (f a) Q) fun _ => ∀ v τ, ¬ P v τ) :
    Finds view U₀ st₀ st (m >>= f) P := by
  refine Ends.bind h fun a st₁ hstep => ?_
  obtain ⟨hsupply, Q, hsound, hcomplete, hf⟩ := hstep
  refine hf.imp (fun r st' hr => ?_) fun st' hnone v τ hP => ?_
  · obtain ⟨U', hprogress, hview, hsound', hcomplete'⟩ := hr
    refine ⟨U', hprogress, hview, fun v hv => hsound _ _ (hsound' v hv), fun v τ hP => ?_⟩
    obtain ⟨w, hw, hQ⟩ := hcomplete v τ hP
    obtain ⟨w', hw', hholds⟩ := hcomplete' w τ hQ
    exact ⟨w', hw'.trans hsupply hw, hholds⟩
  · obtain ⟨w, -, hQ⟩ := hcomplete v τ hP
    exact hnone w τ hQ

theorem pure {a : α} (hs : Progress U₀ st₀ s U st) (ha : (view a).Simple U)
    (hP : ∀ v τ, s.Holds v → (P v τ ↔ τ = (view a).value v)) :
    Finds view U₀ st₀ st (Pure.pure (a, s)) fun v τ => s.Holds v ∧ P v τ := by
  refine ⟨U, hs, ha, fun v hv => ⟨hv, (hP v _ hv).2 rfl⟩, fun v τ hv => ?_⟩
  exact ⟨v, .refl v, hv.1, ((hP v τ hv.1).1 hv.2).symm⟩

theorem throw {e : ElaborationError} (hP : ∀ v τ, ¬ P v τ) :
    Finds view U₀ st₀ st (MonadExcept.throw e) P := hP

theorem start {m : ElaborationM (Inferred α)}
    (h : Finds view U₀ st₀ st m fun v τ => Subst.Holds ∅ v ∧ P v τ) :
    Finds view U₀ st₀ st m P :=
  h.congr fun _ _ => and_iff_right Ty.Subst.holds_empty

theorem unify {f : Subst → ElaborationM (Inferred α)} {P Q : Problem} (hs : Progress V st₁ s U st)
    (ht : t.Simple U) (hu : u.Simple U)
    (hP : ∀ v τ, s.Holds v → (P v τ ↔ t.value v = u.value v ∧ Q v τ))
    (hf : ∀ s₁ U₁, Progress U st s₁ U₁ st →
      Finds view U₀ st₀ st (f s₁) fun v τ => (s₁.compose s).Holds v ∧ Q v τ) :
    Finds view U₀ st₀ st (ElaborationM.unify t u loc >>= f) fun v τ => s.Holds v ∧ P v τ := by
  have hprincipal := Ty.unify_principal loc ht.headsRooted hu.headsRooted
  refine step ?_
  unfold Ends ElaborationM.unify
  cases hunify : t.unify u loc with
  | error e =>
    rw [hunify] at hprincipal
    exact fun v τ hv => hprincipal v ((hP v τ hv.1).1 hv.2).1
  | ok s₁ =>
    rw [hunify] at hprincipal
    obtain ⟨U₁, hmaps, -⟩ := Ty.unify_sound ht.vars hu.vars hunify
    have hs₁ : Progress U st s₁ U₁ st := ⟨.of_maps hmaps hs.finish, rfl, hprincipal.1⟩
    have hsame : ∀ v τ, (s₁.compose s).Holds v ∧ Q v τ ↔ s.Holds v ∧ P v τ := by
      intro v τ
      rw [hs.holds_compose hs₁, hprincipal.2 v, and_assoc]
      exact and_congr_right fun hv => (hP v τ hv).symm
    refine ⟨le_rfl, _, fun v τ hv => (hsame v τ).1 hv, fun v τ hv => ?_, hf s₁ U₁ hs₁⟩
    exact ⟨v, .refl v, (hsame v τ).2 hv⟩

theorem choose {view' : β → Ty} {A P : Problem} {Q : Assignment → Ty → Ty → Prop}
    (hm : Chooses view' U st m A) (hs : Progress V st₁ s U st)
    (hP : ∀ v τ, s.Holds v → (P v τ ↔ ∃ a, A v a ∧ Q v a τ))
    (hQ : ∀ {v w}, w.Agrees st.supply.issued v → Q w = Q v)
    (hf : ∀ b st', Issues st st' →
      (view' b).Simple (U ∪ issued st.supply.issued st'.supply.issued) →
      Finds view U₀ st₀ st' (f b) fun v τ => s.Holds v ∧ Q v ((view' b).value v) τ) :
    Finds view U₀ st₀ st (m >>= f) fun v τ => s.Holds v ∧ P v τ := by
  refine step (Ends.imp hm (fun b st' hb => ?_) fun st' hnone v τ hv => ?_)
  · obtain ⟨hissues, hsimple, hsound, hcomplete⟩ := hb
    refine ⟨hissues.supply, _, fun v τ hv => ⟨hv.1, (hP v τ hv.1).2 ⟨_, hsound v, hv.2⟩⟩,
      fun v τ hv => ?_, hf b st' hissues hsimple⟩
    obtain ⟨a, hA, ha⟩ := (hP v τ hv.1).1 hv.2
    obtain ⟨w, hw, rfl⟩ := hcomplete v a hA
    refine ⟨w, hw, (hs.holds_congr hw).2 hv.1, ?_⟩
    rwa [hQ hw]
  · obtain ⟨a, hA, -⟩ := (hP v τ hv.1).1 hv.2
    exact hnone v a hA

end Finds

/-! ## New types -/

namespace Chooses

variable {U : Set String} {st : ElaborationState}

theorem freshMeta : Chooses (fun t => t) U st ElaborationM.freshMeta fun _ _ => True := by
  refine ⟨⟨⟨Nat.le_succ _, rfl, rfl⟩, rfl⟩,
    ⟨.inr (mem_issued le_rfl (Nat.lt_succ_self _)), trivial⟩, fun _ => trivial,
    fun v a _ => ⟨_, Ty.Assignment.agrees_update v st.supply.issued a, ?_⟩⟩
  exact Function.update_self ..

theorem chainOpTy (o : ChainOp) :
    Chooses (fun t => t) U st (ElaborationM.chainOpTy o) fun _ => o.Admits := by
  have hnew : st.supply.nextMeta.Simple
      (U ∪ issued st.supply.issued st.supply.advance.issued) :=
    ⟨.inr (mem_issued le_rfl (Nat.lt_succ_self _)), trivial⟩
  cases o with
  | eq | neq =>
    refine ⟨⟨⟨Nat.le_succ _, rfl, rfl⟩, rfl⟩, ?_, fun v => ⟨v (st.supply.next "t").text, rfl⟩, ?_⟩
    · exact Ty.simple_func.2 ⟨hnew, Ty.simple_func.2 ⟨hnew, Ty.simple_bool⟩⟩
    · rintro v _ ⟨a, rfl⟩
      refine ⟨_, Ty.Assignment.agrees_update v st.supply.issued a, ?_⟩
      simp [Ty.funcs, Supply.nextMeta, Ty.value, Ty.value_bool]
  | lt | lte | gt | gte =>
    refine ⟨.refl st, ?_, fun v => rfl, fun v a ha => ⟨v, .refl v, ha.symm⟩⟩
    exact Ty.simple_func.2 ⟨Ty.simple_int, Ty.simple_func.2 ⟨Ty.simple_int, Ty.simple_bool⟩⟩
  | eqProp =>
    refine ⟨.refl st, ?_, fun v => rfl, fun v a ha => ⟨v, .refl v, ha.symm⟩⟩
    exact Ty.simple_func.2 ⟨Ty.simple_bool, Ty.simple_func.2 ⟨Ty.simple_bool, Ty.simple_bool⟩⟩

end Chooses

namespace ElaborationM

variable {st : ElaborationState}

theorem freshMetas_ends (names : List String) : Ends (freshMetas names) st
    (fun metas st' => Issues st st' ∧ metas.map (·.1) = names ∧
      (∀ e ∈ metas, e.2.Simple (issued st.supply.issued st'.supply.issued)) ∧
      ∀ (v : Assignment) (g : String → Ty), ∃ w : Assignment, w.Agrees st.supply.issued v ∧
        ∀ e ∈ metas, e.2.value w = g e.1)
    fun _ => False := by
  induction names generalizing st with
  | nil => exact ⟨.refl st, rfl, by simp, fun v _ => ⟨v, .refl v, by simp⟩⟩
  | cons x names ih =>
    unfold freshMetas
    rw [List.mapM_cons]
    refine Ends.bind (Q := fun e st₁ => e = (x, .metavar (st.supply.next "t")) ∧
      st₁ = { st with supply := st.supply.advance }) ⟨rfl, rfl⟩ ?_
    rintro _ _ ⟨rfl, rfl⟩
    refine ih.bind fun metas st' hmetas => ?_
    obtain ⟨hissues, hnames, hsimple, hchoice⟩ := hmetas
    have hlt : st.supply.issued + 1 ≤ st'.supply.issued := hissues.supply
    refine ⟨⟨⟨by omega, hissues.inProgress, hissues.annotated⟩, hissues.context⟩, by simp [hnames],
      List.forall_mem_cons.2 ⟨⟨mem_issued le_rfl hlt, trivial⟩, fun e he => ?_⟩, fun v g => ?_⟩
    · exact (hsimple e he).mono (issued_mono (Nat.le_succ _) le_rfl)
    · -- the first choice stays as it is while the others are made
      obtain ⟨w, hw, hrest⟩ := hchoice (Function.update v (st.supply.next "t").text (g x)) g
      refine ⟨w, hw.trans (Nat.le_succ _) (Ty.Assignment.agrees_update v _ _),
        List.forall_mem_cons.2 ⟨?_, hrest⟩⟩
      have hfirst : (st.supply.next "t").text ∈ issued 0 (st.supply.issued + 1) :=
        mem_issued (Nat.zero_le _) (Nat.lt_succ_self _)
      exact (hw _ (not_mem_unissued hfirst)).trans (Function.update_self ..)

end ElaborationM

namespace Expr

open ElaborationM

variable {env : TypeEnv} {U : Set String} {st : ElaborationState}

theorem instance_ends {t : Ty} (hU : U ⊆ issued 0 st.supply.issued) (ht : t.Sorted U)
    (hroots : t.HeadsRooted) : Ends (freshMetas t.rigidVars.toList) st
    (fun metas st' => Issues st st' ∧
      (t.subst (.ofList metas)).Simple (U ∪ issued st.supply.issued st'.supply.issued) ∧
      (∀ v, t.Gives v ((t.subst (.ofList metas)).value v)) ∧
      ∀ v a, t.Gives v a → ∃ w : Assignment, w.Agrees st.supply.issued v ∧
        (t.subst (.ofList metas)).value w = a)
    fun _ => False := by
  have hmeta := hU.trans (issued_subset_metaNames _ _)
  refine (freshMetas_ends t.rigidVars.toList).imp (fun metas st' hmetas => ?_) fun _ h => h
  obtain ⟨hissues, hnames, hsimple, hchoice⟩ := hmetas
  have hrigid : ∀ y ∈ t.rigidVars, ∃ m, (NameMap.ofList metas).get? y = some m := by
    intro y hy
    rw [← Option.isSome_iff_exists, NameMap.isSome_get?_ofList, hnames]
    exact hy
  have hfixed := ht.get?_instance hmeta hnames
  refine ⟨hissues, ⟨?_, ?_⟩, fun v => ⟨v.after (.ofList metas), ?_⟩, ?_⟩
  · exact ht.over_instance hmeta hnames fun e he => (hsimple e he).vars
  · exact hroots.subst fun y m hm => (hsimple _ (NameMap.mem_of_get?_ofList hm)).headsRooted
  · rw [Ty.value_subst]
    refine Ty.value_congr fun y hy => ?_
    by_cases hy' : y ∈ metaNames
    · have hy := (Ty.mem_metavars_or_rigidVars hy).resolve_right fun hr =>
        ht.not_mem_metaNames y hr hy'
      simp [Ty.Assignment.join_of_mem hy', Assignment.after, hfixed y hy]
    · exact Ty.Assignment.join_of_not_mem hy'
  · rintro v a ⟨w₀, rfl⟩
    obtain ⟨w, hw, hvalues⟩ := hchoice v w₀
    refine ⟨w, hw, ?_⟩
    rw [Ty.value_subst]
    refine Ty.value_congr fun y hy => ?_
    rcases Ty.mem_metavars_or_rigidVars hy with hy | hy
    · rw [Ty.Assignment.join_of_mem (hmeta (ht.mem y hy)),
        ← hw y (not_mem_unissued (hU (ht.mem y hy)))]
      simp [Assignment.after, hfixed y hy]
    · obtain ⟨m, hm⟩ := hrigid y hy
      rw [Ty.Assignment.join_of_not_mem (ht.not_mem_metaNames y hy),
        ← hvalues _ (NameMap.mem_of_get?_ofList hm)]
      simp [Assignment.after, hm]

theorem chooses_instantiate {x : String} {t : Ty} (hU : U ⊆ issued 0 st.supply.issued)
    (ht : t.Sorted U) (hroots : t.HeadsRooted) (hpending : x ∈ st.inProgress → t.Over U) :
    Chooses (fun t => t) U st (instantiate x t) fun v => t.Gives v := by
  have hmeta := hU.trans (issued_subset_metaNames _ _)
  unfold Chooses Ends
  rw [instantiate_apply]
  by_cases hx : x ∈ st.inProgress
  · rw [if_pos hx]
    have hover := hpending hx
    refine ⟨.refl st, ⟨hover.mono Set.subset_union_left, hroots⟩,
      fun v => (hover.gives_iff hmeta).2 rfl, fun v a ha => ?_⟩
    exact ⟨v, .refl v, (hover.gives_iff hmeta).1 ha⟩
  · rw [if_neg hx]
    exact Ends.bind ((instance_ends hU ht hroots).imp (fun _ _ h => h) fun _ h => h.elim)
      fun _ _ hmetas => hmetas

theorem chooses_skolemize {t : Ty} (hU : U ⊆ issued 0 st.supply.issued) (ht : t.Sorted U)
    (hroots : t.HeadsRooted) : Chooses Prod.fst U st (skolemize t) fun v => t.Gives v :=
  Ends.bind ((instance_ends hU ht hroots).imp (fun _ _ h => h) fun _ h => h.elim)
    fun _ _ hmetas => hmetas

theorem chooses_nameTy (henv : env.Ready U st) (x : Name) (loc : Loc) :
    Chooses (fun t => t) U st (nameTy env x loc) fun v => env.uses v x.text := by
  unfold nameTy
  cases hx : env.lookup? x.text with
  | none =>
    intro v a ha
    obtain ⟨info, hinfo, -⟩ := ha
    rw [hx] at hinfo
    cases hinfo
  | some info =>
    obtain ⟨e, he, rfl⟩ := TypeEnv.mem_of_lookup? hx
    have huses : (fun v => env.uses v x.text) = fun v => e.2.ty.Gives v := by
      funext v τ
      simp [TypeEnv.uses, hx]
    rw [huses]
    exact chooses_instantiate henv.known (henv.sorted e he) (henv.headsRooted e he)
      fun hpending => henv.pending _ hpending _ hx

end Expr

end GuardedCommands
