import GuardedCommands.Proofs.Soundness
import GuardedCommands.Proofs.TypedSubstitution

/-!
# Preconditions are well typed

A precondition is put together from expressions of the program, by substitution, by
connectives and by quantifiers over new variables.  No type is checked on the way.  The
result is well typed all the same if no block is passed: a name that may be assigned has
one type, so what an assignment puts in its place has this type too, and the variables of
the heap rules are integers.
-/

namespace GuardedCommands

/-! ## Parts of formulas -/

namespace TypedExpr

variable {Γ : Scope} {e l r : TypedExpr} {o : ArithOp}

theorem hasTy_ofLit (l : Lit) : (ofLit l).HasTy Γ l.ty := ⟨.lit (Setoid.refl _), Setoid.refl _⟩

variable {a b : Ty} {es : List TypedExpr}

theorem hasTy_apply {f : TypedExpr} (hf : f.WellTyped Γ) (hty : f.ty = .func a b)
    (he : e.HasTy Γ a) : (apply f e).WellTyped Γ ∧ (apply f e).ty = b := by
  unfold apply
  rw [hty]
  refine ⟨.app hf he.1 ?_, rfl⟩
  rw [hty]
  exact Ty.func_congr he.2.symm (Setoid.refl _)

theorem hasTy_neg (h : e.HasTy Γ .bool) : (neg e).HasTy Γ .bool := by
  obtain ⟨hneg, hty⟩ := hasTy_apply (f := ofOp .neg) (.arith (Setoid.refl _)) rfl h
  exact ⟨hneg, hty ▸ Setoid.refl _⟩

theorem hasTy_binary {c : Ty} (ho : o.ty = .funcs [a, b] c) (hl : l.HasTy Γ a) (hr : r.HasTy Γ b) :
    (binary o l r).HasTy Γ c := by
  obtain ⟨hf, hty⟩ := hasTy_apply (f := ofOp o) (.arith (Setoid.refl _)) ho hl
  obtain ⟨hbinary, hty⟩ := hasTy_apply hf hty hr
  exact ⟨hbinary, hty ▸ Setoid.refl _⟩

theorem hasTy_foldl (ho : o.ty = .funcs [.bool, .bool] .bool) (he : e.HasTy Γ .bool)
    (hes : ∀ e ∈ es, e.HasTy Γ .bool) : (es.foldl (binary o) e).HasTy Γ .bool := by
  induction es generalizing e with
  | nil => exact he
  | cons d es ih =>
    obtain ⟨hd, hes⟩ := List.forall_mem_cons.1 hes
    exact ih (hasTy_binary ho he hd) hes

theorem hasTy_conjunction (h : ∀ e ∈ es, e.HasTy Γ .bool) : (conjunction es).HasTy Γ .bool := by
  cases es with
  | nil => exact hasTy_ofLit _
  | cons e es =>
    obtain ⟨he, hes⟩ := List.forall_mem_cons.1 h
    exact hasTy_foldl (o := .conj) rfl he hes

theorem hasTy_disjunction (h : ∀ e ∈ es, e.HasTy Γ .bool) : (disjunction es).HasTy Γ .bool := by
  cases es with
  | nil => exact hasTy_ofLit _
  | cons e es =>
    obtain ⟨he, hes⟩ := List.forall_mem_cons.1 h
    exact hasTy_foldl (o := .disj) rfl he hes

theorem hasTy_compare {c : ChainOp}
    (hc : ∀ t : Ty, t ≈ .funcs [.int, .int] .bool → c.HasTy t) (hl : l.HasTy Γ .int)
    (hr : r.HasTy Γ .int) : (compare l c r).HasTy Γ .bool := by
  have hop : Ty.funcs [l.ty, r.ty] .bool ≈ .funcs [.int, .int] .bool :=
    Ty.func_congr hl.2 (Ty.func_congr hr.2 (Setoid.refl _))
  exact ⟨.chain hl.1 (.cons hr.1 (hc _ hop) (Setoid.refl _) .nil) (Setoid.refl _), Setoid.refl _⟩

theorem hasTy_quantify (ho : o.ty = .funcs [.bool, .bool] .bool) {v : Binder}
    (h : e.HasTy (Γ.bind v.name v.ty) .bool) :
    (quantify o [v] (ofBool true) e).HasTy Γ .bool := by
  have hop : (ofOp o).WellTyped Γ := .arith (Setoid.refl _)
  have hty : (ofOp o).ty ≈ .funcs [.bool, .bool] .bool := ho ▸ Setoid.refl _
  exact ⟨.fold (hop.not_isHash hty) hop hty (hasTy_ofLit (.bool true)).1 (Setoid.refl _) h.1
    h.2.symm h.2, h.2⟩

theorem gives_of_asName? {x : Name} (h : e.WellTyped Γ) (hx : e.asName? = some x) :
    Γ.Gives x.text e.ty := by
  cases h <;> cases hx
  · assumption
  · assumption

theorem asName?_erase {x : Name} (hx : e.asName? = some x) : e.erase.asName? = some x := by
  cases e <;> cases hx <;> rfl

end TypedExpr

/-! ## Scopes of postconditions -/

namespace Scope

variable {Γ Δ : Scope}

theorem passes_bind {v : Name} {t : Ty} {names : NameSet} (hv : v.text ∉ names) :
    Γ.Passes (Γ.bind v t) names := by
  intro x hx u hu
  have hne : x ≠ v.text := fun h => hv (h ▸ hx)
  rwa [gives_bind, if_neg hne]

theorem Assignable.gives {x : Name} {t : Ty} (h : Γ.Assignable x t) : Γ.Gives x.text t := by
  obtain ⟨info, hinfo, -, rfl⟩ := h
  rw [env, TypeEnv.lookup?_append, Option.or_eq_some_iff] at hinfo
  rcases hinfo with hfixed | ⟨hnone, hscheme⟩
  · exact .fixed hfixed
  · exact .scheme hnone hscheme ⟨∅, by simp [NameMap.mem_keys_iff], (Ty.subst_empty _).symm⟩

/-- A postcondition in `Δ` may be taken back through statements in `Γ`: it may use what they
use, and it uses what they assign at the one type it has. -/
structure Widens (Γ Δ : Scope) : Prop where
  gives : ∀ x t, Γ.Gives x t → Δ.Gives x t
  assigned : ∀ {x : Name} {t u : Ty}, Γ.Assignable x t → Δ.Gives x.text u → u = t

end Scope

theorem TypedExpr.HasTy.widen {Γ Δ : Scope} {e : TypedExpr} {t : Ty} (h : e.HasTy Γ t)
    (hΔ : Γ.Widens Δ) : e.HasTy Δ t :=
  h.passes fun x _ => hΔ.gives x

/-! ## Preconditions -/

namespace Wp

open TypedExpr

variable {Γ Δ : Scope} {o : Options} {scopes : Scopes} {post : TypedExpr} {x : Name} {t : Ty}

variable {es : List TypedExpr} {e : TypedExpr}

theorem hasTy_assign (hΔ : Γ.Widens Δ) {xs : List Name}
    (h : List.Forall₂ (fun x e => ∃ t, Γ.Assignable x t ∧ HasTy Γ e t) xs es)
    (hpost : post.HasTy Δ .bool) : (assign xs es post).HasTy Δ .bool := by
  refine hpost.substitute ⟨fun x _ _ t ht => ht, fun x _ d hd u hu => ?_⟩
  obtain ⟨⟨y, e⟩, hmem, heq⟩ := List.mem_map.1 (NameMap.mem_of_get?_ofList hd)
  cases heq
  obtain ⟨t, hy, he⟩ := (List.forall₂_iff_zip.1 h).2 hmem
  rw [hΔ.assigned hy hu]
  exact he.widen hΔ

theorem hasTy_arrayAssign (hΔ : Γ.Widens Δ) {a i v : TypedExpr} {loc : Loc}
    (hvar : ∀ x, a.erase.asName? = some x → ∃ t, Γ.Assignable x t) (ha : a.WellTyped Γ)
    (hi : i.WellTyped Γ) (hv : v.WellTyped Γ) (h : a.ty ≈ .func i.ty v.ty)
    (hpost : post.HasTy Δ .bool) (he : arrayAssign a i v loc post = .ok e) : e.HasTy Δ .bool := by
  unfold arrayAssign at he
  split at he
  · next x hx =>
    cases he
    obtain ⟨t, hassign⟩ := hvar x (asName?_erase hx)
    have hty : a.ty = t := hΔ.assigned hassign (hΔ.gives _ _ (gives_of_asName? ha hx))
    have hupdate : (update a i v a.ty loc).HasTy Γ t :=
      ⟨.update ha hi hv h (Setoid.refl _), hty ▸ Setoid.refl _⟩
    refine hpost.substitute_singleton (fun _ _ _ hu => hu) fun u hu => ?_
    rw [hΔ.assigned hassign hu]
    exact hupdate.widen hΔ
  · cases he

theorem hasTy_cells {base : TypedExpr} (hbase : base.HasTy Δ .int)
    (hes : ∀ e ∈ es, e.HasTy Δ .int) : (cells base es).HasTy Δ .bool := by
  have haddress : ∀ i, (address base i).HasTy Δ .int := by
    intro i
    unfold address
    split
    · exact hbase
    · exact hasTy_binary (o := .add) rfl hbase (hasTy_ofLit _)
  have hcells : ∀ c ∈ es.mapIdx fun i e => pointsTo (address base i) e, c.HasTy Δ .bool := by
    intro c hc
    obtain ⟨i, hi, rfl⟩ := List.mem_mapIdx.1 hc
    exact hasTy_binary (o := .pointsTo) rfl (haddress i) (hes _ (List.getElem_mem hi))
  unfold cells
  split
  · exact hasTy_ofLit .emp
  · next c cs heq =>
    rw [heq] at hcells
    obtain ⟨hc, hcs⟩ := List.forall_mem_cons.1 hcells
    exact hasTy_foldl (o := .sepConj) rfl hc hcs

theorem hasTy_heapVar (v : Name) : (ofVar v .int).HasTy (Δ.bind v .int) .int :=
  ⟨.var (Scope.gives_bind.2 (by rw [if_pos rfl])), Setoid.refl _⟩

theorem hasTy_substitute_heapVar (hΔ : Γ.Widens Δ) (hx : Γ.Assignable x t) (ht : t ≈ .int)
    {v : Name} (hv : v.text ∉ post.freeVars) (hpost : post.HasTy Δ .bool) :
    (post.substitute (.singleton x.text (ofVar v .int))).HasTy (Δ.bind v .int) .bool := by
  refine hpost.substitute_singleton (Scope.passes_bind hv) fun u hu => ?_
  rw [hΔ.assigned hx hu]
  exact ⟨(hasTy_heapVar v).1, ht.symm⟩

theorem hasTy_alloc (hΔ : Γ.Widens Δ) (hx : Γ.Assignable x t) (ht : t ≈ .int)
    (hes : ∀ e ∈ es, HasTy Γ e .int) (hpost : post.HasTy Δ .bool) :
    (alloc o scopes x es post).HasTy Δ .bool := by
  unfold alloc
  dsimp only
  have hv := heapVar_not_mem o scopes ((post.freeVars ∪ namesOf es).insert x.text)
  simp only [NameSet.mem_insert, NameSet.mem_union, not_or] at hv
  obtain ⟨-, hfree, hnames⟩ := hv
  refine hasTy_quantify (o := .conj) rfl (hasTy_binary (o := .implies) rfl ?_ ?_)
  · refine hasTy_cells (hasTy_heapVar _) fun e he => ((hes e he).widen hΔ).passes ?_
    exact Scope.passes_bind fun h => hnames (NameSet.mem_unionMap.2 ⟨e, he, h⟩)
  · exact hasTy_substitute_heapVar hΔ hx ht hfree hpost

theorem hasTy_lookup (hΔ : Γ.Widens Δ) (hx : Γ.Assignable x t) (ht : t ≈ .int) (he : HasTy Γ e .int)
    (hpost : post.HasTy Δ .bool) : (lookup o scopes x e post).HasTy Δ .bool := by
  unfold lookup
  dsimp only
  have hv := heapVar_not_mem o scopes ((post.freeVars ∪ e.freeVars).insert x.text)
  simp only [NameSet.mem_insert, NameSet.mem_union, not_or] at hv
  obtain ⟨-, hfree, hnames⟩ := hv
  have hcell := hasTy_binary (o := .pointsTo) rfl ((he.widen hΔ).passes (Scope.passes_bind hnames))
    (hasTy_heapVar (Δ := Δ) _)
  refine hasTy_quantify (o := .disj) rfl (hasTy_binary (o := .conj) rfl hcell ?_)
  exact hasTy_binary (o := .sepImp) rfl hcell (hasTy_substitute_heapVar hΔ hx ht hfree hpost)

theorem hasTy_ownedCell {cell : TypedExpr} {avoid : NameSet} (hcell : cell.HasTy Δ .int)
    (havoid : ∀ x ∈ cell.freeVars, x ∈ avoid) : (ownedCell o scopes cell avoid).HasTy Δ .bool := by
  have hv := heapVar_not_mem o scopes avoid
  refine hasTy_quantify (o := .disj) rfl (hasTy_binary (o := .pointsTo) rfl ?_ (hasTy_heapVar _))
  exact hcell.passes (Scope.passes_bind fun h => hv (havoid _ h))

mutual

theorem hasTy_stmt {Γ Δ : Scope} (hΔ : Γ.Widens Δ) {post : TypedExpr}
    (hpost : post.HasTy Δ .bool) {s : TypedStmt} {e : TypedExpr} :
    s.WellTyped Γ → s.hasBlock = false → stmt o scopes post s = .ok e → e.HasTy Δ .bool
  | .skip, _, he | .assert _, _, he | .invariant _ _, _, he | .hole, _, he => by
    rw [stmt] at he
    cases he
    exact hpost
  | .abort, _, he => by
    rw [stmt] at he
    cases he
    exact hasTy_ofLit (.bool false)
  | .assign h, _, he => by
    rw [stmt] at he
    cases he
    exact hasTy_assign hΔ h hpost
  | .arrayAssign hvar ha hi hv h, _, he => by
    rw [stmt] at he
    exact hasTy_arrayAssign hΔ hvar ha hi hv h hpost he
  | .loop _, _, he => by
    rw [stmt] at he
    cases he
  | .cond h, hblock, he => by
    rw [stmt] at he
    obtain ⟨es, hes, he⟩ := Except.ok_of_bind he
    cases he
    exact hasTy_conjunction (hasTy_cmds hΔ hpost h (by rwa [Stmt.hasBlock] at hblock) hes)
  | .alloc hx ht h, _, he => by
    rw [stmt] at he
    cases he
    exact hasTy_alloc hΔ hx ht h hpost
  | .lookup hx ht h, _, he => by
    rw [stmt] at he
    cases he
    exact hasTy_lookup hΔ hx ht h hpost
  | .mutate hc hv, _, he => by
    rw [stmt] at he
    cases he
    have hc := hc.widen hΔ
    refine hasTy_binary (o := .sepConj) rfl (hasTy_ownedCell hc ?_) ?_
    · exact fun x hx => NameSet.mem_union.2 (.inl (NameSet.mem_union.2 (.inr hx)))
    · exact hasTy_binary (o := .sepImp) rfl
        (hasTy_binary (o := .pointsTo) rfl hc (hv.widen hΔ)) hpost
  | .dispose hc, _, he => by
    rw [stmt] at he
    cases he
    refine hasTy_binary (o := .sepConj) rfl (hasTy_ownedCell (hc.widen hΔ) ?_) hpost
    exact fun x hx => NameSet.mem_union.2 (.inr hx)
  | .block .., hblock, _ => by
    rw [Stmt.hasBlock] at hblock
    cases hblock

theorem hasTy_cmds {Γ Δ : Scope} (hΔ : Γ.Widens Δ) {post : TypedExpr}
    (hpost : post.HasTy Δ .bool) {cs : List TypedCmd} {es : List TypedExpr} :
    Stmt.CmdsTyped Γ cs → Stmt.cmdsHaveBlock cs = false → cmds o scopes post cs = .ok es →
      ∀ e ∈ es, e.HasTy Δ .bool
  | .nil, _, hes => by
    rw [cmds] at hes
    cases hes
    simp
  | .cons hguard hbody hcmds, hblock, hes => by
    rw [Stmt.cmdsHaveBlock, Bool.or_eq_false_iff] at hblock
    rw [cmds] at hes
    obtain ⟨body, hwp, hes⟩ := Except.ok_of_bind hes
    obtain ⟨rest, hrest, hes⟩ := Except.ok_of_bind hes
    cases hes
    refine List.forall_mem_cons.2 ⟨?_, hasTy_cmds hΔ hpost hcmds hblock.2 hrest⟩
    exact hasTy_binary (o := .implies) rfl (hguard.widen hΔ)
      (hasTy_list hΔ hpost hbody hblock.1 hwp)

theorem hasTy_list {Γ Δ : Scope} (hΔ : Γ.Widens Δ) {post : TypedExpr}
    (hpost : post.HasTy Δ .bool) {ss : List TypedStmt} {e : TypedExpr} :
    Stmt.ListTyped Γ ss → Stmt.listHasBlock ss = false → list o scopes post ss = .ok e →
      e.HasTy Δ .bool
  | .nil, _, he => by
    rw [list] at he
    cases he
    exact hpost
  | .cons h hrest, hblock, he => by
    rw [Stmt.listHasBlock, Bool.or_eq_false_iff] at hblock
    rw [list] at he
    obtain ⟨mid, hmid, he⟩ := Except.ok_of_bind he
    exact hasTy_stmt hΔ (hasTy_list hΔ hpost hrest hblock.2 hmid) h hblock.1 he

end

end Wp

end GuardedCommands
