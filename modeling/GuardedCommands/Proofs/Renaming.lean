import GuardedCommands.Proofs.Execution
import GuardedCommands.Proofs.Nesting

/-!
# Renamed programs run alike

A program whose local names have been replaced by new ones makes the same steps,
on states that give the new names the values of the old ones.  This needs the new
names to be different from each other and from every name in sight, those that
the blocks inside declare included; and it needs that no block inside declares a
name that is renamed, which holds because blocks do not hide visible names.
-/

namespace GuardedCommands

universe u

/-! ## Programs in scope -/

def TypedExpr.Within (Γ : Set String) (e : TypedExpr) : Prop := ∀ x ∈ e.freeVars, x ∈ Γ

namespace Stmt

mutual

/-- Every name that a statement uses is visible or declared by a block around it, and no
block hides a visible name.  Commands without a meaning may use any names. -/
def Scoped : Set String → TypedStmt → Prop
  | _, .skip _ | _, .abort _ | _, .hole .. | _, .alloc .. | _, .lookup .. | _, .mutate ..
  | _, .dispose .. => True
  | Γ, .assign xs es _ => (∀ x ∈ xs, x.text ∈ Γ) ∧ ∀ e ∈ es, e.Within Γ
  | Γ, .arrayAssign a i v _ => a.Within Γ ∧ i.Within Γ ∧ v.Within Γ
  | Γ, .assert e _ => e.Within Γ
  | Γ, .invariant e bound _ => e.Within Γ ∧ ∀ b ∈ bound, b.Within Γ
  | Γ, .loop cs _ | Γ, .cond cs _ => CmdsScoped Γ cs
  | Γ, .block b _ =>
    b.defns = [] ∧ (∀ x ∈ b.localNames, x ∉ Γ) ∧ ListScoped (Γ ∪ {x | x ∈ b.localNames}) b.stmts

def CmdsScoped : Set String → List TypedCmd → Prop
  | _, [] => True
  | Γ, c :: cs => c.guard.Within Γ ∧ ListScoped Γ c.body ∧ CmdsScoped Γ cs

def ListScoped : Set String → List TypedStmt → Prop
  | _, [] => True
  | Γ, s :: ss => s.Scoped Γ ∧ ListScoped Γ ss

end

variable {Γ : Set String} {cs : List TypedCmd}

theorem cmdsScoped_iff : CmdsScoped Γ cs ↔ ∀ c ∈ cs, c.guard.Within Γ ∧ ListScoped Γ c.body := by
  induction cs with
  | nil => simp [CmdsScoped]
  | cons c cs ih => simp [CmdsScoped, ih, and_assoc]

theorem listScoped_iff {ss : List TypedStmt} : ListScoped Γ ss ↔ ∀ s ∈ ss, s.Scoped Γ := by
  induction ss with
  | nil => simp [ListScoped]
  | cons s ss ih => simp [ListScoped, ih]

theorem Scoped.assertion_within {s : TypedStmt} (hs : s.Scoped Γ) :
    ∀ e ∈ s.assertion?, e.Within Γ := by
  intro e he
  cases s <;> simp_all [assertion?, Scoped]

theorem blockNames_subset_of_mem_cmds {c : TypedCmd} (hc : c ∈ cs) {x : String}
    (hx : x ∈ blockNamesList c.body) : x ∈ blockNamesCmds cs := by
  induction cs with
  | nil => cases hc
  | cons d cs ih =>
    rw [blockNamesCmds, NameSet.mem_union]
    rcases List.mem_cons.1 hc with rfl | hc
    · exact .inl hx
    · exact .inr (ih hc)

end Stmt

theorem TypedProgram.map_boundNames {b : TypedProgram} (hdefns : b.defns = []) :
    (boundNames b).map (·.text) = b.localNames := by
  simp [boundNames, Block.localNames, hdefns]

namespace TypedExpr

variable {V : Type u}

variable {e : TypedExpr}

theorem eval_of_asName? {I : Interpretation V} {σ : Valuation V} {x : Name}
    (h : e.asName? = some x) : e.eval I σ = σ x.text := by
  cases e <;> simp_all [asName?, eval]

theorem freeVars_of_asName? {x : Name} (h : e.asName? = some x) : e.freeVars = {x.text} := by
  cases e <;> simp_all [asName?, freeVars]

end TypedExpr

/-! ## Renamings -/

namespace Renaming

def text (ρ : Renaming) (x : String) : String := (ρ.names.get? x).getD x

theorem text_of_none {ρ : Renaming} {x : String} (h : ρ.names.get? x = none) : ρ.text x = x := by
  simp [text, h]

theorem text_of_some {ρ : Renaming} {x y : String} (h : ρ.names.get? x = some y) :
    ρ.text x = y := by
  simp [text, h]

structure Consistent (ρ : Renaming) : Prop where
  kept : ∀ x, ρ.names.get? x = none → ρ.exprs.get? x = none
  renamed : ∀ x y, ρ.names.get? x = some y →
    ∃ e, ρ.exprs.get? x = some e ∧ e.asName? = some (.bare y)
  injective : ∀ x x' y, ρ.names.get? x = some y → ρ.names.get? x' = some y → x = x'

def Avoids (ρ : Renaming) (names : Set String) : Prop :=
  ∀ x y, ρ.names.get? x = some y → y ∉ names

structure Over (ρ : Renaming) (Δ : Set String) : Prop where
  old : ∀ x y, ρ.names.get? x = some y → x ∈ Δ
  new : ρ.Avoids Δ

variable {ρ : Renaming} {Δ : Set String}

theorem Over.injOn (hρ : ρ.Consistent) (hΔ : ρ.Over Δ) : Set.InjOn ρ.text Δ := by
  intro x hx y hy hxy
  cases hnx : ρ.names.get? x with
  | none =>
    rw [text_of_none hnx] at hxy
    cases hny : ρ.names.get? y with
    | none => rwa [text_of_none hny] at hxy
    | some y' =>
      rw [text_of_some hny] at hxy
      subst hxy
      exact absurd hx (hΔ.new y x hny)
  | some x' =>
    rw [text_of_some hnx] at hxy
    cases hny : ρ.names.get? y with
    | none =>
      rw [text_of_none hny] at hxy
      subst hxy
      exact absurd hy (hΔ.new x x' hnx)
    | some y' =>
      rw [text_of_some hny] at hxy
      subst hxy
      exact hρ.injective x y x' hnx hny

theorem text_of_not_mem (hΔ : ρ.Over Δ) {x : String} (hx : x ∉ Δ) : ρ.text x = x := by
  cases hn : ρ.names.get? x with
  | none => exact text_of_none hn
  | some y => exact absurd (hΔ.old x y hn) hx

theorem not_mem_image {x : String} (hx : x ∉ Δ) (hnew : ρ.Avoids {x}) : x ∉ ρ.text '' Δ := by
  rintro ⟨z, hz, rfl⟩
  cases hn : ρ.names.get? z with
  | none =>
    rw [text_of_none hn] at hx
    exact hx hz
  | some y => exact hnew z y hn (text_of_some hn).symm

theorem Avoids.mono {a b : Set String} (h : ρ.Avoids b) (hab : a ⊆ b) : ρ.Avoids a :=
  fun x y hxy hy => h x y hxy (hab hy)

theorem Over.union (hΔ : ρ.Over Δ) {names : Set String} (hnames : ρ.Avoids names) :
    ρ.Over (Δ ∪ names) := by
  refine ⟨fun x y hxy => .inl (hΔ.old x y hxy), ?_⟩
  rintro x y hxy (hy | hy)
  · exact hΔ.new x y hxy hy
  · exact hnames x y hxy hy

theorem image_union (hΔ : ρ.Over Δ) {names : Set String} (hnames : ∀ x ∈ names, x ∉ Δ) :
    ρ.text '' (Δ ∪ names) = ρ.text '' Δ ∪ names := by
  rw [Set.image_union]
  congr 1
  have hself : ∀ x ∈ names, ρ.text x = id x := fun x hx => text_of_not_mem hΔ (hnames x hx)
  rw [Set.image_congr hself, Set.image_id]

variable {hidden : NameSet} {b : TypedProgram}

theorem without_eq_self (hρ : ρ.Consistent) (h : ∀ x y, ρ.names.get? x = some y → x ∉ hidden) :
    ρ.without hidden = ρ := by
  have hnames : ρ.names.filterKeys (!hidden.contains ·) = ρ.names := by
    refine NameMap.filterKeys_eq_self fun x hx => ?_
    obtain ⟨y, hy⟩ := Option.isSome_iff_exists.1 hx
    simpa [NameSet.contains] using h x y hy
  have hexprs : ρ.exprs.filterKeys (!hidden.contains ·) = ρ.exprs := by
    refine NameMap.filterKeys_eq_self fun x hx => ?_
    cases hn : ρ.names.get? x with
    | none => simp [hρ.kept x hn] at hx
    | some y => simpa [NameSet.contains] using h x y hn
  rw [without, hnames, hexprs]

theorem get?_names_without (x : String) :
    (ρ.without hidden).names.get? x = if x ∈ hidden then none else ρ.names.get? x := by
  by_cases hx : x ∈ hidden <;> simp [without, NameSet.contains, hx]

theorem text_without (x : String) :
    (ρ.without hidden).text x = if x ∈ hidden then x else ρ.text x := by
  by_cases hx : x ∈ hidden <;> simp [text, get?_names_without, hx]

theorem renamed_of_without {x y : String} (h : (ρ.without hidden).names.get? x = some y) :
    x ∉ hidden ∧ ρ.names.get? x = some y := by
  rw [get?_names_without] at h
  split at h
  · cases h
  · next hx => exact ⟨hx, h⟩

theorem Consistent.without (hρ : ρ.Consistent) (hidden : NameSet) :
    (ρ.without hidden).Consistent := by
  have hexprs : ∀ x, (ρ.without hidden).exprs.get? x =
      if x ∈ hidden then none else ρ.exprs.get? x := by
    intro x
    by_cases hx : x ∈ hidden <;> simp [Renaming.without, NameSet.contains, hx]
  refine ⟨fun x hx => ?_, fun x y hxy => ?_, fun x x' y hxy hxy' => ?_⟩
  · rw [get?_names_without] at hx
    rw [hexprs]
    split
    · rfl
    · next hmem => exact hρ.kept x (by simpa [hmem] using hx)
  · obtain ⟨hx, hxy⟩ := renamed_of_without hxy
    rw [hexprs, if_neg hx]
    exact hρ.renamed x y hxy
  · exact hρ.injective x x' y (renamed_of_without hxy).2 (renamed_of_without hxy').2

theorem Avoids.without {names : Set String} (h : ρ.Avoids names) (hidden : NameSet) :
    (ρ.without hidden).Avoids names :=
  fun x y hxy => h x y (renamed_of_without hxy).2

theorem Over.without (hΔ : ρ.Over Δ) (hidden : NameSet) :
    (ρ.without hidden).Over Δ :=
  ⟨fun x y hxy => hΔ.old x y (renamed_of_without hxy).2, hΔ.new.without hidden⟩

/-! ## What a renamed expression says -/

section Expressions

variable {V : Type u} {I : Interpretation V}

theorem eval_expr (hρ : ρ.Consistent) (τ : Valuation V) (e : TypedExpr) :
    (ρ.expr e).eval I τ = e.eval I (fun x => τ (ρ.text x)) := by
  rw [expr, TypedExpr.eval_substitute]
  refine e.eval_congr I fun x _ => ?_
  cases hn : ρ.names.get? x with
  | none => rw [Valuation.through_of_none (hρ.kept x hn), text_of_none hn]
  | some y =>
    obtain ⟨d, hd, hname⟩ := hρ.renamed x y hn
    rw [Valuation.through_of_some hd, TypedExpr.eval_of_asName? hname, text_of_some hn]
    rfl

variable {e : TypedExpr}

theorem within_expr (hρ : ρ.Consistent) (he : e.Within Δ) : (ρ.expr e).Within (ρ.text '' Δ) := by
  intro z hz
  rcases (TypedExpr.mem_freeVars_substitute e).1 hz with ⟨hz, hnone⟩ | ⟨x, hx, d, hd, hzd⟩
  · cases hn : ρ.names.get? z with
    | none => exact ⟨z, he z hz, text_of_none hn⟩
    | some y =>
      obtain ⟨d, hd, -⟩ := hρ.renamed z y hn
      rw [hnone] at hd
      cases hd
  · cases hn : ρ.names.get? x with
    | none =>
      rw [hρ.kept x hn] at hd
      cases hd
    | some y =>
      obtain ⟨d', hd', hname⟩ := hρ.renamed x y hn
      cases hd.symm.trans hd'
      rw [TypedExpr.freeVars_of_asName? hname, NameSet.mem_singleton] at hzd
      exact ⟨x, he x hx, by rw [text_of_some hn, hzd]; rfl⟩

theorem asName?_expr (hρ : ρ.Consistent) (e : TypedExpr) :
    (ρ.expr e).asName?.map (·.text) = e.asName?.map fun x => ρ.text x.text := by
  have hleaf : ∀ (x : Name) (d : TypedExpr), d.asName? = some x →
      ((ρ.exprs.get? x.text).getD d).asName?.map (·.text) = some (ρ.text x.text) := by
    intro x d hd
    cases hn : ρ.names.get? x.text with
    | none => simp [hρ.kept _ hn, hd, text_of_none hn]
    | some y =>
      obtain ⟨d', hd', hname⟩ := hρ.renamed _ y hn
      simp [hd', hname, text_of_some hn, Name.bare]
  cases e with
  | var x t loc | const x t loc => exact hleaf x _ rfl
  | _ => rfl

/-- One state gives the new names the values that another gives the old ones. -/
def Agree (ρ : Renaming) (Δ : Set String) (σ τ : Valuation V) : Prop :=
  ∀ x ∈ Δ, τ (ρ.text x) = σ x

variable {σ τ : Valuation V}

theorem Agree.eval (hρ : ρ.Consistent) (h : ρ.Agree Δ σ τ) (he : e.Within Δ) :
    (ρ.expr e).eval I τ = e.eval I σ := by
  rw [eval_expr hρ]
  exact e.eval_congr I fun x hx => h x (he x hx)

theorem Agree.holds (hρ : ρ.Consistent) (h : ρ.Agree Δ σ τ) (he : e.Within Δ) :
    I.Holds τ (ρ.expr e) ↔ I.Holds σ e := by
  rw [Interpretation.Holds, h.eval hρ he, Interpretation.Holds]

theorem Agree.map_eval (hρ : ρ.Consistent) (h : ρ.Agree Δ σ τ) {es : List TypedExpr}
    (hes : ∀ e ∈ es, e.Within Δ) : (es.map ρ.expr).map (·.eval I τ) = es.map (·.eval I σ) := by
  rw [List.map_map]
  exact List.map_congr_left fun e he => h.eval hρ (hes e he)

theorem map_text_name (xs : List Name) :
    (xs.map ρ.name).map (·.text) = (xs.map (·.text)).map ρ.text := by
  simp [List.map_map, Function.comp_def, name, text]

theorem Agree.update (hinj : Set.InjOn ρ.text Δ) (h : ρ.Agree Δ σ τ) {x : String} (hx : x ∈ Δ)
    (v : V) : ρ.Agree Δ (Function.update σ x v) (Function.update τ (ρ.text x) v) := by
  intro z hz
  by_cases hzx : z = x
  · subst hzx
    simp
  · have hne : ρ.text z ≠ ρ.text x := fun heq => hzx (hinj hz hx heq)
    rw [Function.update_of_ne hne, Function.update_of_ne hzx]
    exact h z hz

theorem Agree.bindAll (hinj : Set.InjOn ρ.text Δ) (h : ρ.Agree Δ σ τ) {xs : List String}
    (hxs : ∀ x ∈ xs, x ∈ Δ) (vs : List V) :
    ρ.Agree Δ (σ.bindAll xs vs) (τ.bindAll (xs.map ρ.text) vs) := by
  induction xs generalizing σ τ vs with
  | nil => simpa using h
  | cons x xs ih =>
    cases vs with
    | nil => exact h
    | cons v vs =>
      refine ih (h.update hinj (hxs x (by simp)) v) (fun z hz => ?_) vs
      exact hxs z (List.mem_cons_of_mem _ hz)

end Expressions

/-! ## Renamed programs are in scope -/

theorem stmt_block (hρ : ρ.Consistent) (hΔ : ρ.Over Δ) {loc : Loc} (hdefns : b.defns = [])
    (hlocal : ∀ x ∈ b.localNames, x ∉ Δ) :
    ρ.stmt (.block b loc) =
      .block ⟨b.defns, b.decls, b.props, ρ.stmts b.stmts, b.loc⟩ loc := by
  rw [stmt, without_eq_self hρ]
  intro x y hxy hx
  rw [NameSet.mem_ofList, TypedProgram.map_boundNames hdefns] at hx
  exact hlocal x hx (hΔ.old x y hxy)

theorem avoids_block {loc : Loc} (hdefns : b.defns = [])
    (hnew : ρ.Avoids {x | x ∈ (Stmt.block b loc : TypedStmt).blockNames}) :
    ρ.Avoids {x | x ∈ b.localNames} ∧ ρ.Avoids {x | x ∈ Stmt.blockNamesList b.stmts} := by
  simp only [Stmt.blockNames, NameSet.mem_union, NameSet.mem_ofList,
    TypedProgram.map_boundNames hdefns] at hnew
  exact ⟨hnew.mono fun x hx => .inl hx, hnew.mono fun x hx => .inr hx⟩

mutual

theorem scoped_stmt (hρ : ρ.Consistent) {Δ : Set String} (hΔ : ρ.Over Δ) :
    (s : TypedStmt) → s.Scoped Δ → ρ.Avoids {x | x ∈ s.blockNames} →
      (ρ.stmt s).Scoped (ρ.text '' Δ)
  | .skip _, _, _ | .abort _, _, _ | .hole .., _, _ | .alloc .., _, _ | .lookup .., _, _
  | .mutate .., _, _ | .dispose .., _, _ => by simp [stmt, Stmt.Scoped]
  | .assign xs es _, hs, _ => by
    simp only [stmt, Stmt.Scoped, List.forall_mem_map] at hs ⊢
    exact ⟨fun x hx => ⟨x.text, hs.1 x hx, rfl⟩, fun e he => within_expr hρ (hs.2 e he)⟩
  | .arrayAssign a i v _, hs, _ => by
    simp only [stmt, Stmt.Scoped] at hs ⊢
    exact ⟨within_expr hρ hs.1, within_expr hρ hs.2.1, within_expr hρ hs.2.2⟩
  | .assert e _, hs, _ => by
    simp only [stmt, Stmt.Scoped] at hs ⊢
    exact within_expr hρ hs
  | .invariant e bound _, hs, _ => by
    simp only [stmt, Stmt.Scoped] at hs ⊢
    refine ⟨within_expr hρ hs.1, fun b hb => ?_⟩
    obtain ⟨b', hb', rfl⟩ := Option.mem_map.1 hb
    exact within_expr hρ (hs.2 b' hb')
  | .loop cs _, hs, hnew | .cond cs _, hs, hnew => by
    simp only [stmt, Stmt.Scoped, Stmt.blockNames] at hs hnew ⊢
    exact scoped_cmds hρ hΔ cs hs hnew
  | .block b _, hs, hnew => by
    obtain ⟨hdefns, hlocal, hbody⟩ := hs
    obtain ⟨hnewLocal, hnewBody⟩ := avoids_block hdefns hnew
    rw [stmt_block hρ hΔ hdefns hlocal]
    refine ⟨hdefns, fun x hx => ?_, ?_⟩
    · have hx : x ∈ b.localNames := hx
      exact not_mem_image (hlocal x hx) (hnewLocal.mono (by simpa using hx))
    · have hlist := scoped_stmts hρ (hΔ.union hnewLocal) b.stmts hbody hnewBody
      have himage : ρ.text '' (Δ ∪ {x | x ∈ b.localNames}) =
          ρ.text '' Δ ∪ {x | x ∈ b.localNames} := image_union hΔ hlocal
      rw [himage] at hlist
      exact hlist

theorem scoped_cmds (hρ : ρ.Consistent) {Δ : Set String} (hΔ : ρ.Over Δ) :
    (cs : List TypedCmd) → Stmt.CmdsScoped Δ cs → ρ.Avoids {x | x ∈ Stmt.blockNamesCmds cs} →
      Stmt.CmdsScoped (ρ.text '' Δ) (ρ.cmds cs)
  | [], _, _ => by simp [cmds, Stmt.CmdsScoped]
  | c :: cs, hcs, hnew => by
    simp only [cmds, Stmt.CmdsScoped, Stmt.blockNamesCmds] at hcs hnew ⊢
    refine ⟨within_expr hρ hcs.1, scoped_stmts hρ hΔ c.body hcs.2.1 (hnew.mono ?_),
      scoped_cmds hρ hΔ cs hcs.2.2 (hnew.mono ?_)⟩
    · exact fun x hx => NameSet.mem_union.2 (.inl hx)
    · exact fun x hx => NameSet.mem_union.2 (.inr hx)

theorem scoped_stmts (hρ : ρ.Consistent) {Δ : Set String} (hΔ : ρ.Over Δ) :
    (ss : List TypedStmt) → Stmt.ListScoped Δ ss → ρ.Avoids {x | x ∈ Stmt.blockNamesList ss} →
      Stmt.ListScoped (ρ.text '' Δ) (ρ.stmts ss)
  | [], _, _ => by simp [stmts, Stmt.ListScoped]
  | s :: ss, hss, hnew => by
    simp only [stmts, Stmt.ListScoped, Stmt.blockNamesList] at hss hnew ⊢
    refine ⟨scoped_stmt hρ hΔ s hss.1 (hnew.mono ?_),
      scoped_stmts hρ hΔ ss hss.2 (hnew.mono ?_)⟩
    · exact fun x hx => NameSet.mem_union.2 (.inl hx)
    · exact fun x hx => NameSet.mem_union.2 (.inr hx)

end

theorem listPlain_stmts (ρ : Renaming) (ss : List TypedStmt) :
    Stmt.listPlain (ρ.stmts ss) = Stmt.listPlain ss := by
  induction ss using Stmt.nested_induction
      (S := fun s => ∀ ρ : Renaming, (ρ.stmt s).isPlain = s.isPlain)
      (C := fun cs => ∀ ρ : Renaming, Stmt.cmdsPlain (ρ.cmds cs) = Stmt.cmdsPlain cs)
      generalizing ρ with
  | simple s => cases s <;> simp_all [Stmt.isSimple, stmt, Stmt.isPlain]
  | _ =>
    simp_all only [stmt, cmds, stmts, Stmt.isPlain, Stmt.cmdsPlain, Stmt.listPlain]

/-! ## Renamed programs make the same steps -/

theorem cmds_eq_map (ρ : Renaming) (cs : List TypedCmd) :
    ρ.cmds cs = cs.map fun c => ⟨ρ.expr c.guard, ρ.stmts c.body, c.loc⟩ := by
  induction cs with
  | nil => simp [cmds]
  | cons c cs ih => simp [cmds, ih]

theorem assertion?_stmt (ρ : Renaming) (s : TypedStmt) :
    (ρ.stmt s).assertion? = s.assertion?.map ρ.expr := by
  cases s <;> simp [stmt, Stmt.assertion?]

theorem isForeign_stmt (ρ : Renaming) (s : TypedStmt) : (ρ.stmt s).isForeign = s.isForeign := by
  cases s <;> simp [stmt, Stmt.isForeign]

section Steps

variable {V : Type u} {I : Interpretation V} {Δ₀ : Set String} {σ τ : Valuation V}

/-- Tasks and the renamed ones, with the names that are visible when they begin; in the
end the names `Δ₀` are. -/
inductive RenamedTasks (ρ : Renaming) (Δ₀ : Set String) :
    Set String → List (Task V) → List (Task V) → Prop
  | nil : RenamedTasks ρ Δ₀ Δ₀ [] []
  | exec {Δ before s ts ts'} (hbefore : ∀ e ∈ before, e.Within Δ) (hs : s.Scoped Δ)
      (hnew : ρ.Avoids {x | x ∈ s.blockNames}) (rest : RenamedTasks ρ Δ₀ Δ ts ts') :
      RenamedTasks ρ Δ₀ Δ (.exec before s :: ts) (.exec (before.map ρ.expr) (ρ.stmt s) :: ts')
  | leave {Δ names outer outer' ts ts'} (hΔ : ρ.Over Δ) (hnames : ∀ x ∈ names, x ∉ Δ)
      (hnew : ρ.Avoids {x | x ∈ names}) (rest : RenamedTasks ρ Δ₀ Δ ts ts') :
      RenamedTasks ρ Δ₀ (Δ ∪ {x | x ∈ names}) (.leave names outer :: ts)
        (.leave names outer' :: ts')

inductive RenamedExecution (ρ : Renaming) (Δ₀ : Set String) : Execution V → Execution V → Prop
  | running {Δ ts ts' σ τ} (hΔ : ρ.Over Δ) (hts : RenamedTasks ρ Δ₀ Δ ts ts')
      (hagree : ρ.Agree Δ σ τ) : RenamedExecution ρ Δ₀ (.running ts σ) (.running ts' τ)
  | failed : RenamedExecution ρ Δ₀ .failed .failed

variable {ss : List TypedStmt}

theorem RenamedTasks.ofStmts {before : Option TypedExpr} {ts ts' : List (Task V)}
    (hbefore : ∀ e ∈ before, e.Within Δ) (hss : Stmt.ListScoped Δ ss)
    (hnew : ρ.Avoids {x | x ∈ Stmt.blockNamesList ss}) (hts : RenamedTasks ρ Δ₀ Δ ts ts') :
    RenamedTasks ρ Δ₀ Δ (Task.ofStmts before ss ++ ts)
      (Task.ofStmts (before.map ρ.expr) (ρ.stmts ss) ++ ts') := by
  induction ss generalizing before with
  | nil => simpa [Task.ofStmts, stmts] using hts
  | cons s ss ih =>
    simp only [Stmt.ListScoped, Stmt.blockNamesList] at hss hnew
    have hhead : ρ.Avoids {x | x ∈ s.blockNames} :=
      hnew.mono fun x hx => NameSet.mem_union.2 (.inl hx)
    have htail : ρ.Avoids {x | x ∈ Stmt.blockNamesList ss} :=
      hnew.mono fun x hx => NameSet.mem_union.2 (.inr hx)
    have hrest := ih hss.1.assertion_within hss.2 htail
    rw [← assertion?_stmt] at hrest
    simp only [Task.ofStmts, stmts, List.cons_append]
    exact .exec hbefore hss.1 hhead hrest

theorem Agree.enter (hΔ : ρ.Over Δ) (hagree : ρ.Agree Δ σ τ) {names : List String}
    (hnames : ∀ x ∈ names, x ∉ Δ) (hnew : ρ.Avoids {x | x ∈ names}) {σ' : Valuation V}
    (hσ' : ∀ x ∉ names, σ' x = σ x) :
    ρ.Agree (Δ ∪ {x | x ∈ names}) σ' (τ.restore σ' names) := by
  rintro x (hx | hx)
  · have hfresh : ρ.text x ∉ names := by
      intro hmem
      exact not_mem_image (hnames _ hmem) (hnew.mono (by simpa using hmem)) ⟨x, hx, rfl⟩
    have hold : x ∉ names := fun hmem => hnames x hmem hx
    simp only [Valuation.restore, if_neg hfresh]
    rw [hagree x hx, hσ' x hold]
  · have hx : x ∈ names := hx
    simp only [text_of_not_mem hΔ (hnames x hx), Valuation.restore, if_pos hx]

theorem Agree.leave (hagree : ρ.Agree Δ σ τ) {names : List String}
    (hnames : ∀ x ∈ names, x ∉ Δ) (hnew : ρ.Avoids {x | x ∈ names}) (outer outer' : Valuation V) :
    ρ.Agree Δ (σ.restore outer names) (τ.restore outer' names) := by
  intro x hx
  have hfresh : ρ.text x ∉ names := by
    intro hmem
    exact not_mem_image (hnames _ hmem) (hnew.mono (by simpa using hmem)) ⟨x, hx, rfl⟩
  have hold : x ∉ names := fun hmem => hnames x hmem hx
  simp only [Valuation.restore, if_neg hfresh, if_neg hold]
  exact hagree x hx

variable {before : Option TypedExpr} {s : TypedStmt} {ts ts' : List (Task V)}
  {d : Execution V}

theorem exec_step (hρ : ρ.Consistent) (hΔ : ρ.Over Δ) (hagree : ρ.Agree Δ σ τ)
    (hbefore : ∀ e ∈ before, e.Within Δ) (hs : s.Scoped Δ)
    (hnew : ρ.Avoids {x | x ∈ s.blockNames}) (rest : RenamedTasks ρ Δ₀ Δ ts ts')
    (h : Task.Step I (.exec before s) σ d) :
    ∃ d', Task.Step I (.exec (before.map ρ.expr) (ρ.stmt s)) τ d' ∧
      RenamedExecution ρ Δ₀ (d.append ts) (d'.append ts') := by
  have hinj := hΔ.injOn hρ
  have hinv : (∀ e ∈ before, I.Holds σ e) → ∀ e ∈ before.map ρ.expr, I.Holds τ e := by
    intro h e he
    obtain ⟨e', he', rfl⟩ := Option.mem_map.1 he
    exact (hagree.holds hρ (hbefore e' he')).2 (h e' he')
  cases h with
  | skip => exact ⟨_, .skip, .running hΔ rest hagree⟩
  | abort => exact ⟨_, .abort, .failed⟩
  | @assign _ xs es =>
    obtain ⟨hxs, hes⟩ := hs
    refine ⟨_, .assign, .running hΔ rest ?_⟩
    rw [hagree.map_eval hρ hes, map_text_name]
    exact hagree.bindAll hinj (by simpa using hxs) _
  | @arrayAssign _ a i v _ _ x hname =>
    obtain ⟨ha, hi, hv⟩ := hs
    have hname' := asName?_expr hρ a
    rw [hname, Option.map_some] at hname'
    obtain ⟨x', hx', htext⟩ := Option.map_eq_some_iff.1 hname'
    refine ⟨_, .arrayAssign hx', .running hΔ rest ?_⟩
    rw [hagree.eval hρ ha, hagree.eval hρ hi, hagree.eval hρ hv, htext]
    have hx : x.text ∈ Δ := ha _ (by simp [TypedExpr.freeVars_of_asName? hname])
    exact hagree.update hinj hx _
  | @nestedArray _ a _ _ _ _ hname =>
    have hname' := asName?_expr hρ a
    rw [hname, Option.map_none, Option.map_eq_none_iff] at hname'
    exact ⟨_, .nestedArray hname', .failed⟩
  | passed hs' he =>
    have hwithin := hs.assertion_within _ hs'
    exact ⟨_, .passed (by rw [assertion?_stmt, hs']; rfl) ((hagree.holds hρ hwithin).2 he),
      .running hΔ rest hagree⟩
  | refused hs' he =>
    have hwithin := hs.assertion_within _ hs'
    exact ⟨_, .refused (by rw [assertion?_stmt, hs']; rfl)
      (fun h => he ((hagree.holds hρ hwithin).1 h)), .failed⟩
  | @branch _ cs _ c _ hc hguard =>
    have hcs : Stmt.CmdsScoped Δ cs := hs
    have hcs' := Stmt.cmdsScoped_iff.1 hcs c hc
    have hmem : ⟨ρ.expr c.guard, ρ.stmts c.body, c.loc⟩ ∈ ρ.cmds cs := by
      rw [cmds_eq_map]
      exact List.mem_map_of_mem hc
    refine ⟨_, .branch hmem ((hagree.holds hρ hcs'.1).2 hguard), .running hΔ ?_ hagree⟩
    exact .ofStmts (by simp) hcs'.2
      (hnew.mono fun x hx => Stmt.blockNames_subset_of_mem_cmds hc hx) rest
  | @broken inv _ _ _ hinv' =>
    have hwithin := hbefore inv rfl
    exact ⟨_, .broken fun h => hinv' ((hagree.holds hρ hwithin).1 h), .failed⟩
  | @again _ cs _ c _ hinv' hc hguard =>
    have hcs : Stmt.CmdsScoped Δ cs := hs
    have hcs' := Stmt.cmdsScoped_iff.1 hcs c hc
    have hmem : ⟨ρ.expr c.guard, ρ.stmts c.body, c.loc⟩ ∈ ρ.cmds cs := by
      rw [cmds_eq_map]
      exact List.mem_map_of_mem hc
    refine ⟨_, .again (hinv hinv') hmem ((hagree.holds hρ hcs'.1).2 hguard),
      .running hΔ ?_ hagree⟩
    simp only [List.append_assoc]
    exact .ofStmts (by simp) hcs'.2
      (hnew.mono fun x hx => Stmt.blockNames_subset_of_mem_cmds hc hx)
      (.exec hbefore hs hnew rest)
  | @exit _ cs _ _ hinv' hguards =>
    have hcs : Stmt.CmdsScoped Δ cs := hs
    refine ⟨_, .exit (hinv hinv') fun c' hc' => ?_, .running hΔ rest hagree⟩
    rw [cmds_eq_map] at hc'
    obtain ⟨c, hc, rfl⟩ := List.mem_map.1 hc'
    have hwithin := (Stmt.cmdsScoped_iff.1 hcs c hc).1
    exact fun h => hguards c hc ((hagree.holds hρ hwithin).1 h)
  | @enter _ _ _ σ' b hσ' =>
    obtain ⟨hdefns, hlocal, hbody⟩ := hs
    obtain ⟨hnewLocal, hnewBody⟩ := avoids_block hdefns hnew
    rw [stmt_block hρ hΔ hdefns hlocal]
    have hτ' : ∀ x ∉ b.localNames, τ.restore σ' b.localNames x = τ x :=
      fun x hx => if_neg hx
    refine ⟨_, .enter hτ', .running (hΔ.union hnewLocal) ?_
      (hagree.enter hΔ hlocal hnewLocal hσ')⟩
    simp only [List.append_assoc]
    exact .ofStmts (by simp) hbody hnewBody (.leave hΔ hlocal hnewLocal rest)
  | foreign hs' => exact ⟨_, .foreign (by rwa [isForeign_stmt]), .failed⟩

theorem RenamedExecution.step (hρ : ρ.Consistent) {c c' : Execution V}
    (hc : RenamedExecution ρ Δ₀ c c') (h : Execution.Step I c d) :
    ∃ d', Execution.Step I c' d' ∧ RenamedExecution ρ Δ₀ d d' := by
  obtain ⟨hstep⟩ := h
  cases hc with
  | running hΔ hts hagree =>
    cases hts with
    | exec hbefore hs hnew rest =>
      obtain ⟨d', hd', hrel⟩ := exec_step hρ hΔ hagree hbefore hs hnew rest hstep
      exact ⟨_, .head hd', hrel⟩
    | @leave Δ' names _ _ _ _ hΔ' hnames hnew rest =>
      cases hstep
      have hagree' : ρ.Agree Δ' _ _ := fun x hx => hagree x (.inl hx)
      exact ⟨_, .head .leave, .running hΔ' rest (hagree'.leave hnames hnew _ _)⟩

/-- Statements are as correct as the renamed ones, started on states that agree. -/
theorem correct_of_renamed {total fails : Prop} {Q : Valuation V → Prop} (hρ : ρ.Consistent)
    (hΔ : ρ.Over Δ) (hss : Stmt.ListScoped Δ ss) (hnew : ρ.Avoids {x | x ∈ Stmt.blockNamesList ss})
    (hagree : ρ.Agree Δ σ τ)
    (h : Execution.Correct I total fails Q (.running (Task.ofStmts none (ρ.stmts ss)) τ)) :
    Execution.Correct I total fails (fun σ => ∃ τ, ρ.Agree Δ σ τ ∧ Q τ)
      (.running (Task.ofStmts none ss) σ) := by
  refine Execution.Correct.of_simulation (RenamedExecution ρ Δ) ?_ ?_ ?_ (.running hΔ ?_ hagree) h
  · exact fun c c' d hc hd => hc.step hρ hd
  · intro c' hc
    cases hc
    rfl
  · intro σ' c' hc
    cases hc with
    | @running _ _ _ _ τ' _ hts hagree' =>
      cases hts
      exact ⟨τ', rfl, fun hQ => ⟨τ', hagree', hQ⟩⟩
  · have hts : RenamedTasks ρ Δ Δ (Task.ofStmts none ss ++ [])
        ((Task.ofStmts none (ρ.stmts ss) : List (Task V)) ++ []) :=
      .ofStmts (by simp) hss hnew .nil
    simpa using hts

end Steps

end Renaming

end GuardedCommands
