import GuardedCommands.Proofs.Renaming

/-!
# What a precondition ensures

A precondition may speak of names that are not visible where it stands: the
locals of a block inside are left free in it, for any value.  So what it ensures
of a state is what holds whatever the names that are not visible stand for.  Some
of these may be frozen, which means that they stand for one value throughout; the
constant that remembers an old bound is such a name.

Blocks are opened under names that are in no scope and do not occur in the
postcondition, hence a block ensures its postcondition if the renamed statements
in it do.
-/

namespace GuardedCommands

universe u

variable {V : Type u}

/-- The condition holds whatever the names stand for that are neither visible nor frozen. -/
def Interpretation.Ensures (I : Interpretation V) (θ : String → Option V) (Γ : Set String)
    (e : TypedExpr) (σ : Valuation V) : Prop :=
  ∀ τ : Valuation V, (∀ x ∈ Γ, τ x = σ x) → (∀ x v, θ x = some v → τ x = v) → I.Holds τ e

structure Frame (θ : String → Option V) (Γ : Set String) (scopes : Scopes) : Prop where
  visible : ∀ x ∈ Γ, Fresh.taken scopes x = true
  frozen : ∀ x v, θ x = some v → Fresh.taken scopes x = true ∧ x ∉ Γ

namespace Interpretation

variable {I : Interpretation V} {θ : String → Option V} {Γ : Set String} {scopes : Scopes}
  {σ : Valuation V} {e : TypedExpr}

def freeze (θ : String → Option V) (σ : Valuation V) : Valuation V := fun x => (θ x).getD (σ x)

theorem freeze_visible (hF : Frame θ Γ scopes) {x : String} (hx : x ∈ Γ) :
    freeze θ σ x = σ x := by
  cases h : θ x with
  | none => simp [freeze, h]
  | some v => exact absurd hx (hF.frozen x v h).2

theorem Ensures.holds_freeze (hF : Frame θ Γ scopes) (h : I.Ensures θ Γ e σ) :
    I.Holds (freeze θ σ) e :=
  h _ (fun _ hx => freeze_visible hF hx) fun x v hv => by simp [freeze, hv]

theorem ensures_iff_holds (hF : Frame θ Γ scopes) (he : e.Within Γ) :
    I.Ensures θ Γ e σ ↔ I.Holds σ e := by
  constructor
  · intro h
    exact (I.holds_congr fun x hx => freeze_visible hF (he x hx)).1 (h.holds_freeze hF)
  · intro h τ hτ _
    exact (I.holds_congr fun x hx => (hτ x (he x hx)).symm).1 h

theorem Ensures.mono {d : TypedExpr} (hde : ∀ τ, I.Holds τ d → I.Holds τ e)
    (h : I.Ensures θ Γ d σ) : I.Ensures θ Γ e σ :=
  fun τ hτ hθ => hde τ (h τ hτ hθ)

theorem ensures_substitute {s : ExprSubst} {σ' : Valuation V} (hF : Frame θ Γ scopes)
    (hout : ∀ x ∉ Γ, s.get? x = none)
    (hin : ∀ x ∈ Γ, ∀ τ : Valuation V, (∀ x ∈ Γ, τ x = σ x) → τ.through I s x = σ' x) :
    I.Ensures θ Γ (e.substitute s) σ ↔ I.Ensures θ Γ e σ' := by
  constructor
  · intro h τ hτ hθ
    -- The state before is `σ` on the visible names and `τ` on the others.
    classical
    let before : Valuation V := fun x => if x ∈ Γ then σ x else τ x
    have hvisible : ∀ x ∈ Γ, before x = σ x := fun x hx => if_pos hx
    have hfrozen : ∀ x v, θ x = some v → before x = v := by
      intro x v hv
      have hx : x ∉ Γ := (hF.frozen x v hv).2
      simp only [before, if_neg hx]
      exact hθ x v hv
    have hread : before.through I s = τ := by
      funext x
      by_cases hx : x ∈ Γ
      · rw [hin x hx before hvisible, hτ x hx]
      · rw [Valuation.through_of_none (hout x hx)]
        exact if_neg hx
    have hbefore := h before hvisible hfrozen
    rwa [Holds, TypedExpr.eval_substitute, hread] at hbefore
  · intro h τ hτ hθ
    rw [Holds, TypedExpr.eval_substitute]
    refine h _ (fun x hx => hin x hx τ hτ) fun x v hv => ?_
    rw [Valuation.through_of_none (hout x (hF.frozen x v hv).2), hθ x v hv]

end Interpretation

/-! ## Assignments -/

namespace Wp

variable {I : Interpretation V} {θ : String → Option V} {Γ : Set String} {scopes : Scopes}
  {σ : Valuation V} {post : TypedExpr}

theorem through_insert (s : ExprSubst) (x : String) (e : TypedExpr) (τ : Valuation V) :
    τ.through I (s.insert x e) = Function.update (τ.through I s) x (e.eval I τ) := by
  funext z
  by_cases hz : z = x
  · subst hz
    simp [Valuation.through, Meaning.through, Interpretation.meaning]
  · simp [Valuation.through, Meaning.through, hz]

theorem through_insertAll (s : ExprSubst) (xs : List Name) (es : List TypedExpr)
    (τ : Valuation V) :
    τ.through I (s.insertAll ((xs.zip es).map fun (x, e) => (x.text, e))) =
      (τ.through I s).bindAll (xs.map (·.text)) (es.map (·.eval I τ)) := by
  induction xs generalizing s es with
  | nil => simp [NameMap.insertAll]
  | cons x xs ih =>
    cases es with
    | nil => rfl
    | cons e es =>
      have hcons : s.insertAll (((x :: xs).zip (e :: es)).map fun (x, e) => (x.text, e)) =
          (s.insert x.text e).insertAll ((xs.zip es).map fun (x, e) => (x.text, e)) := rfl
      rw [hcons, ih, through_insert, List.map_cons, List.map_cons, Valuation.bindAll_cons]

theorem ensures_assign {xs : List Name} {es : List TypedExpr} (hF : Frame θ Γ scopes)
    (hxs : ∀ x ∈ xs, x.text ∈ Γ) (hes : ∀ e ∈ es, e.Within Γ) :
    I.Ensures θ Γ (assign xs es post) σ ↔
      I.Ensures θ Γ post (σ.bindAll (xs.map (·.text)) (es.map (·.eval I σ))) := by
  refine Interpretation.ensures_substitute hF ?_ ?_
  · intro x hx
    rw [NameMap.get?_ofList, NameMap.lookup_eq_none]
    intro hmem
    obtain ⟨⟨y, e⟩, hye, rfl⟩ := List.mem_map.1 hmem
    obtain ⟨⟨y', e'⟩, hzip, heq⟩ := List.mem_map.1 (List.mem_reverse.1 hye)
    cases heq
    exact hx (hxs y' (List.of_mem_zip hzip).1)
  · intro x hx τ hτ
    have hvalues : es.map (·.eval I τ) = es.map (·.eval I σ) :=
      List.map_congr_left fun e he => e.eval_congr I fun y hy => hτ y (hes e he y hy)
    have hempty : τ.through I ∅ = τ := funext fun _ => Valuation.through_of_none rfl
    rw [NameMap.ofList, through_insertAll, hvalues, hempty]
    exact Valuation.bindAll_apply_congr (hτ x hx) _ _

theorem ensures_arrayAssign {a i v : TypedExpr} {loc : Loc} {x : Name} (hF : Frame θ Γ scopes)
    (hname : a.asName? = some x) (ha : a.Within Γ) (hi : i.Within Γ) (hv : v.Within Γ) :
    I.Ensures θ Γ (post.substitute (.singleton x.text (.update a i v a.ty loc))) σ ↔
      I.Ensures θ Γ post
        (Function.update σ x.text (I.update (a.eval I σ) (i.eval I σ) (v.eval I σ))) := by
  have hx : x.text ∈ Γ := ha _ (by simp [TypedExpr.freeVars_of_asName? hname])
  refine Interpretation.ensures_substitute hF ?_ ?_
  · intro z hz
    have hzx : z ≠ x.text := fun heq => hz (heq ▸ hx)
    simp [hzx]
  · intro z hz τ hτ
    have heval : ∀ e : TypedExpr, e.Within Γ → e.eval I τ = e.eval I σ :=
      fun e he => e.eval_congr I fun y hy => hτ y (he y hy)
    have hempty : τ.through I ∅ = τ := funext fun _ => Valuation.through_of_none rfl
    rw [NameMap.singleton, through_insert, TypedExpr.eval, heval a ha, heval i hi, heval v hv,
      hempty]
    by_cases hzx : z = x.text
    · simp [hzx]
    · rw [Function.update_of_ne hzx, Function.update_of_ne hzx, hτ z hz]

/-! ## Opening blocks -/

namespace OpenBlock

/-- A block in the course of being opened: some of its names have been declared. -/
structure Opened (scopes : Scopes) (postFree declared : NameSet) (seen : List String)
    (b : OpenBlock) : Prop where
  consistent : b.renames.Consistent
  old : ∀ x y, b.renames.names.get? x = some y → x ∈ seen
  new : ∀ x y, b.renames.names.get? x = some y →
    Fresh.taken scopes y = false ∧ y ∉ declared ∧ y ∉ postFree ∧ y ∈ b.avoid
  kept : ∀ x ∈ seen, b.renames.names.get? x = none →
    Fresh.taken scopes x = false ∧ x ∉ postFree
  avoid : ∀ x, x ∈ declared ∨ x ∈ postFree → x ∈ b.avoid
  scope : ∀ x ∈ seen, b.renames.text x ∈ b.scope
  numbered : ∀ x y, b.renames.names.get? x = some y → ∃ i : Nat, y = x ++ Nat.repr i

variable {scopes : Scopes} {postFree declared : NameSet} {seen : List String} {b : OpenBlock}

theorem consistent_insert {ρ : Renaming} (hρ : ρ.Consistent) (d : TypedDeclaration)
    {old new : String} (hnew : ∀ x, ρ.names.get? x ≠ some new) :
    (ρ.insert d old new).Consistent := by
  have hnames : ∀ x, (ρ.insert d old new).names.get? x =
      if x = old then some new else ρ.names.get? x := fun x => NameMap.get?_insert ..
  have hexprs : ∀ x, x ≠ old → (ρ.insert d old new).exprs.get? x = ρ.exprs.get? x := by
    intro x hx
    simp [Renaming.insert, hx]
  refine ⟨fun x hx => ?_, fun x y hxy => ?_, fun x x' y hxy hxy' => ?_⟩
  · rw [hnames] at hx
    split at hx
    · cases hx
    · next hne => rw [hexprs x hne, hρ.kept x hx]
  · rw [hnames] at hxy
    split at hxy
    · next heq =>
      cases hxy
      subst heq
      refine ⟨_, NameMap.get?_insert .. |>.trans (if_pos rfl), ?_⟩
      cases d.sort <;> rfl
    · next hne =>
      rw [hexprs x hne]
      exact hρ.renamed x y hxy
  · rw [hnames] at hxy hxy'
    split at hxy <;> split at hxy'
    · next h h' => rw [h, h']
    · cases hxy
      exact absurd hxy' (hnew x')
    · cases hxy'
      exact absurd hxy (hnew x)
    · exact hρ.injective x x' y hxy hxy'

theorem Opened.declare (h : Opened scopes postFree declared seen b) (d : TypedDeclaration)
    (x : Name) :
    Opened scopes postFree declared (seen ++ [x.text]) (declare scopes postFree d b x) := by
  unfold OpenBlock.declare
  split
  · next hhidden =>
    let new := scopes.freshName x.text b.avoid
    have hfree : Fresh.taken (b.avoid :: scopes) new = false := Fresh.inScopes_not_taken ..
    have havoid : new ∉ b.avoid := Fresh.inScopes_not_mem (by simp)
    have hscopes : Fresh.taken scopes new = false := by
      rw [← Bool.not_eq_true] at hfree ⊢
      exact fun htaken => hfree (Fresh.taken_cons.2 (.inr htaken))
    have htaken : Fresh.taken (b.avoid :: scopes) x.text = true := by
      rw [Bool.or_eq_true, NameSet.contains_iff] at hhidden
      exact Fresh.taken_cons.2 (hhidden.symm.imp_left fun hmem => h.avoid _ (.inr hmem))
    have hnames : ∀ z, (b.renames.insert d x.text new).names.get? z =
        if z = x.text then some new else b.renames.names.get? z := fun z => NameMap.get?_insert ..
    refine ⟨consistent_insert h.consistent d fun z hz => havoid (h.new z _ hz).2.2.2,
      fun z y hzy => ?_, fun z y hzy => ?_, fun z hz hnone => ?_, fun z hz => ?_, fun z hz => ?_,
      fun z y hzy => ?_⟩
    · rw [hnames] at hzy
      split at hzy
      · next heq => simp [heq]
      · exact List.mem_append_left _ (h.old z y hzy)
    · rw [hnames] at hzy
      split at hzy
      · cases hzy
        exact ⟨hscopes, fun hmem => havoid (h.avoid _ (.inl hmem)),
          fun hmem => havoid (h.avoid _ (.inr hmem)), NameSet.mem_insert.2 (.inl rfl)⟩
      · have hold := h.new z y hzy
        exact ⟨hold.1, hold.2.1, hold.2.2.1, NameSet.mem_insert.2 (.inr hold.2.2.2)⟩
    · rw [hnames] at hnone
      split at hnone
      · cases hnone
      · next hne =>
        refine h.kept z ?_ hnone
        simpa [hne] using hz
    · exact NameSet.mem_insert.2 (.inr (h.avoid z hz))
    · rw [NameSet.mem_insert, Renaming.text, hnames]
      split
      · exact .inl rfl
      · next hne => exact .inr (h.scope z (by simpa [hne] using hz))
    · rw [hnames] at hzy
      split at hzy
      · next heq =>
        cases hzy
        rw [heq]
        exact Fresh.inScopes_numbered htaken
      · exact h.numbered z y hzy
  · next hkeep =>
    rw [Bool.or_eq_true, not_or, NameSet.contains_iff, Bool.not_eq_true] at hkeep
    refine ⟨h.consistent, fun z y hzy => List.mem_append_left _ (h.old z y hzy), h.new,
      fun z hz hnone => ?_, h.avoid, fun z hz => ?_, h.numbered⟩
    · rcases List.mem_append.1 hz with hz | hz
      · exact h.kept z hz hnone
      · rw [List.mem_singleton.1 hz]
        exact hkeep
    · rw [NameSet.mem_insert]
      cases hn : b.renames.names.get? z with
      | some y => exact .inr (h.scope z (h.old z y hn))
      | none =>
        rcases List.mem_append.1 hz with hz | hz
        · exact .inr (h.scope z hz)
        · rw [Renaming.text_of_none hn]
          exact .inl (List.mem_singleton.1 hz)

theorem Opened.declareNames (h : Opened scopes postFree declared seen b) (d : TypedDeclaration)
    (xs : List Name) :
    Opened scopes postFree declared (seen ++ xs.map (·.text))
      (xs.foldl (OpenBlock.declare scopes postFree d) b) := by
  induction xs generalizing seen b with
  | nil => simpa using h
  | cons x xs ih => simpa using ih (h.declare d x)

theorem Opened.declareAll (h : Opened scopes postFree declared seen b)
    (ds : List TypedDeclaration) :
    Opened scopes postFree declared (seen ++ (ds.flatMap (·.names)).map (·.text))
      (ds.foldl (fun b d => d.names.foldl (OpenBlock.declare scopes postFree d) b) b) := by
  induction ds generalizing seen b with
  | nil => simpa using h
  | cons d ds ih => simpa using ih (h.declareNames d d.names)

theorem opened_ofBlock (scopes : Scopes) (p : TypedProgram) (post : TypedExpr) :
    Opened scopes post.freeVars p.declaredNames p.localNames (ofBlock scopes p post) := by
  have hstart : Opened scopes post.freeVars p.declaredNames []
      ⟨.empty, ∅, p.declaredNames ∪ post.freeVars⟩ := by
    have hnone : ∀ x y, Renaming.empty.names.get? x ≠ some y := by simp [Renaming.empty]
    refine ⟨⟨fun _ _ => rfl, ?_, ?_⟩, ?_, ?_, by simp, fun x hx => NameSet.mem_union.2 hx, by simp,
      ?_⟩
    · exact fun x y h => absurd h (hnone x y)
    · exact fun x x' y h => absurd h (hnone x y)
    · exact fun x y h => absurd h (hnone x y)
    · exact fun x y h => absurd h (hnone x y)
    · exact fun x y h => absurd h (hnone x y)
  exact hstart.declareAll p.decls

end OpenBlock

/-! ## Running blocks -/

section Blocks

variable {b : TypedProgram} {loc : Loc}

theorem mem_declaredNames {p : TypedProgram} (hdefns : p.defns = []) {x : String} :
    x ∈ p.declaredNames ↔ x ∈ p.localNames ∨ x ∈ Stmt.blockNamesList p.stmts := by
  rw [TypedProgram.declaredNames, NameSet.mem_union, NameSet.mem_ofList,
    TypedProgram.map_boundNames hdefns]

section Opened

variable {o : OpenBlock}

theorem OpenBlock.Opened.over
    (h : OpenBlock.Opened scopes post.freeVars b.declaredNames b.localNames o)
    (hdefns : b.defns = []) (hΓ : ∀ x ∈ Γ, Fresh.taken scopes x = true) :
    o.renames.Over (Γ ∪ {x | x ∈ b.localNames}) := by
  refine ⟨fun x y hxy => .inr (h.old x y hxy), ?_⟩
  rintro x y hxy (hy | hy)
  · have htaken := hΓ y hy
    rw [(h.new x y hxy).1] at htaken
    cases htaken
  · exact (h.new x y hxy).2.1 ((mem_declaredNames hdefns).2 (.inl hy))

theorem OpenBlock.Opened.avoids
    (h : OpenBlock.Opened scopes post.freeVars b.declaredNames b.localNames o)
    (hdefns : b.defns = []) : o.renames.Avoids {x | x ∈ Stmt.blockNamesList b.stmts} :=
  fun x y hxy hy => (h.new x y hxy).2.1 ((mem_declaredNames hdefns).2 (.inr hy))

theorem OpenBlock.Opened.text_outer
    (h : OpenBlock.Opened scopes post.freeVars b.declaredNames b.localNames o) {x : String}
    (hx : x ∉ b.localNames) : o.renames.text x = x := by
  cases hn : o.renames.names.get? x with
  | none => exact Renaming.text_of_none hn
  | some y => exact absurd (h.old x y hn) hx

theorem OpenBlock.Opened.fresh
    (h : OpenBlock.Opened scopes post.freeVars b.declaredNames b.localNames o) {x : String}
    (hx : x ∈ b.localNames) :
    Fresh.taken scopes (o.renames.text x) = false ∧ o.renames.text x ∉ post.freeVars := by
  cases hn : o.renames.names.get? x with
  | none =>
    rw [Renaming.text_of_none hn]
    exact h.kept x hx hn
  | some y =>
    rw [Renaming.text_of_some hn]
    exact ⟨(h.new x y hn).1, (h.new x y hn).2.2.1⟩

end Opened

/-- What holds of an opened block whose declarations hide no visible name: `Δ` has the
names that are visible inside under their old names. -/
structure Prepared (θ : String → Option V) (Γ : Set String) (scopes : Scopes) (b : TypedProgram)
    (post : TypedExpr) (ρ : Renaming) (scope : NameSet) : Prop where
  consistent : ρ.Consistent
  covers : ρ.Over (Γ ∪ {x | x ∈ b.localNames})
  avoids : ρ.Avoids {x | x ∈ Stmt.blockNamesList b.stmts}
  outer : ∀ x ∈ Γ, ρ.text x = x
  fresh : ∀ x ∈ b.localNames, Fresh.taken scopes (ρ.text x) = false ∧ ρ.text x ∉ post.freeVars
  frame : Frame θ (ρ.text '' (Γ ∪ {x | x ∈ b.localNames})) (scope :: scopes)
  statements : Stmt.ListScoped (ρ.text '' (Γ ∪ {x | x ∈ b.localNames})) (ρ.stmts b.stmts)

theorem prepared_ofBlock (hF : Frame θ Γ scopes) (hb : (Stmt.block b loc : TypedStmt).Scoped Γ) :
    Prepared θ Γ scopes b post (OpenBlock.ofBlock scopes b post).renames
      (OpenBlock.ofBlock scopes b post).scope := by
  obtain ⟨hdefns, hlocal, hbody⟩ := hb
  have hopened := OpenBlock.opened_ofBlock scopes b post
  generalize OpenBlock.ofBlock scopes b post = o at *
  have hρ := hopened.consistent
  have hover := hopened.over hdefns hF.visible
  have havoids := hopened.avoids hdefns
  have houter : ∀ x ∈ Γ, o.renames.text x = x :=
    fun x hx => hopened.text_outer fun hmem => hlocal x hmem hx
  have hfresh : ∀ x ∈ b.localNames, Fresh.taken scopes (o.renames.text x) = false ∧
      o.renames.text x ∉ post.freeVars := fun x hx => hopened.fresh hx
  refine ⟨hρ, hover, havoids, houter, hfresh, ⟨?_, ?_⟩, ?_⟩
  · rintro _ ⟨x, hx | hx, rfl⟩
    · rw [houter x hx]
      exact Fresh.taken_cons.2 (.inr (hF.visible x hx))
    · exact Fresh.taken_cons.2 (.inl (hopened.scope x hx))
  · intro x v hv
    obtain ⟨htaken, hxΓ⟩ := hF.frozen x v hv
    refine ⟨Fresh.taken_cons.2 (.inr htaken), ?_⟩
    rintro ⟨z, hz | hz, rfl⟩
    · rw [houter z hz] at hxΓ
      exact hxΓ hz
    · rw [(hfresh z hz).1] at htaken
      cases htaken
  · exact Renaming.scoped_stmts hρ hover b.stmts hbody havoids

variable {total fails : Prop} {before : Option TypedExpr} {pre : TypedExpr} {ρ : Renaming}
  {scope : NameSet}

theorem Prepared.exists_agree (h : Prepared θ Γ scopes b post ρ scope) (σ : Valuation V) :
    ∃ τ, ρ.Agree (Γ ∪ {x | x ∈ b.localNames}) σ τ := by
  let Δ := Γ ∪ {x | x ∈ b.localNames}
  have hinj : Function.Injective (Δ.domRestrict ρ.text) :=
    Set.injOn_iff_injective.1 (h.covers.injOn h.consistent)
  refine ⟨Function.extend (Δ.domRestrict ρ.text) (Δ.domRestrict σ) σ, fun x hx => ?_⟩
  exact hinj.extend_apply _ _ ⟨x, hx⟩

theorem Prepared.ensures_inside (h : Prepared θ Γ scopes b post ρ scope)
    (hlocal : ∀ x ∈ b.localNames, x ∉ Γ) {σ' τ : Valuation V}
    (hσ' : ∀ x ∉ b.localNames, σ' x = σ x)
    (hagree : ρ.Agree (Γ ∪ {x | x ∈ b.localNames}) σ' τ) (hσ : I.Ensures θ Γ pre σ) :
    I.Ensures θ (ρ.text '' (Γ ∪ {x | x ∈ b.localNames})) pre τ := by
  intro υ hυ hθ
  refine hσ υ (fun x hx => ?_) hθ
  have hinside := hυ (ρ.text x) ⟨x, .inl hx, rfl⟩
  rw [hagree x (.inl hx), h.outer x hx] at hinside
  rw [hinside, hσ' x fun hmem => hlocal x hmem hx]

theorem Prepared.ensures_outside (h : Prepared θ Γ scopes b post ρ scope)
    (hF : Frame θ Γ scopes) (hlocal : ∀ x ∈ b.localNames, x ∉ Γ) {σ' τ : Valuation V}
    (hagree : ρ.Agree (Γ ∪ {x | x ∈ b.localNames}) σ' τ)
    (hτ : I.Ensures θ (ρ.text '' (Γ ∪ {x | x ∈ b.localNames})) post τ) (outer : Valuation V) :
    I.Ensures θ Γ post (σ'.restore outer b.localNames) := by
  intro υ hυ hθ
  classical
  let locals : Set String := ρ.text '' {x | x ∈ b.localNames}
  let inside : Valuation V := fun x => if x ∈ locals then τ x else υ x
  have hvisible : ∀ x ∈ ρ.text '' (Γ ∪ {x | x ∈ b.localNames}), inside x = τ x := by
    rintro _ ⟨x, hx | hx, rfl⟩
    · by_cases hmem : ρ.text x ∈ locals
      · exact if_pos hmem
      · have hx' : x ∉ b.localNames := fun hloc => hlocal x hloc hx
        have hrestore : σ'.restore outer b.localNames x = σ' x := if_neg hx'
        have hvalue : inside (ρ.text x) = υ (ρ.text x) := if_neg hmem
        rw [hvalue, hagree x (.inl hx), h.outer x hx, hυ x hx, hrestore]
    · exact if_pos ⟨x, hx, rfl⟩
  have hfrozen : ∀ x v, θ x = some v → inside x = v := by
    intro x v hv
    have hmem : x ∉ locals := by
      rintro ⟨z, hz, rfl⟩
      have htaken := (hF.frozen _ v hv).1
      rw [(h.fresh z hz).1] at htaken
      cases htaken
    rw [show inside x = υ x from if_neg hmem, hθ x v hv]
  refine (I.holds_congr fun x hx => ?_).1 (hτ inside hvisible hfrozen)
  refine if_neg ?_
  rintro ⟨z, hz, rfl⟩
  exact (h.fresh z hz).2 hx

/-- A block is correct if its statements are, renamed as they are when it is opened. -/
theorem correct_block (hF : Frame θ Γ scopes) (hb : (Stmt.block b loc : TypedStmt).Scoped Γ)
    (h : Prepared θ Γ scopes b post ρ scope)
    (hbody : ∀ τ, I.Ensures θ (ρ.text '' (Γ ∪ {x | x ∈ b.localNames})) pre τ →
      Execution.Correct I total fails
        (I.Ensures θ (ρ.text '' (Γ ∪ {x | x ∈ b.localNames})) post)
        (.running (Task.ofStmts none (ρ.stmts b.stmts)) τ))
    (hσ : I.Ensures θ Γ pre σ) :
    Execution.Correct I total fails (I.Ensures θ Γ post)
      (.running [.exec before (.block b loc)] σ) := by
  obtain ⟨-, hlocal, hstmts⟩ := hb
  refine Execution.correct_single fun d hd => ?_
  cases hd with
  | @enter _ _ _ σ' _ hσ' =>
    obtain ⟨τ, hagree⟩ := h.exists_agree σ'
    have hrenamed := hbody τ (h.ensures_inside hlocal hσ' hagree hσ)
    have hinside := Renaming.correct_of_renamed h.consistent h.covers hstmts h.avoids hagree
      hrenamed
    refine hinside.append fun σ'' hσ'' => ?_
    obtain ⟨τ'', hagree'', hpost⟩ := hσ''
    refine Execution.correct_single fun d hd => ?_
    cases hd
    exact Execution.correct_done (h.ensures_outside hF hlocal hagree'' hpost σ)
  | passed hs | refused hs | foreign hs => cases hs

end Blocks

end Wp

end GuardedCommands
