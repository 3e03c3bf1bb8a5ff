import GuardedCommands.Proofs.Interpretation
import GuardedCommands.Proofs.Nesting
import Mathlib

/-!
# The meaning of substitution

The value of an expression after a substitution is its value before it, in the
valuation that gives every replaced name the value of its replacement.  Binders
are renamed on the way so that they capture nothing; what is needed of that is
that the new binders stay away from all names that matter, and that a new binder
has the value of the old one.
-/

namespace GuardedCommands

universe u

namespace TypedExpr

abbrev binderNames (bs : List Binder) : List String := bs.map (·.name.text)

/-! ## New binders -/

section Binders

variable {captured : NameSet}

theorem length_renameBinders (bs : List Binder) (avoid : NameSet) (inner : ExprSubst) :
    (renameBinders captured bs avoid inner).binders.length = bs.length := by
  induction bs generalizing avoid inner with
  | nil => rfl
  | cons b bs ih =>
    unfold renameBinders
    split <;> simp [ih]

theorem mem_renameBinders {bs : List Binder} {avoid : NameSet} {inner : ExprSubst} {y : String}
    (hy : y ∈ binderNames (renameBinders captured bs avoid inner).binders) :
    (y ∈ binderNames bs ∧ y ∉ captured) ∨ y ∉ avoid := by
  induction bs generalizing avoid inner with
  | nil => simp [renameBinders] at hy
  | cons b bs ih =>
    unfold renameBinders at hy
    split at hy
    · rcases List.mem_cons.1 hy with rfl | hy
      · exact .inr (Fresh.inScopes_not_mem (List.mem_singleton.2 rfl))
      · rcases ih hy with ⟨hmem, hcap⟩ | havoid
        · exact .inl ⟨List.mem_cons_of_mem _ hmem, hcap⟩
        · exact .inr fun h => havoid (NameSet.mem_insert.2 (.inr h))
    · next hcap =>
      rcases List.mem_cons.1 hy with rfl | hy
      · exact .inl ⟨List.mem_cons_self, hcap⟩
      · rcases ih hy with ⟨hmem, hcap⟩ | havoid
        · exact .inl ⟨List.mem_cons_of_mem _ hmem, hcap⟩
        · exact .inr havoid

theorem get?_renameBinders_of_not_mem {bs : List Binder} {avoid : NameSet} {inner : ExprSubst}
    {x : String} (hx : x ∉ binderNames bs) :
    (renameBinders captured bs avoid inner).inner.get? x = inner.get? x := by
  induction bs generalizing avoid inner with
  | nil => rfl
  | cons b bs ih =>
    have hxb : x ≠ b.name.text := fun h => hx (h ▸ List.mem_cons_self)
    have hxbs : x ∉ binderNames bs := fun h => hx (List.mem_cons_of_mem _ h)
    unfold renameBinders
    split
    · rw [ih hxbs, NameMap.get?_insert, if_neg hxb]
    · exact ih hxbs

/-- How a bound name is read under new binders: as itself, or as the variable that the
substitution puts in its place. -/
structure ReadAs (s : ExprSubst) (x y : String) : Prop where
  read : (s.get? x = none ∧ y = x) ∨ ∃ loc t, s.get? x = some (ofVar ⟨y, loc⟩ t)

theorem renameBinders_readAs {bs : List Binder} {avoid : NameSet} {inner : ExprSubst}
    (havoid : ∀ x ∈ binderNames bs, x ∈ avoid)
    (hinner : ∀ x ∈ binderNames bs, x ∉ captured → inner.get? x = none)
    {x : String} (hx : x ∈ binderNames bs) :
    ∃ y ∈ binderNames (renameBinders captured bs avoid inner).binders,
      ReadAs (renameBinders captured bs avoid inner).inner x y ∧
      ∀ {V : Type u} (σ τ : Valuation V) (vs : List V), vs.length = bs.length →
        σ.bindAll (binderNames (renameBinders captured bs avoid inner).binders) vs y =
          τ.bindAll (binderNames bs) vs x := by
  induction bs generalizing avoid inner with
  | nil => cases hx
  | cons b bs ih =>
    have hbs : ∀ x ∈ binderNames bs, x ∈ avoid := fun x hx =>
      havoid x (List.mem_cons_of_mem _ hx)
    unfold renameBinders
    split
    · next hcap =>
      set text := Fresh.inScopes b.name.text [avoid] with htext
      set rest := renameBinders captured bs (avoid.insert text)
        (inner.insert b.name.text (ofVar ⟨text, b.name.loc⟩ b.ty)) with hrest
      have htextAvoid : text ∉ avoid := Fresh.inScopes_not_mem (List.mem_singleton.2 rfl)
      by_cases hxbs : x ∈ binderNames bs
      · obtain ⟨y, hy, hread, hvalue⟩ := @ih (avoid.insert text)
          (inner.insert b.name.text (ofVar ⟨text, b.name.loc⟩ b.ty))
          (fun x hx => NameSet.mem_insert.2 (.inr (hbs x hx)))
          (fun z hz hnot => by
            have hne : z ≠ b.name.text := by
              rintro rfl
              exact hnot hcap
            rw [NameMap.get?_insert, if_neg hne]
            exact hinner z (List.mem_cons_of_mem _ hz) hnot)
          hxbs
        refine ⟨y, List.mem_cons_of_mem _ hy, hread, fun σ τ vs hlen => ?_⟩
        cases vs with
        | nil => cases hlen
        | cons v vs => exact hvalue _ _ vs (by simpa using hlen)
      · have hxb : x = b.name.text := (List.mem_cons.1 hx).resolve_right hxbs
        refine ⟨text, List.mem_cons_self, ⟨.inr ⟨b.name.loc, b.ty, ?_⟩⟩,
          fun σ τ vs hlen => ?_⟩
        · rw [get?_renameBinders_of_not_mem hxbs, NameMap.get?_insert, if_pos hxb]
        · cases vs with
          | nil => cases hlen
          | cons v vs =>
            have hfresh : text ∉ binderNames rest.binders := by
              intro hmem
              rcases mem_renameBinders hmem with ⟨hmem, -⟩ | hnot
              · exact htextAvoid (hbs _ hmem)
              · exact hnot (NameSet.mem_insert.2 (.inl rfl))
            subst hxb
            exact (Valuation.bindAll_head hfresh).trans (Valuation.bindAll_head hxbs).symm
    · next hcap =>
      set rest := renameBinders captured bs avoid inner with hrest
      by_cases hxbs : x ∈ binderNames bs
      · obtain ⟨y, hy, hread, hvalue⟩ := ih hbs
          (fun x hx => hinner x (List.mem_cons_of_mem _ hx)) hxbs
        refine ⟨y, List.mem_cons_of_mem _ hy, hread, fun σ τ vs hlen => ?_⟩
        cases vs with
        | nil => cases hlen
        | cons v vs => exact hvalue _ _ vs (by simpa using hlen)
      · have hxb : x = b.name.text := (List.mem_cons.1 hx).resolve_right hxbs
        refine ⟨x, hxb ▸ List.mem_cons_self, ⟨.inl ⟨?_, rfl⟩⟩, fun σ τ vs hlen => ?_⟩
        · rw [get?_renameBinders_of_not_mem hxbs]
          exact hinner x hx (hxb ▸ hcap)
        · cases vs with
          | nil => cases hlen
          | cons v vs =>
            have hfresh : x ∉ binderNames rest.binders := by
              intro hmem
              rcases mem_renameBinders hmem with ⟨hmem, -⟩ | hnot
              · exact hxbs hmem
              · exact hnot (havoid x hx)
            subst hxb
            exact (Valuation.bindAll_head hfresh).trans (Valuation.bindAll_head hxbs).symm

end Binders

/-! ## Binders under a substitution -/

/-- What a substitution under binders has to do with the one outside, in a scope with the
given free names. -/
structure UnderBinders.Faithful (s : ExprSubst) (bs : List Binder) (free : NameSet)
    (u : UnderBinders) : Prop where
  length : u.binders.length = bs.length
  outside : ∀ x ∈ free, x ∉ binderNames bs → u.inner.get? x = s.get? x
  inside : ∀ x ∈ binderNames bs, ∃ y ∈ binderNames u.binders, ReadAs u.inner x y ∧
    ∀ {V : Type u} (σ τ : Valuation V) (vs : List V), vs.length = bs.length →
      σ.bindAll (binderNames u.binders) vs y = τ.bindAll (binderNames bs) vs x
  notFree : ∀ x ∈ free, x ∉ binderNames bs → x ∉ binderNames u.binders
  notCaptured : ∀ x ∈ free, x ∉ binderNames bs → ∀ e, s.get? x = some e →
    ∀ z ∈ e.freeVars, z ∉ binderNames u.binders

theorem underBinders_faithful (s : ExprSubst) (bs : List Binder) (free : NameSet) :
    UnderBinders.Faithful.{u} s bs free (underBinders s bs free) := by
  have hget : ∀ x, (s.filterKeys fun x =>
      free.contains x && !(NameSet.ofList (binderNames bs)).contains x).get? x =
        if x ∈ free ∧ x ∉ binderNames bs then s.get? x else none := by
    intro x
    simp [NameSet.contains]
  unfold underBinders
  simp only
  split
  · next hempty =>
    have hnone : ∀ x ∈ free, x ∉ binderNames bs → s.get? x = none := by
      intro x hx hxbs
      have := hget x
      rw [NameMap.get?_eq_none_of_isEmpty hempty, if_pos ⟨hx, hxbs⟩] at this
      exact this.symm
    refine ⟨rfl, fun x hx hxbs => (hnone x hx hxbs).symm, fun x hx => ?_,
      fun _ _ hxbs => hxbs, fun x hx hxbs e he => ?_⟩
    · exact ⟨x, hx, ⟨.inl ⟨rfl, rfl⟩⟩, fun σ τ vs hlen =>
        Valuation.bindAll_of_mem hx (by simpa using hlen)⟩
    · rw [hnone x hx hxbs] at he
      cases he
  · set inner := s.filterKeys fun x =>
      free.contains x && !(NameSet.ofList (binderNames bs)).contains x with hinner
    set captured := NameSet.unionMap freeVars inner.values with hcaptured
    set avoid := free ∪ captured ∪ inner.keys ∪ NameSet.ofList (binderNames bs) with havoid
    have hbound : ∀ x ∈ binderNames bs, x ∈ avoid := fun x hx => by
      simp [havoid, hx]
    have hnone : ∀ x ∈ binderNames bs, x ∉ captured → inner.get? x = none := fun x hx _ => by
      rw [hget, if_neg fun h => h.2 hx]
    refine ⟨length_renameBinders _ _ _, fun x hx hxbs => ?_, fun x hx => ?_,
      fun x hx hxbs hmem => ?_, fun x hx hxbs e he z hz hmem => ?_⟩
    · rw [get?_renameBinders_of_not_mem hxbs, hget, if_pos ⟨hx, hxbs⟩]
    · exact renameBinders_readAs hbound hnone hx
    · rcases mem_renameBinders hmem with ⟨hmem, -⟩ | hnot
      · exact hxbs hmem
      · exact hnot (by simp [havoid, hx])
    · have hcap : z ∈ captured := by
        refine NameSet.mem_unionMap.2 ⟨e, NameMap.mem_values_of_get? (x := x) ?_, hz⟩
        rw [hget, if_pos ⟨hx, hxbs⟩, he]
      rcases mem_renameBinders hmem with ⟨-, hnot⟩ | hnot
      · exact hnot hcap
      · exact hnot (by simp [havoid, hcap])

end TypedExpr

/-! ## Values -/

namespace Meaning

variable {V : Type u} (D : Meaning V) (s : ExprSubst) (σ : Valuation V)

/-- The valuation in which every name has the value of what a substitution puts in its
place. -/
def through : Valuation V := fun x =>
  match s.get? x with
  | some e => D.value e σ
  | none => σ x

variable {s} {x : String}

theorem through_of_some {e : TypedExpr} (h : s.get? x = some e) :
    D.through s σ x = D.value e σ := by
  simp [through, h]

theorem through_of_none (h : s.get? x = none) : D.through s σ x = σ x := by
  simp [through, h]

theorem through_bindAll {bs : List Binder} {free : NameSet} {u : TypedExpr.UnderBinders}
    (hu : TypedExpr.UnderBinders.Faithful.{u} s bs free u) {vs : List V}
    (hlen : vs.length = bs.length) (hx : x ∈ free) :
    D.through u.inner (σ.bindAll (TypedExpr.binderNames u.binders) vs) x =
      (D.through s σ).bindAll (TypedExpr.binderNames bs) vs x := by
  by_cases hxbs : x ∈ TypedExpr.binderNames bs
  · obtain ⟨y, -, ⟨hread⟩, hvalue⟩ := hu.inside x hxbs
    rw [← hvalue σ (D.through s σ) vs hlen]
    rcases hread with ⟨hnone, rfl⟩ | ⟨loc, t, hsome⟩
    · exact D.through_of_none _ hnone
    · rw [D.through_of_some _ hsome]
      exact D.var _ _ _ _
  · rw [Valuation.bindAll_of_not_mem hxbs]
    cases he : s.get? x with
    | some e =>
      rw [D.through_of_some _ ((hu.outside x hx hxbs).trans he), D.through_of_some _ he]
      refine D.value_congr e fun z hz => Valuation.bindAll_of_not_mem ?_
      exact hu.notCaptured x hx hxbs e he z hz
    | none =>
      rw [D.through_of_none _ ((hu.outside x hx hxbs).trans he), D.through_of_none _ he]
      exact Valuation.bindAll_of_not_mem (hu.notFree x hx hxbs)

theorem names_binders_singleton {b : Binder} {free : NameSet} (u : TypedExpr.UnderBinders)
    (hu : TypedExpr.UnderBinders.Faithful.{u} s [b] free u) :
    TypedExpr.binderNames u.binders = [(u.binders.headD b).name.text] := by
  obtain ⟨b', hb'⟩ := List.length_eq_one_iff.1 (by simpa using hu.length)
  simp [hb']

theorem value_substitute (s : ExprSubst) (σ : Valuation V) (e : TypedExpr) :
    D.value (e.substitute s) σ = D.value e (D.through s σ) := by
  induction e using TypedExpr.nested_induction (L := fun ls => ∀ s σ,
      List.Forall₂ (fun l l' => l.op = l'.op ∧ D.value l.rhs σ = D.value l'.rhs (D.through s σ))
        (TypedExpr.substituteLinks s ls) ls) generalizing s σ with
  | lit l => exact D.lit l
  | op o => exact D.op o
  | var x | const x =>
    simp only [D.var, D.const]
    cases he : s.get? x.text with
    | some e => simp [TypedExpr.substitute, he, D.through_of_some σ he]
    | none => simp [TypedExpr.substitute, he, D.through_of_none σ he, D.var, D.const]
  | chain head links _ _ ihhead ihlinks => exact D.chain (ihhead s σ) (ihlinks s σ)
  | app f a _ _ ihf iha => exact D.app (ihf s σ) (iha s σ)
  | lam b body _ _ ih =>
    have hu := TypedExpr.underBinders_faithful.{u} s [b] body.freeVars
    set u := TypedExpr.underBinders s [b] body.freeVars with hudef
    refine D.lam fun v => ?_
    rw [ih u.inner]
    refine D.value_congr body fun x hx => ?_
    have hlen : [v].length = [b].length := rfl
    have hbind := D.through_bindAll σ hu hlen hx
    rw [names_binders_singleton u hu] at hbind
    exact hbind
  | quant q bs r b _ _ ihq ihr ihb =>
    have hu := TypedExpr.underBinders_faithful.{u} s bs (r.freeVars ∪ b.freeVars)
    set u := TypedExpr.underBinders s bs (r.freeVars ∪ b.freeVars) with hudef
    refine D.quant (ihq s σ) hu.length (fun vs hvs => ?_) (fun vs hvs => ?_)
    · rw [ihr u.inner]
      exact D.value_congr r fun x hx =>
        D.through_bindAll σ hu (hvs.trans hu.length) (NameSet.mem_union.2 (.inl hx))
    · rw [ihb u.inner]
      exact D.value_congr b fun x hx =>
        D.through_bindAll σ hu (hvs.trans hu.length) (NameSet.mem_union.2 (.inr hx))
  | index a i _ _ iha ihi => exact D.index (iha s σ) (ihi s σ)
  | update a i e _ _ iha ihi ihe => exact D.update (iha s σ) (ihi s σ) (ihe s σ)
  | nil => exact .nil
  | cons l ls ih ihls s σ => exact .cons ⟨rfl, ih s σ⟩ (ihls s σ)

end Meaning

namespace Valuation

variable {V : Type u}

def through (I : Interpretation V) (s : ExprSubst) (σ : Valuation V) : Valuation V :=
  I.meaning.through s σ

variable {I : Interpretation V} {s : ExprSubst} {σ : Valuation V} {x : String}

theorem through_of_some {e : TypedExpr} (h : s.get? x = some e) :
    σ.through I s x = e.eval I σ :=
  I.meaning.through_of_some σ h

theorem through_of_none (h : s.get? x = none) : σ.through I s x = σ x :=
  I.meaning.through_of_none σ h

end Valuation

namespace TypedExpr

variable {V : Type u}

theorem eval_substitute (I : Interpretation V) (s : ExprSubst) (σ : Valuation V)
    (e : TypedExpr) : (e.substitute s).eval I σ = e.eval I (σ.through I s) :=
  I.meaning.value_substitute s σ e

/-! ## Free names -/

/-- The names that are free after a substitution in an expression with the given free
names. -/
def FreeAfter (s : ExprSubst) (free : NameSet) (z : String) : Prop :=
  (z ∈ free ∧ s.get? z = none) ∨ ∃ x ∈ free, ∃ e, s.get? x = some e ∧ z ∈ e.freeVars

theorem freeAfter_union {s : ExprSubst} {a b : NameSet} {z : String} :
    FreeAfter s (a ∪ b) z ↔ FreeAfter s a z ∨ FreeAfter s b z := by
  simp only [FreeAfter, NameSet.mem_union]
  grind

theorem freeAfter_under {s : ExprSubst} {bs : List Binder} {free : NameSet}
    {u : UnderBinders} (hu : UnderBinders.Faithful.{u} s bs free u) {z : String} :
    (FreeAfter u.inner free z ∧ z ∉ binderNames u.binders) ↔
      FreeAfter s (free \ NameSet.ofList (binderNames bs)) z := by
  simp only [FreeAfter, NameSet.mem_sdiff, NameSet.mem_ofList]
  constructor
  · rintro ⟨⟨hz, hnone⟩ | ⟨x, hx, e, he, hz⟩, hnew⟩
    · by_cases hzbs : z ∈ binderNames bs
      · obtain ⟨y, hy, ⟨hread⟩, -⟩ := hu.inside z hzbs
        rcases hread with ⟨-, rfl⟩ | ⟨loc, t, hsome⟩
        · exact absurd hy hnew
        · rw [hnone] at hsome
          cases hsome
      · exact .inl ⟨⟨hz, hzbs⟩, (hu.outside z hz hzbs).symm.trans hnone⟩
    · by_cases hxbs : x ∈ binderNames bs
      · obtain ⟨y, hy, ⟨hread⟩, -⟩ := hu.inside x hxbs
        rcases hread with ⟨hnone, -⟩ | ⟨loc, t, hsome⟩
        · rw [hnone] at he
          cases he
        · rw [hsome] at he
          cases he
          have hzy : z = y := by simpa [ofVar, freeVars] using hz
          exact absurd (hzy ▸ hy) hnew
      · exact .inr ⟨x, ⟨hx, hxbs⟩, e, (hu.outside x hx hxbs).symm.trans he, hz⟩
  · rintro (⟨⟨hz, hzbs⟩, hnone⟩ | ⟨x, ⟨hx, hxbs⟩, e, he, hz⟩)
    · exact ⟨.inl ⟨hz, (hu.outside z hz hzbs).trans hnone⟩, hu.notFree z hz hzbs⟩
    · exact ⟨.inr ⟨x, hx, e, (hu.outside x hx hxbs).trans he, hz⟩,
        hu.notCaptured x hx hxbs e he z hz⟩

theorem mem_freeVars_substitute {s : ExprSubst} {z : String} (e : TypedExpr) :
    z ∈ (e.substitute s).freeVars ↔ FreeAfter s e.freeVars z := by
  induction e using nested_induction (L := fun ls => ∀ s,
      z ∈ freeVarsLinks (substituteLinks s ls) ↔ FreeAfter s (freeVarsLinks ls) z)
      generalizing s with
  | lit | op => simp [substitute, freeVars, FreeAfter]
  | var x | const x =>
    cases he : s.get? x.text with
    | some e =>
      simp only [substitute, freeVars, FreeAfter, he, Option.getD_some, NameSet.mem_singleton]
      grind
    | none =>
      simp only [substitute, freeVars, FreeAfter, he, Option.getD_none, NameSet.mem_singleton]
      grind
  | lam b body _ _ ih =>
    have hu := underBinders_faithful.{0} s [b] body.freeVars
    set u := underBinders s [b] body.freeVars with hudef
    have hunder := freeAfter_under hu (z := z)
    rw [Meaning.names_binders_singleton u hu, List.mem_singleton] at hunder
    have herase : body.freeVars.erase b.name.text =
        body.freeVars \ NameSet.ofList (binderNames [b]) := by
      ext1
      refine List.filter_congr fun x _ => ?_
      rw [Bool.eq_iff_iff]
      simp [NameSet.contains]
    simp only [substitute, freeVars, ← hudef, NameSet.mem_erase, ih]
    rw [hunder, herase]
  | quant q bs r b _ _ ihq ihr ihb =>
    have hu := underBinders_faithful.{0} s bs (r.freeVars ∪ b.freeVars)
    set u := underBinders s bs (r.freeVars ∪ b.freeVars) with hudef
    have hunder := freeAfter_under hu (z := z)
    rw [freeAfter_union] at hunder
    simp only [substitute, freeVars, ← hudef, NameSet.mem_union, NameSet.mem_sdiff,
      NameSet.mem_ofList, ihq, ihr, ihb, freeAfter_union, hunder]
  | nil => simp [substituteLinks, freeVarsLinks, FreeAfter]
  | _ =>
    simp_all only [substitute, substituteLinks, freeVars, freeVarsLinks, NameSet.mem_union,
      freeAfter_union]

/-- An expression after a substitution means what it meant before, with every replaced name
at the value of its replacement; its free names are the names that were left alone and those
of the replacements that were put in, so no binder has caught any of them. -/
theorem substitution_reads_replacements {V : Type u} (D : Meaning V) (s : ExprSubst)
    (e : TypedExpr) (σ : Valuation V) :
    (D.value (e.substitute s) σ = D.value e fun x =>
      match s.get? x with
      | some replacement => D.value replacement σ
      | none => σ x) ∧
    ∀ z, z ∈ (e.substitute s).freeVars ↔
      (z ∈ e.freeVars ∧ s.get? z = none) ∨
        ∃ x ∈ e.freeVars, ∃ replacement, s.get? x = some replacement ∧
          z ∈ replacement.freeVars :=
  ⟨D.value_substitute s σ e, fun _ => mem_freeVars_substitute e⟩

end TypedExpr

end GuardedCommands
