import GuardedCommands.Proofs.Substitution
import Mathlib

/-!
# The names of a substitution

Which names are free after a substitution is known name by name.  Sets of names are lists
in increasing order, so the same can be said as an equation between sets: what was free and
is not replaced, with what is free in the replacements that are put in.  The replacements
of names that do not occur free are not among these, and where all replacements are of that
kind nothing happens at all: the entries are dropped at every binder before a new name for
it would be looked for.
-/

namespace GuardedCommands

namespace NameSet

theorem ext_mem {s t : NameSet} (h : ∀ z, z ∈ s ↔ z ∈ t) : s = t :=
  NameSet.ext (s.sorted.eq_of_mem_iff t.sorted h)

end NameSet

namespace NameMap

variable {α : Type} {m : NameMap α}

theorem isEmpty_of_get?_eq_none (h : ∀ x, m.get? x = none) : m.isEmpty = true := by
  obtain ⟨l, hsorted⟩ := m
  cases l with
  | nil => rfl
  | cons e rest => simpa [get?, lookup] using h e.1

end NameMap

namespace TypedExpr

theorem mem_replacements {s : ExprSubst} {free : NameSet} {z : String} :
    z ∈ NameSet.unionMap freeVars (s.filterKeys free.contains).values ↔
      ∃ x ∈ free, ∃ e, s.get? x = some e ∧ z ∈ e.freeVars := by
  simp only [NameSet.mem_unionMap, NameMap.mem_values_iff, NameMap.get?_filterKeys,
    NameSet.contains_iff, Option.ite_none_right_eq_some]
  grind

theorem freeVars_substitute (s : ExprSubst) (e : TypedExpr) :
    (e.substitute s).freeVars =
      (e.freeVars \ s.keys) ∪
        NameSet.unionMap freeVars (s.filterKeys e.freeVars.contains).values := by
  refine NameSet.ext_mem fun z => ?_
  rw [mem_freeVars_substitute, FreeAfter, NameSet.mem_union, NameSet.mem_sdiff,
    mem_replacements, NameMap.mem_keys_iff, Option.not_isSome_iff_eq_none]

theorem underBinders_of_unreached {s : ExprSubst} {bs : List Binder} {free : NameSet}
    (h : ∀ x ∈ free, x ∉ binderNames bs → s.get? x = none) :
    underBinders s bs free = ⟨bs, ∅⟩ := by
  unfold underBinders
  refine if_pos (NameMap.isEmpty_of_get?_eq_none fun x => ?_)
  rw [NameMap.get?_filterKeys]
  split
  · next hx => exact h x (by simp_all [NameSet.contains]) (by simp_all [NameSet.contains])
  · rfl

theorem substitute_of_unreached {s : ExprSubst} (e : TypedExpr)
    (h : ∀ x ∈ e.freeVars, s.get? x = none) : e.substitute s = e := by
  induction e using nested_induction (L := fun ls => ∀ s : ExprSubst,
      (∀ x ∈ freeVarsLinks ls, s.get? x = none) → substituteLinks s ls = ls) generalizing s with
  | lit | op => rfl
  | var x | const x =>
    have hx : s.get? x.text = none := h x.text (by simp [freeVars])
    simp [substitute, hx]
  | lam b body _ _ ih =>
    have hunder : underBinders s [b] body.freeVars = ⟨[b], ∅⟩ :=
      underBinders_of_unreached fun x hx hxb =>
        h x (by simpa [freeVars, hx] using hxb)
    simp [substitute, hunder, ih fun x _ => NameMap.get?_empty x]
  | quant q bs r body _ _ ihq ihr ihbody =>
    simp only [freeVars, NameSet.mem_union, NameSet.mem_sdiff, NameSet.mem_ofList] at h
    have hunder : underBinders s bs (r.freeVars ∪ body.freeVars) = ⟨bs, ∅⟩ :=
      underBinders_of_unreached fun x hx hxbs => h x (.inr ⟨NameSet.mem_union.1 hx, hxbs⟩)
    simp [substitute, hunder, ihq fun x hx => h x (.inl hx),
      ihr fun x _ => NameMap.get?_empty x, ihbody fun x _ => NameMap.get?_empty x]
  | nil => rfl
  | _ =>
    simp_all only [substitute, substituteLinks, freeVars, freeVarsLinks, NameSet.mem_union, true_or,
      or_true, implies_true]

/-- The names free after a substitution are, as a set, the free names that it does not
replace and the free names of what it puts in the place of the others; and an expression
in which it replaces nothing stays as it is, binders included. -/
theorem substitution_accounts_for_names (s : ExprSubst) (e : TypedExpr) :
    (e.substitute s).freeVars =
        (e.freeVars \ s.keys) ∪
          NameSet.unionMap freeVars (s.filterKeys e.freeVars.contains).values ∧
      ((∀ x ∈ s.keys, x ∉ e.freeVars) → e.substitute s = e) := by
  refine ⟨freeVars_substitute s e, fun h => substitute_of_unreached e fun x hx => ?_⟩
  by_contra hsome
  exact h x (NameMap.mem_keys_iff.2 (Option.ne_none_iff_isSome.1 hsome)) hx

def argument : TypedExpr := ofVar (.bare "y") .int

def handsOver : TypedExpr :=
  .lam ⟨.bare "y", .int⟩ (.app (.var (.bare "x") (.func .int .int) .none) argument .int .none)
    (.func .int .int) .none

/-- Putting `y` for `x` moves the binder out of the way, so `y` is free afterwards; putting
anything for `y` itself changes nothing. -/
theorem handsOver_names :
    (handsOver.substitute (.singleton "x" argument)).freeVars = {"y"} ∧
      handsOver.substitute (.singleton "y" argument) = handsOver :=
  ⟨(substitution_accounts_for_names (.singleton "x" argument) handsOver).1.trans (by decide),
    (substitution_accounts_for_names (.singleton "y" argument) handsOver).2 (by decide)⟩

end TypedExpr

end GuardedCommands
