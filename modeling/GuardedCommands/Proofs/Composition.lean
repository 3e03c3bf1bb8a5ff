import GuardedCommands.Kind
import GuardedCommands.Proofs.Unification

/-!
# Composition of substitutions

A composition has the entries of its left part and, with the left part applied to them,
those of its right part; where both have one the left wins.  If they have none in common
nothing is lost, and to apply the composition is to apply the right part and then the left.
The entries need not be resolved: a term that is put in may mention any name of either
part, since the left part is applied to what the right part puts in and to nothing else.
-/

namespace GuardedCommands

/-! ## Maps without a common name -/

namespace NameMap

variable {α : Type} {m n a b : NameMap α} {x : String}

theorem ext_get? (h : ∀ x, m.get? x = n.get? x) : m = n := by
  have hantisymm : Std.Antisymm fun e e' : String × α => e.1 < e'.1 :=
    ⟨fun _ _ hlt hgt => absurd hgt (String.lt_asymm hlt)⟩
  have hirrefl : Std.Irrefl fun e e' : String × α => e.1 < e'.1 :=
    ⟨fun e => String.lt_irrefl e.1⟩
  have hmem : ∀ {m : NameMap α} {e}, e ∈ m.toList ↔ m.get? e.1 = some e.2 := by
    intro m e
    exact ⟨lookup_of_mem (m.sorted.imp String.ne_of_lt), mem_of_lookup⟩
  refine NameMap.ext ((List.pairwise_map.1 m.sorted).eq_of_mem_iff
    (List.pairwise_map.1 n.sorted) fun e => ?_)
  rw [hmem, hmem, h]

def Disjoint (m n : NameMap α) : Prop := ∀ x ∈ m.keys, x ∉ n.keys

theorem disjoint_iff : m.Disjoint n ↔ ∀ x, m.get? x = none ∨ n.get? x = none := by
  simp only [Disjoint, mem_keys_iff, Option.not_isSome_iff_eq_none]
  refine forall_congr' fun x => ?_
  cases m.get? x <;> simp

theorem Disjoint.get?_override (h : m.Disjoint n) (x : String) :
    (m.override n).get? x = (n.get? x).or (m.get? x) := by
  rw [NameMap.get?_override]
  rcases disjoint_iff.1 h x with hm | hn
  · rw [hm, Option.none_or, Option.or_none]
  · rw [hn, Option.none_or, Option.or_none]

theorem Disjoint.map (h : m.Disjoint n) (f : α → α) : m.Disjoint (n.map f) := by
  rw [disjoint_iff] at h ⊢
  simpa using h

/-- If one map after another acts as the composition of the two does, then a third may be
composed with the composition or with its right part first. -/
theorem override_map_assoc (act : NameMap α → α → α)
    (h : ∀ t, act (a.override (b.map (act a))) t = act a (act b t)) (c : NameMap α) :
    (a.override (b.map (act a))).override (c.map (act (a.override (b.map (act a))))) =
      a.override ((b.override (c.map (act b))).map (act a)) := by
  have hact : act (a.override (b.map (act a))) = act a ∘ act b := funext h
  refine ext_get? fun x => ?_
  simp only [NameMap.get?_override, get?_map, hact, ← Option.map_map, Option.map_or,
    Option.or_assoc]

end NameMap

/-! ## Types -/

namespace Ty

variable {s t a b : Subst}

theorem subst_compose (h : s.Disjoint t) (u : Ty) :
    u.subst (s.compose t) = (u.subst t).subst s := by
  have hget : ∀ x, (s.compose t).get? x = ((t.get? x).map (subst s)).or (s.get? x) := by
    intro x
    rw [Subst.compose, (h.map _).get?_override, NameMap.get?_map]
  induction u with
  | rigid n | metavar n =>
    rw [subst, subst, hget]
    cases t.get? n.text <;> simp [subst]
  | array i u l ih => simp only [subst, ih]
  | app f u l ihf ihu => simp only [subst, ihf, ihu]
  | base | tuple | arrow | data => rfl

theorem Subst.compose_assoc (h : a.Disjoint b) (c : Subst) :
    (a.compose b).compose c = a.compose (b.compose c) :=
  NameMap.override_map_assoc subst (fun u => subst_compose h u) c

end Ty

/-! ## Kinds -/

namespace Kind

variable {s t a b : Subst}

theorem apply_compose (h : s.Disjoint t) (k : Kind) :
    k.apply (s.compose t) = (k.apply t).apply s := by
  induction k with
  | star => rfl
  | arrow dom cod ihdom ihcod => exact congrArg₂ arrow ihdom ihcod
  | metavar n =>
    simp only [apply, bind]
    rw [Subst.compose, (h.map _).get?_override, NameMap.get?_map]
    cases t.get? n.text <;> simp [apply, bind]

theorem Subst.compose_assoc (h : a.Disjoint b) (c : Subst) :
    (a.compose b).compose c = a.compose (b.compose c) :=
  NameMap.override_map_assoc apply (fun k => apply_compose h k) c

end Kind

/-! ## Composition -/

/-- To apply a composition is to apply its right part and then its left, for types and for
kinds, if the two have no name in common.  Composition is then associative; the third
substitution may have names in common with the others. -/
theorem composition_is_sequential :
    (∀ s t : Ty.Subst, s.Disjoint t →
      ∀ u : Ty, u.subst (s.compose t) = (u.subst t).subst s) ∧
    (∀ a b : Ty.Subst, a.Disjoint b →
      ∀ c : Ty.Subst, (a.compose b).compose c = a.compose (b.compose c)) ∧
    (∀ s t : Kind.Subst, s.Disjoint t →
      ∀ k : Kind, k.apply (s.compose t) = (k.apply t).apply s) ∧
    ∀ a b : Kind.Subst, a.Disjoint b →
      ∀ c : Kind.Subst, (a.compose b).compose c = a.compose (b.compose c) :=
  ⟨fun _ _ h => Ty.subst_compose h, fun _ _ h => Ty.Subst.compose_assoc h,
    fun _ _ h => Kind.apply_compose h, fun _ _ h => Kind.Subst.compose_assoc h⟩

namespace Crossing

/-- Puts `?b → ?a` for `?a`, which it mentions itself. -/
def left : Ty.Subst := .singleton "?a" (.func (.metavar (.bare "?b")) (.metavar (.bare "?a")))

def right : Ty.Subst :=
  .singleton "?b" (.apply (.metavar (.bare "?c")) (.metavar (.bare "?a")))

def third : Ty.Subst := .singleton "?c" (.func (.metavar (.bare "?a")) (.metavar (.bare "?b")))

def leftKind : Kind.Subst :=
  .singleton "?k" (.arrow (.metavar (.bare "?l")) (.metavar (.bare "?k")))

def rightKind : Kind.Subst := .singleton "?l" (.metavar (.bare "?k"))

def thirdKind : Kind.Subst :=
  .singleton "?m" (.arrow (.metavar (.bare "?k")) (.metavar (.bare "?l")))

theorem apart : left.Disjoint right := by
  simp [NameMap.Disjoint, left, right, NameMap.mem_keys_singleton]

theorem kinds_apart : leftKind.Disjoint rightKind := by
  simp [NameMap.Disjoint, leftKind, rightKind, NameMap.mem_keys_singleton]

end Crossing

open Crossing in
theorem crossing_is_sequential :
    left.Disjoint right ∧
      (∀ u : Ty, u.subst (left.compose right) = (u.subst right).subst left) ∧
      (left.compose right).compose third = left.compose (right.compose third) ∧
      leftKind.Disjoint rightKind ∧
      (∀ k : Kind, k.apply (leftKind.compose rightKind) = (k.apply rightKind).apply leftKind) ∧
      (leftKind.compose rightKind).compose thirdKind =
        leftKind.compose (rightKind.compose thirdKind) :=
  have hsequential := composition_is_sequential
  ⟨apart, hsequential.1 _ _ apart, hsequential.2.1 _ _ apart third, kinds_apart,
    hsequential.2.2.1 _ _ kinds_apart, hsequential.2.2.2 _ _ kinds_apart thirdKind⟩

end GuardedCommands
