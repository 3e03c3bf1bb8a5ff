import GuardedCommands.Proofs.Substitution
import Mathlib

/-!
# Assertions about heaps

A heap gives contents to finitely many addresses.  An assertion holds in a state and a
heap: `emp` of the heap without cells, `l ↦ r` of the heap that is this one cell, `l ∗ r`
of a heap that falls into two parts, and `l -∗ r` of a heap that satisfies `r` together
with every part apart from it that satisfies `l`.  Everything else is read in each heap
by itself, as an interpretation reads it without heaps.

So a construct cannot be read from the values of its parts in one heap alone.  Its parts
have values that depend on the heap, and the heap connectives wait for their operands;
over such values the reading is an interpretation again, and the facts about
interpretations hold of it.
-/

namespace GuardedCommands

universe u

abbrev Heap := Finmap fun _ : ℤ => ℤ

inductive HeapOp
  | pointsTo | sepConj | sepImp

def HeapOp.toOp : HeapOp → Op
  | .pointsTo => .arith .pointsTo
  | .sepConj => .arith .sepConj
  | .sepImp => .arith .sepImp

def Op.heapOp? : Op → Option HeapOp
  | .arith .pointsTo => some .pointsTo
  | .arith .sepConj => some .sepConj
  | .arith .sepImp => some .sepImp
  | _ => none

variable {V : Type u} {I : Interpretation V}

/-- What an expression is while the heap is left open: a value in every heap, or a heap
connective that waits for operands. -/
inductive HeapValue (V : Type u)
  | plain (value : Heap → V)
  | connective (o : HeapOp)
  | partly (o : HeapOp) (left : Heap → V)

namespace HeapValue

def pure (w : V) : HeapValue V := .plain fun _ => w

def valueIn (I : Interpretation V) : HeapValue V → Heap → V
  | .plain value, h => value h
  | .connective o, _ => I.op o.toOp
  | .partly o left, h => I.app (I.op o.toOp) (left h)

@[simp] theorem valueIn_pure (w : V) (h : Heap) : (pure w).valueIn I h = w := rfl

end HeapValue

def Valuation.onHeaps (σ : Valuation V) : Valuation (HeapValue V) := fun x => .pure (σ x)

theorem Valuation.onHeaps_update (σ : Valuation V) (x : String) (w : V) :
    Function.update σ.onHeaps x (.pure w) = onHeaps (Function.update σ x w) := by
  funext y
  by_cases hy : y = x
  · subst hy
    simp [onHeaps]
  · simp [onHeaps, hy]

theorem Valuation.onHeaps_bindAll (σ : Valuation V) (xs : List String) {n : ℕ} (ws : Fin n → V) :
    σ.onHeaps.bindAll xs (List.ofFn fun i => HeapValue.pure (ws i)) =
      onHeaps (σ.bindAll xs (List.ofFn ws)) := by
  induction xs generalizing σ n with
  | nil => simp
  | cons x xs ih =>
    cases n with
    | zero => simp [bindAll]
    | succ n =>
      simp only [List.ofFn_succ, bindAll_cons]
      rw [onHeaps_update]
      exact ih _ _

theorem Valuation.onHeaps_bind (σ : Valuation V) (x : String) (ws : Fin 1 → V) :
    σ.onHeaps.bindAll [x] (List.ofFn fun i => HeapValue.pure (ws i)) =
      onHeaps (Function.update σ x (ws 0)) := by
  rw [onHeaps_bindAll]
  simp

namespace Interpretation

/-- Values are used as addresses and contents by their numbers, numerals and addition are
those of the integers, and the quantifiers range over the integers at least. -/
structure Standard (I : Interpretation V) where
  int : ℤ → V
  toInt : V → ℤ
  /-- The values that the quantifiers range over. -/
  domain : Set V
  int_mem_domain : ∀ n, int n ∈ domain
  toInt_int : ∀ n, toInt (int n) = n
  toInt_num : ∀ n, toInt (I.lit (.num n)) = n.toInt
  toInt_add : ∀ a b, toInt (I.app (I.app (I.op (.arith .add)) a) b) = toInt a + toInt b
  isTrue_forAll : ∀ n r b, I.IsTrue (I.quant (I.op (.arith .conj)) n r b) ↔
    ∀ ws, (∀ i, ws i ∈ domain) → I.IsTrue (r ws) → I.IsTrue (b ws)
  isTrue_thereIs : ∀ n r b, I.IsTrue (I.quant (I.op (.arith .disj)) n r b) ↔
    ∃ ws, (∀ i, ws i ∈ domain) ∧ I.IsTrue (r ws) ∧ I.IsTrue (b ws)

open Classical in
noncomputable def truth (I : Interpretation V) (p : Prop) : V := I.lit (.bool (decide p))

@[simp] theorem isTrue_truth (p : Prop) : I.IsTrue (I.truth p) ↔ p := by
  simp [truth, I.isTrue_bool]

namespace Standard

variable (S : I.Standard)

def Connects : HeapOp → (left right : Heap → V) → Heap → Prop
  | .pointsTo, l, r, h => h = .singleton (S.toInt (l h)) (S.toInt (r h))
  | .sepConj, l, r, h =>
    ∃ h₁ h₂ : Heap, h₁.Disjoint h₂ ∧ h = h₁ ∪ h₂ ∧ I.IsTrue (l h₁) ∧ I.IsTrue (r h₂)
  | .sepImp, l, r, h => ∀ h' : Heap, h.Disjoint h' → I.IsTrue (l h') → I.IsTrue (r (h ∪ h'))

noncomputable def apply (f a : HeapValue V) : HeapValue V :=
  match f with
  | .connective o => .partly o (a.valueIn I)
  | .partly o left => .plain fun h => I.truth (S.Connects o left (a.valueIn I) h)
  | .plain value => .plain fun h => I.app (value h) (a.valueIn I h)

/-- Reads expressions in all heaps at once.  What is true here is what is true of the heap
without cells; `HoldsIn` says it of every heap. -/
noncomputable def onHeaps : Interpretation (HeapValue V) where
  lit
    | .emp => .plain fun h => I.truth (h = ∅)
    | l => .pure (I.lit l)
  op o :=
    match o.heapOp? with
    | some o => .connective o
    | none => .pure (I.op o)
  chain a links :=
    .plain fun h => I.chain (a.valueIn I h) (links.map fun l => (l.1, l.2.valueIn I h))
  app := S.apply
  lam f := .plain fun h => I.lam fun w => (f (.pure w)).valueIn I h
  quant q n r b := .plain fun h =>
    I.quant (q.valueIn I h) n (fun ws => (r fun i => .pure (ws i)).valueIn I h)
      (fun ws => (b fun i => .pure (ws i)).valueIn I h)
  index a i := .plain fun h => I.index (a.valueIn I h) (i.valueIn I h)
  update a i e := .plain fun h => I.update (a.valueIn I h) (i.valueIn I h) (e.valueIn I h)
  IsTrue a := I.IsTrue (a.valueIn I ∅)
  isTrue_bool := I.isTrue_bool
  isTrue_conj _ _ := I.isTrue_conj _ _
  isTrue_disj _ _ := I.isTrue_disj _ _
  isTrue_implies _ _ := I.isTrue_implies _ _
  isTrue_neg _ := I.isTrue_neg _

theorem lam_pure {f : HeapValue V → HeapValue V} {g : V → V}
    (hf : ∀ w, f (.pure w) = .pure (g w)) : S.onHeaps.lam f = .pure (I.lam g) := by
  change HeapValue.plain (fun h => I.lam fun w => (f (.pure w)).valueIn I h) = _
  simp only [hf, HeapValue.valueIn_pure]
  rfl

theorem quantOver_pure {q : V} {n : ℕ} {r b : List (HeapValue V) → HeapValue V}
    {r' b' : List V → V}
    (hr : ∀ ws : Fin n → V, r (List.ofFn fun i => .pure (ws i)) = .pure (r' (List.ofFn ws)))
    (hb : ∀ ws : Fin n → V, b (List.ofFn fun i => .pure (ws i)) = .pure (b' (List.ofFn ws))) :
    S.onHeaps.quantOver (.pure q) n r b = .pure (I.quantOver q n r' b') := by
  change HeapValue.plain (fun h => I.quant q n
    (fun ws => (r (List.ofFn fun i => .pure (ws i))).valueIn I h)
    (fun ws => (b (List.ofFn fun i => .pure (ws i))).valueIn I h)) = _
  simp only [hr, hb, HeapValue.valueIn_pure]
  rfl

def HoldsIn (σ : Valuation V) (h : Heap) (e : TypedExpr) : Prop :=
  I.IsTrue ((e.eval S.onHeaps σ.onHeaps).valueIn I h)

end Standard

end Interpretation

/-! ## Expressions without heap connectives -/

namespace TypedExpr

mutual

def heapFree : TypedExpr → Bool
  | .lit l _ _ => l != .emp
  | .op o _ _ => o.heapOp?.isNone
  | .var .. | .const .. => true
  | .chain head links _ _ => head.heapFree && heapFreeLinks links
  | .app f a _ _ => f.heapFree && a.heapFree
  | .lam _ body _ _ => body.heapFree
  | .quant q _ r b _ _ => q.heapFree && r.heapFree && b.heapFree
  | .index a i _ _ => a.heapFree && i.heapFree
  | .update a i v _ _ => a.heapFree && i.heapFree && v.heapFree

def heapFreeLinks : List (TypedLink TypedExpr) → Bool
  | [] => true
  | l :: ls => l.rhs.heapFree && heapFreeLinks ls

end

open Interpretation (Standard)

variable (S : I.Standard)

theorem eval_onHeaps (σ : Valuation V) (e : TypedExpr) (h : e.heapFree = true) :
    e.eval S.onHeaps σ.onHeaps = .pure (e.eval I σ) := by
  induction e using nested_induction (L := fun ls => ∀ σ : Valuation V, heapFreeLinks ls = true →
      evalLinks S.onHeaps σ.onHeaps ls = (evalLinks I σ ls).map fun l => (l.1, .pure l.2))
      generalizing σ with
  | lit l =>
    cases l with
    | emp => cases h
    | num | bool | chr => rfl
  | op o =>
    have hnone : o.heapOp? = none := Option.isNone_iff_eq_none.1 h
    simp only [eval, Standard.onHeaps, hnone]
  | var | const => rfl
  | chain head links _ _ ihhead ihlinks =>
    simp only [heapFree, Bool.and_eq_true] at h
    simp only [eval, ihhead σ h.1, ihlinks σ h.2]
    simp [Standard.onHeaps, HeapValue.pure, HeapValue.valueIn, Function.comp_def]
  | app f a _ _ ihf iha | index f a _ _ ihf iha =>
    simp only [heapFree, Bool.and_eq_true] at h
    simp only [eval, ihf σ h.1, iha σ h.2]
    rfl
  | lam b body _ _ ih =>
    refine S.lam_pure fun w => ?_
    rw [Valuation.onHeaps_update]
    exact ih _ h
  | quant q bs r b _ _ ihq ihr ihb =>
    simp only [heapFree, Bool.and_eq_true] at h
    simp only [eval, ihq σ h.1.1]
    refine S.quantOver_pure (fun ws => ?_) (fun ws => ?_)
    · rw [Valuation.onHeaps_bindAll]
      exact ihr _ h.1.2
    · rw [Valuation.onHeaps_bindAll]
      exact ihb _ h.2
  | update a i v _ _ iha ihi ihv =>
    simp only [heapFree, Bool.and_eq_true] at h
    simp only [eval, iha σ h.1.1, ihi σ h.1.2, ihv σ h.2]
    rfl
  | nil => rfl
  | cons l ls ih ihls σ h =>
    simp only [heapFreeLinks, Bool.and_eq_true] at h
    simp only [evalLinks, ih σ h.1, ihls σ h.2, List.map_cons]

end TypedExpr

/-! ## When assertions hold -/

namespace Interpretation.Standard

variable (S : I.Standard) {σ : Valuation V} {h : Heap} {l r e : TypedExpr}

@[simp] theorem holdsIn_ofBool (b : Bool) : S.HoldsIn σ h (.ofBool b) ↔ b = true :=
  I.isTrue_bool b

@[simp] theorem holdsIn_emp : S.HoldsIn σ h (.ofLit .emp) ↔ h = ∅ :=
  isTrue_truth _

@[simp] theorem holdsIn_conj : S.HoldsIn σ h (.conj l r) ↔ S.HoldsIn σ h l ∧ S.HoldsIn σ h r :=
  I.isTrue_conj _ _

@[simp] theorem holdsIn_implies :
    S.HoldsIn σ h (.implies l r) ↔ (S.HoldsIn σ h l → S.HoldsIn σ h r) :=
  I.isTrue_implies _ _

@[simp] theorem holdsIn_sepConj : S.HoldsIn σ h (.sepConj l r) ↔
    ∃ h₁ h₂ : Heap, h₁.Disjoint h₂ ∧ h = h₁ ∪ h₂ ∧ S.HoldsIn σ h₁ l ∧ S.HoldsIn σ h₂ r :=
  isTrue_truth _

@[simp] theorem holdsIn_sepImp : S.HoldsIn σ h (.sepImp l r) ↔
    ∀ h' : Heap, h.Disjoint h' → S.HoldsIn σ h' l → S.HoldsIn σ (h ∪ h') r :=
  isTrue_truth _

theorem holdsIn_pointsTo (hl : l.heapFree = true) (hr : r.heapFree = true) :
    S.HoldsIn σ h (.pointsTo l r) ↔
      h = .singleton (S.toInt (l.eval I σ)) (S.toInt (r.eval I σ)) := by
  have hread : S.HoldsIn σ h (.pointsTo l r) ↔
      h = .singleton (S.toInt ((l.eval S.onHeaps σ.onHeaps).valueIn I h))
        (S.toInt ((r.eval S.onHeaps σ.onHeaps).valueIn I h)) := isTrue_truth _
  rw [hread, l.eval_onHeaps S σ hl, r.eval_onHeaps S σ hr]
  rfl

theorem holdsIn_bind (x : String) (ws : Fin 1 → V) :
    I.IsTrue ((e.eval S.onHeaps
      (σ.onHeaps.bindAll [x] (List.ofFn fun i => HeapValue.pure (ws i)))).valueIn I h) ↔
        S.HoldsIn (Function.update σ x (ws 0)) h e := by
  rw [Valuation.onHeaps_bind]
  rfl

theorem holdsIn_forAll (b : Binder) : S.HoldsIn σ h (.forAll [b] (.ofBool true) e) ↔
    ∀ w ∈ S.domain, S.HoldsIn (Function.update σ b.name.text w) h e := by
  refine (S.isTrue_forAll 1 _ _).trans ⟨fun hall w hw => ?_, fun hall ws hws _ => ?_⟩
  · exact (S.holdsIn_bind _ fun _ => w).1 (hall _ (fun _ => hw) ((I.isTrue_bool true).2 rfl))
  · exact (S.holdsIn_bind _ ws).2 (hall (ws 0) (hws 0))

theorem holdsIn_thereIs (b : Binder) : S.HoldsIn σ h (.thereIs [b] (.ofBool true) e) ↔
    ∃ w ∈ S.domain, S.HoldsIn (Function.update σ b.name.text w) h e := by
  refine (S.isTrue_thereIs 1 _ _).trans ⟨fun hex => ?_, fun hex => ?_⟩
  · obtain ⟨ws, hws, -, he⟩ := hex
    exact ⟨ws 0, hws 0, (S.holdsIn_bind _ ws).1 he⟩
  · obtain ⟨w, hw, he⟩ := hex
    exact ⟨fun _ => w, fun _ => hw, (I.isTrue_bool true).2 rfl, (S.holdsIn_bind _ fun _ => w).2 he⟩

theorem holdsIn_substitute {x : String} {y : Name} {t : Ty} {w : V}
    (hy : y.text ∉ e.freeVars) :
    S.HoldsIn (Function.update σ y.text w) h (e.substitute (.singleton x (.ofVar y t))) ↔
      S.HoldsIn (Function.update σ x w) h e := by
  have hvalue : (e.substitute (.singleton x (.ofVar y t))).eval S.onHeaps
      (Valuation.onHeaps (Function.update σ y.text w)) =
        e.eval S.onHeaps (Valuation.onHeaps (Function.update σ x w)) := by
    rw [TypedExpr.eval_substitute]
    refine e.eval_congr S.onHeaps fun z hz => ?_
    by_cases hzx : z = x
    · subst hzx
      rw [Valuation.through_of_some (e := .ofVar y t) (by simp)]
      simp [TypedExpr.ofVar, TypedExpr.eval, Valuation.onHeaps]
    · have hzy : z ≠ y.text := by
        rintro rfl
        exact hy hz
      rw [Valuation.through_of_none (by simp [hzx])]
      simp [Valuation.onHeaps, hzx, hzy]
  rw [HoldsIn, HoldsIn, hvalue]

end Interpretation.Standard

end GuardedCommands
