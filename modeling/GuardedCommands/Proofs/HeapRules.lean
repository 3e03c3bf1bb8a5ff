import GuardedCommands.Proofs.HeapAssertions
import GuardedCommands.Proofs.ProgramCorrectness
import GuardedCommands.Verification.Verifier

/-!
# Preconditions of heap commands

The preconditions of the four heap commands, read in heaps.  For a mutation and for a
disposal the cell is split off by `∗`; what is left of the heap, with the new cell or
without any, has to satisfy the postcondition.  These two preconditions are exact.

The precondition of an allocation has the new cells on the left of `⇒`, and that of a
lookup has the cell on the left of `∧`.  Both connectives are about the heap as it is, so
the first asks for something only if the heap is already nothing but the new cells, and
the second asks that the heap is nothing but the cell that is read, after which `-∗` has
no heap to speak of.
-/

namespace GuardedCommands

universe u

/-! ## Cells of a heap -/

namespace Heap

def block (a : ℤ) : List ℤ → Heap
  | [] => ∅
  | n :: ns => .singleton a n ∪ block (a + 1) ns

variable {h : Heap} {a n : ℤ}

theorem disjoint_singleton (ha : a ∉ h) : h.Disjoint (.singleton a n) := by
  intro b hb hmem
  rw [(Finmap.mem_singleton ..).1 hmem] at hb
  exact ha hb

theorem mem_singleton_self (a n : ℤ) : a ∈ (Finmap.singleton a n : Heap) :=
  (Finmap.mem_singleton ..).2 rfl

theorem block_cons_ne_empty (a n : ℤ) (ns : List ℤ) : block a (n :: ns) ≠ ∅ := by
  intro hempty
  have ha : a ∈ block a (n :: ns) := Finmap.mem_union.2 (.inl (mem_singleton_self a n))
  rw [hempty] at ha
  exact Finmap.notMem_empty ha

theorem split_cell {h₁ h₂ : Heap} (hdisjoint : h₁.Disjoint h₂) (hcell : h₁ = .singleton a n) :
    a ∈ h₁ ∪ h₂ ∧ h₂ = (h₁ ∪ h₂).erase a := by
  subst hcell
  have ha : a ∉ h₂ := hdisjoint a (mem_singleton_self a n)
  refine ⟨Finmap.mem_union.2 (.inl (mem_singleton_self a n)), Finmap.ext_lookup fun b => ?_⟩
  by_cases hb : b = a
  · subst hb
    rw [Finmap.lookup_erase, Finmap.lookup_eq_none]
    exact ha
  · rw [Finmap.lookup_erase_ne hb, Finmap.lookup_union_right]
    rwa [Finmap.mem_singleton]

theorem exists_cell (ha : a ∈ h) :
    ∃ n, Finmap.Disjoint (.singleton a n) (h.erase a) ∧ h = .singleton a n ∪ h.erase a := by
  obtain ⟨n, hn⟩ := Finmap.mem_iff.1 ha
  have hdisjoint : Finmap.Disjoint (.singleton a n) (h.erase a) :=
    (disjoint_singleton Finmap.notMem_erase_self).symm
  refine ⟨n, hdisjoint, ?_⟩
  rw [Finmap.union_comm_of_disjoint hdisjoint, Finmap.erase_union_singleton a n h hn]

theorem erase_union_cell (h : Heap) (a n : ℤ) : h.erase a ∪ .singleton a n = h.insert a n := by
  refine Finmap.ext_lookup fun b => ?_
  by_cases hb : b = a
  · subst hb
    rw [Finmap.lookup_insert, Finmap.lookup_union_right Finmap.notMem_erase_self,
      Finmap.lookup_singleton_eq]
  · rw [Finmap.lookup_insert_of_ne _ hb, Finmap.lookup_union_left_of_not_in,
      Finmap.lookup_erase_ne hb]
    rwa [Finmap.mem_singleton]

end Heap

/-! ## New names -/

variable {V : Type u} {I : Interpretation V}

theorem TypedExpr.eval_update_of_not_mem {e : TypedExpr} {x : String} (hx : x ∉ e.freeVars)
    (σ : Valuation V) (w : V) : e.eval I (Function.update σ x w) = e.eval I σ := by
  refine e.eval_congr I fun y hy => Function.update_of_ne ?_ w σ
  rintro rfl
  exact hx hy

theorem TypedExpr.eval_ofVar_update (v : Name) (t : Ty) (σ : Valuation V) (w : V) :
    (TypedExpr.ofVar v t).eval I (Function.update σ v.text w) = w := by
  simp [TypedExpr.ofVar, TypedExpr.eval]

namespace Interpretation.Standard

variable (S : I.Standard) {σ : Valuation V} {h : Heap} {o : Options} {scopes : Scopes}
  {cell value e post : TypedExpr}

theorem holdsIn_cell {v : Name} {w : V} (hcell : cell.heapFree = true)
    (hv : v.text ∉ cell.freeVars) :
    S.HoldsIn (Function.update σ v.text w) h (.pointsTo cell (.ofVar v .int)) ↔
      h = .singleton (S.toInt (cell.eval I σ)) (S.toInt w) := by
  rw [S.holdsIn_pointsTo hcell rfl, TypedExpr.eval_update_of_not_mem hv,
    TypedExpr.eval_ofVar_update]

/-! ## Mutation and disposal -/

variable {avoid : NameSet} {base : TypedExpr} {i : ℕ} {es : List TypedExpr}

theorem holdsIn_ownedCell (hcell : cell.heapFree = true) (havoid : ∀ x ∈ cell.freeVars, x ∈ avoid) :
    S.HoldsIn σ h (Wp.ownedCell o scopes cell avoid) ↔
      ∃ n, h = .singleton (S.toInt (cell.eval I σ)) n := by
  have hv : (Wp.heapVar o scopes avoid).name.text ∉ cell.freeVars :=
    fun hmem => Wp.heapVar_not_mem o scopes avoid (havoid _ hmem)
  rw [Wp.ownedCell, S.holdsIn_thereIs]
  simp only [S.holdsIn_cell hcell hv]
  constructor
  · rintro ⟨w, -, hw⟩
    exact ⟨S.toInt w, hw⟩
  · rintro ⟨n, hn⟩
    exact ⟨S.int n, S.int_mem_domain n, by rw [S.toInt_int, hn]⟩

theorem holdsIn_ownedCell_sepConj (hcell : cell.heapFree = true)
    (havoid : ∀ x ∈ cell.freeVars, x ∈ avoid) :
    S.HoldsIn σ h (.sepConj (Wp.ownedCell o scopes cell avoid) e) ↔
      S.toInt (cell.eval I σ) ∈ h ∧ S.HoldsIn σ (h.erase (S.toInt (cell.eval I σ))) e := by
  rw [holdsIn_sepConj]
  simp only [S.holdsIn_ownedCell hcell havoid]
  constructor
  · rintro ⟨h₁, h₂, hdisjoint, rfl, ⟨n, hn⟩, he⟩
    obtain ⟨ha, hrest⟩ := Heap.split_cell hdisjoint hn
    exact ⟨ha, hrest ▸ he⟩
  · rintro ⟨ha, he⟩
    obtain ⟨n, hdisjoint, hunion⟩ := Heap.exists_cell ha
    exact ⟨_, _, hdisjoint, hunion, ⟨n, rfl⟩, he⟩

theorem holdsIn_pointsTo_sepImp (hcell : cell.heapFree = true) (hvalue : value.heapFree = true)
    (ha : S.toInt (cell.eval I σ) ∉ h) :
    S.HoldsIn σ h (.sepImp (.pointsTo cell value) e) ↔
      S.HoldsIn σ (h ∪ .singleton (S.toInt (cell.eval I σ)) (S.toInt (value.eval I σ))) e := by
  simp only [holdsIn_sepImp, S.holdsIn_pointsTo hcell hvalue]
  constructor
  · intro hall
    exact hall _ (Heap.disjoint_singleton ha) rfl
  · rintro he _ - rfl
    exact he

theorem holdsIn_mutate (hcell : cell.heapFree = true) (hvalue : value.heapFree = true) :
    S.HoldsIn σ h (Wp.mutate o scopes cell value post) ↔
      S.toInt (cell.eval I σ) ∈ h ∧
        S.HoldsIn σ (h.insert (S.toInt (cell.eval I σ)) (S.toInt (value.eval I σ))) post := by
  rw [Wp.mutate, S.holdsIn_ownedCell_sepConj hcell (by simp +contextual),
    S.holdsIn_pointsTo_sepImp hcell hvalue Finmap.notMem_erase_self, Heap.erase_union_cell]

theorem holdsIn_dispose (hcell : cell.heapFree = true) :
    S.HoldsIn σ h (Wp.dispose o scopes cell post) ↔
      S.toInt (cell.eval I σ) ∈ h ∧ S.HoldsIn σ (h.erase (S.toInt (cell.eval I σ))) post := by
  rw [Wp.dispose, S.holdsIn_ownedCell_sepConj hcell (by simp +contextual)]

/-! ## Allocation and lookup -/

theorem holdsIn_sepConj_of_iff {l r : TypedExpr} {k₁ k₂ : Heap} (hdisjoint : k₁.Disjoint k₂)
    (hl : ∀ h, S.HoldsIn σ h l ↔ h = k₁) (hr : ∀ h, S.HoldsIn σ h r ↔ h = k₂) :
    S.HoldsIn σ h (.sepConj l r) ↔ h = k₁ ∪ k₂ := by
  simp only [holdsIn_sepConj, hl, hr]
  constructor
  · rintro ⟨h₁, h₂, -, hunion, rfl, rfl⟩
    exact hunion
  · intro hunion
    exact ⟨k₁, k₂, hdisjoint, hunion, rfl, rfl⟩

theorem heapFree_address (hbase : base.heapFree = true) (i : ℕ) :
    (Wp.address base i).heapFree = true := by
  unfold Wp.address
  split
  · exact hbase
  · simp [TypedExpr.binary, TypedExpr.apply, TypedExpr.ofOp, TypedExpr.ofNum, TypedExpr.ofLit,
      TypedExpr.heapFree, Op.heapOp?, hbase]

theorem toInt_address (base : TypedExpr) (hi : i < 2 ^ 63) :
    S.toInt ((Wp.address base i).eval I σ) = S.toInt (base.eval I σ) + i := by
  unfold Wp.address
  split
  · next hzero => simp [hzero]
  · have hread : (TypedExpr.binary .add base (.ofNum (.ofNat i))).eval I σ =
        I.app (I.app (I.op (.arith .add)) (base.eval I σ)) (I.lit (.num (.ofNat i))) := rfl
    rw [hread, S.toInt_add, S.toInt_num, Int64.toInt_ofNat_of_lt hi]

theorem holdsIn_foldl_cells (hbase : base.heapFree = true) (hes : ∀ e ∈ es, e.heapFree = true)
    (hlen : i + es.length ≤ 2 ^ 63) {c : TypedExpr} {k : Heap}
    (hk : ∀ a ∈ k, a < S.toInt (base.eval I σ) + i) (hc : ∀ h, S.HoldsIn σ h c ↔ h = k) :
    S.HoldsIn σ h ((es.mapIdx fun j e => .pointsTo (Wp.address base (j + i)) e).foldl .sepConj c) ↔
      h = k ∪ Heap.block (S.toInt (base.eval I σ) + i) (es.map fun e => S.toInt (e.eval I σ)) := by
  -- The cells so far lie before the next address, so the next cell is apart from them.
  induction es generalizing i c k with
  | nil => simp [hc, Heap.block]
  | cons e es ih =>
    obtain ⟨he, hes⟩ := List.forall_mem_cons.1 hes
    rw [List.length_cons] at hlen
    set a := S.toInt (base.eval I σ) + i with ha
    have hcell : ∀ h, S.HoldsIn σ h (.pointsTo (Wp.address base (0 + i)) e) ↔
        h = .singleton a (S.toInt (e.eval I σ)) := by
      intro h
      rw [S.holdsIn_pointsTo (heapFree_address hbase _) he, Nat.zero_add,
        S.toInt_address base (by omega)]
    have hfresh : a ∉ k := fun hmem => lt_irrefl a (hk a hmem)
    have hnext := fun h =>
      S.holdsIn_sepConj_of_iff (h := h) (Heap.disjoint_singleton hfresh) hc hcell
    have hbound : ∀ b ∈ k ∪ .singleton a (S.toInt (e.eval I σ)),
        b < S.toInt (base.eval I σ) + (i + 1 : ℕ) := by
      intro b hb
      rcases Finmap.mem_union.1 hb with hb | hb
      · have := hk b hb
        omega
      · rw [(Finmap.mem_singleton ..).1 hb]
        omega
    have hshift : (fun (j : ℕ) (e : TypedExpr) =>
        TypedExpr.pointsTo (Wp.address base (j + 1 + i)) e) =
          fun j e => .pointsTo (Wp.address base (j + (i + 1))) e := by
      funext j e
      rw [Nat.add_right_comm, Nat.add_assoc]
    rw [List.mapIdx_cons, List.foldl_cons, hshift, ih hes (by omega) hbound hnext,
      Finmap.union_assoc, List.map_cons, Heap.block, ha, Nat.cast_add, Nat.cast_one, ← add_assoc]

theorem holdsIn_cells (hbase : base.heapFree = true) (hes : ∀ e ∈ es, e.heapFree = true)
    (hlen : es.length ≤ 2 ^ 63) :
    S.HoldsIn σ h (Wp.cells base es) ↔
      h = Heap.block (S.toInt (base.eval I σ)) (es.map fun e => S.toInt (e.eval I σ)) := by
  cases es with
  | nil => exact S.holdsIn_emp
  | cons e es =>
    obtain ⟨he, hes⟩ := List.forall_mem_cons.1 hes
    have hcell : ∀ h, S.HoldsIn σ h (.pointsTo (Wp.address base 0) e) ↔
        h = .singleton (S.toInt (base.eval I σ)) (S.toInt (e.eval I σ)) :=
      fun h => S.holdsIn_pointsTo hbase he
    have hbound : ∀ a ∈ (.singleton (S.toInt (base.eval I σ)) (S.toInt (e.eval I σ)) : Heap),
        a < S.toInt (base.eval I σ) + (1 : ℕ) := by
      intro a ha
      rw [(Finmap.mem_singleton ..).1 ha]
      omega
    simp only [Wp.cells, List.mapIdx_cons]
    rw [S.holdsIn_foldl_cells hbase hes (by rw [List.length_cons] at hlen; omega) hbound hcell,
      List.map_cons, Heap.block, Nat.cast_one]

theorem holdsIn_alloc {x : Name} (hes : ∀ e ∈ es, e.heapFree = true) (hlen : es.length ≤ 2 ^ 63) :
    S.HoldsIn σ h (Wp.alloc o scopes x es post) ↔
      ∀ w ∈ S.domain, h = Heap.block (S.toInt w) (es.map fun e => S.toInt (e.eval I σ)) →
        S.HoldsIn (Function.update σ x.text w) h post := by
  have hv := Wp.heapVar_not_mem o scopes ((post.freeVars ∪ Wp.namesOf es).insert x.text)
  simp only [NameSet.mem_insert, NameSet.mem_union, not_or] at hv
  have hvs : ∀ e ∈ es, _ ∉ e.freeVars :=
    fun e he hmem => hv.2.2 (NameSet.mem_unionMap.2 ⟨e, he, hmem⟩)
  rw [Wp.alloc, S.holdsIn_forAll]
  refine forall₂_congr fun w _ => ?_
  rw [holdsIn_implies, S.holdsIn_cells rfl hes hlen, S.holdsIn_substitute hv.2.1,
    TypedExpr.eval_ofVar_update, List.map_congr_left fun e he =>
      congrArg S.toInt (TypedExpr.eval_update_of_not_mem (hvs e he) σ w)]

/-- The heap has to be the cell that is read, and nothing is asked of the postcondition. -/
theorem holdsIn_lookup {x : Name} (he : e.heapFree = true) :
    S.HoldsIn σ h (Wp.lookup o scopes x e post) ↔
      ∃ n, h = .singleton (S.toInt (e.eval I σ)) n := by
  have hv := Wp.heapVar_not_mem o scopes ((post.freeVars ∪ e.freeVars).insert x.text)
  simp only [NameSet.mem_insert, NameSet.mem_union, not_or] at hv
  rw [Wp.lookup, S.holdsIn_thereIs]
  simp only [holdsIn_conj, holdsIn_sepImp, S.holdsIn_cell he hv.2.2]
  constructor
  · rintro ⟨w, -, hw, -⟩
    exact ⟨S.toInt w, hw⟩
  · rintro ⟨n, rfl⟩
    refine ⟨S.int n, S.int_mem_domain n, by rw [S.toInt_int], ?_⟩
    -- A part apart from the heap cannot be the cell that the heap already has.
    rintro h' hdisjoint rfl
    exact absurd (Heap.mem_singleton_self _ _) (hdisjoint _ (Heap.mem_singleton_self _ _))

end Interpretation.Standard

/-! ## A standard interpretation -/

namespace HeapCells

open Countdown (Value)

def toInt : Value → ℤ
  | .int n => n
  | _ => 0

def apply : Value → Value → Value
  | .section (.arith .add) a, b => .int (toInt a + toInt b)
  | f, a => f.apply a

open Classical in
noncomputable def quantify (q : Value) (n : ℕ) (range body : (Fin n → Value) → Value) : Value :=
  match q with
  | .op (.arith .conj) =>
    .bool (decide (∀ ws, (∀ i, ws i ∈ Set.range Value.int) →
      (range ws).isTrue = true → (body ws).isTrue = true))
  | .op (.arith .disj) =>
    .bool (decide (∃ ws, (∀ i, ws i ∈ Set.range Value.int) ∧
      (range ws).isTrue = true ∧ (body ws).isTrue = true))
  | _ => .other

noncomputable def reading : Interpretation Value where
  lit := Countdown.reading.lit
  op := .op
  chain := Countdown.reading.chain
  app := apply
  lam _ := .other
  quant := quantify
  index _ _ := .other
  update _ _ _ := .other
  IsTrue v := v.isTrue = true
  isTrue_bool := Countdown.reading.isTrue_bool
  isTrue_conj := Countdown.reading.isTrue_conj
  isTrue_disj := Countdown.reading.isTrue_disj
  isTrue_implies := Countdown.reading.isTrue_implies
  isTrue_neg := Countdown.reading.isTrue_neg

open Classical in
noncomputable def standard : reading.Standard where
  int := .int
  toInt := toInt
  domain := Set.range .int
  int_mem_domain n := ⟨n, rfl⟩
  toInt_int _ := rfl
  toInt_num _ := rfl
  toInt_add _ _ := rfl
  isTrue_forAll _ _ _ := decide_eq_true_iff
  isTrue_thereIs _ _ _ := decide_eq_true_iff

def allFive : Valuation Value := fun _ => .int 5

/-- The stem of the new names, so that they have to differ from it. -/
def v : TypedExpr := .ofVar (.bare "v") .int

def next : TypedExpr := .binary .add v (.ofNum 1)

def verifier : Verifier := .start Countdown.opts

theorem eval_v : v.eval reading allFive = .int 5 := rfl

theorem eval_next : next.eval reading allFive = .int 6 := rfl

end HeapCells

/-! ## What the preconditions say -/

theorem TypedExpr.mem_freeVars_binary {o : ArithOp} {l r : TypedExpr} {x : String} :
    x ∈ (binary o l r).freeVars ↔ x ∈ l.freeVars ∨ x ∈ r.freeVars := by
  simp [binary, apply, ofOp, freeVars]

theorem Wp.mem_freeVars_ownedCell {o : Options} {scopes : Scopes} {cell : TypedExpr}
    {avoid : NameSet} (havoid : ∀ x ∈ cell.freeVars, x ∈ avoid) {x : String} :
    x ∈ (ownedCell o scopes cell avoid).freeVars ↔ x ∈ cell.freeVars := by
  have hv : (heapVar o scopes avoid).name.text ∉ cell.freeVars :=
    fun hmem => heapVar_not_mem o scopes avoid (havoid _ hmem)
  have hbody : x ∈ (TypedExpr.pointsTo cell (.ofVar (heapVar o scopes avoid).name .int)).freeVars ↔
      x ∈ cell.freeVars ∨ x = (heapVar o scopes avoid).name.text := by
    simp [TypedExpr.pointsTo, TypedExpr.mem_freeVars_binary, TypedExpr.ofVar, TypedExpr.freeVars]
  simp only [ownedCell, TypedExpr.thereIs, TypedExpr.quantify, TypedExpr.ofOp, TypedExpr.ofBool,
    TypedExpr.ofLit, TypedExpr.freeVars, NameSet.mem_union, NameSet.mem_sdiff, hbody,
    NameSet.not_mem_empty, NameSet.mem_ofList, List.map_cons, List.map_nil, List.mem_singleton,
    false_or]
  constructor
  · rintro ⟨hx | hx, hne⟩
    · exact hx
    · exact absurd hx hne
  · intro hx
    exact ⟨.inl hx, fun heq => hv (heq ▸ hx)⟩

theorem Verifier.wp_singleton (v : Verifier) (s : TypedStmt) (post : TypedExpr) :
    v.wp [s] post = Wp.stmt v.options v.scopes post s := by
  rw [wp, Wp.list, Wp.list]
  rfl

/-- The preconditions of a mutation and of a disposal hold exactly if the cell is there and
the changed heap satisfies the postcondition, and no name is captured. -/
theorem mutation_disposal_exact (S : I.Standard) (v : Verifier) {cell value : TypedExpr}
    (hcell : cell.heapFree = true) (hvalue : value.heapFree = true) (post : TypedExpr)
    (loc : Loc) :
    (∃ pre, v.wp [.mutate cell value loc] post = .ok pre ∧
      (∀ σ h, S.HoldsIn σ h pre ↔
        S.toInt (cell.eval I σ) ∈ h ∧
          S.HoldsIn σ (h.insert (S.toInt (cell.eval I σ)) (S.toInt (value.eval I σ))) post) ∧
      ∀ x, x ∈ pre.freeVars ↔ x ∈ cell.freeVars ∨ x ∈ value.freeVars ∨ x ∈ post.freeVars) ∧
    ∃ pre, v.wp [.dispose cell loc] post = .ok pre ∧
      (∀ σ h, S.HoldsIn σ h pre ↔
        S.toInt (cell.eval I σ) ∈ h ∧ S.HoldsIn σ (h.erase (S.toInt (cell.eval I σ))) post) ∧
      ∀ x, x ∈ pre.freeVars ↔ x ∈ cell.freeVars ∨ x ∈ post.freeVars := by
  simp only [Verifier.wp_singleton, Wp.stmt]
  refine ⟨⟨_, rfl, fun σ h => S.holdsIn_mutate hcell hvalue, fun x => ?_⟩,
    ⟨_, rfl, fun σ h => S.holdsIn_dispose hcell, fun x => ?_⟩⟩
  · rw [Wp.mutate, TypedExpr.sepConj, TypedExpr.mem_freeVars_binary,
      Wp.mem_freeVars_ownedCell (by simp +contextual), TypedExpr.sepImp,
      TypedExpr.mem_freeVars_binary, TypedExpr.pointsTo, TypedExpr.mem_freeVars_binary]
    tauto
  · rw [Wp.dispose, TypedExpr.sepConj, TypedExpr.mem_freeVars_binary,
      Wp.mem_freeVars_ownedCell (by simp +contextual)]

theorem HeapCells.own_address_increased :
    v.heapFree = true ∧ next.heapFree = true ∧
      ∃ pre, verifier.wp [.mutate v next .none] (.pointsTo v next) = .ok pre ∧
        standard.HoldsIn allFive (.singleton 5 1) pre ∧ "v" ∈ pre.freeVars := by
  have hv : v.heapFree = true := rfl
  have hnext : next.heapFree = true := rfl
  obtain ⟨⟨pre, hpre, hholds, hfree⟩, -⟩ :=
    mutation_disposal_exact standard verifier hv hnext (.pointsTo v next) .none
  refine ⟨hv, hnext, pre, hpre, (hholds _ _).2 ⟨Heap.mem_singleton_self 5 1, ?_⟩,
    (hfree _).2 (.inl (by decide))⟩
  rw [standard.holdsIn_pointsTo hv hnext, eval_v, eval_next]
  exact Finmap.insert_singleton_eq

/-- The precondition of an allocation says that the postcondition holds if the heap is
nothing but the new cells, and that of a lookup says that the heap is nothing but the cell. -/
theorem allocation_lookup_current_heap (S : I.Standard) (v : Verifier) (x : Name)
    {es : List TypedExpr} (hes : ∀ e ∈ es, e.heapFree = true) (hlen : es.length ≤ 2 ^ 63)
    {e : TypedExpr} (he : e.heapFree = true) (post : TypedExpr) (loc : Loc) :
    (∃ pre, v.wp [.alloc x es loc] post = .ok pre ∧
      ∀ σ h, S.HoldsIn σ h pre ↔
        ∀ w ∈ S.domain, h = Heap.block (S.toInt w) (es.map fun e => S.toInt (e.eval I σ)) →
          S.HoldsIn (Function.update σ x.text w) h post) ∧
    ∃ pre, v.wp [.lookup x e loc] post = .ok pre ∧
      ∀ σ h, S.HoldsIn σ h pre ↔ ∃ n, h = .singleton (S.toInt (e.eval I σ)) n := by
  simp only [Verifier.wp_singleton, Wp.stmt]
  exact ⟨⟨_, rfl, fun σ h => S.holdsIn_alloc hes hlen⟩, ⟨_, rfl, fun σ h => S.holdsIn_lookup he⟩⟩

theorem HeapCells.two_cells_and_content :
    (∀ e ∈ [v, next], e.heapFree = true) ∧ [v, next].length ≤ 2 ^ 63 ∧ v.heapFree = true ∧
      (∃ pre, verifier.wp [.alloc (.bare "v") [v, next] .none] (.ofLit .emp) = .ok pre ∧
        ∀ a, ¬ standard.HoldsIn allFive (Heap.block a [5, 6]) pre) ∧
      ∃ pre, verifier.wp [.lookup (.bare "v") v .none] (.ofLit .emp) = .ok pre ∧
        standard.HoldsIn allFive (.singleton 5 1) pre := by
  have hes : ∀ e ∈ [v, next], e.heapFree = true := by decide
  have hlen : [v, next].length ≤ 2 ^ 63 := by decide
  have hv : v.heapFree = true := rfl
  obtain ⟨⟨pre, hpre, halloc⟩, ⟨pre', hpre', hlookup⟩⟩ :=
    allocation_lookup_current_heap standard verifier (.bare "v") hes hlen hv (.ofLit .emp) .none
  refine ⟨hes, hlen, hv, ⟨pre, hpre, fun a hholds => ?_⟩, ⟨pre', hpre', (hlookup _ _).2 ⟨1, rfl⟩⟩⟩
  have hemp := (halloc _ _).1 hholds (.int a) ⟨a, rfl⟩ rfl
  rw [standard.holdsIn_emp] at hemp
  exact Heap.block_cons_ne_empty _ _ _ hemp

/-- Wherever the new cells are put, the precondition of an allocation makes the
postcondition true of the larger heap. -/
def Interpretation.Standard.AllocationSound (S : I.Standard) : Prop :=
  ∀ (v : Verifier) (x : Name) (es : List TypedExpr) (post pre : TypedExpr) (loc : Loc)
    (σ : Valuation V) (h : Heap) (a : ℤ),
    (∀ e ∈ es, e.heapFree = true) → v.wp [.alloc x es loc] post = .ok pre → S.HoldsIn σ h pre →
      h.Disjoint (Heap.block a (es.map fun e => S.toInt (e.eval I σ))) →
        S.HoldsIn (Function.update σ x.text (S.int a))
          (h ∪ Heap.block a (es.map fun e => S.toInt (e.eval I σ))) post

/-- The precondition of a lookup makes the cell be there, and the postcondition true once the
name has its content. -/
def Interpretation.Standard.LookupSound (S : I.Standard) : Prop :=
  ∀ (v : Verifier) (x : Name) (e post pre : TypedExpr) (loc : Loc) (σ : Valuation V) (h : Heap),
    e.heapFree = true → v.wp [.lookup x e loc] post = .ok pre → S.HoldsIn σ h pre →
      ∃ n, h.lookup (S.toInt (e.eval I σ)) = some n ∧
        S.HoldsIn (Function.update σ x.text (S.int n)) h post

/-- A postcondition that nothing satisfies has preconditions that some heaps satisfy. -/
theorem HeapCells.false_after_allocation_and_lookup :
    ¬ standard.AllocationSound ∧ ¬ standard.LookupSound := by
  constructor
  · intro hsound
    have hpre : verifier.wp [.alloc (.bare "v") [next] .none] (.ofBool false) =
        .ok (Wp.alloc verifier.options verifier.scopes (.bare "v") [next] (.ofBool false)) := by
      rw [Verifier.wp_singleton, Wp.stmt]
    have hholds : standard.HoldsIn allFive ∅
        (Wp.alloc verifier.options verifier.scopes (.bare "v") [next] (.ofBool false)) :=
      (standard.holdsIn_alloc (by decide) (by decide)).2 fun w _ hempty =>
        absurd hempty.symm (Heap.block_cons_ne_empty _ _ _)
    have hfalse := hsound _ _ _ _ _ _ _ _ 5 (by decide) hpre hholds (Finmap.disjoint_empty _)
    simp [standard.holdsIn_ofBool] at hfalse
  · intro hsound
    have hpre : verifier.wp [.lookup (.bare "v") v .none] (.ofBool false) =
        .ok (Wp.lookup verifier.options verifier.scopes (.bare "v") v (.ofBool false)) := by
      rw [Verifier.wp_singleton, Wp.stmt]
    have hholds : standard.HoldsIn allFive (.singleton 5 1)
        (Wp.lookup verifier.options verifier.scopes (.bare "v") v (.ofBool false)) :=
      (standard.holdsIn_lookup rfl).2 ⟨1, rfl⟩
    obtain ⟨n, -, hfalse⟩ := hsound _ _ _ _ _ _ _ _ rfl hpre hholds
    simp [standard.holdsIn_ofBool] at hfalse

end GuardedCommands
