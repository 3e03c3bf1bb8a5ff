/-!
# Finite sets of names

A set of names is the strictly increasing list of its members, so equal sets
are equal lists and every listing of a set is in order.
-/

namespace GuardedCommands

/-- A finite set of names, listed in increasing order. -/
@[ext]
structure NameSet where
  toList : List String
  sorted : toList.Pairwise (· < ·)
deriving DecidableEq

namespace NameSet

theorem sorted_nil : ([] : List String).Pairwise (· < ·) := .nil

instance : EmptyCollection NameSet := ⟨⟨[], sorted_nil⟩⟩

instance : Inhabited NameSet := ⟨∅⟩

instance : Membership String NameSet := ⟨fun s x => x ∈ s.toList⟩

instance (x : String) (s : NameSet) : Decidable (x ∈ s) :=
  inferInstanceAs (Decidable (x ∈ s.toList))

theorem mem_def {x : String} {s : NameSet} : x ∈ s ↔ x ∈ s.toList := Iff.rfl

@[simp] theorem not_mem_empty (x : String) : x ∉ (∅ : NameSet) := by
  simp [mem_def, EmptyCollection.emptyCollection]

def contains (s : NameSet) (x : String) : Bool := decide (x ∈ s)

def size (s : NameSet) : Nat := s.toList.length

def isEmpty (s : NameSet) : Bool := s.toList.isEmpty

/-- Puts a name at its place in an increasing list. -/
def place (x : String) : List String → List String
  | [] => [x]
  | y :: ys => if x < y then x :: y :: ys else if x = y then y :: ys else y :: place x ys

theorem mem_place {x z : String} {l : List String} : z ∈ place x l ↔ z = x ∨ z ∈ l := by
  induction l with
  | nil => simp [place]
  | cons y ys ih =>
    unfold place
    split
    · simp
    · split
      · next h => subst h; simp
      · simp only [List.mem_cons, ih]
        grind

theorem sorted_place {x : String} {l : List String} (h : l.Pairwise (· < ·)) :
    (place x l).Pairwise (· < ·) := by
  induction l with
  | nil => simp [place]
  | cons y ys ih =>
    have ⟨hy, hys⟩ := List.pairwise_cons.1 h
    unfold place
    split
    · next hx =>
      refine List.pairwise_cons.2 ⟨fun z hz => ?_, h⟩
      rcases List.mem_cons.1 hz with rfl | hz
      · exact hx
      · exact String.lt_trans hx (hy z hz)
    · split
      · exact h
      · next hlt hne =>
        refine List.pairwise_cons.2 ⟨fun z hz => ?_, ih hys⟩
        rcases mem_place.1 hz with rfl | hz
        · grind
        · exact hy z hz

def insert (s : NameSet) (x : String) : NameSet :=
  ⟨place x s.toList, sorted_place s.sorted⟩

@[simp] theorem mem_insert {s : NameSet} {x z : String} : z ∈ s.insert x ↔ z = x ∨ z ∈ s :=
  mem_place

instance : Singleton String NameSet := ⟨fun x => (∅ : NameSet).insert x⟩

@[simp] theorem mem_singleton {x z : String} : z ∈ ({x} : NameSet) ↔ z = x := by
  simp [Singleton.singleton]

def insertAll (s : NameSet) (xs : List String) : NameSet := xs.foldl insert s

@[simp] theorem mem_insertAll {s : NameSet} {xs : List String} {z : String} :
    z ∈ s.insertAll xs ↔ z ∈ s ∨ z ∈ xs := by
  induction xs generalizing s with
  | nil => simp [insertAll]
  | cons x xs ih =>
    have : s.insertAll (x :: xs) = (s.insert x).insertAll xs := rfl
    rw [this, ih]
    simp only [mem_insert, List.mem_cons]
    grind

def ofList (xs : List String) : NameSet := (∅ : NameSet).insertAll xs

@[simp] theorem mem_ofList {xs : List String} {z : String} : z ∈ ofList xs ↔ z ∈ xs := by
  simp [ofList]

instance : Union NameSet := ⟨fun s t => s.insertAll t.toList⟩

@[simp] theorem mem_union {s t : NameSet} {z : String} : z ∈ s ∪ t ↔ z ∈ s ∨ z ∈ t :=
  mem_insertAll

def filter (p : String → Bool) (s : NameSet) : NameSet :=
  ⟨s.toList.filter p, s.sorted.filter p⟩

@[simp] theorem mem_filter {p : String → Bool} {s : NameSet} {z : String} :
    z ∈ s.filter p ↔ z ∈ s ∧ p z := List.mem_filter

def erase (s : NameSet) (x : String) : NameSet := s.filter (· != x)

@[simp] theorem mem_erase {s : NameSet} {x z : String} : z ∈ s.erase x ↔ z ∈ s ∧ z ≠ x := by
  simp [erase]

instance : SDiff NameSet := ⟨fun s t => s.filter fun x => !t.contains x⟩

@[simp] theorem mem_sdiff {s t : NameSet} {z : String} : z ∈ s \ t ↔ z ∈ s ∧ z ∉ t := by
  simp [SDiff.sdiff, contains]

def unionMap (f : α → NameSet) : List α → NameSet
  | [] => ∅
  | x :: xs => f x ∪ unionMap f xs

@[simp] theorem mem_unionMap {f : α → NameSet} {xs : List α} {z : String} :
    z ∈ unionMap f xs ↔ ∃ x ∈ xs, z ∈ f x := by
  induction xs with
  | nil => simp [unionMap]
  | cons x xs ih => simp [unionMap, ih]

theorem nodup (s : NameSet) : s.toList.Nodup :=
  s.sorted.imp fun h => by grind

/-- A list without repetitions is no longer than one that has all its members. -/
theorem length_le_of_nodup {a b : List String} (ha : a.Nodup) (h : ∀ x ∈ a, x ∈ b) :
    a.length ≤ b.length := by
  induction a generalizing b with
  | nil => simp
  | cons x a ih =>
    have ⟨hx, ha⟩ := List.nodup_cons.1 ha
    have hmem : x ∈ b := h x (List.mem_cons_self ..)
    have hsub : ∀ y ∈ a, y ∈ b.erase x := fun y hy =>
      (List.mem_erase_of_ne (by rintro rfl; exact hx hy)).2 (h y (List.mem_cons_of_mem _ hy))
    have := ih ha hsub
    have hlen := List.length_erase_of_mem hmem
    have hpos : 0 < b.length := List.length_pos_of_mem hmem
    simp only [List.length_cons]
    omega

theorem size_le_of_subset {s t : NameSet} (h : ∀ x ∈ s, x ∈ t) : s.size ≤ t.size :=
  length_le_of_nodup s.nodup h

theorem size_lt_of_subset {s t : NameSet} {x : String} (h : ∀ z ∈ s, z ∈ t) (hx : x ∈ t)
    (hxs : x ∉ s) : s.size < t.size := by
  have hnodup : (x :: s.toList).Nodup := List.nodup_cons.2 ⟨hxs, s.nodup⟩
  have hsub : ∀ z ∈ x :: s.toList, z ∈ t.toList := by
    intro z hz
    rcases List.mem_cons.1 hz with rfl | hz
    · exact hx
    · exact h z hz
  exact length_le_of_nodup hnodup hsub

end NameSet

end GuardedCommands
