import GuardedCommands.NameSet

/-!
# Finite maps on names

A finite map is the list of its entries with strictly increasing names, so
equal maps are equal lists and every listing of a map is in order.
-/

namespace GuardedCommands

/-- A finite map on names, listed in increasing order of the names. -/
@[ext]
structure NameMap (α : Type) where
  toList : List (String × α)
  sorted : (toList.map (·.1)).Pairwise (· < ·)

namespace NameMap

variable {α β : Type}

instance : EmptyCollection (NameMap α) := ⟨⟨[], NameSet.sorted_nil⟩⟩

instance : Inhabited (NameMap α) := ⟨∅⟩

def isEmpty (m : NameMap α) : Bool := m.toList.isEmpty

def keys (m : NameMap α) : NameSet := ⟨m.toList.map (·.1), m.sorted⟩

def values (m : NameMap α) : List α := m.toList.map (·.2)

def lookup (x : String) : List (String × α) → Option α
  | [] => none
  | (y, a) :: rest => if x = y then some a else lookup x rest

def get? (m : NameMap α) (x : String) : Option α := lookup x m.toList

/-- Puts an entry at its place in an increasing list, over an older one of that name. -/
def place (x : String) (a : α) : List (String × α) → List (String × α)
  | [] => [(x, a)]
  | (y, b) :: rest =>
    if x < y then (x, a) :: (y, b) :: rest
    else if x = y then (x, a) :: rest
    else (y, b) :: place x a rest

theorem mem_keys_place {x z : String} {a : α} {l : List (String × α)} :
    z ∈ (place x a l).map (·.1) ↔ z = x ∨ z ∈ l.map (·.1) := by
  induction l with
  | nil => simp [place]
  | cons e rest ih =>
    obtain ⟨y, b⟩ := e
    unfold place
    split
    · simp
    · split
      · next h => subst h; simp
      · simp only [List.map_cons, List.mem_cons, ih]
        grind

theorem sorted_place {x : String} {a : α} {l : List (String × α)}
    (h : (l.map (·.1)).Pairwise (· < ·)) : ((place x a l).map (·.1)).Pairwise (· < ·) := by
  induction l with
  | nil => simp [place]
  | cons e rest ih =>
    obtain ⟨y, b⟩ := e
    have ⟨hy, hrest⟩ := List.pairwise_cons.1 h
    unfold place
    split
    · next hx =>
      refine List.pairwise_cons.2 ⟨fun z hz => ?_, h⟩
      rcases List.mem_cons.1 hz with rfl | hz
      · exact hx
      · exact String.lt_trans hx (hy z hz)
    · split
      · next heq => subst heq; exact h
      · next hlt hne =>
        refine List.pairwise_cons.2 ⟨fun z hz => ?_, ih hrest⟩
        rcases mem_keys_place.1 hz with rfl | hz
        · grind
        · exact hy z hz

def insert (m : NameMap α) (x : String) (a : α) : NameMap α :=
  ⟨place x a m.toList, sorted_place m.sorted⟩

def insertAll (m : NameMap α) (entries : List (String × α)) : NameMap α :=
  entries.foldl (fun m e => m.insert e.1 e.2) m

/-- The map of a list of entries; of two entries of one name the later counts. -/
def ofList (entries : List (String × α)) : NameMap α := (∅ : NameMap α).insertAll entries

def singleton (x : String) (a : α) : NameMap α := (∅ : NameMap α).insert x a

def map (f : α → β) (m : NameMap α) : NameMap β :=
  ⟨m.toList.map fun e => (e.1, f e.2), by simpa [List.map_map, Function.comp_def] using m.sorted⟩

def filterKeys (p : String → Bool) (m : NameMap α) : NameMap α :=
  ⟨m.toList.filter fun e => p e.1, m.sorted.sublist (List.filter_sublist.map _)⟩

/-- The entries of both, those of `m` over those of `n`. -/
def override (m n : NameMap α) : NameMap α := n.insertAll m.toList

theorem lookup_eq_none {x : String} {l : List (String × α)} :
    lookup x l = none ↔ x ∉ l.map (·.1) := by
  induction l with
  | nil => simp [lookup]
  | cons e rest ih =>
    obtain ⟨y, b⟩ := e
    unfold lookup
    split <;> simp_all

theorem lookup_place {x z : String} {a : α} {l : List (String × α)}
    (h : (l.map (·.1)).Pairwise (· < ·)) :
    lookup z (place x a l) = if z = x then some a else lookup z l := by
  induction l with
  | nil => simp [place, lookup]
  | cons e rest ih =>
    obtain ⟨y, b⟩ := e
    have ⟨hy, hrest⟩ := List.pairwise_cons.1 h
    unfold place
    split
    · simp [lookup]
    · split
      · next heq =>
        subst heq
        simp only [lookup]
        split <;> rfl
      · simp only [lookup, ih hrest]
        grind

@[simp] theorem get?_empty (z : String) : (∅ : NameMap α).get? z = none := rfl

@[simp] theorem get?_insert (m : NameMap α) (x z : String) (a : α) :
    (m.insert x a).get? z = if z = x then some a else m.get? z :=
  lookup_place m.sorted

@[simp] theorem get?_singleton (x z : String) (a : α) :
    (singleton x a).get? z = if z = x then some a else none := by
  simp [singleton]

@[simp] theorem get?_map (f : α → β) (m : NameMap α) (z : String) :
    (m.map f).get? z = (m.get? z).map f := by
  obtain ⟨l, h⟩ := m
  simp only [get?, map]
  clear h
  induction l with
  | nil => rfl
  | cons e rest ih =>
    simp only [List.map_cons, lookup]
    split <;> simp_all

theorem mem_keys_iff {m : NameMap α} {x : String} : x ∈ m.keys ↔ (m.get? x).isSome := by
  have := @lookup_eq_none α x m.toList
  rw [← Option.ne_none_iff_isSome, Ne, get?, this]
  simp [keys, NameSet.mem_def]

end NameMap

end GuardedCommands
