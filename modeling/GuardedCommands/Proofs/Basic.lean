import GuardedCommands.Fresh
import GuardedCommands.NameMap
import Mathlib

/-!
# Laws of computations, names and finite maps

A computation that succeeds is taken apart into the computations it is made of.
Every operation on finite maps has one equation for what a look-up finds
afterwards, and later proofs use only these.  The search for a name outside some
scopes succeeds: its candidates differ from each other, and there are more of
them than the scopes have members.
-/

namespace GuardedCommands

variable {ε α β σ : Type} {b : β} {m : EStateM ε σ α} {f : α → EStateM ε σ β} {s s' : σ} {a : α}
  {xs : List α}

theorem Except.ok_of_bind {x : Except ε α} {f : α → Except ε β} (h : x >>= f = .ok b) :
    ∃ a, x = .ok a ∧ f a = .ok b := by
  cases x with
  | error e => cases h
  | ok a => exact ⟨a, rfl, h⟩

theorem EStateM.ok_of_bind (h : (m >>= f) s = .ok b s') :
    ∃ a s₁, m s = .ok a s₁ ∧ f a s₁ = .ok b s' := by
  have hbind : EStateM.bind m f s = .ok b s' := h
  unfold EStateM.bind at hbind
  cases hm : m s with
  | error e s₁ =>
    rw [hm] at hbind
    cases hbind
  | ok a s₁ =>
    rw [hm] at hbind
    exact ⟨a, s₁, rfl, hbind⟩

theorem EStateM.bind_of_ok {s₁ : σ} (h : m s = .ok a s₁) : (m >>= f) s = f a s₁ := by
  have hbind : (m >>= f) s = EStateM.bind m f s := rfl
  rw [hbind, EStateM.bind, h]

theorem EStateM.ok_of_ofExcept {x : Except ε α} (h : (ofExcept x : EStateM ε σ α) s = .ok a s') :
    x = .ok a ∧ s = s' := by
  cases x with
  | error e => cases h
  | ok a => cases h; exact ⟨rfl, rfl⟩

theorem EStateM.ofExcept_bind (x : Except ε α) (f : α → Except ε β) :
    (ofExcept (x >>= f) : EStateM ε σ β) = ofExcept x >>= fun a => ofExcept (f a) := by
  cases x <;> rfl

/-- Where a computation ends, with a result or with an error. -/
def Ends {ε σ α : Type} (m : EStateM ε σ α) (s : σ) (Q : α → σ → Prop) (E : σ → Prop) :
    Prop :=
  match m s with
  | .ok a s' => Q a s'
  | .error _ s' => E s'

namespace Ends

variable {ε σ α β : Type} {m : EStateM ε σ α} {s : σ} {Q : α → σ → Prop} {E : σ → Prop}

variable {s' : σ} {E' I : σ → Prop} {P : β → σ → Prop} {f : α → EStateM ε σ β} {xs : List α}

theorem of_ok (h : Ends m s Q E) {a : α} (hm : m s = .ok a s') : Q a s' := by
  unfold Ends at h
  rwa [hm] at h

theorem of_error (h : Ends m s Q E) {e : ε} (hm : m s = .error e s') : E s' := by
  unfold Ends at h
  rwa [hm] at h

theorem imp {Q' : α → σ → Prop} (h : Ends m s Q E) (hQ : ∀ a s', Q a s' → Q' a s')
    (hE : ∀ s', E s' → E' s') : Ends m s Q' E' := by
  unfold Ends at h ⊢
  cases hm : m s with
  | ok a s' =>
    rw [hm] at h
    exact hQ a s' h
  | error e s' =>
    rw [hm] at h
    exact hE s' h

theorem bind (h : Ends m s Q E) (hf : ∀ a s', Q a s' → Ends (f a) s' P E) :
    Ends (m >>= f) s P E := by
  have hbind : (m >>= f) s = EStateM.bind m f s := rfl
  unfold Ends at h ⊢
  rw [hbind, EStateM.bind]
  cases hm : m s with
  | ok a s' =>
    rw [hm] at h
    exact hf a s' h
  | error e s' =>
    rw [hm] at h
    exact h

theorem run (h : Ends m s Q E) : Ends m s (fun a s' => m s = .ok a s' ∧ Q a s') E := by
  unfold Ends at h ⊢
  cases hm : m s with
  | ok a s' =>
    rw [hm] at h
    exact ⟨rfl, h⟩
  | error e s' =>
    rw [hm] at h
    exact h

theorem exists_ok (h : Ends m s Q E) (hE : ∀ s', ¬ E s') : ∃ a s', m s = .ok a s' ∧ Q a s' := by
  cases hm : m s with
  | ok a s' => exact ⟨a, s', rfl, h.of_ok hm⟩
  | error e s' => exact absurd (h.of_error hm) (hE s')

theorem andThen (h : Ends m s Q E') (hE : ∀ s', E' s' → E s')
    (hf : ∀ a s', m s = .ok a s' → Q a s' → Ends (f a) s' P E) : Ends (m >>= f) s P E :=
  (h.run.imp (fun _ _ h => h) hE).bind fun a s' ha => hf a s' ha.1 ha.2

theorem ofExcept {x : Except ε α} (hok : ∀ a, x = .ok a → Ends (f a) s P E)
    (herror : ∀ e, x = .error e → E s) : Ends (ofExcept x >>= f) s P E := by
  cases x with
  | ok a => exact hok a rfl
  | error e => exact herror e rfl

theorem get {f : σ → EStateM ε σ β} (h : Ends (f s) s P E) :
    Ends (MonadState.get >>= f) s P E := h

theorem modify {g : σ → σ} {f : PUnit → EStateM ε σ β} (h : Ends (f ⟨⟩) (g s) P E) :
    Ends (modify g >>= f) s P E := h

theorem forM {f : α → EStateM ε σ PUnit} (hf : ∀ x ∈ xs, ∀ s, I s → Ends (f x) s (fun _ => I) E)
    (hs : I s) : Ends (xs.forM f) s (fun _ => I) E := by
  induction xs generalizing s with
  | nil => exact hs
  | cons x xs ih =>
    obtain ⟨hx, hxs⟩ := List.forall_mem_cons.1 hf
    exact (hx s hs).bind fun _ s' hs' => ih hxs hs'

theorem mapM (hf : ∀ x ∈ xs, ∀ s, I s → Ends (f x) s (fun _ => I) E) (hs : I s) :
    Ends (xs.mapM f) s (fun _ => I) E := by
  induction xs generalizing s with
  | nil => exact hs
  | cons x xs ih =>
    obtain ⟨hx, hxs⟩ := List.forall_mem_cons.1 hf
    rw [List.mapM_cons]
    exact (hx s hs).bind fun _ s₁ hs₁ => (ih hxs hs₁).bind fun _ _ h => h

end Ends

theorem Except.ok_of_forM {f : α → Except ε PUnit} (h : xs.forM f = .ok ()) :
    ∀ x ∈ xs, f x = .ok () := by
  induction xs with
  | nil => simp
  | cons x xs ih =>
    obtain ⟨_, hx, h⟩ := Except.ok_of_bind h
    exact List.forall_mem_cons.2 ⟨hx, ih h⟩

theorem Except.forM_eq_ok {f : α → Except ε PUnit} (h : ∀ x ∈ xs, f x = .ok ()) :
    xs.forM f = .ok () := by
  induction xs with
  | nil => rfl
  | cons x xs ih =>
    rw [List.forall_mem_cons] at h
    have hcons : (x :: xs).forM f = f x >>= fun _ => xs.forM f := rfl
    rw [hcons, h.1]
    exact ih h.2

theorem forall_mem_of_forall₂ {R : α → β → Prop} {P : β → Prop} {as : List α} {bs : List β}
    (h : List.Forall₂ R as bs) (hP : ∀ a b, R a b → P b) : ∀ b ∈ bs, P b := by
  induction h with
  | nil => simp
  | cons hab _ ih => exact List.forall_mem_cons.2 ⟨hP _ _ hab, ih⟩

theorem NameSet.contains_iff {s : NameSet} {x : String} : s.contains x = true ↔ x ∈ s := by
  simp [contains]

namespace NameMap

variable {α β : Type}

theorem lookup_filter (p : String → Bool) (x : String) (l : List (String × α)) :
    lookup x (l.filter fun e => p e.1) = if p x then lookup x l else none := by
  induction l with
  | nil => simp [lookup]
  | cons e rest ih =>
    obtain ⟨y, a⟩ := e
    rw [List.filter_cons]
    by_cases hxy : x = y
    · subst hxy
      by_cases hx : p x = true <;> simp_all [lookup]
    · by_cases hy : p y = true <;> simp_all [lookup]

@[simp] theorem get?_filterKeys (p : String → Bool) (m : NameMap α) (x : String) :
    (m.filterKeys p).get? x = if p x then m.get? x else none :=
  lookup_filter p x m.toList

variable {a : α} {l : List (String × α)} {m : NameMap α}

theorem mem_of_lookup {x : String} (h : lookup x l = some a) : (x, a) ∈ l := by
  induction l with
  | nil => simp [lookup] at h
  | cons e rest ih =>
    obtain ⟨y, b⟩ := e
    unfold lookup at h
    split at h
    · next hxy =>
      cases h
      subst hxy
      simp
    · exact List.mem_cons_of_mem _ (ih h)

theorem lookup_of_mem {x : String} (h : (l.map (·.1)).Nodup) (hmem : (x, a) ∈ l) :
    lookup x l = some a := by
  induction l with
  | nil => cases hmem
  | cons e l ih =>
    obtain ⟨he, hl⟩ := List.nodup_cons.1 h
    rcases List.mem_cons.1 hmem with rfl | hmem
    · simp [lookup]
    · have hne : x ≠ e.1 := by
        rintro rfl
        exact he (List.mem_map.2 ⟨_, hmem, rfl⟩)
      simpa [lookup, hne] using ih hl hmem

theorem mem_values_of_get? {x : String} (h : m.get? x = some a) : a ∈ m.values :=
  List.mem_map.2 ⟨(x, a), mem_of_lookup h, rfl⟩

theorem mem_values_iff : a ∈ m.values ↔ ∃ x, m.get? x = some a := by
  constructor
  · intro h
    obtain ⟨e, hmem, rfl⟩ := List.mem_map.1 h
    exact ⟨e.1, lookup_of_mem (m.sorted.imp String.ne_of_lt) hmem⟩
  · rintro ⟨x, hx⟩
    exact mem_values_of_get? hx

theorem mem_keys_singleton {x y : String} : x ∈ (singleton y a).keys ↔ x = y := by
  rw [mem_keys_iff, get?_singleton]
  split <;> simp_all

theorem get?_eq_none_of_isEmpty (h : m.isEmpty = true) (x : String) : m.get? x = none := by
  obtain ⟨l, hsorted⟩ := m
  cases l with
  | nil => rfl
  | cons e rest => simp [isEmpty] at h

theorem filterKeys_eq_self {p : String → Bool} (h : ∀ x, (m.get? x).isSome → p x = true) :
    m.filterKeys p = m := by
  ext1
  refine List.filter_eq_self.2 fun e he => h e.1 ?_
  rw [← mem_keys_iff]
  exact List.mem_map.2 ⟨e, he, rfl⟩

theorem lookup_append (x : String) (l l' : List (String × α)) :
    lookup x (l ++ l') = (lookup x l).or (lookup x l') := by
  induction l with
  | nil => simp [lookup]
  | cons d l ih =>
    simp only [List.cons_append, lookup, ih]
    split <;> simp

theorem lookup_reverse (h : (l.map (·.1)).Nodup) (x : String) :
    lookup x l.reverse = lookup x l := by
  induction l with
  | nil => rfl
  | cons e rest ih =>
    obtain ⟨hnew, hrest⟩ := List.nodup_cons.1 h
    rw [List.reverse_cons, lookup_append, ih hrest]
    simp only [lookup]
    split
    · next heq =>
      rw [heq, lookup_eq_none.2 hnew]
      rfl
    · simp

theorem get?_insertAll (entries : List (String × α)) (m : NameMap α) (x : String) :
    (m.insertAll entries).get? x = (lookup x entries.reverse).or (m.get? x) := by
  induction entries generalizing m with
  | nil => simp [insertAll, lookup]
  | cons e rest ih =>
    have hcons : m.insertAll (e :: rest) = (m.insert e.1 e.2).insertAll rest := rfl
    rw [hcons, ih, get?_insert, List.reverse_cons, lookup_append, Option.or_assoc]
    simp only [lookup]
    split <;> simp

@[simp] theorem get?_override (m n : NameMap α) (x : String) :
    (m.override n).get? x = (m.get? x).or (n.get? x) := by
  have hnodup : (m.toList.map (·.1)).Nodup := m.sorted.imp fun h => String.ne_of_lt h
  rw [override, get?_insertAll, lookup_reverse hnodup]
  rfl

theorem get?_ofList (entries : List (String × α)) (x : String) :
    (ofList entries).get? x = lookup x entries.reverse := by
  rw [ofList, get?_insertAll, get?_empty, Option.or_none]

theorem mem_of_get?_ofList {x : String} (h : (ofList l).get? x = some a) : (x, a) ∈ l :=
  List.mem_reverse.1 (mem_of_lookup (get?_ofList l x ▸ h))

theorem isSome_get?_ofList {x : String} : ((ofList l).get? x).isSome ↔ x ∈ l.map (·.1) := by
  rw [get?_ofList, ← Option.ne_none_iff_isSome, Ne, lookup_eq_none]
  simp

theorem get?_ofList_of_mem {x : String} (hmem : (x, a) ∈ l) (hunique : ∀ e ∈ l, e.1 = x → e.2 = a) :
    (ofList l).get? x = some a := by
  have hsome : (ofList l).get? x ≠ none := by
    rw [get?_ofList, Ne, lookup_eq_none, not_not]
    exact List.mem_map.2 ⟨_, List.mem_reverse.2 hmem, rfl⟩
  obtain ⟨b, hb⟩ := Option.ne_none_iff_exists'.1 hsome
  have hmem := List.mem_reverse.1 (mem_of_lookup (get?_ofList l x ▸ hb))
  exact hb.trans (congrArg some (hunique _ hmem rfl))

end NameMap

theorem Supply.next_injective {hint : String} {i j : Nat}
    (h : (Supply.next ⟨i⟩ hint).text = (Supply.next ⟨j⟩ hint).text) : i = j :=
  Nat.repr_injective ((String.append_right_inj _).1 h)

namespace Fresh

theorem taken_iff {scopes : List NameSet} {x : String} :
    taken scopes x = true ↔ ∃ s ∈ scopes, x ∈ s := by
  simp [taken, NameSet.contains_iff]

variable {s : NameSet} {stem : String}

theorem taken_cons {scopes : List NameSet} {x : String} :
    taken (s :: scopes) x = true ↔ x ∈ s ∨ taken scopes x = true := by
  simp [taken, NameSet.contains_iff]

theorem length_le_memberCount {scopes : List NameSet} {names : List String}
    (hnodup : names.Nodup) (htaken : ∀ x ∈ names, taken scopes x = true) :
    names.length ≤ memberCount scopes := by
  have hcount : ∀ scopes : List NameSet,
      (scopes.flatMap NameSet.toList).length = memberCount scopes := by
    intro scopes
    induction scopes with
    | nil => rfl
    | cons s scopes ih =>
      rw [List.flatMap_cons, List.length_append, ih]
      rfl
  rw [← hcount scopes]
  refine NameSet.length_le_of_nodup hnodup fun x hx => ?_
  obtain ⟨s, hs, hxs⟩ := taken_iff.1 (htaken x hx)
  exact List.mem_flatMap.2 ⟨s, hs, hxs⟩

theorem nodup_candidates (stem : String) (i n : Nat) :
    ((List.range' i n).map fun j => stem ++ Nat.repr j).Nodup := by
  refine (List.nodup_range' 1).map fun j k hjk => ?_
  exact Nat.repr_injective ((String.append_right_inj stem).1 hjk)

/-- The search passes over taken candidates only, and stops at one that is not taken or
when it has run out of tries. -/
theorem search_spec (scopes : List NameSet) (stem : String) (tries i : Nat) :
    ∃ k ≤ tries, search scopes stem tries i = stem ++ Nat.repr (i + k) ∧
      (∀ j < k, taken scopes (stem ++ Nat.repr (i + j)) = true) ∧
      (k < tries → taken scopes (stem ++ Nat.repr (i + k)) = false) := by
  induction tries generalizing i with
  | zero => exact ⟨0, le_refl 0, rfl, by simp, by simp⟩
  | succ tries ih =>
    unfold search
    by_cases htaken : taken scopes (stem ++ Nat.repr i) = true
    · obtain ⟨k, hk, hsearch, hbefore, hat⟩ := ih (i + 1)
      rw [if_pos htaken]
      refine ⟨k + 1, by omega, ?_, ?_, ?_⟩
      · rw [hsearch]
        congr 2
        omega
      · intro j hj
        cases j with
        | zero => exact htaken
        | succ j =>
          have := hbefore j (by omega)
          rwa [show i + 1 + j = i + (j + 1) by omega] at this
      · intro hlt
        have := hat (by omega)
        rwa [show i + 1 + k = i + (k + 1) by omega] at this
    · rw [if_neg htaken]
      exact ⟨0, by omega, rfl, by simp, fun _ => by simpa using htaken⟩

theorem search_not_taken (scopes : List NameSet) (stem : String) :
    taken scopes (search scopes stem (memberCount scopes) 0) = false := by
  obtain ⟨k, hk, hsearch, hbefore, hat⟩ := search_spec scopes stem (memberCount scopes) 0
  rw [hsearch]
  rcases Nat.lt_or_eq_of_le hk with hlt | heq
  · exact hat hlt
  · by_contra hlast
    -- all the candidates up to the last one are taken, which is one too many
    have hall : ∀ x ∈ (List.range' 0 (memberCount scopes + 1)).map
        (fun j => stem ++ Nat.repr j), taken scopes x = true := by
      intro x hx
      obtain ⟨j, hj, rfl⟩ := List.mem_map.1 hx
      have hj : j < memberCount scopes + 1 := by simpa using hj
      rcases Nat.lt_or_eq_of_le (Nat.lt_succ_iff.1 hj) with hlt | hlast'
      · have := hbefore j (by omega)
        rwa [Nat.zero_add] at this
      · subst heq
        rw [hlast']
        simpa using hlast
    have hle := length_le_memberCount (nodup_candidates stem 0 _) hall
    simp at hle

theorem inScopes_not_taken (stem : String) (scopes : List NameSet) :
    taken scopes (inScopes stem scopes) = false := by
  unfold inScopes
  split
  · exact search_not_taken scopes stem
  · next h => simpa using h

theorem inScopes_not_mem {scopes : List NameSet} (hs : s ∈ scopes) : inScopes stem scopes ∉ s := by
  intro hmem
  have htaken := taken_iff.2 ⟨s, hs, hmem⟩
  rw [inScopes_not_taken] at htaken
  cases htaken

theorem inScopes_numbered {scopes : List NameSet} (h : taken scopes stem = true) :
    ∃ i : Nat, inScopes stem scopes = stem ++ Nat.repr i := by
  obtain ⟨k, -, hsearch, -⟩ := search_spec scopes stem (memberCount scopes) 0
  rw [inScopes, if_pos h, hsearch]
  exact ⟨_, rfl⟩

end Fresh

end GuardedCommands
