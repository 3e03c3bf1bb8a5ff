import GuardedCommands.Proofs.Basic
import GuardedCommands.Ty.Builtin
import Mathlib

/-!
# Names that are new

A supply puts the number of names it has issued behind the hint of the next one,
with nothing in between.  Two requests therefore get the same name exactly if the
later number ends in the digits of the earlier one and the earlier hint is the
later hint with the digits that are left over.  This cannot be if the hints are the
same, and it cannot be if no hint ends in a digit; otherwise it can, and a session
of twelve requests is enough.

A name outside scopes is searched for among a stem and the stem with numbers behind
it.  These differ from each other whatever the stem ends in, so one of them is outside
as soon as there are more of them than the scopes have members.
-/

namespace GuardedCommands

namespace Supply

inductive Request where
  | name (hint : String)
  | metavar
deriving DecidableEq

namespace Request

def hint : Request → String
  | .name hint => hint
  | .metavar => "t"

/-- The name that a request gets.  A metavariable is known by its name, and what is asked
for then is always one. -/
def answer (s : Supply) : Request → Name
  | .name hint => s.next hint
  | .metavar =>
    match s.nextMeta with
    | .metavar x => x
    | _ => .bare ""

theorem answer_eq (s : Supply) (r : Request) : r.answer s = s.next r.hint := by
  cases r <;> rfl

end Request

def answers (s : Supply) : List Request → List Name
  | [] => []
  | r :: rs => r.answer s :: answers s.advance rs

theorem getElem?_answers (s : Supply) (rs : List Request) (i : Nat) :
    (s.answers rs)[i]? = rs[i]?.map fun r => next ⟨s.issued + i⟩ r.hint := by
  induction rs generalizing s i with
  | nil => simp [answers]
  | cons r rs ih =>
    cases i with
    | zero => simp [answers, Request.answer_eq]
    | succ i =>
      have hnumber : s.advance.issued + i = s.issued + (i + 1) := by
        simp only [advance]
        omega
      simp [answers, ih, hnumber]

/-! ## Two names -/

theorem length_digits_le {m n : Nat} (hmn : m < n) :
    (Nat.toDigits 10 m).length ≤ (Nat.toDigits 10 n).length := by
  have hpos : 0 < (Nat.toDigits 10 n).length := Nat.length_toDigits_pos
  have hn := (Nat.length_toDigits_le_iff (by decide) hpos).1 (le_refl _)
  exact (Nat.length_toDigits_le_iff (by decide) hpos).2 (hmn.trans hn)

/-- The earlier hint is the later one with digits that the earlier number lacks. -/
def Overlap (hint hint' : String) (m n : Nat) : Prop :=
  ∃ digits, hint = hint' ++ digits ∧ Nat.repr n = digits ++ Nat.repr m

theorem next_eq_iff {hint hint' : String} {m n : Nat} (hmn : m < n) :
    (next ⟨m⟩ hint).text = (next ⟨n⟩ hint').text ↔ Overlap hint hint' m n := by
  constructor
  · intro h
    have hlist : hint.toList ++ Nat.toDigits 10 m = hint'.toList ++ Nat.toDigits 10 n := by
      simpa [next, Name.bare, Nat.toList_repr] using congrArg String.toList h
    rcases List.append_eq_append_iff.1 hlist with ⟨ds, -, hm⟩ | ⟨ds, hhint, hn⟩
    · -- the number of fewer digits would be the larger one
      have hlen := congrArg List.length hm
      have hle := length_digits_le hmn
      simp only [List.length_append] at hlen
      have hnil : ds = [] := List.length_eq_zero_iff.1 (by omega)
      rw [hnil, List.nil_append] at hm
      have hrepr : Nat.repr m = Nat.repr n := String.toList_inj.1 (by simpa using hm)
      exact absurd (Nat.repr_injective hrepr) (Nat.ne_of_lt hmn)
    · refine ⟨String.ofList ds, String.toList_inj.1 ?_, String.toList_inj.1 ?_⟩
      · simpa using hhint
      · simpa using hn
  · rintro ⟨digits, rfl, hn⟩
    simp [next, Name.bare, hn, String.append_assoc]

theorem Overlap.endsInDigit {hint hint' : String} {m n : Nat} (h : Overlap hint hint' m n)
    (hmn : m < n) : ∃ c, hint.toList.getLast? = some c ∧ c.isDigit = true := by
  obtain ⟨digits, rfl, hn⟩ := h
  have hlist : Nat.toDigits 10 n = digits.toList ++ Nat.toDigits 10 m := by
    simpa using congrArg String.toList hn
  have hne : digits.toList ≠ [] := by
    intro hnil
    rw [hnil, List.nil_append] at hlist
    have hrepr : Nat.repr n = Nat.repr m := String.toList_inj.1 (by simpa using hlist)
    exact absurd (Nat.repr_injective hrepr) (Nat.ne_of_gt hmn)
  refine ⟨digits.toList.getLast hne, ?_, ?_⟩
  · rw [String.toList_append, List.getLast?_append_of_ne_nil _ hne,
      List.getLast?_eq_some_getLast hne]
  · refine Nat.isDigit_of_mem_toDigits (b := 10) (n := n) (by decide) (by decide) ?_
    rw [hlist]
    exact List.mem_append_left _ (List.getLast_mem hne)

/-! ## All names of a session -/

theorem nodup_answers_iff (s : Supply) (rs : List Request) :
    ((s.answers rs).map (·.text)).Nodup ↔
      ∀ i j r r', i < j → rs[i]? = some r → rs[j]? = some r' →
        ¬ Overlap r.hint r'.hint (s.issued + i) (s.issued + j) := by
  have htext : ∀ i, ((s.answers rs).map (·.text))[i]? =
      rs[i]?.map fun r => (next ⟨s.issued + i⟩ r.hint).text := by
    simp [getElem?_answers, Function.comp_def]
  rw [List.nodup_iff_getElem?_ne_getElem?]
  constructor
  · intro hne i j r r' hij hi hj hoverlap
    have hj' := htext j
    rw [hj] at hj'
    have hlt : j < ((s.answers rs).map (·.text)).length :=
      (List.getElem?_eq_some_iff.1 hj').1
    refine hne i j hij hlt ?_
    rw [htext, htext, hi, hj]
    exact congrArg some ((next_eq_iff (Nat.add_lt_add_left hij _)).2 hoverlap)
  · intro hnot i j hij hlt heq
    have hj := (htext j).symm.trans (List.getElem?_eq_getElem hlt)
    rw [htext, htext] at heq
    obtain ⟨r, hr, htexts⟩ := Option.map_eq_some_iff.1 (heq.trans hj)
    obtain ⟨r', hr', htext'⟩ := Option.map_eq_some_iff.1 hj
    refine hnot i j r r' hij hr hr' ?_
    exact (next_eq_iff (Nat.add_lt_add_left hij _)).1 (htexts.trans htext'.symm)

/-- The names of a session differ from each other exactly if no two of its requests overlap.
They do if no hint ends in a digit, and they do if all hints are the same. -/
theorem session_names_distinct (s : Supply) (rs : List Request) :
    (((s.answers rs).map (·.text)).Nodup ↔
      ∀ i j r r', i < j → rs[i]? = some r → rs[j]? = some r' →
        ¬ Overlap r.hint r'.hint (s.issued + i) (s.issued + j)) ∧
    ((∀ r ∈ rs, ∀ c, r.hint.toList.getLast? = some c → c.isDigit = false) →
      ((s.answers rs).map (·.text)).Nodup) ∧
    ((∀ r ∈ rs, ∀ r' ∈ rs, r.hint = r'.hint) → ((s.answers rs).map (·.text)).Nodup) := by
  refine ⟨s.nodup_answers_iff rs, fun hhints => ?_, fun hsame => ?_⟩
  · rw [nodup_answers_iff]
    intro i j r r' hij hr _ hoverlap
    obtain ⟨c, hlast, hdigit⟩ := hoverlap.endsInDigit (Nat.add_lt_add_left hij _)
    rw [hhints r (List.mem_of_getElem? hr) c hlast] at hdigit
    cases hdigit
  · rw [nodup_answers_iff]
    intro i j r r' hij hr hr' hoverlap
    have heq := (next_eq_iff (Nat.add_lt_add_left hij _)).2 hoverlap
    rw [hsame r (List.mem_of_getElem? hr) r' (List.mem_of_getElem? hr')] at heq
    have := next_injective heq
    omega

/-- The hint `a1` at number 1 and the hint `a` at number 11 give one name. -/
theorem session_repeats_name :
    ¬ ((initial.answers (.metavar :: .name "a1" :: List.replicate 9 .metavar ++ [.name "a"])).map
      (·.text)).Nodup := by
  rw [nodup_answers_iff]
  intro hnot
  exact hnot 1 11 (.name "a1") (.name "a") (by decide) rfl rfl ⟨"1", by decide, by decide⟩

end Supply

/-! ## Names outside scopes -/

namespace Fresh

def candidate (stem : String) : Nat → String
  | 0 => stem
  | i + 1 => stem ++ Nat.repr i

/-- The search through the candidates without a limit to its tries.  It has a result only if
it ends. -/
def unlimited (stem : String) (scopes : List NameSet) : Part String :=
  (Nat.rfind fun i => .some !taken scopes (candidate stem i)).map (candidate stem)

theorem candidate_injective (stem : String) : Function.Injective (candidate stem) := by
  have hlonger : ∀ i, stem ≠ stem ++ Nat.repr i := by
    intro i h
    have hlen := congrArg (fun x => x.toList.length) h
    simp at hlen
  rintro (_ | i) (_ | j) h
  · rfl
  · exact absurd h (hlonger j)
  · exact absurd h.symm (hlonger i)
  · rw [Nat.repr_injective ((String.append_right_inj stem).1 h)]

theorem inScopes_eq_candidate (stem : String) (scopes : List NameSet) :
    ∃ n, inScopes stem scopes = candidate stem n ∧
      ∀ i < n, taken scopes (candidate stem i) = true := by
  by_cases hstem : taken scopes stem = true
  · obtain ⟨k, -, hsearch, hbefore, -⟩ := search_spec scopes stem (memberCount scopes) 0
    refine ⟨k + 1, ?_, ?_⟩
    · rw [inScopes, if_pos hstem, hsearch, Nat.zero_add, candidate]
    · rintro (_ | i) hi
      · exact hstem
      · simpa [candidate] using hbefore i (by omega)
  · exact ⟨0, if_neg hstem, by simp⟩

/-- The search ends for every stem and all scopes, also without a limit.  It leads to the first
candidate that is in none of the scopes, past no more candidates than the scopes have members. -/
theorem unlimited_finds_first (stem : String) (scopes : List NameSet) :
    unlimited stem scopes = .some (inScopes stem scopes) ∧
      (∀ s ∈ scopes, inScopes stem scopes ∉ s) ∧
      ∃ n ≤ memberCount scopes, inScopes stem scopes = candidate stem n ∧
        ∀ i < n, ∃ s ∈ scopes, candidate stem i ∈ s := by
  obtain ⟨n, hn, hbefore⟩ := inScopes_eq_candidate stem scopes
  refine ⟨?_, fun s hs => inScopes_not_mem hs, n, ?_, hn, fun i hi => taken_iff.1 (hbefore i hi)⟩
  · have hfree : taken scopes (candidate stem n) = false := hn ▸ inScopes_not_taken stem scopes
    rw [unlimited, Part.eq_some_iff, Part.mem_map_iff]
    refine ⟨n, Nat.mem_rfind.2 ⟨?_, fun hi => ?_⟩, hn.symm⟩
    · simp [hfree]
    · simp [hbefore _ hi]
  · have hnodup : ((List.range n).map (candidate stem)).Nodup :=
      List.nodup_range.map (candidate_injective stem)
    simpa using length_le_memberCount hnodup (by simpa using hbefore)

example : inScopes "x" [.ofList ["x", "x0"], .ofList ["x1"]] = "x2" := by decide
example : inScopes "" [.ofList ["", "0"]] = "1" := by decide

end Fresh

end GuardedCommands
