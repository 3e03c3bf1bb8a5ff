import GuardedCommands.Json
import GuardedCommands.Json.Document
import Mathlib

/-!
# Reading what is written

A value may be spelled with blanks wherever JSON allows them, and both of its texts
are such spellings.  Every spelling is read back as the document of the value: a
number is read up to a character that cannot go on with it, a string up to its quote,
and a list or a record item by item.  The reader needs two units of fuel for each
character and one for the value itself.
-/

namespace GuardedCommands

/-! ## Spellings -/

namespace Json

mutual

def document : Json → Document
  | .null => .null
  | .bool b => .bool b
  | .int n => .int n
  | .str s => .text (some s)
  | .arr items => .list (documents items) .closed
  | .obj fields => .record (fieldDocuments fields) .closed

def documents : List Json → List Document
  | [] => []
  | j :: js => j.document :: documents js

def fieldDocuments : List (String × Json) → List (Key × Document)
  | [] => []
  | (x, j) :: fields => (.text (some x), j.document) :: fieldDocuments fields

end

def Blank (cs : List Char) : Prop := ∀ c ∈ cs, Document.isBlank c = true

mutual

/-- The ways to write a value.  Words, numbers and strings are written in one way, and there
may be blanks around everything else. -/
inductive Spelled : Json → List Char → Prop
  | null : Spelled .null ['n', 'u', 'l', 'l']
  | yes : Spelled (.bool true) ['t', 'r', 'u', 'e']
  | no : Spelled (.bool false) ['f', 'a', 'l', 's', 'e']
  | int (n : Int) : Spelled (.int n) (decimal n).toList
  | str (s : String) : Spelled (.str s) (quote s).toList
  | noItems {ws} (hws : Blank ws) : Spelled (.arr []) ('[' :: (ws ++ [']']))
  | arr {js cs} (hjs : SpelledItems js cs) : Spelled (.arr js) ('[' :: (cs ++ [']']))
  | noFields {ws} (hws : Blank ws) : Spelled (.obj []) ('\x7b' :: (ws ++ ['\x7d']))
  | obj {fs cs} (hfs : SpelledFields fs cs) : Spelled (.obj fs) ('\x7b' :: (cs ++ ['\x7d']))

inductive SpelledItems : List Json → List Char → Prop
  | one {ws j cs ws'} (hws : Blank ws) (hj : Spelled j cs) (hws' : Blank ws') :
      SpelledItems [j] (ws ++ (cs ++ ws'))
  | more {ws j cs ws' js ds} (hws : Blank ws) (hj : Spelled j cs) (hws' : Blank ws')
      (hjs : SpelledItems js ds) : SpelledItems (j :: js) (ws ++ (cs ++ (ws' ++ ',' :: ds)))

inductive SpelledFields : List (String × Json) → List Char → Prop
  | one {ws x ws₁ ws₂ j cs ws'} (hws : Blank ws) (hws₁ : Blank ws₁) (hws₂ : Blank ws₂)
      (hj : Spelled j cs) (hws' : Blank ws') :
      SpelledFields [(x, j)] (ws ++ ((quote x).toList ++ (ws₁ ++ ':' :: (ws₂ ++ (cs ++ ws')))))
  | more {ws x ws₁ ws₂ j cs ws' fs ds} (hws : Blank ws) (hws₁ : Blank ws₁) (hws₂ : Blank ws₂)
      (hj : Spelled j cs) (hws' : Blank ws') (hfs : SpelledFields fs ds) :
      SpelledFields ((x, j) :: fs)
        (ws ++ ((quote x).toList ++ (ws₁ ++ ':' :: (ws₂ ++ (cs ++ (ws' ++ ',' :: ds))))))

end

def IsText (j : Json) (text : String) : Prop :=
  ∃ ws cs ws', Blank ws ∧ Spelled j cs ∧ Blank ws' ∧ text = String.ofList (ws ++ (cs ++ ws'))

end Json

namespace Document

open Json

/-! ## Blanks -/

variable {ws rest cs : List Char} {c : Char} {n : Nat} {j : Json}

theorem skipBlanks_append (hws : Blank ws) (cs : List Char) :
    skipBlanks (ws ++ cs) = skipBlanks cs :=
  List.dropWhile_append_of_pos hws

theorem skipBlanks_cons (hc : isBlank c = false) (cs : List Char) :
    skipBlanks (c :: cs) = c :: cs := by
  simp [skipBlanks, hc]

theorem skipBlanks_skipBlanks (cs : List Char) : skipBlanks (skipBlanks cs) = skipBlanks cs := by
  induction cs with
  | nil => rfl
  | cons c cs ih =>
    by_cases hc : isBlank c = true
    · simpa [skipBlanks, hc] using ih
    · simp [skipBlanks, hc]

theorem readValue_skipBlanks (fuel : Nat) (cs : List Char) :
    readValue fuel (skipBlanks cs) = readValue fuel cs := by
  cases fuel with
  | zero => rfl
  | succ fuel => rw [readValue, readValue, skipBlanks_skipBlanks]

theorem readItems_skipBlanks (fuel : Nat) (cs : List Char) :
    readItems fuel (skipBlanks cs) = readItems fuel cs := by
  cases fuel with
  | zero => rfl
  | succ fuel => rw [readItems, readItems, readValue_skipBlanks]

theorem readFields_skipBlanks (fuel : Nat) (cs : List Char) :
    readFields fuel (skipBlanks cs) = readFields fuel cs := by
  cases fuel with
  | zero => rfl
  | succ fuel => rw [readFields, readFields, skipBlanks_skipBlanks]

theorem readValue_append (hws : Blank ws) (fuel : Nat) (cs : List Char) :
    readValue fuel (ws ++ cs) = readValue fuel cs := by
  rw [← readValue_skipBlanks, skipBlanks_append hws, readValue_skipBlanks]

/-! ## Numbers -/

def Stops (rest : List Char) : Prop :=
  ∀ c ∈ rest.head?, c.isDigit = false ∧ c ≠ '.' ∧ c ≠ 'e' ∧ c ≠ 'E'

theorem stops_nil : Stops [] := by simp [Stops]

theorem stops_cons (hc : c.isDigit = false ∧ c ≠ '.' ∧ c ≠ 'e' ∧ c ≠ 'E') (rest : List Char) :
    Stops (c :: rest) := by
  simpa [Stops] using hc

theorem stops_append (hws : Blank ws) (hrest : Stops rest) : Stops (ws ++ rest) := by
  cases ws with
  | nil => exact hrest
  | cons w ws =>
    have hblank := hws w List.mem_cons_self
    simp only [isBlank, Bool.or_eq_true, beq_iff_eq] at hblank
    refine stops_cons ?_ _
    rcases hblank with ((rfl | rfl) | rfl) | rfl <;> decide

theorem digitsValue_toDigits (n : Nat) : digitsValue (Nat.toDigits 10 n) = n := by
  have h := @Nat.ofDigitChars_ten_toDigits n
  rwa [Nat.ofDigitChars_eq_foldl] at h

theorem isDigit_of_mem_toDigits (hc : c ∈ Nat.toDigits 10 n) : c.isDigit = true :=
  Nat.isDigit_of_mem_toDigits (by decide) (by decide) hc

theorem head?_toDigits (hn : n ≠ 0) : (Nat.toDigits 10 n).head? ≠ some '0' := by
  induction n using Nat.strong_induction_on with
  | _ n ih =>
    by_cases hlt : n < 10
    · rw [Nat.toDigits_of_lt_base hlt]
      revert hn
      interval_cases n <;> decide
    · have hle : 10 ≤ n := by omega
      rw [Nat.toDigits_of_base_le (by decide) hle,
        List.head?_append_of_ne_nil _ Nat.toDigits_ne_nil]
      exact ih (n / 10) (by omega) (by omega)

theorem readTail_stops {negative : Bool} (hrest : Stops rest) :
    readTail negative n rest =
      if negative then if n = 0 then (.real, rest) else (.int (-(n : Int)), rest)
      else (.int n, rest) := by
  unfold readTail
  split
  · exact absurd rfl (hrest '.' rfl).2.1
  · exact absurd rfl (hrest 'e' rfl).2.2.1
  · exact absurd rfl (hrest 'E' rfl).2.2.2
  · rfl

theorem readNumber_toDigits (negative : Bool) (n : Nat) (hrest : Stops rest) :
    readNumber negative (Nat.toDigits 10 n ++ rest) = readTail negative n rest := by
  by_cases hn : n = 0
  · subst hn
    rw [Nat.toDigits_zero]
    cases rest with
    | nil => rfl
    | cons c rest =>
      have hc := (hrest c rfl).1
      simp [readNumber, hc]
  · have htake : (Nat.toDigits 10 n ++ rest).takeWhile Char.isDigit = Nat.toDigits 10 n := by
      rw [List.takeWhile_append_of_pos fun c hc => isDigit_of_mem_toDigits hc]
      cases rest with
      | nil => simp
      | cons c rest => simp [(hrest c rfl).1]
    have hdrop : (Nat.toDigits 10 n ++ rest).dropWhile Char.isDigit = rest := by
      rw [List.dropWhile_append_of_pos fun c hc => isDigit_of_mem_toDigits hc]
      cases rest with
      | nil => rfl
      | cons c rest => simp [(hrest c rfl).1]
    have hzero := head?_toDigits hn
    have hvalue := digitsValue_toDigits n
    revert htake hdrop hzero hvalue
    cases hds : Nat.toDigits 10 n with
    | nil => exact absurd hds Nat.toDigits_ne_nil
    | cons d ds =>
      intro htake hdrop hzero hvalue
      have hd : d ≠ '0' := by simpa using hzero
      rw [List.cons_append] at htake hdrop ⊢
      unfold readNumber
      split
      · next heq => cases heq
      · next heq => exact absurd (List.cons.inj heq).1 hd
      · rw [htake, hdrop]
        change readTail negative (digitsValue (d :: ds)) rest = readTail negative n rest
        rw [hvalue]

/-! ## Strings -/

namespace TextSoFar

def Whole (t : TextSoFar) : Prop := t.leading = none ∧ t.paired = true

theorem Whole.push {t : TextSoFar} (ht : t.Whole) (c : Char) : (t.push c).Whole :=
  ⟨rfl, by simp [TextSoFar.push, ht.1, ht.2]⟩

end TextSoFar

theorem hexValue?_hexDigit : ∀ n < 16, hexValue? (hexDigit n) = some n := by decide

theorem hexValue4?_hexDigit (hn : n < 256) :
    hexValue4? '0' '0' (hexDigit (n / 16)) (hexDigit (n % 16)) = some n := by
  have hzero : hexValue? '0' = some 0 := by decide
  rw [hexValue4?, hzero, hexValue?_hexDigit (n / 16) (by omega),
    hexValue?_hexDigit (n % 16) (by omega)]
  refine congrArg some ?_
  omega

theorem readText_control (t : TextSoFar) (hc : c.toNat < 0x20) (rest : List Char) :
    readText t (['\\', 'u', '0', '0', hexDigit (c.toNat / 16), hexDigit (c.toNat % 16)] ++ rest) =
      readText (t.push c) rest := by
  have hunit : t.pushUnit c.toNat = t.push c := by
    rw [TextSoFar.pushUnit, if_neg (by omega), if_neg (by omega), Char.ofNat_toNat]
  simp only [List.cons_append, List.nil_append, readText]
  rw [hexValue4?_hexDigit (by omega)]
  simp only [hunit]

theorem readText_plain (t : TextSoFar) (hquote : c ≠ '"') (hslash : c ≠ '\\')
    (hc : ¬ c.toNat < 0x20) (rest : List Char) :
    readText t (c :: rest) = readText (t.push c) rest := by
  rw [readText.eq_def]
  split
  · next heq => cases heq
  · next heq => exact absurd (List.cons.inj heq).1 hquote
  · next heq => exact absurd (List.cons.inj heq).1 hslash
  · next heq => exact absurd (List.cons.inj heq).1 hslash
  · next heq => exact absurd (List.cons.inj heq).1 hslash
  · next heq => exact absurd (List.cons.inj heq).1 hslash
  · next heq =>
    obtain ⟨rfl, rfl⟩ := List.cons.inj heq
    rw [if_neg hc]

theorem readText_escape (t : TextSoFar) (c : Char) (rest : List Char) :
    readText t (escape c ++ rest) = readText (t.push c) rest := by
  by_cases hletter : c ∈ ['"', '\\', '\x08', '\t', '\n', '\x0c', '\r']
  · simp only [List.mem_cons, List.not_mem_nil, or_false] at hletter
    rcases hletter with rfl | rfl | rfl | rfl | rfl | rfl | rfl <;>
      simp [escape, readText, letterEscape?]
  · simp only [List.mem_cons, List.not_mem_nil, or_false, not_or] at hletter
    obtain ⟨hquote, hslash, hb, ht, hn, hf, hr⟩ := hletter
    rw [escape, if_neg hquote, if_neg hslash, if_neg hb, if_neg ht, if_neg hn, if_neg hf,
      if_neg hr]
    split
    · next hc => exact readText_control t hc rest
    · next hc => exact readText_plain t hquote hslash hc rest

theorem readText_quote {t : TextSoFar} (ht : t.Whole) (s rest : List Char) :
    readText t (s.flatMap escape ++ '"' :: rest) =
      .done (some (.ofList (t.chars.reverse ++ s))) rest := by
  induction s generalizing t with
  | nil => simp [readText, TextSoFar.finish, ht.1, ht.2]
  | cons c s ih =>
    rw [List.flatMap_cons, List.append_assoc, readText_escape, ih (ht.push c)]
    simp [TextSoFar.push]

/-! ## Values -/

theorem readValue_scalar (hblank : isBlank c = false) (hlist : c ≠ '[')
    (hrecord : c ≠ '\x7b') (fuel : Nat) (cs : List Char) :
    readValue (fuel + 1) (c :: cs) = readScalar (c :: cs) := by
  rw [readValue, skipBlanks_cons hblank]
  split
  · next heq => exact absurd (List.cons.inj heq).1 hlist
  · next heq => exact absurd (List.cons.inj heq).1 hrecord
  · rfl

theorem ne_of_isDigit {c d : Char} (hc : c.isDigit = true) (hd : d.isDigit = false) : c ≠ d := by
  rintro rfl
  rw [hc] at hd
  cases hd

theorem readScalar_digit {c : Char} (hc : c.isDigit = true) (cs : List Char) :
    readScalar (c :: cs) = readNumber false (c :: cs) := by
  have hn : c ≠ 'n' := ne_of_isDigit hc (by decide)
  have ht : c ≠ 't' := ne_of_isDigit hc (by decide)
  have hf : c ≠ 'f' := ne_of_isDigit hc (by decide)
  have hminus : c ≠ '-' := ne_of_isDigit hc (by decide)
  have hquote : c ≠ '"' := ne_of_isDigit hc (by decide)
  simp [readScalar, hc]

theorem isBlank_of_isDigit {c : Char} (hc : c.isDigit = true) : isBlank c = false := by
  have hspace : c ≠ ' ' := ne_of_isDigit hc (by decide)
  have htab : c ≠ '\t' := ne_of_isDigit hc (by decide)
  have hline : c ≠ '\n' := ne_of_isDigit hc (by decide)
  have hreturn : c ≠ '\r' := ne_of_isDigit hc (by decide)
  simp [isBlank, hspace, htab, hline, hreturn]

theorem readValue_decimal (n : Int) {rest : List Char} (hrest : Stops rest) (fuel : Nat) :
    readValue (fuel + 1) ((decimal n).toList ++ rest) = (.int n, rest) := by
  unfold decimal
  split
  · next hn =>
    have htext : ("-" ++ Nat.repr n.natAbs).toList ++ rest =
        '-' :: (Nat.toDigits 10 n.natAbs ++ rest) := by simp
    have habs : n.natAbs ≠ 0 := by omega
    have hvalue : -(n.natAbs : Int) = n := by omega
    rw [htext, readValue_scalar (by decide) (by decide) (by decide)]
    simp only [readScalar]
    rw [readNumber_toDigits true _ hrest, readTail_stops hrest, if_pos rfl, if_neg habs, hvalue]
  · next hn =>
    have hvalue : (n.natAbs : Int) = n := by omega
    rw [Nat.toList_repr]
    have hread := readNumber_toDigits false n.natAbs hrest
    rw [readTail_stops hrest, if_neg (by decide), hvalue] at hread
    revert hread
    cases hds : Nat.toDigits 10 n.natAbs with
    | nil => exact absurd hds Nat.toDigits_ne_nil
    | cons d ds =>
      have hd : d.isDigit = true := isDigit_of_mem_toDigits (hds ▸ List.mem_cons_self)
      intro hread
      rw [List.cons_append, readValue_scalar (isBlank_of_isDigit hd)
        (ne_of_isDigit hd (by decide)) (ne_of_isDigit hd (by decide)), readScalar_digit hd]
      exact hread

theorem toList_quote (s : String) :
    (quote s).toList = '"' :: (s.toList.flatMap escape ++ ['"']) := by
  simp [quote]

theorem readText_empty (s : String) (rest : List Char) :
    readText .empty (s.toList.flatMap escape ++ '"' :: rest) = .done (some s) rest := by
  rw [readText_quote ⟨rfl, rfl⟩]
  simp [TextSoFar.empty]

theorem readValue_quote (s : String) (rest : List Char) (fuel : Nat) :
    readValue (fuel + 1) ((quote s).toList ++ rest) = (.text (some s), rest) := by
  rw [toList_quote, List.cons_append, List.append_assoc, List.singleton_append,
    readValue_scalar (by decide) (by decide) (by decide)]
  simp only [readScalar, readText_empty]

theorem readKey_quote (s : String) (rest : List Char) :
    readKey ((quote s).toList ++ rest) = (.text (some s), rest) := by
  rw [toList_quote, List.cons_append, List.append_assoc, List.singleton_append]
  simp only [readKey, readText_empty]

theorem readValue_items {c : Char} {cs ds : List Char} (hws : skipBlanks cs = c :: ds)
    (hc : c ≠ ']') (fuel : Nat) :
    readValue (fuel + 1) ('[' :: cs) =
      (.list (readItems fuel cs).1 (readItems fuel cs).2.1, (readItems fuel cs).2.2) := by
  rw [← readItems_skipBlanks, readValue, skipBlanks_cons (by decide)]
  simp only
  split
  · next heq => simp [hws] at heq
  · next heq =>
    rw [hws] at heq
    exact absurd (List.cons.inj heq).1 hc
  · rfl

theorem readValue_fields {ds : List Char} (hws : skipBlanks cs = c :: ds) (hc : c ≠ '\x7d')
    (fuel : Nat) :
    readValue (fuel + 1) ('\x7b' :: cs) =
      (.record (readFields fuel cs).1 (readFields fuel cs).2.1, (readFields fuel cs).2.2) := by
  rw [← readFields_skipBlanks, readValue, skipBlanks_cons (by decide)]
  simp only
  split
  · next heq => simp [hws] at heq
  · next heq =>
    rw [hws] at heq
    exact absurd (List.cons.inj heq).1 hc
  · rfl

theorem Spelled.head (h : Spelled j cs) : ∃ c ds, cs = c :: ds ∧ isBlank c = false ∧ c ≠ ']' := by
  cases h with
  | int n =>
    unfold decimal
    split
    · exact ⟨'-', Nat.toDigits 10 n.natAbs, by simp, by decide, by decide⟩
    · rw [Nat.toList_repr]
      cases hds : Nat.toDigits 10 n.natAbs with
      | nil => exact absurd hds Nat.toDigits_ne_nil
      | cons d ds =>
        have hd : d.isDigit = true := isDigit_of_mem_toDigits (hds ▸ List.mem_cons_self)
        exact ⟨d, ds, rfl, isBlank_of_isDigit hd, ne_of_isDigit hd (by decide)⟩
  | str s => exact ⟨'"', _, toList_quote s, by decide, by decide⟩
  | _ => exact ⟨_, _, rfl, by decide, by decide⟩

theorem SpelledItems.head {js : List Json} (h : SpelledItems js cs) (rest : List Char) :
    ∃ c ds, skipBlanks (cs ++ rest) = c :: ds ∧ c ≠ ']' := by
  cases h with
  | one hws hj _ | more hws hj _ _ =>
    obtain ⟨c, ds, rfl, hblank, hc⟩ := Spelled.head hj
    rw [List.append_assoc, skipBlanks_append hws]
    exact ⟨c, _, skipBlanks_cons hblank _, hc⟩

theorem SpelledFields.head {fs : List (String × Json)} (h : SpelledFields fs cs)
    (rest : List Char) : ∃ ds, skipBlanks (cs ++ rest) = '"' :: ds := by
  cases h with
  | one hws _ _ _ _ | more hws _ _ _ _ _ =>
    rw [List.append_assoc, skipBlanks_append hws, toList_quote]
    exact ⟨_, skipBlanks_cons (by decide) _⟩

theorem skipBlanks_quote (s : String) (rest : List Char) :
    skipBlanks ((quote s).toList ++ rest) = (quote s).toList ++ rest := by
  rw [toList_quote]
  exact skipBlanks_cons (by decide) _

mutual

theorem readValue_spelled {j : Json} {cs : List Char} (h : Spelled j cs) (fuel : Nat)
    {rest : List Char} (hfuel : 2 * cs.length + 1 ≤ fuel) (hrest : Stops rest) :
    readValue fuel (cs ++ rest) = (j.document, rest) := by
  obtain ⟨fuel, rfl⟩ : ∃ n, fuel = n + 1 := ⟨fuel - 1, by omega⟩
  cases h with
  | null | yes | no =>
    rw [List.cons_append, readValue_scalar (by decide) (by decide) (by decide)]
    simp [readScalar, readWord, document]
  | int n => exact readValue_decimal n hrest fuel
  | str s => exact readValue_quote s rest fuel
  | noItems hws =>
    simp only [List.cons_append, List.append_assoc, readValue, skipBlanks_append hws,
      skipBlanks_cons (c := '[') (by decide), skipBlanks_cons (c := ']') (by decide)]
    rfl
  | noFields hws =>
    simp only [List.cons_append, List.append_assoc, readValue, skipBlanks_append hws,
      skipBlanks_cons (c := '\x7b') (by decide), skipBlanks_cons (c := '\x7d') (by decide)]
    rfl
  | arr hjs =>
    simp only [List.length_cons, List.length_append, List.length_nil] at hfuel
    obtain ⟨c, ds, hhead, hc⟩ := SpelledItems.head hjs (']' :: rest)
    rw [List.cons_append, List.append_assoc, List.singleton_append,
      readValue_items hhead hc, readItems_spelled hjs fuel (by omega), document]
  | obj hfs =>
    simp only [List.length_cons, List.length_append, List.length_nil] at hfuel
    obtain ⟨ds, hhead⟩ := SpelledFields.head hfs ('\x7d' :: rest)
    rw [List.cons_append, List.append_assoc, List.singleton_append,
      readValue_fields hhead (by decide), readFields_spelled hfs fuel (by omega), document]

theorem readItems_spelled {js : List Json} {cs : List Char} (h : SpelledItems js cs) (fuel : Nat)
    {rest : List Char} (hfuel : 2 * cs.length + 2 ≤ fuel) :
    readItems fuel (cs ++ ']' :: rest) = (documents js, .closed, rest) := by
  obtain ⟨fuel, rfl⟩ : ∃ n, fuel = n + 1 := ⟨fuel - 1, by omega⟩
  cases h with
  | one hws hj hws' =>
    simp only [List.length_append] at hfuel
    have hvalue := readValue_spelled hj fuel (by omega)
      (stops_append hws' (stops_cons (c := ']') (by decide) rest))
    simp only [List.append_assoc, readItems, readValue_append hws, hvalue,
      skipBlanks_append hws', skipBlanks_cons (c := ']') (by decide), documents]
  | @more _ _ _ _ _ ds hws hj hws' hjs =>
    simp only [List.length_append, List.length_cons] at hfuel
    have hvalue := readValue_spelled hj fuel (by omega)
      (stops_append hws' (stops_cons (c := ',') (by decide) (ds ++ ']' :: rest)))
    simp only [List.append_assoc, List.cons_append, readItems, readValue_append hws, hvalue,
      skipBlanks_append hws', skipBlanks_cons (c := ',') (by decide),
      readItems_spelled hjs fuel (by omega), documents]

theorem readFields_spelled {fs : List (String × Json)} {cs : List Char}
    (h : SpelledFields fs cs) (fuel : Nat) {rest : List Char}
    (hfuel : 2 * cs.length + 2 ≤ fuel) :
    readFields fuel (cs ++ '\x7d' :: rest) = (fieldDocuments fs, .closed, rest) := by
  obtain ⟨fuel, rfl⟩ : ∃ n, fuel = n + 1 := ⟨fuel - 1, by omega⟩
  cases h with
  | one hws hws₁ hws₂ hj hws' =>
    simp only [List.length_append, List.length_cons] at hfuel
    have hvalue := readValue_spelled hj fuel (by omega)
      (stops_append hws' (stops_cons (c := '\x7d') (by decide) rest))
    simp only [List.append_assoc, List.cons_append, readFields, skipBlanks_append hws,
      skipBlanks_quote, readKey_quote, skipBlanks_append hws₁,
      skipBlanks_cons (c := ':') (by decide), readValue_append hws₂, hvalue,
      skipBlanks_append hws', skipBlanks_cons (c := '\x7d') (by decide), fieldDocuments]
  | @more _ _ _ _ _ _ _ _ ds hws hws₁ hws₂ hj hws' hfs =>
    simp only [List.length_append, List.length_cons] at hfuel
    have hvalue := readValue_spelled hj fuel (by omega)
      (stops_append hws' (stops_cons (c := ',') (by decide) (ds ++ '\x7d' :: rest)))
    simp only [List.append_assoc, List.cons_append, readFields, skipBlanks_append hws,
      skipBlanks_quote, readKey_quote, skipBlanks_append hws₁,
      skipBlanks_cons (c := ':') (by decide), readValue_append hws₂, hvalue,
      skipBlanks_append hws', skipBlanks_cons (c := ',') (by decide),
      readFields_spelled hfs fuel (by omega), fieldDocuments]

end

theorem read_isText {text : String} (h : j.IsText text) :
    ∃ ws, Blank ws ∧ read text = (j.document, ws) := by
  obtain ⟨ws, cs, ws', hws, hj, hws', rfl⟩ := h
  have hstops : Stops ws' := by simpa using stops_append hws' stops_nil
  refine ⟨ws', hws', ?_⟩
  rw [read, String.toList_ofList, readValue_append hws]
  refine readValue_spelled hj _ ?_ hstops
  simp only [List.length_append]
  omega

end Document

namespace Json

theorem blank_nil : Blank [] := by simp [Blank]

theorem blank_space : Blank [' '] := by simp [Blank, Document.isBlank]

theorem blank_newline (level : Nat) : Blank (newline level).toList := by
  intro c hc
  simp only [newline, String.toList_append, String.toList_ofList, List.mem_append] at hc
  rcases hc with hc | hc
  · have hline : c = '\n' := by simpa using hc
    subst hline
    decide
  · rw [List.eq_of_mem_replicate hc]
    decide

mutual

theorem spelled_compact : (j : Json) → Spelled j j.compact.toList
  | .null => .null
  | .bool true => .yes
  | .bool false => .no
  | .int n => .int n
  | .str s => .str s
  | .arr [] => .noItems blank_nil
  | .arr (j :: js) => by
    simpa [compact] using Spelled.arr (spelledItems_compact (j :: js) (List.cons_ne_nil j js))
  | .obj [] => .noFields blank_nil
  | .obj (f :: fs) => by
    simpa [compact] using Spelled.obj (spelledFields_compact (f :: fs) (List.cons_ne_nil f fs))

theorem spelledItems_compact :
    (js : List Json) → js ≠ [] → SpelledItems js (compactItems js).toList
  | [], h => absurd rfl h
  | [j], _ => by
    simpa [compactItems] using SpelledItems.one blank_nil (spelled_compact j) blank_nil
  | j :: i :: js, _ => by
    simpa [compactItems] using SpelledItems.more blank_nil (spelled_compact j) blank_nil
      (spelledItems_compact (i :: js) (List.cons_ne_nil i js))

theorem spelledFields_compact :
    (fs : List (String × Json)) → fs ≠ [] → SpelledFields fs (compactFields fs).toList
  | [], h => absurd rfl h
  | [(x, j)], _ => by
    simpa [compactFields] using
      SpelledFields.one (x := x) blank_nil blank_nil blank_nil (spelled_compact j) blank_nil
  | (x, j) :: f :: fs, _ => by
    simpa [compactFields] using SpelledFields.more (x := x) blank_nil blank_nil blank_nil
      (spelled_compact j) blank_nil (spelledFields_compact (f :: fs) (List.cons_ne_nil f fs))

end

mutual

theorem spelled_prettyAt (level : Nat) : (j : Json) → Spelled j (j.prettyAt level).toList
  | .null => by
    rw [prettyAt]
    exact .null
  | .bool true => by
    rw [prettyAt]
    exact .yes
  | .bool false => by
    rw [prettyAt]
    exact .no
  | .int n => .int n
  | .str s => .str s
  | .arr [] => by
    rw [prettyAt]
    exact .noItems blank_nil
  | .arr (j :: js) => by
    simpa [prettyAt] using Spelled.arr (spelledItems_pretty (level + 1) (blank_newline level)
      (j :: js) (List.cons_ne_nil j js))
  | .obj [] => by
    rw [prettyAt]
    exact .noFields blank_nil
  | .obj (f :: fs) => by
    simpa [prettyAt] using Spelled.obj (spelledFields_pretty (level + 1) (blank_newline level)
      (f :: fs) (List.cons_ne_nil f fs))

theorem spelledItems_pretty (level : Nat) {ws : List Char} (hws : Blank ws) :
    (js : List Json) → js ≠ [] → SpelledItems js ((prettyItems level js).toList ++ ws)
  | [], h => absurd rfl h
  | [j], _ => by
    simpa [prettyItems] using
      SpelledItems.one (blank_newline level) (spelled_prettyAt level j) hws
  | j :: i :: js, _ => by
    simpa [prettyItems] using SpelledItems.more (blank_newline level) (spelled_prettyAt level j)
      blank_nil (spelledItems_pretty level hws (i :: js) (List.cons_ne_nil i js))

theorem spelledFields_pretty (level : Nat) {ws : List Char} (hws : Blank ws) :
    (fs : List (String × Json)) → fs ≠ [] → SpelledFields fs ((prettyFields level fs).toList ++ ws)
  | [], h => absurd rfl h
  | [(x, j)], _ => by
    simpa [prettyFields] using SpelledFields.one (x := x) (blank_newline level) blank_nil
      blank_space (spelled_prettyAt level j) hws
  | (x, j) :: f :: fs, _ => by
    simpa [prettyFields] using SpelledFields.more (x := x) (blank_newline level) blank_nil
      blank_space (spelled_prettyAt level j) blank_nil
      (spelledFields_pretty level hws (f :: fs) (List.cons_ne_nil f fs))

end

theorem Spelled.isText {j : Json} {text : String} (h : Spelled j text.toList) : j.IsText text :=
  ⟨[], text.toList, [], blank_nil, h, blank_nil, by simp⟩

theorem isText_compact (j : Json) : j.IsText j.compact := (spelled_compact j).isText

theorem isText_pretty (j : Json) : j.IsText j.pretty := (spelled_prettyAt 0 j).isText

end Json

end GuardedCommands
