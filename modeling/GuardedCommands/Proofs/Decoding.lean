import GuardedCommands.Json.Decoder
import GuardedCommands.Proofs.JsonTexts

/-!
# Decoders that read what was written

A decoder reads a value as something if it makes that of the document of the value,
whenever the value has no more brackets inside each other than may be opened.  For
each way to build a decoder there is one rule that says what the built one reads.

A decoder of trees is unrolled layer by layer, and what it reads is limited by its
number of layers.  So a rule for a decoder that opens a bracket goes up by one: if
the decoders inside read up to a depth, it reads up to the next.
-/

namespace GuardedCommands

namespace Json

mutual

def depth : Json → Nat
  | .null | .bool _ | .int _ | .str _ => 0
  | .arr items => depthItems items + 1
  | .obj fields => depthFields fields + 1

def depthItems : List Json → Nat
  | [] => 0
  | j :: js => max j.depth (depthItems js)

def depthFields : List (String × Json) → Nat
  | [] => 0
  | (_, j) :: fields => max j.depth (depthFields fields)

end

variable {n : Nat}

theorem depthItems_le {js : List Json} : depthItems js ≤ n ↔ ∀ j ∈ js, j.depth ≤ n := by
  induction js with
  | nil => simp [depthItems]
  | cons j js ih => simp [depthItems, ih]

theorem depthFields_le {fs : List (String × Json)} :
    depthFields fs ≤ n ↔ ∀ f ∈ fs, f.2.depth ≤ n := by
  induction fs with
  | nil => simp [depthFields]
  | cons f fs ih => simp [depthFields, ih]

theorem documents_eq (js : List Json) : documents js = js.map document := by
  induction js with
  | nil => rfl
  | cons j js ih => rw [documents, ih, List.map_cons]

theorem fieldDocuments_eq (fs : List (String × Json)) :
    fieldDocuments fs = fs.map fun f => (.text (some f.1), f.2.document) := by
  induction fs with
  | nil => rfl
  | cons f fs ih => rw [fieldDocuments, ih, List.map_cons]

end Json

open Json

namespace Outcome

variable {α β : Type}

@[simp] theorem map_ok (f : α → β) (a : α) : f <$> (ok a : Outcome α) = ok (f a) := rfl

@[simp] theorem seq_ok (f : α → β) (a : α) : (ok f : Outcome (α → β)) <*> ok a = ok (f a) := rfl

@[simp] theorem seqLeft_ok (a : α) (b : β) : (ok a : Outcome α) <* ok b = ok a := rfl

@[simp] theorem ok_seqRight (a : α) (x : Outcome β) : (ok a : Outcome α) *> x = x := by
  cases x <;> rfl

end Outcome

namespace Decoder

variable {α β γ : Type} {n : Nat}

/-- From what is written as `j` the decoder makes `a`, if less than `n` brackets may be
opened and these are enough. -/
def ReadsBelow (n : Nat) (d : Decoder α) (j : Json) (a : α) : Prop :=
  ∀ depth < n, j.depth ≤ depth → d depth j.document = .ok a

namespace ReadsBelow

variable {d : Decoder α} {e : Decoder β} {f : Decoder γ} {j k l : Json} {a : α} {b : β} {c : γ}

theorem lower (h : ReadsBelow (n + 1) d j a) : ReadsBelow n d j a :=
  fun depth hlt => h depth (Nat.lt_succ_of_lt hlt)

theorem map (g : α → β) (h : ReadsBelow n d j a) : ReadsBelow n (g <$> d) j (g a) := by
  intro depth hlt hdepth
  have hmap : (g <$> d) depth j.document = g <$> d depth j.document := rfl
  rw [hmap, h depth hlt hdepth, Outcome.map_ok]

/-! ## Values without brackets -/

theorem bool (b : Bool) : ReadsBelow n .bool (.bool b) b := fun _ _ _ => rfl

theorem nat (m : Nat) : ReadsBelow n .nat (.int m) m := by
  intro depth _ _
  simp [document, Decoder.nat]

theorem int {lo hi m : Int} (hlo : lo ≤ m) (hhi : m ≤ hi) :
    ReadsBelow n (.int lo hi) (.int m) m := by
  intro depth _ _
  simp [document, Decoder.int, hlo, hhi]

theorem uint64 (m : UInt64) : ReadsBelow n .uint64 (.int m.toNat) m := by
  have hhi : (m.toNat : Int) ≤ Int.ofNat (UInt64.size - 1) := by
    have hlt := m.toNat_lt_size
    rw [Int.ofNat_eq_natCast]
    omega
  have hback : UInt64.ofNat (m.toNat : Int).toNat = m := by simp
  have hread := (int (n := n) (Int.natCast_nonneg m.toNat) hhi).map (UInt64.ofNat ·.toNat)
  simp only [hback] at hread
  exact hread

theorem int64 (m : Int64) : ReadsBelow n .int64 (.int m.toInt) m := by
  have hread := (int (n := n) m.minValue_le_toInt m.toInt_le).map Int64.ofInt
  rw [Int64.ofInt_toInt] at hread
  exact hread

theorem string (s : String) : ReadsBelow n .string (.str s) s := fun _ _ _ => rfl

theorem char (c : Char) : ReadsBelow n .char (.str (String.singleton c)) c := by
  intro depth _ _
  simp [document, Decoder.char, Decoder.string]

variable {g : α → Json} {layer : Decoder α → Decoder α}

theorem option (hnull : ∀ a, g a ≠ .null) (h : ∀ a, ReadsBelow n d (g a) a) (o : Option α) :
    ReadsBelow n (.option d) (.ofOption g o) o := by
  cases o with
  | none => exact fun _ _ _ => rfl
  | some a =>
    intro depth hlt hdepth
    rw [ofOption] at hdepth ⊢
    have hread := h a depth hlt hdepth
    have hwritten := hnull a
    cases hj : g a with
    | null => exact absurd hj hwritten
    | _ => rw [hj] at hread; exact congrArg (some <$> ·) hread

/-! ## Lists -/

theorem mapA_documents {depth : Nat} {as : List α} (h : ∀ a ∈ as, d depth (g a).document = .ok a) :
    ((as.map g).map document).mapA (d depth) = .ok as := by
  induction as with
  | nil => rfl
  | cons a as ih =>
    rw [List.forall_mem_cons] at h
    simp only [List.map_cons, List.mapA, h.1, ih h.2, Outcome.map_ok, Outcome.seq_ok]

theorem arr {js : List Json} (h : ∀ depth < n, (∀ j ∈ js, j.depth ≤ depth) →
    d (depth + 1) (Json.arr js).document = .ok a) : ReadsBelow (n + 1) d (.arr js) a := by
  intro depth hlt hdepth
  rw [Json.depth] at hdepth
  obtain ⟨depth, rfl⟩ : ∃ m, depth = m + 1 := ⟨depth - 1, by omega⟩
  exact h depth (Nat.lt_of_succ_lt_succ hlt) (depthItems_le.1 (Nat.le_of_succ_le_succ hdepth))

theorem list (h : ∀ a, ReadsBelow n d (g a) a) (as : List α) :
    ReadsBelow (n + 1) (.list d) (.arr (as.map g)) as := by
  refine arr fun depth hlt hitems => ?_
  have hread : ((as.map g).map document).mapA (d depth) = .ok as :=
    mapA_documents fun a ha => h a depth hlt (hitems _ (List.mem_map_of_mem ha))
  simp only [document, documents_eq, Decoder.list, hread, Ending.outcome, Outcome.seqLeft_ok]

theorem pair (h : ReadsBelow n d j a) (h' : ReadsBelow n e k b) :
    ReadsBelow (n + 1) (.pair d e) (.arr [j, k]) (a, b) := by
  refine arr fun depth hlt hitems => ?_
  simp only [List.forall_mem_cons] at hitems
  simp [document, documents, Decoder.pair, h depth hlt hitems.1, h' depth hlt hitems.2.1,
    Ending.outcome]

theorem triple (h : ReadsBelow n d j a) (h' : ReadsBelow n e k b) (h'' : ReadsBelow n f l c) :
    ReadsBelow (n + 1) (.triple d e f) (.arr [j, k, l]) (a, b, c) := by
  refine arr fun depth hlt hitems => ?_
  simp only [List.forall_mem_cons] at hitems
  simp [document, documents, Decoder.triple, h depth hlt hitems.1, h' depth hlt hitems.2.1,
    h'' depth hlt hitems.2.2.1, Ending.outcome]

/-! ## Cases -/

variable {plain : List (String × α)} {others : List (String × Decoder α)} {x : String}

theorem cases_plain (h : plain.lookup x = some a) :
    ReadsBelow n (.cases plain others) (.str x) a := by
  intro depth _ _
  simp [document, Decoder.cases, h]

theorem cases_tagged (hplain : plain.lookup x = none) (hothers : others.lookup x = some d)
    (h : ReadsBelow n d j a) : ReadsBelow (n + 1) (.cases plain others) (.tagged x j) a := by
  intro depth hlt hdepth
  rw [tagged, Json.depth] at hdepth
  obtain ⟨depth, rfl⟩ : ∃ m, depth = m + 1 := ⟨depth - 1, by omega⟩
  have hfields := depthFields_le.1 (Nat.le_of_succ_le_succ hdepth)
  simp only [List.forall_mem_cons] at hfields
  simp [tagged, document, fieldDocuments, Decoder.cases, hplain, hothers,
    h depth (Nat.lt_of_succ_lt_succ hlt) hfields.1, Ending.outcome]

/-! ## Trees -/

theorem unrolled
    (h : ∀ n d, (∀ a, ReadsBelow n d (g a) a) → ∀ a, ReadsBelow (n + 1) (layer d) (g a) a) (n : Nat)
    (a : α) : ReadsBelow n (Decoder.unrolled layer n) (g a) a := by
  induction n generalizing a with
  | zero => exact fun depth hlt => absurd hlt (Nat.not_lt_zero depth)
  | succ n ih => exact h n _ ih a

theorem tree (h : ∀ n d, (∀ a, ReadsBelow n d (g a) a) → ∀ a, ReadsBelow (n + 1) (layer d) (g a) a)
    (a : α) : ReadsBelow n (.tree layer) (g a) a :=
  fun depth _ hdepth => unrolled h (depth + 1) a depth (Nat.lt_succ_self depth) hdepth

end ReadsBelow

end Decoder

/-! ## Records -/

namespace Fields

variable {α β : Type} {n : Nat}

structure ReadsBelow (n : Nat) (f : Fields α) (fs : List (String × Json)) (a : α) : Prop where
  names : f.names = fs.map (·.1)
  run : ∀ depth < n, (∀ g ∈ fs, g.2.depth ≤ depth) → ∀ get : String → Option Document,
    (∀ g ∈ fs, get g.1 = some g.2.document) → f.run depth get .closed = .ok a

namespace ReadsBelow

theorem pure (a : α) : ReadsBelow n (Pure.pure a : Fields α) [] a := ⟨rfl, fun _ _ _ _ _ => rfl⟩

variable {d : Decoder α} {j : Json} {a : α} {gs : List (String × Json)}

theorem required {x : String} (h : d.ReadsBelow n j a) :
    ReadsBelow n (.required x d) [(x, j)] a := by
  refine ⟨rfl, fun depth hlt hdepth get hget => ?_⟩
  simp only [List.forall_mem_cons] at hdepth hget
  simp only [Fields.required, hget.1]
  exact h depth hlt hdepth.1

theorem withDefault {x : String} {a₀ : α} (h : d.ReadsBelow n j a) :
    ReadsBelow n (.withDefault x a₀ d) [(x, j)] a := by
  refine ⟨rfl, fun depth hlt hdepth get hget => ?_⟩
  simp only [List.forall_mem_cons] at hdepth hget
  simp only [Fields.withDefault, hget.1]
  exact h depth hlt hdepth.1

theorem seq {f : Fields (α → β)} {x : Fields α} {fs : List (String × Json)} {g : α → β}
    (hf : ReadsBelow n f fs g) (hx : ReadsBelow n x gs a) :
    ReadsBelow n (f <*> x) (fs ++ gs) (g a) := by
  refine ⟨?_, fun depth hlt hdepth get hget => ?_⟩
  · have hnames : (f <*> x).names = f.names ++ x.names := rfl
    rw [hnames, hf.names, hx.names, List.map_append]
  · rw [List.forall_mem_append] at hdepth hget
    have hrun : (f <*> x).run depth get .closed =
        f.run depth get .closed <*> x.run depth get .closed := rfl
    rw [hrun, hf.run depth hlt hdepth.1 get hget.1, hx.run depth hlt hdepth.2 get hget.2,
      Outcome.seq_ok]

theorem map {x : Fields α} (g : α → β) (hx : ReadsBelow n x gs a) :
    ReadsBelow n (g <$> x) gs (g a) :=
  (pure g).seq hx

end ReadsBelow

end Fields

namespace Document

variable {fs : List (String × Json)}

theorem checkFields_documents {known : List String} (hknown : ∀ f ∈ fs, f.1 ∈ known)
    (hnodup : (fs.map (·.1)).Nodup) : checkFields known (fieldDocuments fs) = .ok () := by
  induction fs with
  | nil => rfl
  | cons f fs ih =>
    rw [List.forall_mem_cons] at hknown
    rw [List.map_cons, List.nodup_cons] at hnodup
    have hfresh : (fieldDocuments fs).any (fun g => g.1 = .text (some f.1)) = false := by
      rw [fieldDocuments_eq, List.any_map, List.any_eq_false]
      intro g hg heq
      have hname : g.1 = f.1 := by simpa using heq
      exact hnodup.1 (hname ▸ List.mem_map_of_mem hg)
    rw [fieldDocuments, checkFields, if_pos hknown.1, hfresh]
    exact ih hknown.2 hnodup.2

theorem fieldOf_documents (hnodup : (fs.map (·.1)).Nodup) :
    ∀ f ∈ fs, fieldOf (fieldDocuments fs) f.1 = some f.2.document := by
  induction fs with
  | nil => simp
  | cons g fs ih =>
    rw [List.map_cons, List.nodup_cons] at hnodup
    rw [List.forall_mem_cons]
    constructor
    · simp [fieldOf, fieldDocuments]
    · intro f hf
      have hne : f.1 ≠ g.1 := fun heq => hnodup.1 (heq ▸ List.mem_map_of_mem hf)
      have hkey : (Key.text (some f.1) == Key.text (some g.1)) = false := by
        simpa using hne
      rw [← ih hnodup.2 f hf]
      simp only [fieldOf, fieldDocuments, List.lookup_cons, hkey]

end Document

variable {α : Type} {a : α}

theorem Decoder.ReadsBelow.record {n : Nat} {f : Fields α} {fs : List (String × Json)}
    (hnodup : (fs.map (·.1)).Nodup) (h : f.ReadsBelow n fs a) :
    ReadsBelow (n + 1) (.record f) (.obj fs) a := by
  intro depth hlt hdepth
  rw [Json.depth] at hdepth
  obtain ⟨depth, rfl⟩ : ∃ m, depth = m + 1 := ⟨depth - 1, by omega⟩
  have hfields := depthFields_le.1 (Nat.le_of_succ_le_succ hdepth)
  have hknown : ∀ g ∈ fs, g.1 ∈ f.names := by
    rw [h.names]
    exact fun g hg => List.mem_map_of_mem hg
  have hrun := h.run depth (Nat.lt_of_succ_lt_succ hlt) hfields _
    (Document.fieldOf_documents hnodup)
  simp only [document, Decoder.record, Document.checkFields_documents hknown hnodup, hrun,
    Ending.outcome, Outcome.ok_seqRight, Outcome.seqLeft_ok]

/-! ## Texts -/

theorem Decoder.decodeText_isText {d : Decoder α} {j : Json} {depth : Nat}
    (h : d.ReadsBelow (depth + 1) j a) (hdepth : j.depth ≤ depth) {text : String}
    (htext : j.IsText text) : d.decodeText depth text = .ok a := by
  obtain ⟨ws, hws, hread⟩ := Document.read_isText htext
  have hblank : ws.all Document.isBlank = true := List.all_eq_true.2 hws
  rw [decodeText, hread]
  simp only [h depth (Nat.lt_succ_self depth) hdepth, hblank, if_true, Outcome.seqLeft_ok]

end GuardedCommands
