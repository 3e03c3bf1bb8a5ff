import GuardedCommands.Proofs.KindScope

/-!
# The order of a context of kinds

The kinds in a context mention only metavariables that stand before them.  So
putting in solutions leads from an entry to earlier ones and ends at metavariables
that are unsolved.  All that inference does to a context is to put in a new
unsolved metavariable, to solve one by a kind over earlier ones, and to add a name
at the end or take one out; each of these keeps the order, and so does every
operation on contexts, also one that fails on its way.
-/

namespace GuardedCommands

/-! ## Kinds over metavariables -/

namespace Kind

def Over (xs : List String) (k : Kind) : Prop := ∀ x ∈ k.freeVars, x ∈ xs

variable {xs ys : List String} {k : Kind}

theorem Over.mono (h : k.Over xs) (hxs : xs ⊆ ys) : k.Over ys := fun x hx => hxs (h x hx)

theorem over_star : star.Over xs := by simp [Over, freeVars]

theorem over_metavar {n : Name} (h : n.text ∈ xs) : (metavar n).Over xs := by
  simpa [Over, freeVars] using h

theorem over_arrow {dom cod : Kind} :
    (arrow dom cod).Over xs ↔ dom.Over xs ∧ cod.Over xs := by
  simp only [Over, freeVars, NameSet.mem_union, or_imp, forall_and]

theorem over_starArity (n : Nat) : (starArity n).Over xs := by
  induction n with
  | zero => exact over_star
  | succ n ih => exact over_arrow.2 ⟨over_star, ih⟩

theorem over_arrows {args : List Kind} (h : ∀ k ∈ args, k.Over xs) : (arrows args).Over xs := by
  induction args with
  | nil => exact over_star
  | cons k args ih =>
    obtain ⟨hk, hargs⟩ := List.forall_mem_cons.1 h
    exact over_arrow.2 ⟨hk, ih hargs⟩

variable {f : Name → Kind}

theorem mem_freeVars_bind {y : String} (h : y ∈ (k.bind f).freeVars) :
    ∃ n : Name, n.text ∈ k.freeVars ∧ y ∈ (f n).freeVars := by
  induction k with
  | star => simp [bind, freeVars] at h
  | arrow dom cod ihdom ihcod =>
    rcases NameSet.mem_union.1 h with h | h
    · obtain ⟨n, hn, hy⟩ := ihdom h
      exact ⟨n, NameSet.mem_union.2 (.inl hn), hy⟩
    · obtain ⟨n, hn, hy⟩ := ihcod h
      exact ⟨n, NameSet.mem_union.2 (.inr hn), hy⟩
  | metavar n => exact ⟨n, by simp [freeVars], h⟩

theorem mem_freeVars_apply {s : Subst} {y : String} :
    y ∈ (k.apply s).freeVars ↔
      ∃ x ∈ k.freeVars, y ∈ ((s.get? x).getD (.metavar (.bare x))).freeVars := by
  induction k with
  | star => simp [apply, bind, freeVars]
  | arrow dom cod ihdom ihcod =>
    have happly : (arrow dom cod).apply s = arrow (dom.apply s) (cod.apply s) := rfl
    simp only [happly, freeVars, NameSet.mem_union, ihdom, ihcod, or_and_right, exists_or]
  | metavar n =>
    cases hs : s.get? n.text with
    | none => simp [apply, bind, freeVars, hs, Name.bare]
    | some j => simp [apply, bind, freeVars, hs]

theorem bind_eq_self (h : ∀ n : Name, n.text ∈ k.freeVars → f n = .metavar n) : k.bind f = k := by
  induction k with
  | star => rfl
  | arrow dom cod ihdom ihcod =>
    rw [bind, ihdom fun n hn => h n (NameSet.mem_union.2 (.inl hn)),
      ihcod fun n hn => h n (NameSet.mem_union.2 (.inr hn))]
  | metavar n => exact h n (by simp [freeVars])

end Kind

/-! ## Ordered contexts -/

def KindEntry.mentioned : KindEntry → NameSet
  | .annotated _ k | .solved _ k => k.freeVars
  | .unsolved _ => ∅

namespace KindContext

def metasIn (entries : List KindEntry) : List String :=
  entries.filterMap fun
    | .unsolved n | .solved n _ => some n.text
    | .annotated _ _ => none

def unsolvedIn (entries : List KindEntry) : List String :=
  entries.filterMap fun
    | .unsolved n => some n.text
    | _ => none

section

variable (n : Name) (k : Kind) (rest a b : List KindEntry)

@[simp] theorem metasIn_nil : metasIn [] = [] := rfl

@[simp] theorem metasIn_annotated : metasIn (.annotated n k :: rest) = metasIn rest := rfl

@[simp] theorem metasIn_unsolved : metasIn (.unsolved n :: rest) = n.text :: metasIn rest := rfl

@[simp] theorem metasIn_solved : metasIn (.solved n k :: rest) = n.text :: metasIn rest := rfl

@[simp] theorem metasIn_append : metasIn (a ++ b) = metasIn a ++ metasIn b :=
  List.filterMap_append

@[simp] theorem unsolvedIn_nil : unsolvedIn [] = [] := rfl

@[simp] theorem unsolvedIn_annotated : unsolvedIn (.annotated n k :: rest) = unsolvedIn rest := rfl

@[simp] theorem unsolvedIn_unsolved :
    unsolvedIn (.unsolved n :: rest) = n.text :: unsolvedIn rest := rfl

@[simp] theorem unsolvedIn_solved : unsolvedIn (.solved n k :: rest) = unsolvedIn rest := rfl

@[simp] theorem unsolvedIn_append : unsolvedIn (a ++ b) = unsolvedIn a ++ unsolvedIn b :=
  List.filterMap_append

end

/-- Every entry mentions only metavariables of some names and of the entries before it. -/
def Earlier (xs : List String) : List KindEntry → Prop
  | [] => True
  | e :: rest => (∀ x ∈ e.mentioned, x ∈ xs) ∧ Earlier (xs ++ metasIn [e]) rest

variable {xs : List String} {a b entries : List KindEntry} {k : Kind} {n : Name} {ctx : KindContext}

theorem earlier_append : Earlier xs (a ++ b) ↔ Earlier xs a ∧ Earlier (xs ++ metasIn a) b := by
  induction a generalizing xs with
  | nil => simp [Earlier]
  | cons e a ih =>
    have hmetas : metasIn (e :: a) = metasIn [e] ++ metasIn a := metasIn_append [e] a
    rw [List.cons_append, Earlier, Earlier, ih, hmetas, List.append_assoc, and_assoc]

theorem Earlier.mono {ys : List String} (hxs : xs ⊆ ys) (h : Earlier xs entries) :
    Earlier ys entries := by
  induction entries generalizing xs ys with
  | nil => trivial
  | cons e rest ih =>
    refine ⟨fun x hx => hxs (h.1 x hx), ih ?_ h.2⟩
    exact List.append_subset.2
      ⟨List.Subset.trans hxs (List.subset_append_left _ _), List.subset_append_right _ _⟩

theorem Earlier.over_annotation (h : Earlier xs entries) {x : String}
    (hk : annotation? x entries = some k) : k.Over (xs ++ metasIn entries) := by
  induction entries generalizing xs with
  | nil => cases hk
  | cons e rest ih =>
    cases e with
    | annotated n j =>
      rw [annotation?] at hk
      split at hk
      · cases hk
        exact Kind.Over.mono h.1 (List.subset_append_left _ _)
      · simpa using ih h.2 hk
    | unsolved n | solved n j => simpa using ih h.2 hk

theorem metasIn_eraseP (x : String) (entries : List KindEntry) :
    metasIn (entries.eraseP (·.annotates x)) = metasIn entries := by
  induction entries with
  | nil => rfl
  | cons e rest ih =>
    cases e with
    | annotated n k =>
      by_cases hx : n.text = x
      · simp [KindEntry.annotates, hx]
      · simpa [KindEntry.annotates, hx] using ih
    | unsolved n | solved n k => simpa [KindEntry.annotates] using ih

theorem Earlier.eraseP (h : Earlier xs entries) (x : String) :
    Earlier xs (entries.eraseP (·.annotates x)) := by
  induction entries generalizing xs with
  | nil => trivial
  | cons e rest ih =>
    by_cases he : e.annotates x = true
    · rw [List.eraseP_cons_of_pos he]
      cases e with
      | annotated n k => simpa [Earlier] using h.2
      | unsolved | solved => cases he
    · rw [List.eraseP_cons_of_neg he]
      exact ⟨h.1, ih h.2⟩

theorem metasIn_defaultUnsolved (ctx : KindContext) :
    metasIn ctx.defaultUnsolved.entries = metasIn ctx.entries := by
  obtain ⟨entries⟩ := ctx
  simp only [defaultUnsolved]
  induction entries with
  | nil => rfl
  | cons e rest ih => cases e <;> simpa using ih

theorem Earlier.defaultUnsolved (h : Earlier xs entries) :
    Earlier xs (KindContext.mk entries).defaultUnsolved.entries := by
  simp only [KindContext.defaultUnsolved]
  induction entries generalizing xs with
  | nil => trivial
  | cons e rest ih =>
    cases e with
    | annotated n k => exact ⟨h.1, ih h.2⟩
    | unsolved n => exact ⟨Kind.over_star, ih h.2⟩
    | solved n k => exact ⟨h.1, ih h.2⟩

structure Ordered (ctx : KindContext) : Prop where
  annotated : ctx.annotated.Nodup
  metas : (metasIn ctx.entries).Nodup
  earlier : Earlier [] ctx.entries

/-! ## Putting in solutions -/

theorem unsolvedIn_subset (entries : List KindEntry) : unsolvedIn entries ⊆ metasIn entries := by
  induction entries with
  | nil => simp
  | cons e rest ih =>
    cases e with
    | annotated n k => exact ih
    | unsolved n => exact List.cons_subset_cons _ ih
    | solved n k => exact List.Subset.trans ih (List.subset_cons_self _ _)

theorem solution?_of_not_mem {x : String} (hx : x ∉ metasIn entries) :
    solution? x entries = none := by
  induction entries with
  | nil => rfl
  | cons e rest ih =>
    cases e with
    | annotated n k => exact ih hx
    | unsolved n => exact ih fun hmem => hx (List.mem_cons_of_mem _ hmem)
    | solved n k =>
      simp only [metasIn_solved, List.mem_cons, not_or] at hx
      rw [solution?, if_neg (Ne.symm hx.1), ih hx.2]

theorem solution?_of_unsolved (h : (metasIn entries).Nodup) {x : String}
    (hx : x ∈ unsolvedIn entries) : solution? x entries = none := by
  induction entries with
  | nil => rfl
  | cons e rest ih =>
    cases e with
    | annotated n k => exact ih h hx
    | unsolved n =>
      obtain ⟨hn, hrest⟩ := List.nodup_cons.1 h
      rcases List.mem_cons.1 hx with rfl | hx
      · have hnone : solution? n.text rest = none := solution?_of_not_mem hn
        exact hnone
      · exact ih hrest hx
    | solved n k =>
      obtain ⟨hn, hrest⟩ := List.nodup_cons.1 h
      have hne : n.text ≠ x := fun heq => hn (heq ▸ unsolvedIn_subset rest hx)
      rw [solution?, if_neg hne, ih hrest hx]

theorem solution?_of_solved (h : (metasIn (a ++ .solved n k :: b)).Nodup) :
    solution? n.text (a ++ .solved n k :: b) = some k := by
  induction a with
  | nil => simp [solution?]
  | cons e a ih =>
    cases e with
    | annotated m j => exact ih h
    | unsolved m => exact ih (List.nodup_cons.1 h).2
    | solved m j =>
      obtain ⟨hm, hrest⟩ := List.nodup_cons.1 h
      have hne : m.text ≠ n.text := by
        intro heq
        simp [heq] at hm
      rw [List.cons_append, solution?, if_neg hne]
      exact ih hrest

theorem mem_metasIn {x : String} (h : x ∈ metasIn entries) :
    x ∈ unsolvedIn entries ∨
      ∃ a n k b, entries = a ++ .solved n k :: b ∧ n.text = x := by
  induction entries with
  | nil => simp at h
  | cons e rest ih =>
    have hrest : x ∈ metasIn rest → x ∈ unsolvedIn (e :: rest) ∨
        ∃ a n k b, e :: rest = a ++ .solved n k :: b ∧ n.text = x := by
      intro hx
      rcases ih hx with hx | ⟨a, n, k, b, rfl, hn⟩
      · left
        cases e <;> simp [hx]
      · exact .inr ⟨e :: a, n, k, b, rfl, hn⟩
    cases e with
    | annotated n k => exact hrest h
    | unsolved n =>
      rcases List.mem_cons.1 h with rfl | h
      · simp
      · exact hrest h
    | solved n k =>
      rcases List.mem_cons.1 h with rfl | h
      · exact .inr ⟨[], n, k, rest, rfl, rfl⟩
      · exact hrest h

theorem over_resolve (before after : List KindEntry) (hmetas : (metasIn (before ++ after)).Nodup)
    (hearlier : Earlier [] (before ++ after)) (hn : n.text ∈ metasIn before) {depth : Nat}
    (hdepth : before.length ≤ depth) :
    (resolve (before ++ after) depth n).Over (unsolvedIn before) := by
  induction depth generalizing before after n with
  | zero =>
    rw [List.length_eq_zero_iff.1 (Nat.le_zero.1 hdepth)] at hn
    simp at hn
  | succ depth ih =>
    rcases mem_metasIn hn with hx | ⟨a, m, k, b, rfl, hm⟩
    · have hnone : solution? n.text (before ++ after) = none :=
        solution?_of_unsolved hmetas (by simp [hx])
      rw [resolve, hnone]
      exact Kind.over_metavar hx
    · have hassoc : a ++ .solved m k :: b ++ after = a ++ .solved m k :: (b ++ after) := by simp
      rw [hassoc] at hmetas hearlier ⊢
      have hsome := solution?_of_solved hmetas
      rw [resolve, ← hm, hsome]
      intro y hy
      obtain ⟨i, hi, hy⟩ := Kind.mem_freeVars_bind hy
      have hlt : a.length ≤ depth := by
        simp only [List.length_append, List.length_cons] at hdepth
        omega
      have hmem : i.text ∈ metasIn a := by
        simpa using (earlier_append.1 hearlier).2.1 i.text hi
      have hover := ih _ _ hmetas hearlier hmem hlt y hy
      simp [hover]

theorem Ordered.over_zonk (h : ctx.Ordered) (hk : k.Over (metasIn ctx.entries)) :
    (ctx.zonk k).Over (unsolvedIn ctx.entries) := by
  intro y hy
  obtain ⟨n, hn, hy⟩ := Kind.mem_freeVars_bind hy
  have hover := over_resolve ctx.entries [] (n := n)
    (by simpa using h.metas) (by simpa using h.earlier) (hk _ hn) le_rfl
  rw [List.append_nil] at hover
  exact hover y hy

theorem Ordered.zonk_eq_self (h : ctx.Ordered) (hk : k.Over (unsolvedIn ctx.entries)) :
    ctx.zonk k = k := by
  refine Kind.bind_eq_self fun n hn => ?_
  have hnone := solution?_of_unsolved h.metas (hk _ hn)
  cases ctx.entries.length with
  | zero => rfl
  | succ depth => rw [resolve, hnone]

end KindContext

/-! ## What is done to a context -/

/-- A context is in order, and the supply has yet to issue only names that are new to it. -/
structure KindState.Valid (st : KindState) : Prop where
  ordered : st.context.Ordered
  fresh : ∀ i, st.supply.issued ≤ i →
    (Supply.next ⟨i⟩ "k").text ∉ KindContext.metasIn st.context.entries

structure KindState.Evolves (st st' : KindState) : Prop where
  valid : st'.Valid
  metas : KindContext.metasIn st.context.entries ⊆ KindContext.metasIn st'.context.entries

namespace KindState

open KindContext

variable {st st₁ st₂ : KindState} {supply : Supply} {before after : List KindEntry} {n : Name}
  {k : Kind} {x : String}

theorem Evolves.refl (h : st.Valid) : st.Evolves st := ⟨h, List.Subset.refl _⟩

theorem Evolves.trans (h : st.Evolves st₁) (h' : st₁.Evolves st₂) : st.Evolves st₂ :=
  ⟨h'.valid, List.Subset.trans h.metas h'.metas⟩

theorem Valid.next_not_mem (h : st.Valid) :
    (st.supply.next "k").text ∉ metasIn st.context.entries := h.fresh _ le_rfl

theorem Valid.insert (before after : List KindEntry)
    (h : Valid ⟨supply, ⟨before ++ after⟩⟩) :
    Evolves ⟨supply, ⟨before ++ after⟩⟩
      ⟨supply.advance, ⟨before ++ .unsolved (supply.next "k") :: after⟩⟩ := by
  have hnew := h.next_not_mem
  obtain ⟨⟨hannotated, hmetas, hearlier⟩, hfresh⟩ := h
  refine ⟨⟨⟨?_, ?_, ?_⟩, ?_⟩, ?_⟩
  · simpa [KindContext.annotated] using hannotated
  · simp only [metasIn_append, metasIn_unsolved] at hnew hmetas ⊢
    exact List.nodup_middle.2 (List.nodup_cons.2 ⟨hnew, hmetas⟩)
  · obtain ⟨hbefore, hafter⟩ := earlier_append.1 hearlier
    refine earlier_append.2 ⟨hbefore, by simp [KindEntry.mentioned], hafter.mono ?_⟩
    exact List.subset_append_left _ _
  · intro i hi hmem
    have hlater : supply.issued + 1 ≤ i := hi
    have hold := hfresh i (Nat.le_of_succ_le hlater)
    simp only [metasIn_append, metasIn_unsolved, List.mem_append, List.mem_cons] at hmem hold
    rcases hmem with hmem | heq | hmem
    · exact hold (.inl hmem)
    · have : i = supply.issued := Supply.next_injective heq
      omega
    · exact hold (.inr hmem)
  · intro x hx
    simp only [metasIn_append, metasIn_unsolved, List.mem_append, List.mem_cons] at hx ⊢
    tauto

theorem Valid.solve (before after : List KindEntry)
    (h : Valid ⟨supply, ⟨before ++ .unsolved n :: after⟩⟩)
    (hk : k.Over (metasIn before)) :
    Evolves ⟨supply, ⟨before ++ .unsolved n :: after⟩⟩
      ⟨supply, ⟨before ++ .solved n k :: after⟩⟩ := by
  obtain ⟨⟨hannotated, hmetas, hearlier⟩, hfresh⟩ := h
  refine ⟨⟨⟨?_, ?_, ?_⟩, ?_⟩, ?_⟩
  · simpa [KindContext.annotated] using hannotated
  · simpa using hmetas
  · obtain ⟨hbefore, -, hafter⟩ := earlier_append.1 hearlier
    exact earlier_append.2 ⟨hbefore, hk, hafter⟩
  · simpa using hfresh
  · simp

theorem Valid.split (h : Valid ⟨supply, ⟨before ++ .unsolved n :: after⟩⟩) :
    Evolves ⟨supply, ⟨before ++ .unsolved n :: after⟩⟩
      ⟨supply.advance.advance, ⟨before ++ [.unsolved (supply.next "k"),
        .unsolved (supply.advance.next "k"), .solved n (.arrow (.metavar (supply.next "k"))
          (.metavar (supply.advance.next "k")))] ++ after⟩⟩ := by
  have hdom := h.insert before _
  have hcod := Valid.insert (before ++ [.unsolved (supply.next "k")]) (.unsolved n :: after)
    (by simpa using hdom.valid)
  have hsolve := Valid.solve (before ++ [.unsolved (supply.next "k"),
      .unsolved (supply.advance.next "k")]) after (n := n) (k := .arrow (.metavar (supply.next "k"))
        (.metavar (supply.advance.next "k"))) (by simpa using hcod.valid)
    (Kind.over_arrow.2 ⟨Kind.over_metavar (by simp), Kind.over_metavar (by simp)⟩)
  simp only [List.append_assoc, List.cons_append, List.nil_append] at hcod hsolve ⊢
  exact (hdom.trans hcod).trans hsolve

theorem Valid.annotate (h : st.Valid) (hk : k.Over (metasIn st.context.entries))
    (hn : n.text ∉ st.context.annotated) :
    Evolves st { st with context := st.context.push (.annotated n k) } := by
  obtain ⟨⟨hannotated, hmetas, hearlier⟩, hfresh⟩ := h
  refine ⟨⟨⟨?_, ?_, ?_⟩, ?_⟩, ?_⟩
  · have hnodup : (st.context.annotated ++ [n.text]).Nodup := by
      simpa using List.Nodup.concat hn hannotated
    simpa [KindContext.annotated, push] using hnodup
  · simpa [push] using hmetas
  · exact earlier_append.2 ⟨hearlier, hk, trivial⟩
  · simpa [push] using hfresh
  · simp [push]

theorem Valid.unannotate (h : st.Valid) (x : String) :
    Evolves st { st with context := st.context.unannotate x } := by
  obtain ⟨⟨hannotated, hmetas, hearlier⟩, hfresh⟩ := h
  have hsame : metasIn (st.context.unannotate x).entries = metasIn st.context.entries :=
    metasIn_eraseP x _
  refine ⟨⟨⟨?_, hsame ▸ hmetas, hearlier.eraseP x⟩, hsame ▸ hfresh⟩, ?_⟩
  · rw [KindContext.annotated, annotatedIn_eq_map] at hannotated ⊢
    rw [annotationsIn_unannotate]
    exact hannotated.sublist (List.eraseP_sublist.map _)
  · exact hsame ▸ List.Subset.refl _

theorem Valid.foldl_unannotate (h : st.Valid) (xs : List String) :
    Evolves st { st with context := xs.foldl KindContext.unannotate st.context } := by
  induction xs generalizing st with
  | nil => exact .refl h
  | cons x xs ih => exact (h.unannotate x).trans (ih (h.unannotate x).valid)

theorem Valid.defaultUnsolved (h : st.Valid) :
    Evolves st { st with context := st.context.defaultUnsolved } := by
  obtain ⟨⟨hannotated, hmetas, hearlier⟩, hfresh⟩ := h
  have hsame := metasIn_defaultUnsolved st.context
  refine ⟨⟨⟨?_, hsame ▸ hmetas, hearlier.defaultUnsolved⟩, hsame ▸ hfresh⟩, ?_⟩
  · rwa [annotated_defaultUnsolved]
  · exact hsame ▸ List.Subset.refl _

end KindState

/-! ## Solving -/

variable {entries : List KindEntry}

theorem KindContext.solveFirst_eq {x : String} {k : Kind} (h : entries.any (·.leaves x) = true) :
    ∃ a n b, entries = a ++ .unsolved n :: b ∧ n.text = x ∧
      solveFirst x k entries = a ++ .solved n k :: b := by
  induction entries with
  | nil => simp at h
  | cons e rest ih =>
    have hrest : rest.any (·.leaves x) = true →
        solveFirst x k (e :: rest) = e :: solveFirst x k rest →
        ∃ a n b, e :: rest = a ++ .unsolved n :: b ∧ n.text = x ∧
          solveFirst x k (e :: rest) = a ++ .solved n k :: b := by
      intro hany hfirst
      obtain ⟨a, n, b, hab, hn, hsolve⟩ := ih hany
      exact ⟨e :: a, n, b, by rw [hab]; rfl, hn, by rw [hfirst, hsolve]; rfl⟩
    cases e with
    | annotated n j | solved n j => exact hrest (by simpa [KindEntry.leaves] using h) rfl
    | unsolved n =>
      by_cases hx : n.text = x
      · exact ⟨[], n, rest, rfl, hx, by simp [solveFirst, hx]⟩
      · exact hrest (by simpa [KindEntry.leaves, hx] using h) (by simp [solveFirst, hx])

theorem KindContext.any_leaves {x : String} :
    entries.any (·.leaves x) = true ↔ x ∈ unsolvedIn entries := by
  induction entries with
  | nil => simp
  | cons e rest ih =>
    cases e with
    | annotated n k | solved n k => simpa [KindEntry.leaves] using ih
    | unsolved n =>
      rw [List.any_cons, Bool.or_eq_true, ih, unsolvedIn_unsolved, List.mem_cons,
        KindEntry.leaves, beq_iff_eq, eq_comm]

namespace Focus

open KindContext

def around (f : Focus) (n : Name) : KindState := ⟨f.supply, ⟨f.before ++ .unsolved n :: f.after⟩⟩

/-- On the way to solving a metavariable by the kind `k`, with the metavariables `xs` still to
be brought to the front. -/
structure Promoting (n : Name) (k : Kind) (st : KindState) (xs : List String) (f : Focus) :
    Prop where
  evolves : st.Evolves (f.around n)
  images : ∀ y ∈ (k.apply f.promoted).freeVars,
    y ∈ unsolvedIn f.before ∨ y ∈ unsolvedIn f.after ∧ y ∈ xs

variable {n : Name} {k : Kind} {st : KindState} {x : String} {xs : List String} {f : Focus}

theorem mem_freeVars_compose {s : Kind.Subst} {m : Name} {y : String}
    (h : y ∈ (k.apply (Kind.Subst.compose (.singleton x (.metavar m)) s)).freeVars) :
    y = m.text ∨ y ≠ x ∧ y ∈ (k.apply s).freeVars := by
  obtain ⟨z, hz, hy⟩ := Kind.mem_freeVars_apply.1 h
  rw [Kind.Subst.compose, NameMap.get?_override, NameMap.get?_singleton, NameMap.get?_map] at hy
  by_cases hzx : z = x
  · left
    simpa [hzx, Kind.freeVars] using hy
  · cases hs : s.get? z with
    | none =>
      have hyz : y = z := by simpa [hzx, hs, Kind.freeVars, Name.bare] using hy
      subst hyz
      refine .inr ⟨hzx, Kind.mem_freeVars_apply.2 ⟨y, hz, ?_⟩⟩
      simp [hs, Kind.freeVars, Name.bare]
    | some j =>
      have hj : y ∈ (j.apply (.singleton x (.metavar m))).freeVars := by
        simpa [hzx, hs] using hy
      obtain ⟨w, hw, hyw⟩ := Kind.mem_freeVars_apply.1 hj
      by_cases hwx : w = x
      · left
        simpa [hwx, Kind.freeVars] using hyw
      · have heq : y = w := by simpa [hwx, Kind.freeVars, Name.bare] using hyw
        subst heq
        exact .inr ⟨hwx, Kind.mem_freeVars_apply.2 ⟨z, hz, by simpa [hs] using hw⟩⟩

theorem Promoting.promote (h : Promoting n k st (x :: xs) f) :
    Promoting n k st xs (f.promote x) := by
  unfold Focus.promote
  split
  · next hany =>
    obtain ⟨a, m, b, hafter, hm, hsolve⟩ := solveFirst_eq (k := .metavar (f.supply.next "k")) hany
    refine ⟨?_, fun y hy => ?_⟩
    · have hinsert := h.evolves.valid.insert f.before _
      have hentries : f.before ++ .unsolved (f.supply.next "k") :: .unsolved n :: f.after =
          (f.before ++ .unsolved (f.supply.next "k") :: .unsolved n :: a) ++ .unsolved m :: b := by
        simp [hafter]
      rw [hentries] at hinsert
      have hsolved := hinsert.valid.solve _ _ (k := .metavar (f.supply.next "k"))
        (Kind.over_metavar (by simp))
      have := (h.evolves.trans hinsert).trans hsolved
      simpa [around, hsolve] using this
    · rcases mem_freeVars_compose hy with rfl | ⟨hyx, hy⟩
      · left
        simp
      · rcases h.images y hy with hy | ⟨hy, hxs⟩
        · left
          simp [hy]
        · refine .inr ⟨?_, (List.mem_cons.1 hxs).resolve_left hyx⟩
          dsimp only
          rw [hsolve]
          simp only [hafter, unsolvedIn_append, unsolvedIn_unsolved, unsolvedIn_solved,
            List.mem_append, List.mem_cons] at hy ⊢
          grind
  · next hany =>
    rw [any_leaves] at hany
    refine ⟨h.evolves, fun y hy => (h.images y hy).imp_right fun ⟨hafter, hxs⟩ => ⟨hafter, ?_⟩⟩
    refine (List.mem_cons.1 hxs).resolve_left ?_
    rintro rfl
    exact hany hafter

theorem Promoting.foldl_promote (h : Promoting n k st xs f) :
    Promoting n k st [] (xs.foldl Focus.promote f) := by
  induction xs generalizing f with
  | nil => exact h
  | cons x xs ih => exact ih h.promote

end Focus

namespace KindState

open KindContext

variable {st : KindState} {k : Kind}

theorem promoting_of_split {n : Name} {before after : List KindEntry} (h : st.Valid)
    (hk : k.Over (unsolvedIn st.context.entries)) (hn : n.text ∉ k.freeVars)
    (hentries : st.context.entries = before ++ .unsolved n :: after) :
    Focus.Promoting n k st k.freeVars.toList ⟨before, after, st.supply, ∅⟩ := by
  constructor
  · have hst : Focus.around ⟨before, after, st.supply, ∅⟩ n = st := by
      simp only [Focus.around, ← hentries]
    rw [hst]
    exact .refl h
  · intro y hy
    obtain ⟨z, hz, hyz⟩ := Kind.mem_freeVars_apply.1 hy
    have heq : y = z := by simpa [Kind.freeVars, Name.bare] using hyz
    subst heq
    have hmem := hk y hz
    simp only [hentries, unsolvedIn_append, unsolvedIn_unsolved, List.mem_append,
      List.mem_cons] at hmem
    rcases hmem with hmem | rfl | hmem
    · exact .inl hmem
    · exact absurd hz hn
    · exact .inr ⟨hmem, hz⟩

theorem Valid.solve? {st' : KindState} {x : String} (h : st.Valid)
    (hk : k.Over (unsolvedIn st.context.entries)) (hsolve : st.solve? x k = some st') :
    st.Evolves st' := by
  unfold KindState.solve? at hsolve
  split at hsolve
  · cases hsolve
  next hx =>
  split at hsolve
  · cases hsolve
  next before n after hsplit =>
  obtain ⟨hentries, hn⟩ := split?_eq_some hsplit
  cases hsolve
  have hend := (promoting_of_split h hk (hn ▸ hx) hentries).foldl_promote
  generalize k.freeVars.toList.foldl Focus.promote ⟨before, after, st.supply, ∅⟩ = f at hend ⊢
  have hover : (k.apply f.promoted).Over (unsolvedIn f.before) := fun y hy =>
    (hend.images y hy).resolve_right fun hnil => List.not_mem_nil hnil.2
  -- what has been promoted is unsolved, so there is nothing more to put in
  have hzonk : (f.around n).context.zonk (k.apply f.promoted) = k.apply f.promoted :=
    hend.evolves.valid.ordered.zonk_eq_self (hover.mono (by simp [Focus.around]))
  have hsolved := hend.evolves.valid.solve _ _ (hover.mono (unsolvedIn_subset f.before))
  refine hend.evolves.trans ?_
  rw [Focus.around] at hzonk
  simp only [hzonk]
  exact hsolved

end KindState

namespace Kind

open KindContext

def Zonked (ctx : KindContext) (eqs : List (Kind × Kind)) : Prop :=
  ∀ eq ∈ eqs, eq.1.Over (unsolvedIn ctx.entries) ∧ eq.2.Over (unsolvedIn ctx.entries)

variable {st : KindState} {eqs : List (Kind × Kind)} {ctx : KindContext} {k l : Kind}

theorem Zonked.map_zonk {st' : KindState} (h : Zonked st.context eqs) (hst : st.Evolves st') :
    Zonked st'.context
      (eqs.map fun eq => (st'.context.zonk eq.1, st'.context.zonk eq.2)) := by
  intro eq heq
  obtain ⟨eq, hmem, rfl⟩ := List.mem_map.1 heq
  obtain ⟨hk, hl⟩ := h eq hmem
  have hsub := List.Subset.trans (unsolvedIn_subset st.context.entries) hst.metas
  exact ⟨hst.valid.ordered.over_zonk (hk.mono hsub), hst.valid.ordered.over_zonk (hl.mono hsub)⟩

theorem step_zonked {parts : List (Kind × Kind)} (h : Zonked ctx ((k, l) :: eqs))
    (hstep : step k l = .split parts) : Zonked ctx (parts ++ eqs) := by
  obtain ⟨⟨hk, hl⟩, heqs⟩ := List.forall_mem_cons.1 h
  refine List.forall_mem_append.2 ⟨?_, heqs⟩
  unfold step at hstep
  split at hstep
  · cases hstep
    simp
  · cases hstep
    rw [over_arrow] at hk hl
    simp [hk, hl]
  · split at hstep
    · cases hstep
      simp
    · cases hstep
  all_goals cases hstep

theorem step_solve {j : Kind} {x : String} (h : Zonked ctx ((k, l) :: eqs))
    (hstep : step k l = .solve x j) : j.Over (unsolvedIn ctx.entries) := by
  obtain ⟨⟨hk, hl⟩, heqs⟩ := List.forall_mem_cons.1 h
  unfold step at hstep
  split at hstep
  · cases hstep
  · cases hstep
  · split at hstep
    · cases hstep
    · cases hstep
      exact hl
  · cases hstep
    exact hl
  · cases hstep
    exact hk
  · cases hstep

theorem solveAll_evolves (loc : Loc) (eqs : List (Kind × Kind)) (hst : st.Valid)
    (heqs : Zonked st.context eqs) :
    Ends (solveAll loc eqs) st (fun _ => st.Evolves) st.Evolves := by
  unfold Ends
  fun_induction solveAll loc eqs st with
  | case1 st => exact .refl hst
  | case2 st k l rest parts hstep ih => exact ih hst (step_zonked heqs hstep)
  | case3 st k l rest x m hstep st₁ hsolve ih =>
    have hmap := List.attach_map_val (l := rest)
      (f := fun eq => (st₁.context.zonk eq.1, st₁.context.zonk eq.2))
    rw [hmap] at ih
    have hst₁ := hst.solve? (step_solve heqs hstep) hsolve
    have hrest := Zonked.map_zonk (List.forall_mem_cons.1 heqs).2 hst₁
    exact Ends.imp (ih hst₁.valid hrest) (fun _ _ h => hst₁.trans h) fun _ h => hst₁.trans h
  | case4 | case5 => exact .refl hst

theorem unify_evolves (loc : Loc) (hst : st.Valid) (hk : k.Over (metasIn st.context.entries))
    (hl : l.Over (metasIn st.context.entries)) :
    Ends (unify k l loc) st (fun _ => st.Evolves) st.Evolves := by
  refine solveAll_evolves loc _ hst fun eq heq => ?_
  rw [List.mem_singleton.1 heq]
  exact ⟨hst.ordered.over_zonk hk, hst.ordered.over_zonk hl⟩

theorem applied_evolves {arg : Kind} (loc : Loc) (hst : st.Valid)
    (hk : k.Over (metasIn st.context.entries)) (harg : arg.Over (metasIn st.context.entries)) :
    Ends (applied k arg loc) st
      (fun r st' => st.Evolves st' ∧ r.Over (metasIn st'.context.entries)) st.Evolves := by
  refine Ends.get ?_
  have hzonk := hst.ordered.over_zonk hk
  cases hhead : st.context.zonk k with
  | star => exact .refl hst
  | arrow dom cod =>
    rw [hhead, over_arrow] at hzonk
    have hknown := unsolvedIn_subset st.context.entries
    refine (unify_evolves loc hst (hzonk.1.mono hknown) harg).bind fun _ st₁ h₁ => ?_
    have hcod := h₁.valid.ordered.over_zonk (hzonk.2.mono (List.Subset.trans hknown h₁.metas))
    exact ⟨h₁, hcod.mono (unsolvedIn_subset _)⟩
  | metavar a =>
    dsimp only
    cases hsplit : split? a.text st.context.entries with
    | none => exact .refl hst
    | some parts =>
      obtain ⟨before, n, after⟩ := parts
      obtain ⟨hentries, -⟩ := split?_eq_some hsplit
      obtain ⟨supply, ⟨entries⟩⟩ := st
      cases hentries
      have h₁ := hst.split
      refine KindM.ends_fresh (KindM.ends_fresh (Ends.modify ?_))
      refine Ends.bind (Q := fun _ => KindState.Evolves _)
        ((unify_evolves loc h₁.valid (over_metavar (by simp)) (harg.mono h₁.metas)).imp
          (fun _ _ h₂ => h₂) fun _ h₂ => h₁.trans h₂) fun _ st₂ h₂ => ?_
      have hcod : (st₂.context.zonk (.metavar (supply.advance.next "k"))).Over _ :=
        h₂.valid.ordered.over_zonk (over_metavar (h₂.metas (by simp)))
      exact ⟨h₁.trans h₂, hcod.mono (unsolvedIn_subset _)⟩

end Kind

namespace Ty

open KindContext

variable {st : KindState}

theorem nameKind_evolves (n : Name) (hst : st.Valid) :
    Ends (nameKind n) st
      (fun k st' => st.Evolves st' ∧ k.Over (metasIn st'.context.entries)) st.Evolves := by
  refine Ends.get ?_
  cases hlookup : st.context.lookup? n.text with
  | none => exact .refl hst
  | some k =>
    obtain ⟨j, hj, rfl⟩ := Option.map_eq_some_iff.1 hlookup
    have hover := hst.ordered.over_zonk (hst.ordered.earlier.over_annotation hj)
    exact ⟨.refl hst, hover.mono (unsolvedIn_subset _)⟩

theorem kind_evolves (t : Ty) (hst : st.Valid) :
    Ends t.kind st
      (fun k st' => st.Evolves st' ∧ k.Over (metasIn st'.context.entries)) st.Evolves := by
  induction t generalizing st with
  | base => exact ⟨.refl hst, Kind.over_star⟩
  | tuple | arrow => exact ⟨.refl hst, Kind.over_starArity _⟩
  | array i t l ih =>
    refine (ih hst).bind fun k st₁ ⟨h₁, hk⟩ => ?_
    refine ((Kind.unify_evolves l h₁.valid hk Kind.over_star).imp (fun _ _ h₂ => ?_)
      fun _ h₂ => h₁.trans h₂).bind fun _ _ h => h
    exact ⟨h₁.trans h₂, Kind.over_star⟩
  | app f a l ihf iha =>
    refine (ihf hst).bind fun k st₁ ⟨h₁, hk⟩ => ?_
    refine Ends.bind (Q := fun j st₂ => st₁.Evolves st₂ ∧ j.Over (metasIn st₂.context.entries))
      ((iha h₁.valid).imp (fun _ _ h => h) fun _ h₂ => h₁.trans h₂) fun j st₂ ⟨h₂, hj⟩ => ?_
    exact (Kind.applied_evolves l h₂.valid (hk.mono h₂.metas) hj).imp
      (fun _ _ h => ⟨(h₁.trans h₂).trans h.1, h.2⟩) fun _ h => (h₁.trans h₂).trans h
  | data n | rigid n | metavar n => exact nameKind_evolves n hst

theorem checkStar_evolves (t : Ty) (loc : Loc) (hst : st.Valid) :
    Ends (t.checkStar loc) st (fun _ => st.Evolves) st.Evolves := by
  refine (kind_evolves t hst).bind fun k st₁ ⟨h₁, hk⟩ => ?_
  exact (Kind.unify_evolves loc h₁.valid hk Kind.over_star).imp (fun _ _ h₂ => h₁.trans h₂)
    fun _ h₂ => h₁.trans h₂

end Ty

/-! ## Names with kinds -/

theorem KindState.Evolves.mapM {α β : Type} {f : α → KindM β} {P : β → KindState → Prop}
    (hP : ∀ b st st', st.Evolves st' → P b st → P b st')
    (hf : ∀ x st, st.Valid → Ends (f x) st (fun b st' => st.Evolves st' ∧ P b st') st.Evolves)
    (xs : List α) {st : KindState} (hst : st.Valid) :
    Ends (xs.mapM f) st (fun bs st' => st.Evolves st' ∧ ∀ b ∈ bs, P b st') st.Evolves := by
  induction xs generalizing st with
  | nil => exact ⟨.refl hst, by simp⟩
  | cons x xs ih =>
    rw [List.mapM_cons]
    refine (hf x st hst).bind fun b st₁ ⟨h₁, hb⟩ => ?_
    refine Ends.bind (Q := fun bs st₂ => st₁.Evolves st₂ ∧ ∀ b ∈ bs, P b st₂)
      ((ih h₁.valid).imp (fun _ _ h => h) fun _ h₂ => h₁.trans h₂) fun bs st₂ ⟨h₂, hbs⟩ => ?_
    exact ⟨h₁.trans h₂, List.forall_mem_cons.2 ⟨hP b st₁ st₂ h₂ hb, hbs⟩⟩

namespace KindM

open KindContext

variable {st : KindState}

theorem annotate_evolves (n : Name) {k : Kind} (hst : st.Valid)
    (hk : k.Over (metasIn st.context.entries)) :
    Ends (annotate n k) st (fun _ => st.Evolves)
      (fun st' => st' = st ∧ n.text ∈ st.context.annotated) := by
  refine Ends.get ?_
  split
  · next hsome => exact ⟨rfl, annotation?_isSome.1 hsome⟩
  · next hnone => exact hst.annotate hk fun hmem => hnone (annotation?_isSome.2 hmem)

theorem pushUnsolved_evolves (hst : st.Valid) :
    Ends pushUnsolved st (fun m st' => st.Evolves st' ∧ m.text ∈ metasIn st'.context.entries ∧
      st'.context.annotated = st.context.annotated) fun _ => False := by
  have hentries : st.context.entries ++ [] = st.context.entries := List.append_nil _
  have hinsert : KindState.Evolves ⟨st.supply, ⟨st.context.entries ++ []⟩⟩ _ :=
    KindState.Valid.insert st.context.entries [] (by rw [hentries]; exact hst)
  rw [hentries] at hinsert
  exact ⟨hinsert, by simp [push], by simp [push, annotated]⟩

theorem annotateFresh_evolves (n : Name) (hst : st.Valid) :
    Ends (annotateFresh n) st
      (fun m st' => st.Evolves st' ∧ m.text ∈ metasIn st'.context.entries)
      (fun st' => st.Evolves st' ∧ n.text ∈ st.context.annotated) := by
  refine ((pushUnsolved_evolves hst).imp (fun _ _ h => h) fun _ h => h.elim).bind
    fun m st₁ ⟨h₁, hm, hsame⟩ => ?_
  refine Ends.bind (Q := fun _ => st₁.Evolves) ((annotate_evolves n h₁.valid
    (Kind.over_metavar hm)).imp (fun _ _ h => h) ?_) fun _ st₂ h₂ => ⟨h₁.trans h₂, h₂.metas hm⟩
  rintro _ ⟨rfl, hmem⟩
  exact ⟨h₁, hsame ▸ hmem⟩

end KindM

namespace Datatype

open KindContext

variable {st : KindState}

theorem checkCtor_evolves (d : Datatype) (c : Ctor) (hst : st.Valid) :
    Ends (d.checkCtor c) st (fun _ => st.Evolves) st.Evolves := by
  unfold checkCtor
  dsimp only
  split
  · exact KindState.Evolves.refl hst
  · refine Ends.forM (fun t _ st₁ h₁ => ?_) (.refl hst)
    exact (t.checkStar_evolves c.loc h₁.valid).imp (fun _ _ h₂ => h₁.trans h₂)
      fun _ h₂ => h₁.trans h₂

theorem inferMember_evolves (d : Datatype) {m : Name} (hst : st.Valid)
    (hm : m.text ∈ metasIn st.context.entries) :
    Ends (d.inferMember m) st (fun _ => st.Evolves) st.Evolves := by
  have hparams := KindState.Evolves.mapM (P := fun k st => k.Over (metasIn st.context.entries))
    (f := fun p : Name => return Kind.metavar (← KindM.annotateFresh p))
    (fun _ _ _ h hk => hk.mono h.metas) (fun p st hst =>
      ((KindM.annotateFresh_evolves p hst).imp (fun _ _ h => h) fun _ h => h.1).bind
        fun m st₁ h => ⟨h.1, Kind.over_metavar h.2⟩) d.params hst
  refine hparams.bind fun params st₁ ⟨h₁, hknown⟩ => ?_
  have hctors : Ends (d.ctors.forM d.checkCtor) st₁ (fun _ => st₁.Evolves) st.Evolves := by
    refine Ends.forM (fun c _ st₂ h₂ => ?_) (.refl h₁.valid)
    exact (d.checkCtor_evolves c h₂.valid).imp (fun _ _ h₃ => h₂.trans h₃)
      fun _ h₃ => (h₁.trans h₂).trans h₃
  refine hctors.bind fun _ st₂ h₂ => ?_
  have hunify := Kind.unify_evolves (k := .metavar m) (l := .arrows params) d.loc h₂.valid
    (Kind.over_metavar (h₂.metas (h₁.metas hm)))
    (Kind.over_arrows fun k hk => (hknown k hk).mono h₂.metas)
  have h₁₂ := h₁.trans h₂
  refine (hunify.imp (fun _ _ h => h₁₂.trans h) fun _ h => h₁₂.trans h).bind fun _ st₃ h₃ => ?_
  exact Ends.forM (fun p _ st₄ h₄ => h₄.trans (h₄.valid.unannotate p.text)) h₃

def solveGroup (ds : List Datatype) : KindM (List Name) := do
  let metas ← ds.mapM (KindM.annotateFresh ·.name)
  (ds.zip metas).forM fun e => e.1.inferMember e.2
  return metas

theorem inferGroup_eq (ds : List Datatype) : inferGroup ds = (do
    let metas ← solveGroup ds
    KindM.defaultUnsolved
    metas.mapM (KindM.zonk <| .metavar ·)) := by
  simp only [inferGroup, solveGroup, bind_assoc, pure_bind]

theorem solveGroup_evolves (ds : List Datatype) (hst : st.Valid) :
    Ends (solveGroup ds) st (fun _ => st.Evolves) st.Evolves := by
  have hmetas := KindState.Evolves.mapM
    (P := fun (m : Name) st => m.text ∈ metasIn st.context.entries)
    (f := fun d : Datatype => KindM.annotateFresh d.name) (fun _ _ _ h hm => h.metas hm)
    (fun d st hst => (KindM.annotateFresh_evolves d.name hst).imp (fun _ _ h => h) fun _ h => h.1)
    ds hst
  refine hmetas.bind fun metas st₁ ⟨h₁, hknown⟩ => ?_
  refine Ends.bind (Q := fun _ => st₁.Evolves) (Ends.forM (fun member hmember st₂ h₂ => ?_)
    (.refl h₁.valid)) fun _ st₂ h₂ => h₁.trans h₂
  have hm := h₂.metas (hknown member.2 (List.of_mem_zip hmember).2)
  exact (member.1.inferMember_evolves h₂.valid hm).imp (fun _ _ h₃ => h₂.trans h₃)
    fun _ h₃ => (h₁.trans h₂).trans h₃

theorem inferGroup_evolves (ds : List Datatype) (hst : st.Valid) :
    Ends (inferGroup ds) st (fun _ => st.Evolves) st.Evolves := by
  rw [inferGroup_eq]
  refine (solveGroup_evolves ds hst).bind fun metas st₁ h₁ => Ends.modify ?_
  have h₂ := h₁.trans h₁.valid.defaultUnsolved
  have hzonk := KindState.Evolves.mapM (P := fun _ _ => True)
    (f := fun m : Name => KindM.zonk (.metavar m)) (fun _ _ _ _ _ => trivial)
    (fun m st hst => ⟨.refl hst, trivial⟩) metas h₂.valid
  exact hzonk.imp (fun _ _ h => h₂.trans h.1) fun _ h => h₂.trans h

end Datatype

namespace ElaborationM

open KindContext

variable {α : Type} {m : KindM α} {st : ElaborationState}

theorem ends_ofKinds {Q : α → KindState → Prop} {E : KindState → Prop}
    (h : Ends m st.toKindState Q E) :
    Ends (ofKinds m) st (fun a st' => Q a st'.toKindState) (fun st' => E st'.toKindState) := by
  unfold Ends ofKinds at *
  cases hm : m st.toKindState with
  | ok a kinds | error e kinds =>
    rw [hm] at h
    exact h

theorem bindUnknown_evolves (names : List String) {st : KindState} (hst : st.Valid) :
    Ends (bindUnknown names) st (fun _ => st.Evolves) fun _ => False := by
  induction names generalizing st with
  | nil => exact KindState.Evolves.refl hst
  | cons x names ih =>
    refine Ends.get ?_
    split
    · exact ih hst
    · next hnone =>
      have hnew : x ∉ st.context.annotated := by
        intro hmem
        apply hnone
        simpa [lookup?] using annotation?_isSome.2 hmem
      refine Ends.bind (Q := fun _ => st.Evolves) ((KindM.annotateFresh_evolves (.bare x) hst).imp
        (fun _ _ h => h.1) fun _ h => hnew h.2) fun m st₁ h₁ => ?_
      exact (ih h₁.valid).bind fun _ st₂ h₂ => h₁.trans h₂

theorem thenForget_evolves (names : List String) {st st₁ : KindState}
    (h : Ends m st₁ (fun _ => st.Evolves) st.Evolves) :
    Ends (thenForget names m) st₁ (fun _ => st.Evolves) st.Evolves := by
  unfold Ends thenForget at *
  cases hm : m st₁ with
  | ok a st₂ | error e st₂ =>
    rw [hm] at h
    exact h.trans (h.valid.foldl_unannotate names)

theorem checkOpen_evolves (t : Ty) (hst : st.Valid) :
    Ends (checkOpen t) st (fun _ st' => st.Evolves st'.toKindState)
      (fun st' => st.Evolves st'.toKindState) := by
  refine ends_ofKinds (Ends.bind (Q := fun _ => st.Evolves)
    ((bindUnknown_evolves _ hst).imp (fun _ _ h => h) fun _ h => h.elim) fun bound st₁ h₁ => ?_)
  exact thenForget_evolves bound ((t.checkStar_evolves t.loc h₁.valid).imp
    (fun _ _ h₂ => h₁.trans h₂) fun _ h₂ => h₁.trans h₂)

theorem checkOpen_grows (t : Ty) (hst : st.Valid) :
    Ends (checkOpen t) st (fun _ st' => st.Grows st'.toKindState)
      (fun st' => st.Grows st'.toKindState) := by
  refine ends_ofKinds (Ends.bind (Q := fun bound st₁ => KindState.Adds bound st.toKindState st₁)
    ?_ fun bound st₁ hadds => ?_)
  · have hnever := bindUnknown_evolves t.rigidVars.toList hst
    unfold Ends at hnever ⊢
    cases hbound : bindUnknown t.rigidVars.toList st.toKindState with
    | ok bound st₁ => exact bindUnknown_adds hbound
    | error e st₁ =>
      rw [hbound] at hnever
      exact hnever.elim
  · exact thenForget_grows hst.ordered.annotated hadds
      ((t.checkStar_grows t.loc st₁).imp (fun _ _ h => h.1) fun _ h => h)

theorem checkClosed_evolves (t : Ty) (hst : st.Valid) :
    Ends (checkClosed t) st (fun _ st' => st.Evolves st'.toKindState)
      (fun st' => st.Evolves st'.toKindState) :=
  ends_ofKinds (t.checkStar_evolves t.loc hst)

theorem checkClosed_grows (t : Ty) (st : ElaborationState) :
    Ends (checkClosed t) st (fun _ st' => st.Grows st'.toKindState)
      (fun st' => st.Grows st'.toKindState) :=
  ends_ofKinds ((t.checkStar_grows t.loc st.toKindState).imp (fun _ _ h => h.1) fun _ h => h)

end ElaborationM

/-! ## Reachable contexts -/

inductive KindOp
  | annotate (n : Name) (k : Kind)
  | unannotate (x : String)
  | pushUnsolved
  | defaultUnsolved
  | unify (k l : Kind) (loc : Loc)
  | apply (k arg : Kind) (loc : Loc)
  | infer (t : Ty)
  | inferGroup (ds : List Datatype)
  | checkOpen (t : Ty)
  | checkClosed (t : Ty)

namespace KindOp

open KindContext

def kinds : KindOp → List Kind
  | .annotate _ k => [k]
  | .unify k l _ | .apply k l _ => [k, l]
  | _ => []

def run : KindOp → ElaborationM Unit
  | .annotate n k => .ofKinds (KindM.annotate n k)
  | .unannotate x => .ofKinds (KindM.unannotate x)
  | .pushUnsolved => .ofKinds (discard KindM.pushUnsolved)
  | .defaultUnsolved => .ofKinds KindM.defaultUnsolved
  | .unify k l loc => .ofKinds (Kind.unify k l loc)
  | .apply k arg loc => .ofKinds (discard (Kind.applied k arg loc))
  | .infer t => .ofKinds (discard t.kind)
  | .inferGroup ds => .ofKinds (discard (Datatype.inferGroup ds))
  | .checkOpen t => ElaborationM.checkOpen t
  | .checkClosed t => ElaborationM.checkClosed t

def after (op : KindOp) (st : ElaborationState) : ElaborationState :=
  match op.run st with
  | .ok _ st' | .error _ st' => st'

variable {st : ElaborationState}

theorem after_of_ends (op : KindOp) {P : ElaborationState → Prop}
    (h : Ends op.run st (fun _ => P) P) : P (op.after st) := by
  unfold Ends at h
  unfold after
  cases hrun : op.run st with
  | ok _ st' | error _ st' =>
    rw [hrun] at h
    exact h

theorem ends_discard {α : Type} {m : KindM α} {P : KindState → Prop}
    (h : Ends m st.toKindState (fun _ => P) P) :
    Ends (.ofKinds (discard m) : ElaborationM Unit) st (fun _ st' => P st'.toKindState)
      (fun st' => P st'.toKindState) :=
  ElaborationM.ends_ofKinds (Ends.bind h fun _ _ h => h)

theorem run_evolves (op : KindOp) (hst : st.Valid)
    (hop : ∀ k ∈ op.kinds, k.Over (metasIn st.context.entries)) :
    Ends op.run st (fun _ st' => st.Evolves st'.toKindState)
      (fun st' => st.Evolves st'.toKindState) := by
  cases op with
  | annotate n k =>
    have hk := hop k (by simp [kinds])
    refine ElaborationM.ends_ofKinds ((KindM.annotate_evolves n hst hk).imp (fun _ _ h => h) ?_)
    rintro _ ⟨rfl, -⟩
    exact .refl hst
  | unannotate x => exact hst.unannotate x
  | pushUnsolved =>
    exact ends_discard ((KindM.pushUnsolved_evolves hst).imp (fun _ _ h => h.1) fun _ h => h.elim)
  | defaultUnsolved => exact hst.defaultUnsolved
  | unify k l loc =>
    exact ElaborationM.ends_ofKinds (Kind.unify_evolves loc hst (hop k (by simp [kinds]))
      (hop l (by simp [kinds])))
  | apply k arg loc =>
    exact ends_discard ((Kind.applied_evolves loc hst (hop k (by simp [kinds]))
      (hop arg (by simp [kinds]))).imp (fun _ _ h => h.1) fun _ h => h)
  | infer t => exact ends_discard ((t.kind_evolves hst).imp (fun _ _ h => h.1) fun _ h => h)
  | inferGroup ds => exact ends_discard (Datatype.inferGroup_evolves ds hst)
  | checkOpen t => exact ElaborationM.checkOpen_evolves t hst
  | checkClosed t => exact ElaborationM.checkClosed_evolves t hst

end KindOp

/-- The states that operations lead to, applied to kinds over metavariables of the context. -/
inductive Reachable : ElaborationState → Prop
  | initial : Reachable .initial
  | step {st : ElaborationState} (h : Reachable st) (op : KindOp)
      (hop : ∀ k ∈ op.kinds, k.Over (KindContext.metasIn st.context.entries)) :
      Reachable (op.after st)

theorem Reachable.valid {st : ElaborationState} (h : Reachable st) : st.Valid := by
  induction h with
  | initial => exact ⟨⟨List.nodup_nil, List.nodup_nil, trivial⟩, by simp [ElaborationState.initial,
      KindState.initial, KindContext.empty]⟩
  | step _ op hop ih => exact (KindOp.after_of_ends op (op.run_evolves ih hop)).valid

/-- In a context that operations lead to, no name has two kinds, no metavariable has two
entries, and kinds mention only metavariables that stand before them.  Checking a type leaves
the names of the context as they are, also if the check fails. -/
theorem reachable_context_ordered {st : ElaborationState} (h : Reachable st) :
    st.context.annotated.Nodup ∧ (KindContext.metasIn st.context.entries).Nodup ∧
      (∀ before e after, st.context.entries = before ++ e :: after →
        ∀ x ∈ e.mentioned, x ∈ KindContext.metasIn before) ∧
      ∀ t, ((KindOp.checkOpen t).after st).context.annotated = st.context.annotated ∧
        ((KindOp.checkClosed t).after st).context.annotated = st.context.annotated := by
  obtain ⟨⟨hannotated, hmetas, hearlier⟩, hfresh⟩ := h.valid
  refine ⟨hannotated, hmetas, fun before e after hentries x hx => ?_, fun t => ⟨?_, ?_⟩⟩
  · rw [hentries, KindContext.earlier_append] at hearlier
    exact hearlier.2.1 x hx
  · have hgrows := KindOp.after_of_ends (.checkOpen t)
      (P := fun st' => st.Grows st'.toKindState) (ElaborationM.checkOpen_grows t h.valid)
    exact hgrows.annotated
  · have hgrows := KindOp.after_of_ends (.checkClosed t)
      (P := fun st' => st.Grows st'.toKindState) (ElaborationM.checkClosed_grows t st)
    exact hgrows.annotated

namespace Promotion

def early : Name := Supply.next ⟨0⟩ "k"

def late : Name := Supply.next ⟨1⟩ "k"

def before : ElaborationState := KindOp.pushUnsolved.after (KindOp.pushUnsolved.after .initial)

def after : ElaborationState :=
  (KindOp.unify (.metavar early) (.arrow (.metavar late) .star) .none).after before

theorem metasIn_before : KindContext.metasIn before.context.entries = [early.text, late.text] := rfl

theorem reachable_after : Reachable after := by
  refine .step (.step (.step .initial .pushUnsolved ?_) .pushUnsolved ?_) (.unify _ _ _) ?_
  · simp [KindOp.kinds]
  · simp [KindOp.kinds]
  · have hentries := metasIn_before
    unfold before at hentries
    simp [KindOp.kinds, hentries, Kind.over_arrow, Kind.over_star, Kind.over_metavar]

end Promotion

open Promotion in
theorem promotion_keeps_order : Reachable Promotion.after ∧
    Promotion.after.context.entries = [.unsolved (Supply.next ⟨2⟩ "k"),
      .solved early (.arrow (.metavar (Supply.next ⟨2⟩ "k")) .star),
      .solved late (.metavar (Supply.next ⟨2⟩ "k"))] ∧
    Promotion.after.context.annotated.Nodup ∧
    (KindContext.metasIn Promotion.after.context.entries).Nodup ∧
      (∀ before e after, Promotion.after.context.entries = before ++ e :: after →
        ∀ x ∈ e.mentioned, x ∈ KindContext.metasIn before) ∧
      ∀ t, ((KindOp.checkOpen t).after Promotion.after).context.annotated =
          Promotion.after.context.annotated ∧
        ((KindOp.checkClosed t).after Promotion.after).context.annotated =
          Promotion.after.context.annotated := by
  have hentries : Promotion.after.context.entries = [.unsolved (Supply.next ⟨2⟩ "k"),
      .solved early (.arrow (.metavar (Supply.next ⟨2⟩ "k")) .star),
      .solved late (.metavar (Supply.next ⟨2⟩ "k"))] := by cbv
  exact ⟨reachable_after, hentries, reachable_context_ordered reachable_after⟩

end GuardedCommands
