import GuardedCommands.Proofs.ProgramTyping

/-!
# Names are bound once

A program that elaboration accepts declares no name twice, and its blocks declare
nothing that is visible around them.  Declared names, constructors and functions
are different from each other, and so are datatypes.  A function may have a
signature besides its definition, and then the signature is counted and the
definition is not: a function is defined once if it has no signature, and nothing
keeps one with a signature from being defined twice.
-/

namespace GuardedCommands

/-! ## The search for repetitions -/

theorem repeated_eq_nil_iff {seen : NameSet} {names : List Name} :
    repeated seen ∅ names = [] ↔
      (names.map (·.text)).Nodup ∧ ∀ n ∈ names, n.text ∉ seen := by
  induction names generalizing seen with
  | nil => simp [repeated]
  | cons n names ih =>
    by_cases hn : n.text ∈ seen
    · simp [repeated, hn]
    · rw [repeated, if_neg hn, ih]
      simp only [List.map_cons, List.nodup_cons, List.forall_mem_cons, NameSet.mem_insert,
        List.mem_map, not_exists, not_and]
      grind

theorem checkDistinct_ok_iff {names : List Name} :
    checkDistinct names = .ok () ↔ (names.map (·.text)).Nodup := by
  have hiff : repeated ∅ ∅ names = [] ↔ _ := repeated_eq_nil_iff
  simp only [NameSet.not_mem_empty, not_false_eq_true, implies_true, and_true] at hiff
  rw [← hiff, checkDistinct]
  split
  · next h => simp [h]
  · next h => simp [h]

namespace Program

def constructors (p : Program) : List String :=
  p.defns.flatMap fun
    | .datatype d => d.ctors.map (·.name.text)
    | _ => []

def signed (p : Program) : List String :=
  p.defns.filterMap fun
    | .signature n _ _ _ => some n.text
    | _ => none

def functions (p : Program) : List String :=
  p.defns.filterMap fun
    | .function n _ _ => some n.text
    | _ => none

end Program

/-! ## Nested blocks -/

namespace Stmt

mutual

/-- No block declares a name twice, or one that is visible around it. -/
def Distinct (Γ : Set String) : SourceStmt → Prop
  | .loop cs _ | .cond cs _ => CmdsDistinct Γ cs
  | .block b _ =>
    b.defns = [] ∧ b.localNames.Nodup ∧ (∀ x ∈ b.localNames, x ∉ Γ) ∧
      ListDistinct (Γ ∪ {x | x ∈ b.localNames}) b.stmts
  | .skip _ | .abort _ | .assign .. | .arrayAssign .. | .assert .. | .invariant .. | .hole ..
  | .alloc .. | .lookup .. | .mutate .. | .dispose .. => True

def CmdsDistinct (Γ : Set String) : List SourceCmd → Prop
  | [] => True
  | c :: cs => ListDistinct Γ c.body ∧ CmdsDistinct Γ cs

def ListDistinct (Γ : Set String) : List SourceStmt → Prop
  | [] => True
  | s :: ss => s.Distinct Γ ∧ ListDistinct Γ ss

end

mutual

theorem Distinct.mono {Γ Δ : Set String} (hΓ : Γ ⊆ Δ) :
    (s : SourceStmt) → s.Distinct Δ → s.Distinct Γ
  | .loop cs _, h | .cond cs _, h => by
    rw [Distinct] at h ⊢
    exact CmdsDistinct.mono hΓ cs h
  | .block b _, h => by
    rw [Distinct] at h ⊢
    obtain ⟨hdefns, hnodup, hnew, hstmts⟩ := h
    exact ⟨hdefns, hnodup, fun x hx hmem => hnew x hx (hΓ hmem),
      ListDistinct.mono (Set.union_subset_union_left _ hΓ) b.stmts hstmts⟩
  | .skip _, _ | .abort _, _ | .assign .., _ | .arrayAssign .., _ | .assert .., _
  | .invariant .., _ | .hole .., _ | .alloc .., _ | .lookup .., _ | .mutate .., _
  | .dispose .., _ => by simp only [Distinct]

theorem CmdsDistinct.mono {Γ Δ : Set String} (hΓ : Γ ⊆ Δ) :
    (cs : List SourceCmd) → CmdsDistinct Δ cs → CmdsDistinct Γ cs
  | [], _ => by simp only [CmdsDistinct]
  | c :: cs, h => by
    rw [CmdsDistinct] at h ⊢
    exact ⟨ListDistinct.mono hΓ c.body h.1, CmdsDistinct.mono hΓ cs h.2⟩

theorem ListDistinct.mono {Γ Δ : Set String} (hΓ : Γ ⊆ Δ) :
    (ss : List SourceStmt) → ListDistinct Δ ss → ListDistinct Γ ss
  | [], _ => by simp only [ListDistinct]
  | s :: ss, h => by
    rw [ListDistinct] at h ⊢
    exact ⟨Distinct.mono hΓ s h.1, ListDistinct.mono hΓ ss h.2⟩

end

theorem checkBlock_distinct (env : TypeEnv) (b : Program) :
    Returns (checkBlock env b) fun _ => b.localNames.Nodup := by
  unfold checkBlock
  cases b.defns with
  | cons d ds => exact .bind .throw fun _ h => h
  | nil =>
    cases (b.decls.flatMap (·.names)).find? fun x => env.contains x.text with
    | some x => exact .bind .throw fun _ h => h
    | none =>
      intro st u st' h
      obtain ⟨hcheck, -⟩ := EStateM.ok_of_ofExcept h
      obtain ⟨_, hvalues, -⟩ := Except.ok_of_bind hcheck
      have hnodup := checkDistinct_ok_iff.1 hvalues
      rw [Program.valueNames, List.map_append] at hnodup
      exact hnodup.of_append_left

mutual

theorem infer_distinct (env : TypeEnv) :
    (s : SourceStmt) → Returns (infer env s) fun _ => s.Distinct env.visible
  | .loop cs loc | .cond cs loc => by
    rw [infer, Distinct]
    exact (inferCmds_distinct env ∅ cs).bind fun _ hcs => .pure hcs
  | .block b loc => by
    rw [infer, Distinct]
    refine .bind (P := fun _ => (b.defns = [] ∧ ∀ x ∈ b.localNames, x ∉ env.visible) ∧
      b.localNames.Nodup) ?_ fun _ hb => ?_
    · exact fun st u st' h =>
        ⟨checkBlock_spec env b st u st' h, checkBlock_distinct env b st u st' h⟩
    obtain ⟨⟨hdefns, hnew⟩, hnodup⟩ := hb
    refine (Declaration.declareAll_visible env b.decls).bind fun inner hinner => ?_
    refine .andThen fun _ => .andThen fun _ => ?_
    refine (inferList_distinct _ ∅ b.stmts).bind fun _ hstmts => .pure ?_
    rw [TypeEnv.visible_subst, hinner] at hstmts
    exact ⟨hdefns, hnodup, hnew, hstmts⟩
  | .skip _ | .abort _ | .assign .. | .arrayAssign .. | .assert .. | .invariant .. | .hole ..
  | .alloc .. | .lookup .. | .mutate .. | .dispose .. => by
    rw [Distinct]
    exact fun _ _ _ _ => trivial

theorem inferCmds_distinct (env : TypeEnv) (s : Ty.Subst) :
    (cs : List SourceCmd) → Returns (inferCmds env s cs) fun _ => CmdsDistinct env.visible cs
  | [] => by
    rw [CmdsDistinct]
    exact fun _ _ _ _ => trivial
  | c :: cs => by
    rw [inferCmds, CmdsDistinct]
    refine .andThen fun _ => (inferList_distinct _ ∅ c.body).bind fun _ hbody => ?_
    rw [TypeEnv.visible_subst, TypeEnv.visible_subst] at hbody
    exact (inferCmds_distinct env _ cs).bind fun _ hcs => .pure ⟨hbody, hcs⟩

theorem inferList_distinct (env : TypeEnv) (s : Ty.Subst) :
    (ss : List SourceStmt) → Returns (inferList env s ss) fun _ => ListDistinct env.visible ss
  | [] => by
    rw [ListDistinct]
    exact fun _ _ _ _ => trivial
  | t :: ts => by
    rw [inferList, ListDistinct]
    refine (infer_distinct _ t).bind fun _ ht => ?_
    rw [TypeEnv.visible_subst] at ht
    exact (inferList_distinct env _ ts).bind fun _ hts => .pure ⟨ht, hts⟩

end

end Stmt

/-! ## Programs -/

namespace Program

theorem definedNames_perm (signed : NameSet) (p : Program) :
    ((p.defns.flatMap (definedNames signed)).map (·.text)).Perm
      (p.constructors ++ (p.signed ++ p.functions.filter (· ∉ signed))) := by
  unfold constructors Program.signed functions
  induction p.defns with
  | nil => rfl
  | cons d ds ih =>
    cases d with
    | datatype d =>
      simp only [List.flatMap_cons, definedNames, List.map_append, List.map_map,
        List.filterMap_cons, List.append_assoc]
      exact ih.append_left _
    | signature n t prop loc =>
      simp only [List.flatMap_cons, definedNames, List.map_cons, List.filterMap_cons,
        List.cons_append, List.nil_append]
      exact (ih.cons n.text).trans List.perm_middle.symm
    | function n clauses loc =>
      by_cases hn : n.text ∈ signed
      · simpa [definedNames, hn] using ih
      · simp only [List.flatMap_cons, definedNames, hn, if_false, List.map_cons,
          List.filterMap_cons, List.cons_append, List.nil_append, List.filter_cons,
          not_false_eq_true, decide_true, if_true]
        refine (ih.cons n.text).trans ?_
        rw [← List.append_assoc, ← List.append_assoc]
        exact List.perm_middle.symm

variable {p : Program} {outer : TypeEnv} {fs : List FunctionType}

theorem mem_signedNames {x : String} : x ∈ p.signedNames ↔ x ∈ p.signed := by
  rw [signedNames, NameSet.mem_ofList]
  exact Iff.rfl

theorem nodup_values (h : p.checkDistinct = .ok ()) :
    (p.localNames ++
      (p.constructors ++ (p.signed ++ p.functions.filter (· ∉ p.signed)))).Nodup := by
  obtain ⟨_, hvalues, -⟩ := Except.ok_of_bind h
  have hnodup := checkDistinct_ok_iff.1 hvalues
  rw [valueNames, List.map_append] at hnodup
  have hperm := p.definedNames_perm p.signedNames
  simp only [mem_signedNames] at hperm
  exact (hperm.append_left _).nodup_iff.1 hnodup

theorem nodup_types (h : p.checkDistinct = .ok ()) : (p.typeNames.map (·.text)).Nodup := by
  obtain ⟨_, -, htypes⟩ := Except.ok_of_bind h
  exact checkDistinct_ok_iff.1 htypes

theorem visible_of_inferFunctions {given : TypeEnv} {s : Ty.Subst} {st st' : ElaborationState}
    (h : p.inferFunctions given st = .ok ((fs, outer), s) st') :
    outer.visible = given.visible ∪ {x | x ∈ fs.map (·.name.text)} := by
  obtain ⟨pending, st₁, -, h⟩ := EStateM.ok_of_bind h
  split at h
  · cases h
    simp
  · obtain ⟨⟨⟨bodies, skolems⟩, s₁⟩, st₂, -, h⟩ := EStateM.ok_of_bind h
    obtain ⟨_, st₃, -, h⟩ := EStateM.ok_of_bind h
    obtain ⟨_, st₄, -, h⟩ := EStateM.ok_of_bind h
    obtain ⟨⟨schemes, s₂⟩, st₅, -, h⟩ := EStateM.ok_of_bind h
    cases h
    simp only [TypeEnv.visible, TypeEnv.names, entries_foldl_insert]
    ext x
    simp

def bound (p : Program) : List String :=
  p.localNames ++ p.constructors ++ p.signed ++ p.functions

theorem mem_visible_of_mem_constructors {x : String} (h : x ∈ p.constructors) :
    x ∈ (p.datatypes.foldl Datatype.insertCtors .empty).visible := by
  obtain ⟨defn, hdefn, hx⟩ := List.mem_flatMap.1 h
  cases defn with
  | datatype d =>
    obtain ⟨c, hc, rfl⟩ := List.mem_map.1 hx
    have hd : d ∈ p.datatypes := List.mem_filterMap.2 ⟨_, hdefn, rfl⟩
    have hentry : (c.name, (⟨.ctor, .funcs c.args d.result⟩ : TypeInfo)) ∈
        (p.datatypes.foldl Datatype.insertCtors .empty).entries := by
      rw [entries_insertCtors]
      exact List.mem_append_right _ (List.mem_flatMap.2 ⟨d, hd, List.mem_map_of_mem hc⟩)
    exact List.mem_map_of_mem (List.mem_map_of_mem hentry)
  | signature | function => cases hx

theorem mem_visible_of_mem_signed {env : TypeEnv} {x : String} (h : x ∈ p.signed)
    (hx : x ∉ p.functionNames) : x ∈ (p.insertDeclared env).visible := by
  obtain ⟨defn, hdefn, hsome⟩ := List.mem_filterMap.1 h
  cases defn with
  | signature n t prop loc =>
    cases hsome
    have hentry : (n, (⟨.const, t⟩ : TypeInfo)) ∈ (p.insertDeclared env).entries := by
      rw [entries_insertDeclared]
      refine List.mem_append_right _ (List.mem_filterMap.2 ⟨_, hdefn, ?_⟩)
      rw [declaredEntry, if_neg hx]
    exact List.mem_map_of_mem (List.mem_map_of_mem hentry)
  | datatype | function => cases hsome

theorem bound_subset_visible {env : TypeEnv} (hclauses : p.checkClauses = .ok ())
    (henv : env.visible =
      (p.datatypes.foldl Datatype.insertCtors .empty).visible ∪ {x | x ∈ p.localNames})
    (hnames : fs.map (·.name) = definedFunctions p.defns)
    (houter : outer.visible = (p.insertDeclared env).visible ∪ {x | x ∈ fs.map (·.name.text)}) :
    {x | x ∈ p.bound} ⊆ outer.visible := by
  have hkept : env.visible ⊆ (p.insertDeclared env).visible := by
    intro x hx
    simp only [TypeEnv.visible, TypeEnv.names, entries_insertDeclared, Set.mem_ofPred_eq,
      List.map_append, List.mem_append]
    exact .inl hx
  have hfunctions : ∀ x, x ∈ p.functionNames → x ∈ outer.visible := by
    intro x hx
    rw [mem_functionNames hclauses, ← hnames, List.map_map] at hx
    rw [houter]
    exact .inr hx
  intro x hx
  simp only [bound, Set.mem_ofPred_eq, List.mem_append] at hx
  rcases hx with ((hx | hx) | hx) | hx
  · rw [houter]
    exact .inl (hkept (henv ▸ .inr hx))
  · rw [houter]
    exact .inl (hkept (henv ▸ .inl (mem_visible_of_mem_constructors hx)))
  · by_cases hdefined : x ∈ p.functionNames
    · exact hfunctions x hdefined
    · rw [houter]
      exact .inl (mem_visible_of_mem_signed hx hdefined)
  · exact hfunctions x (NameSet.mem_ofList.2 hx)

/-- How often a name is bound, where the signature of a function and its definition are one
binding. -/
def bindings (p : Program) (x : String) : Nat :=
  p.localNames.count x + p.constructors.count x + max (p.signed.count x) (p.functions.count x)

/-- What keeps the names of a program apart.  Nothing is said of the number of definitions of a
function that has a signature. -/
structure Distinct (p : Program) : Prop where
  values : (p.localNames ++ p.constructors ++ p.signed).Nodup
  functions : ∀ x ∈ p.functions, x ∉ p.localNames ++ p.constructors
  unsigned : ∀ x ∈ p.functions, x ∉ p.signed → p.functions.count x = 1
  types : (p.typeNames.map (·.text)).Nodup
  blocks : Stmt.ListDistinct {x | x ∈ p.bound} p.stmts

theorem count_of_not_mem_signed (h : p.checkDistinct = .ok ()) {x : String} (hx : x ∈ p.functions)
    (hsigned : x ∉ p.signed) : p.functions.count x = 1 := by
  have hnodup := (nodup_values h).of_append_right.of_append_right.of_append_right
  have hcount : (p.functions.filter (· ∉ p.signed)).count x = p.functions.count x :=
    List.count_filter (by simpa using hsigned)
  rw [← hcount]
  exact List.count_eq_one_of_mem hnodup (List.mem_filter.2 ⟨hx, by simpa using hsigned⟩)

theorem infer_distinct (p : Program) : Returns p.infer fun _ => p.Distinct := by
  intro st typed st' h
  obtain ⟨hclauses, hcheck, kinds, st₁, -, env, st₂, henv, st₃, -, functions, outer, s, st₄,
    hfunctions, decls, s₁, st₅, -, props, s₂, st₆, -, sigProps, s₃, st₇, -, stmts, s₄, hlist,
    rfl⟩ := infer_cases h
  have hvalues := nodup_values hcheck
  have hstmts := Stmt.inferList_distinct _ _ p.stmts _ _ _ hlist
  rw [TypeEnv.visible_subst] at hstmts
  have hbound := bound_subset_visible hclauses (Declaration.declareAll_visible _ _ _ _ _ henv)
    (inferFunctions_names p _ _ _ _ hfunctions).1 (visible_of_inferFunctions hfunctions)
  refine ⟨?_, ?_, fun x => count_of_not_mem_signed hcheck, nodup_types hcheck,
    Stmt.ListDistinct.mono hbound p.stmts hstmts⟩
  · rw [← List.append_assoc, ← List.append_assoc] at hvalues
    exact hvalues.of_append_left
  · simp only [List.nodup_append, List.mem_append, List.mem_filter] at hvalues ⊢
    grind

/-- In a program whose names are kept apart, only a function that has a signature can be bound
more than once. -/
theorem Distinct.bindings_le_one_iff (h : p.Distinct) :
    (∀ x, p.bindings x ≤ 1) ↔ ∀ x ∈ p.signed, p.functions.count x ≤ 1 := by
  constructor
  · intro honce x _
    have := honce x
    unfold bindings at this
    omega
  · intro honce x
    have hvalues := List.nodup_iff_count_le_one.1 h.values x
    have hfunctions := h.functions x
    simp only [List.count_append, List.mem_append] at hvalues hfunctions
    unfold bindings
    by_cases hx : x ∈ p.functions
    · have hlocal : p.localNames.count x = 0 := List.count_eq_zero.2 fun h => hfunctions hx (.inl h)
      have hctor : p.constructors.count x = 0 :=
        List.count_eq_zero.2 fun h => hfunctions hx (.inr h)
      have hcount : p.functions.count x ≤ 1 := by
        by_cases hsigned : x ∈ p.signed
        · exact honce x hsigned
        · exact (h.unsigned x hx hsigned).le
      omega
    · have hcount : p.functions.count x = 0 := List.count_eq_zero.2 hx
      omega

end Program

/-- An accepted program keeps its names apart, down to its nested blocks, and then binds each of
them once unless it defines a function that has a signature more than once. -/
theorem accepted_program_binds_once {p : Program} {typed : TypedProgram}
    (h : p.elaborate = .ok typed) :
    p.Distinct ∧
      ((∀ x, p.bindings x ≤ 1) ↔ ∀ x ∈ p.signed, p.functions.count x ≤ 1) := by
  obtain ⟨st, hinfer⟩ := Program.infer_of_elaborate h
  have hdistinct : p.Distinct := Program.infer_distinct p _ _ _ hinfer
  exact ⟨hdistinct, hdistinct.bindings_le_one_iff⟩

namespace Limits

/-- A function with a signature and any number of definitions, and a block that declares a
name of its own. -/
def source (values : List Int64) : Program :=
  ⟨.signature (.bare "limit") .int none .none ::
      values.map fun v => .function (.bare "limit") [.lit (.num v) .none] .none,
    [⟨.var, [.bare "x"], .int, none, .none⟩], [],
    [.block ⟨[], [⟨.var, [.bare "y"], .int, none, .none⟩], [],
        [.assign [.bare "y"] [.const (.bare "limit") .none] .none,
          .assign [.bare "x"] [.var (.bare "y") .none] .none], .none⟩ .none],
    .none⟩

theorem exists_typed_once : ∃ typed, (source [1]).elaborate = .ok typed := ⟨_, by cbv⟩

theorem exists_typed_twice : ∃ typed, (source [1, 2]).elaborate = .ok typed := ⟨_, by cbv⟩

end Limits

theorem limit_bound_once : (∃ typed, (Limits.source [1]).elaborate = .ok typed) ∧
    (Limits.source [1]).Distinct ∧ ∀ x, (Limits.source [1]).bindings x ≤ 1 := by
  obtain ⟨typed, h⟩ := Limits.exists_typed_once
  obtain ⟨hdistinct, honce⟩ := accepted_program_binds_once h
  exact ⟨⟨typed, h⟩, hdistinct, honce.2 (by decide)⟩

/-- With its signature in the program, the second definition of a function goes unnoticed. -/
theorem limit_bound_twice : (∃ typed, (Limits.source [1, 2]).elaborate = .ok typed) ∧
    ¬ ∀ x, (Limits.source [1, 2]).bindings x ≤ 1 := by
  refine ⟨Limits.exists_typed_twice, fun honce => ?_⟩
  have htwice : (Limits.source [1, 2]).bindings "limit" = 2 := by decide
  have := honce "limit"
  omega

end GuardedCommands
