import GuardedCommands.Proofs.WrittenKinds

/-!
# Elaborated programs and kinds

All types that are written in an elaborated program are types of values under the
kinds that are recorded for its datatypes.  The types that inference finds need not
be: unification takes applications apart without a look at kinds, and so it may solve
the argument of an applied variable by a constructor that wants arguments itself.

It does not where the argument of a variable can only have one kind.  If the written
types keep to a uniform discipline, kinds can be given to all metavariables and type
variables of the tree so that every type in it is a type of values.  A program in which
no variable is applied keeps to such a discipline.
-/

namespace GuardedCommands

open Ty (HasKind)

/-! ## Written types -/

namespace Ty

/-- A type is written with the variables and the datatypes of a program. -/
def Written (datatypes : List String) : Ty → Prop
  | .app f a _ => f.Written datatypes ∧ a.Written datatypes
  | .array _ t _ => t.Written datatypes
  | .data n => n.text ∈ datatypes
  | .rigid n => ¬ Reserved n.text
  | .metavar _ => False
  | .base .. | .tuple .. | .arrow _ => True

variable {datatypes : List String} {A : Discipline} {κ : Kinding} {t : Ty} {k : Kind}

theorem written_of_names (hmetas : ∀ x, x ∉ t.metavars) (hrigid : ∀ x ∈ t.rigidVars, ¬ Reserved x)
    (hdata : ∀ x ∈ t.dataNames, x ∈ datatypes) : t.Written datatypes := by
  induction t with
  | rigid n => exact hrigid n.text (by simp [rigidVars])
  | metavar n => exact hmetas n.text (by simp [metavars])
  | data n => exact hdata n.text (by simp [dataNames])
  | array i t l ih => exact ih hmetas hrigid hdata
  | app f a l ihf iha =>
    constructor
    · exact ihf (fun x hx => hmetas x (NameSet.mem_union.2 (.inl hx)))
        (fun x hx => hrigid x (NameSet.mem_union.2 (.inl hx)))
        fun x hx => hdata x (NameSet.mem_union.2 (.inl hx))
    · exact iha (fun x hx => hmetas x (NameSet.mem_union.2 (.inr hx)))
        (fun x hx => hrigid x (NameSet.mem_union.2 (.inr hx)))
        fun x hx => hdata x (NameSet.mem_union.2 (.inr hx))
  | base | tuple | arrow => trivial

theorem Written.mem_of_fixed (h : t.Written datatypes) : ∀ x ∈ t.fixedNames, x ∈ datatypes := by
  induction t with
  | data n => simpa [fixedNames, Written] using h
  | metavar n => exact h.elim
  | array i t l ih => exact ih h
  | app f a l ihf iha =>
    intro x hx
    rcases NameSet.mem_union.1 hx with hx | hx
    · exact ihf h.1 x hx
    · exact iha h.2 x hx
  | rigid | base | tuple | arrow => simp [fixedNames]

theorem Written.not_reserved (h : t.Written datatypes)
    (hdatatypes : ∀ x ∈ datatypes, ¬ Reserved x) :
    ∀ x ∈ t.freeVars ∪ t.dataNames, ¬ Reserved x := by
  induction t with
  | data n => simpa [freeVars, dataNames] using hdatatypes _ h
  | rigid n => simpa [freeVars, dataNames, Written] using h
  | metavar n => exact h.elim
  | array i t l ih => exact ih h
  | app f a l ihf iha =>
    intro x hx
    simp only [freeVars, dataNames, NameSet.mem_union] at hx ihf iha
    rcases hx with (hx | hx) | (hx | hx)
    · exact ihf h.1 x (.inl hx)
    · exact iha h.2 x (.inl hx)
    · exact ihf h.1 x (.inr hx)
    · exact iha h.2 x (.inr hx)
  | base | tuple | arrow => simp [freeVars, dataNames]

theorem Written.generic (h : t.Written datatypes) (hdatatypes : ∀ x ∈ datatypes, ¬ Reserved x)
    (hκ : ∀ x, (κ x).isSome ↔ x ∈ datatypes)
    (hkind : ∃ κ', κ.Sub κ' ∧ HasKind A κ' t .star) : t.Generic A κ := by
  obtain ⟨κ', hsub, hkind⟩ := hkind
  refine ⟨fun x hx => (hκ x).2 (h.mem_of_fixed x hx),
    fun x => if Reserved x then κ x else κ' x, fun x k hx => ?_, fun x hx => if_pos hx, ?_⟩
  · have hreserved : ¬ Reserved x := hdatatypes x ((hκ x).1 (by simp [hx]))
    dsimp only
    rw [if_neg hreserved]
    exact hsub x k hx
  · refine hkind.of_names fun x hx l hl => ?_
    rwa [if_neg (h.not_reserved hdatatypes x hx)]

theorem HasKind.constructors (h : HasKind .free κ t k) (ht : t.HeadsRooted) :
    HasKind .constructors κ t k := by
  induction h with
  | base => exact .base
  | array _ ih => exact .array (ih ht)
  | tuple => exact .tuple
  | arrow => exact .arrow
  | data h => exact .data h
  | rigid h => exact .rigid h
  | metavar h => exact .metavar h
  | app _ _ _ ihf iha => exact .app (ihf ht.2.1) (iha ht.2.2) ht.1

end Ty

namespace Program

variable {p : Program} {A : Discipline}

theorem forall_openTypes {P : Ty → Prop} (hwritten : ∀ t ∈ p.writtenTypes, P t)
    (harrow : ∀ loc, P (.arrow loc)) (hdata : ∀ d ∈ p.datatypes, P (.data d.name))
    (hparam : ∀ d ∈ p.datatypes, ∀ n ∈ d.params, P (.rigid n))
    (happ : ∀ {f a loc}, f.rooted = true → P f → P a → P (.app f a loc)) :
    ∀ t ∈ p.openTypes, P t := by
  intro t ht
  rcases List.mem_append.1 ht with ht | ht
  · obtain ⟨d, hd, ht⟩ := List.mem_flatMap.1 ht
    obtain ⟨c, hc, rfl⟩ := List.mem_map.1 ht
    have happly : ∀ (ns : List Name) (u : Ty), (∀ n ∈ ns, P (.rigid n)) → u.rooted = true → P u →
        P (ns.foldl (fun t n => t.apply (.rigid n)) u) := by
      intro ns
      induction ns with
      | nil => exact fun u _ _ hu => hu
      | cons n ns ih =>
        intro u hns hrooted hu
        obtain ⟨hn, hns⟩ := List.forall_mem_cons.1 hns
        exact ih _ hns hrooted (happ hrooted hu hn)
    have hresult : P d.result := happly d.params _ (hparam d hd) rfl (hdata d hd)
    have hargs : ∀ a ∈ c.args, P a := by
      intro a ha
      apply hwritten
      simp only [writtenTypes, List.mem_append]
      exact .inl (.inl (.inl (List.mem_flatMap.2 ⟨d, hd, List.mem_flatMap.2 ⟨c, hc, ha⟩⟩)))
    generalize c.args = args at hargs
    unfold Ty.funcs
    induction args with
    | nil => exact hresult
    | cons a args ih =>
      obtain ⟨ha, hargs⟩ := List.forall_mem_cons.1 hargs
      exact happ rfl (happ rfl (harrow _) ha) (ih hargs)
  · apply hwritten
    simp only [writtenTypes, List.mem_append]
    exact .inl (.inr ht)

/-- Names that begin with a question mark, and metavariables, are not written. -/
structure Unreserved (p : Program) : Prop where
  metavars : ∀ t ∈ p.writtenTypes, t.metavars = ∅
  typeVariables : ∀ x ∈ p.typeVariables, ¬ Reserved x
  datatypes : ∀ x ∈ p.datatypes.map (·.name.text), ¬ Reserved x

/-- Type names that are written are names of datatypes. -/
def Resolved (p : Program) : Prop :=
  ∀ t ∈ p.writtenTypes, ∀ x ∈ t.dataNames, x ∈ p.datatypes.map (·.name.text)

theorem Unreserved.written (hp : p.Unreserved) (hresolved : p.Resolved) :
    ∀ t ∈ p.openTypes, t.Written (p.datatypes.map (·.name.text)) := by
  refine forall_openTypes (fun t ht => ?_) (fun _ => trivial)
    (fun d hd => List.mem_map_of_mem hd) (fun d hd n hn => hp.typeVariables _ ?_)
    fun _ hf ha => ⟨hf, ha⟩
  · refine Ty.written_of_names (fun x => ?_) (fun x hx => hp.typeVariables x ?_) (hresolved t ht)
    · rw [hp.metavars t ht]
      exact NameSet.not_mem_empty x
    · exact Regular.mem_typeVariables ht hx
  · exact List.mem_append.2 (.inr (List.mem_flatMap.2 ⟨d, hd, List.mem_map_of_mem hn⟩))

end Program

/-! ## The kinds of the tree -/

/-- Kinds have been given to the metavariables and type variables of a tree, so that with the
recorded kinds of the datatypes all its types are types of values.  The variables of a signature
are its own. -/
structure TypedProgram.WellKinded (A : Discipline) (κ : Kinding) (p : TypedProgram) : Prop where
  recorded : p.kinds.Sub κ
  annotations : AllValues A κ p.annotations
  signatures : ∀ t ∈ p.signatureTypes, ∃ κ', κ.Sub κ' ∧ HasKind A κ' t .star

namespace Program

variable {p : Program} {A : Discipline} {typed : TypedProgram} {st' : ElaborationState}

theorem exists_kinds (hp : p.Unreserved) (hresolved : p.Resolved) (hA : A.Uniform)
    (hkinded : p.WellKinded A typed.kinds) (h : p.infer .initial = .ok typed st') :
    ∃ κ, typed.WellKinded A κ := by
  obtain ⟨hnames, -⟩ := wellKinded_of_infer h
  have hreserved : ∀ x, Reserved x → typed.kinds x = none := by
    intro x hx
    by_contra hne
    exact hp.datatypes x ((hnames x).1 (Option.ne_none_iff_isSome.1 hne)) hx
  have hopen : ∀ t ∈ p.openTypes, t.Generic A typed.kinds := fun t ht =>
    (hp.written hresolved t ht).generic hp.datatypes hnames (hkinded.opened t ht)
  obtain ⟨κ, hκ, hannotations, hsignatures⟩ := kinded_infer hA hreserved hkinded.closed hopen h
  refine ⟨κ, hκ.sub, hannotations, fun t ht => ?_⟩
  obtain ⟨-, κ', hsub, -, hkind⟩ := hsignatures t ht
  exact ⟨κ', hsub, hkind⟩

theorem WellKinded.constructors {κ : Kinding} (h : p.WellKinded .free κ)
    (hwritten : ∀ t ∈ p.writtenTypes, t.HeadsRooted) : p.WellKinded .constructors κ := by
  constructor
  · intro t ht
    refine (h.closed t ht).constructors (hwritten t ?_)
    simp only [closedTypes, writtenTypes, List.mem_append] at ht ⊢
    exact ht.imp (fun ht => .inl (.inr ht)) id
  · intro t ht
    obtain ⟨κ', hsub, hkind⟩ := h.opened t ht
    refine ⟨κ', hsub, hkind.constructors ?_⟩
    exact forall_openTypes hwritten (fun _ => trivial) (fun _ _ => trivial) (fun _ _ _ _ => trivial)
      (fun hrooted hf ha => ⟨hrooted, hf, ha⟩) t ht

end Program

/-- What elaboration accepts has types of values wherever types are written.  The types that it
finds are types of values too, if the written types keep to a uniform discipline, and in
particular if no variable is applied in them. -/
theorem elaborated_types_have_kinds {p : Program} {typed : TypedProgram} (hp : p.Unreserved)
    (h : p.elaborate = .ok typed) :
    p.WellKinded .free typed.kinds ∧
      (p.Resolved → ∀ A : Discipline, A.Uniform → p.WellKinded A typed.kinds →
        ∃ κ, typed.WellKinded A κ) ∧
      (p.Resolved → (∀ t ∈ p.writtenTypes, t.HeadsRooted) → ∃ κ, typed.WellKinded .free κ) := by
  unfold Program.elaborate at h
  split at h
  · next hinfer =>
    cases h
    obtain ⟨-, hkinded⟩ := Program.wellKinded_of_infer hinfer
    refine ⟨hkinded, fun hresolved A hA hkinded => ?_, fun hresolved hwritten => ?_⟩
    · exact Program.exists_kinds hp hresolved hA hkinded hinfer
    · obtain ⟨κ, hrecorded, hannotations, hsignatures⟩ := Program.exists_kinds hp hresolved
        Discipline.uniform_constructors (hkinded.constructors hwritten) hinfer
      have hfree : ∀ {κ : Kinding} {t : Ty} {k : Kind}, HasKind .constructors κ t k →
          HasKind .free κ t k := fun ht => ht.weaken fun _ _ _ _ => trivial
      refine ⟨κ, hrecorded, fun t ht => hfree (hannotations t ht), fun t ht => ?_⟩
      obtain ⟨κ', hsub, hkind⟩ := hsignatures t ht
      exact ⟨κ', hsub, hfree hkind⟩
  · cases h

/-! ## Programs that apply type variables -/

namespace Applied

def useOf (e : Expr) : Expr := .app (.lam (.bare "y") (.lit (.bool true) .none) .none) e .none

/-- Boxes, and a function from any containers to what they contain. -/
def boxes : Program :=
  ⟨[.datatype ⟨.bare "Box", [.bare "p"], [⟨.bare "Full", [.rigid (.bare "p")], .none⟩], .none⟩,
      .signature (.bare "content") (.func (.apply (.rigid (.bare "f")) (.rigid (.bare "a")))
        (.rigid (.bare "a"))) none .none],
    [⟨.const, [.bare "box"], .apply (.data (.bare "Box")) .int, none, .none⟩],
    [useOf (.app (.const (.bare "content") .none) (.const (.bare "box") .none) .none)], [], .none⟩

/-- A container of containers, and a function that takes one value out of any container. -/
def nested : Program :=
  ⟨[.datatype ⟨.bare "M", [.bare "p"], [⟨.bare "MkM", [.rigid (.bare "p")], .none⟩], .none⟩,
      .datatype ⟨.bare "T", [.bare "q"],
        [⟨.bare "MkT", [.apply (.rigid (.bare "q")) .int], .none⟩], .none⟩,
      .signature (.bare "g") (.func (.apply (.rigid (.bare "f")) (.rigid (.bare "a")))
        (.func (.rigid (.bare "a")) .int)) none .none],
    [⟨.const, [.bare "x"], .apply (.data (.bare "T")) (.data (.bare "M")), none, .none⟩],
    [useOf (.app (.const (.bare "g") .none) (.const (.bare "x") .none) .none)], [], .none⟩

/-- Two signatures that use the name of a variable for a datatype that is nowhere defined. -/
def unresolved : Program :=
  ⟨[.signature (.bare "f") (.func (.rigid (.bare "a")) (.data (.bare "a"))) none .none,
      .signature (.bare "g") (.func (.apply (.rigid (.bare "a")) .int)
        (.apply (.data (.bare "a")) .int)) none .none],
    [], [useOf (.const (.bare "f") .none), useOf (.const (.bare "g") .none)], [], .none⟩

theorem boxes_elaborated : ∃ typed, boxes.elaborate = .ok typed ∧
    typed.kinds "Box" = some (.arrow .star .star) ∧ typed.kinds "p" = none ∧
    typed.kinds "a" = none ∧ typed.kinds "f" = none := ⟨_, by cbv, by cbv, by cbv, by cbv, by cbv⟩

theorem nested_elaborated : ∃ typed, nested.elaborate = .ok typed ∧
    typed.kinds "M" = some (.arrow .star .star) ∧
    typed.annotations[3]? = some (.func (.data (.bare "M")) .int) := ⟨_, by cbv, by cbv, by cbv⟩

theorem unresolved_elaborated : ∃ typed, unresolved.elaborate = .ok typed ∧
    typed.annotations[2]? = some (.func (.metavar (.bare "?t5")) (.data (.bare "a"))) ∧
    typed.annotations[7]? = some (.func (.apply (.metavar (.bare "?t8")) .int)
      (.apply (.data (.bare "a")) .int)) := ⟨_, by cbv, by cbv, by cbv⟩

theorem unreserved_boxes : boxes.Unreserved := ⟨by decide, by decide, by decide⟩

theorem unreserved_nested : nested.Unreserved := ⟨by decide, by decide, by decide⟩

theorem unreserved_unresolved : unresolved.Unreserved := ⟨by decide, by decide, by decide⟩

theorem resolved_boxes : boxes.Resolved := by
  unfold Program.Resolved
  decide

theorem resolved_nested : nested.Resolved := by
  unfold Program.Resolved
  decide

theorem wellKinded_boxes {κ : Kinding} (hbox : κ "Box" = some (.arrow .star .star))
    (hp : κ "p" = none) (ha : κ "a" = none) (hf : κ "f" = none) :
    boxes.WellKinded .firstOrder κ := by
  have hvariables : ∃ κ' : Kinding, κ.Sub κ' ∧ κ' "p" = some .star ∧ κ' "a" = some .star ∧
      κ' "f" = some (.arrow .star .star) := by
    refine ⟨fun x => if x = "f" then some (.arrow .star .star) else
      if x = "p" ∨ x = "a" then some .star else κ x, fun x k hx => ?_, rfl, rfl, rfl⟩
    have hne : x ≠ "f" ∧ x ≠ "p" ∧ x ≠ "a" := by
      refine ⟨?_, ?_, ?_⟩ <;> rintro rfl <;> simp_all
    simp [hne, hx]
  obtain ⟨κ', hsub, hp, ha, hf⟩ := hvariables
  constructor
  · intro t ht
    obtain rfl := List.mem_singleton.1 ht
    exact .app (.data hbox) .base rfl
  · intro t ht
    simp only [Program.openTypes, boxes, Program.datatypes, List.filterMap, List.flatMap_cons,
      List.flatMap_nil, List.map_cons, List.map_nil, List.append_nil, List.cons_append,
      List.nil_append, List.mem_cons, List.not_mem_nil, or_false] at ht
    refine ⟨κ', hsub, ?_⟩
    rcases ht with rfl | rfl
    · exact .func ⟨rfl, rfl⟩ (.rigid hp) (.app (.data (hsub _ _ hbox)) (.rigid hp) rfl)
    · exact .func ⟨rfl, rfl⟩ (.app (.rigid hf) (.rigid ha) rfl) (.rigid ha)

end Applied

theorem boxes_have_kinds : Applied.boxes.Unreserved ∧ ∃ typed,
    Applied.boxes.elaborate = .ok typed ∧ ∃ κ, typed.WellKinded .firstOrder κ := by
  obtain ⟨typed, h, hbox, hp, ha, hf⟩ := Applied.boxes_elaborated
  refine ⟨Applied.unreserved_boxes, typed, h, ?_⟩
  exact (elaborated_types_have_kinds Applied.unreserved_boxes h).2.1 Applied.resolved_boxes _
    Discipline.uniform_firstOrder (Applied.wellKinded_boxes hbox hp ha hf)

/-- The value that is taken out of a container of containers has a constructor for its type, and a
name that stands for no datatype is used at two kinds. -/
theorem inferred_types_without_kinds :
    (Applied.nested.Unreserved ∧ Applied.nested.Resolved ∧ ∃ typed,
      Applied.nested.elaborate = .ok typed ∧ ∀ κ, ¬ typed.WellKinded .free κ) ∧
    Applied.unresolved.Unreserved ∧ ∃ typed,
      Applied.unresolved.elaborate = .ok typed ∧ ∀ κ, ¬ typed.WellKinded .free κ := by
  constructor
  · obtain ⟨typed, h, hM, hfound⟩ := Applied.nested_elaborated
    refine ⟨Applied.unreserved_nested, Applied.resolved_nested, typed, h, fun κ hκ => ?_⟩
    have hfunc := hκ.annotations _ (List.mem_of_getElem? hfound)
    have hstar : HasKind .free κ (.data (.bare "M")) .star := (HasKind.of_func hfunc).1
    cases hstar.unique (.data (hκ.recorded "M" _ hM))
  · obtain ⟨typed, h, hfound, hfound'⟩ := Applied.unresolved_elaborated
    refine ⟨Applied.unreserved_unresolved, typed, h, fun κ hκ => ?_⟩
    have hfunc := hκ.annotations _ (List.mem_of_getElem? hfound)
    have hfunc' := hκ.annotations _ (List.mem_of_getElem? hfound')
    have hstar : HasKind .free κ (.data (.bare "a")) .star := (HasKind.of_func hfunc).2.1
    have happ : HasKind .free κ (.apply (.data (.bare "a")) .int) .star :=
      (HasKind.of_func hfunc').2.1
    cases happ with
    | app harrow _ _ => cases hstar.unique harrow

end GuardedCommands
