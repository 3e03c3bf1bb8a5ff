import GuardedCommands.Proofs.Accounts
import GuardedCommands.Proofs.ElaboratedScope
import GuardedCommands.Proofs.Lockstep
import GuardedCommands.Proofs.Soundness

/-!
# Names in the specifications of holes

What has to hold before and after a hole is computed from the code behind it, while
the environment of the hole has been taken down when the program was elaborated.
Passing a block may leave names of the block behind, where the block reads a name
that it has declared and not assigned.  Such names make other blocks rename their
own, and then a hole inside them is specified in new names.  So the names of a
specification are names of the environment, names of blocks between the hole and the
next assertion, and new names for names of blocks, and there are no others.  Every hole
of the text is recorded once, so this is said of each hole in its own place.
-/

namespace GuardedCommands

/-! ## Expressions -/

namespace TypedExpr

variable {Γ : Set String} {e l r : TypedExpr}

theorem within_ofLit (l : Lit) : (ofLit l).Within Γ := by
  simp [Within, ofLit, freeVars]

theorem within_ofVar {x : Name} (t : Ty) (h : x.text ∈ Γ) : (ofVar x t).Within Γ := by
  simpa [Within, ofVar, freeVars] using h

theorem within_binary (o : ArithOp) (hl : l.Within Γ) (hr : r.Within Γ) :
    (binary o l r).Within Γ := by
  intro x hx
  simp only [binary, apply, ofOp, freeVars, NameSet.mem_union, NameSet.not_mem_empty,
    false_or] at hx
  rcases hx with hx | hx
  · exact hl x hx
  · exact hr x hx

variable {es : List TypedExpr}

theorem within_foldl (o : ArithOp) (he : e.Within Γ) (hes : ∀ e ∈ es, e.Within Γ) :
    (es.foldl (binary o) e).Within Γ := by
  induction es generalizing e with
  | nil => exact he
  | cons d es ih =>
    obtain ⟨hd, hes⟩ := List.forall_mem_cons.1 hes
    exact ih (within_binary o he hd) hes

theorem within_conjunction (h : ∀ e ∈ es, e.Within Γ) : (conjunction es).Within Γ := by
  cases es with
  | nil => exact within_ofLit _
  | cons e es =>
    obtain ⟨he, hes⟩ := List.forall_mem_cons.1 h
    exact within_foldl .conj he hes

theorem within_quantify (o : ArithOp) {v : Binder} (h : e.Within (Γ ∪ {v.name.text})) :
    (quantify o [v] (ofBool true) e).Within Γ := by
  intro x hx
  have hmem : x ∈ e.freeVars ∧ x ≠ v.name.text := by
    simpa [quantify, ofOp, ofBool, ofLit, freeVars] using hx
  exact (h x hmem.1).resolve_right hmem.2

theorem within_substitute {s : ExprSubst} (he : e.Within Γ)
    (hs : ∀ x d, s.get? x = some d → d.Within Γ) : (e.substitute s).Within Γ := by
  intro z hz
  rcases (mem_freeVars_substitute e).1 hz with ⟨hz, -⟩ | ⟨x, -, d, hd, hz⟩
  · exact he z hz
  · exact hs x d hd z hz

theorem within_substitute_singleton {d : TypedExpr} (he : e.Within Γ) (hd : d.Within Γ)
    (x : String) : (e.substitute (.singleton x d)).Within Γ := by
  refine within_substitute he fun z c hc => ?_
  rw [NameMap.get?_singleton] at hc
  split at hc
  · cases hc
    exact hd
  · cases hc

end TypedExpr

/-! ## The holes of a program -/

structure HoleSite where
  env : TypeEnv
  loc : Loc

/-- A hole of the text, and names that blocks may leave in what has to hold behind it. -/
structure HolePlace where
  site : HoleSite
  later : Set String

namespace Stmt

mutual

/-- The names that blocks may leave in what has to hold before a statement, if they may leave
those of `later` in what has to hold behind it.  An assertion is all that has to hold before
it. -/
def left (later : Set String) : TypedStmt → Set String
  | .assert .. | .invariant .. => ∅
  | .cond cs _ => cmdsLeft later cs
  | .block b _ => {x | x ∈ b.localNames} ∪ listLeft later b.stmts
  | _ => later

def cmdsLeft (later : Set String) : List TypedCmd → Set String
  | [] => ∅
  | c :: cs => listLeft later c.body ∪ cmdsLeft later cs

def listLeft (later : Set String) : List TypedStmt → Set String
  | [] => later
  | s :: ss => s.left (listLeft later ss)

end

mutual

/-- The holes of a statement, where blocks may leave the names of `later` behind it.  Behind
the body of a loop comes the invariant. -/
def places (later : Set String) : TypedStmt → List HolePlace
  | .hole _ env loc => [⟨⟨env, loc⟩, later⟩]
  | .loop cs _ => cmdsPlaces ∅ cs
  | .cond cs _ => cmdsPlaces later cs
  | .block b _ => listPlaces later b.stmts
  | _ => []

def cmdsPlaces (later : Set String) : List TypedCmd → List HolePlace
  | [] => []
  | c :: cs => listPlaces later c.body ++ cmdsPlaces later cs

def listPlaces (later : Set String) : List TypedStmt → List HolePlace
  | [] => []
  | s :: ss => s.places (listLeft later ss) ++ listPlaces later ss

end

variable {later : Set String} {ss us : List TypedStmt} {s : TypedStmt}

theorem listLeft_append (later : Set String) (ss us : List TypedStmt) :
    listLeft later (ss ++ us) = listLeft (listLeft later us) ss := by
  induction ss with
  | nil => rfl
  | cons s ss ih => rw [List.cons_append, listLeft, listLeft, ih]

theorem listPlaces_append (later : Set String) (ss us : List TypedStmt) :
    listPlaces later (ss ++ us) = listPlaces (listLeft later us) ss ++ listPlaces later us := by
  induction ss with
  | nil => rfl
  | cons s ss ih =>
    rw [List.cons_append, listPlaces, listPlaces, ih, listLeft_append, List.append_assoc]

theorem left_of_predOf? {p : Pred} (h : Segment.predOf? s = some p) :
    s.left later = ∅ ∧ s.places later = [] := by
  cases s <;> cases h <;> exact ⟨rfl, rfl⟩

/-- What blocks leave are names that blocks declare. -/
theorem left_subset (later : Set String) (ss : List TypedStmt) :
    listLeft later ss ⊆ later ∪ {x | x ∈ blockNamesList ss} ∧
      ∀ place ∈ listPlaces later ss, place.later ⊆ later ∪ {x | x ∈ blockNamesList ss} := by
  have hmono : ∀ {A L X Y : Set String}, X ⊆ Y → A ⊆ L ∪ X → A ⊆ L ∪ Y :=
    fun hXY h => h.trans (Set.union_subset_union_right _ hXY)
  induction ss using nested_induction
      (S := fun s => ∀ later, s.left later ⊆ later ∪ {x | x ∈ s.blockNames} ∧
        ∀ place ∈ s.places later, place.later ⊆ later ∪ {x | x ∈ s.blockNames})
      (C := fun cs => ∀ later, cmdsLeft later cs ⊆ later ∪ {x | x ∈ blockNamesCmds cs} ∧
        ∀ place ∈ cmdsPlaces later cs, place.later ⊆ later ∪ {x | x ∈ blockNamesCmds cs})
      generalizing later with
  | simple s hs later => cases s <;> simp_all [isSimple, left, places]
  | loop cs _ ih later =>
    refine ⟨Set.subset_union_left, fun place h => ((ih ∅).2 place h).trans ?_⟩
    exact Set.union_subset_union_left _ (Set.empty_subset later)
  | cond cs _ ih later => exact ih later
  | block b _ ih later =>
    obtain ⟨hleft, hplaces⟩ := ih later
    simp only [blockNames, NameSet.mem_union]
    refine ⟨Set.union_subset (fun x hx => .inr (.inl ?_)) (hmono (fun x hx => .inr hx) hleft),
      fun place h => hmono (fun x hx => .inr hx) (hplaces place h)⟩
    rw [NameSet.mem_ofList, TypedProgram.boundNames, List.map_append]
    exact List.mem_append_left _ hx
  | noCmds later => exact ⟨Set.empty_subset _, by simp [cmdsPlaces]⟩
  | nil => exact ⟨Set.subset_union_left, by simp [listPlaces]⟩
  | cmds c cs ihbody ihrest later =>
    obtain ⟨hbody, hplaces⟩ := ihbody later
    obtain ⟨hrest, hothers⟩ := ihrest later
    simp only [blockNamesCmds, NameSet.mem_union]
    refine ⟨Set.union_subset (hmono (fun x hx => .inl hx) hbody)
      (hmono (fun x hx => .inr hx) hrest), List.forall_mem_append.2 ⟨fun place h => ?_,
        fun place h => hmono (fun x hx => .inr hx) (hothers place h)⟩⟩
    exact hmono (fun x hx => .inl hx) (hplaces place h)
  | cons s ss ihs ihss =>
    obtain ⟨hs, hplaces⟩ := ihs (listLeft later ss)
    obtain ⟨hss, hothers⟩ := ihss later
    simp only [blockNamesList, NameSet.mem_union]
    have hjoin : ∀ {A : Set String}, A ⊆ listLeft later ss ∪ {x | x ∈ s.blockNames} →
        A ⊆ later ∪ {x | x ∈ s.blockNames ∨ x ∈ blockNamesList ss} := fun hA =>
      hA.trans (Set.union_subset (hmono (fun x hx => .inr hx) hss) fun x hx => .inr (.inl hx))
    exact ⟨hjoin hs, List.forall_mem_append.2 ⟨fun place h => hjoin (hplaces place h),
      fun place h => hmono (fun x hx => .inr hx) (hothers place h)⟩⟩

end Stmt

theorem withNew_mono {B X Y : Set String} (h : X ⊆ Y) : withNew B X ⊆ withNew B Y := by
  rintro x (hx | ⟨y, hy, hB, i, rfl⟩)
  · exact .inl (h hx)
  · exact .inr ⟨y, h hy, hB, i, rfl⟩

/-! ### Renamed statements -/

namespace Renaming

variable {ρ : Renaming} {B V : Set String}

def Into (ρ : Renaming) (B V : Set String) : Prop :=
  ∀ x y, ρ.names.get? x = some y → y ∈ withNew B V

theorem Into.mono {W : Set String} (h : ρ.Into B V) (hVW : V ⊆ W) : ρ.Into B W :=
  fun x y hxy => withNew_mono hVW (h x y hxy)

theorem Into.without (h : ρ.Into B V) (hidden : NameSet) : (ρ.without hidden).Into B V :=
  fun x y hxy => h x y (renamed_of_without hxy).2

theorem Into.text_mem (hV : ρ.Into B V) {x : String} (hx : x ∈ withNew B V) :
    ρ.text x ∈ withNew B V := by
  cases hn : ρ.names.get? x with
  | none =>
    rw [text_of_none hn]
    exact hx
  | some y =>
    rw [text_of_some hn]
    exact hV x y hn

theorem within_expr_into (hρ : ρ.Consistent) (hV : ρ.Into B V) {e : TypedExpr}
    (he : e.Within (withNew B V)) : (ρ.expr e).Within (withNew B V) := by
  refine (within_expr hρ he).mono ?_
  rintro _ ⟨x, hx, rfl⟩
  exact hV.text_mem hx

theorem seen_stmts {ρ : Renaming} (hρ : ρ.Consistent) {V : Set String} (hV : ρ.Into B V)
    (ss : List TypedStmt) (h : Stmt.ListSeen B V ss) : Stmt.ListSeen B V (ρ.stmts ss) := by
  induction ss using Stmt.nested_induction
      (S := fun s => ∀ ρ : Renaming, ρ.Consistent → ∀ V, ρ.Into B V →
        s.Seen B V → (ρ.stmt s).Seen B V)
      (C := fun cs => ∀ ρ : Renaming, ρ.Consistent → ∀ V, ρ.Into B V →
        Stmt.CmdsSeen B V cs → Stmt.CmdsSeen B V (ρ.cmds cs)) generalizing ρ V with
  | simple s hs ρ hρ V hV h =>
    have hexpr : ∀ {e}, e.Within (withNew B V) → (ρ.expr e).Within (withNew B V) :=
      within_expr_into hρ hV
    cases s with
    | loop | cond | block => cases hs
    | skip | abort | hole => exact h
    | assign =>
      simp only [stmt, Stmt.Seen, List.forall_mem_map] at h ⊢
      exact ⟨fun x hx => hV.text_mem (h.1 x hx), fun e he => hexpr (h.2 e he)⟩
    | alloc =>
      simp only [stmt, Stmt.Seen, List.forall_mem_map] at h ⊢
      exact fun e he => hexpr (h e he)
    | arrayAssign => exact ⟨hexpr h.1, hexpr h.2.1, hexpr h.2.2⟩
    | assert | lookup | dispose => exact hexpr h
    | invariant inv bound =>
      refine ⟨hexpr h.1, fun d hd => ?_⟩
      obtain ⟨b, hb, rfl⟩ := Option.map_eq_some_iff.1 hd
      exact hexpr (h.2 b hb)
    | mutate => exact ⟨hexpr h.1, hexpr h.2⟩
  | loop cs _ ih ρ hρ V hV h | cond cs _ ih ρ hρ V hV h => exact ih ρ hρ V hV h
  | block b _ ih ρ hρ V hV h =>
    exact ⟨h.1, h.2.1, ih (hρ.without _) ((hV.mono Set.subset_union_left).without _) h.2.2⟩
  | noCmds ρ hρ V hV h | nil => exact h
  | cmds c cs ihbody ihrest ρ hρ V hV h =>
    exact ⟨within_expr_into hρ hV h.1, ihbody hρ hV h.2.1, ihrest ρ hρ V hV h.2.2⟩
  | cons s ss ihs ihss => exact ⟨ihs ρ hρ V hV h.1, ihss hρ hV h.2⟩

theorem blockNamesList_stmts (ρ : Renaming) (ss : List TypedStmt) :
    Stmt.blockNamesList (ρ.stmts ss) = Stmt.blockNamesList ss := by
  induction ss using Stmt.nested_induction
      (S := fun s => ∀ ρ : Renaming, (ρ.stmt s).blockNames = s.blockNames)
      (C := fun cs => ∀ ρ : Renaming, Stmt.blockNamesCmds (ρ.cmds cs) = Stmt.blockNamesCmds cs)
      generalizing ρ with
  | simple s => cases s <;> simp_all [Stmt.isSimple, stmt, Stmt.blockNames]
  | _ =>
    simp_all only [stmt, cmds, stmts, Stmt.blockNames, Stmt.blockNamesCmds, Stmt.blockNamesList,
      TypedProgram.boundNames]

theorem listPlaces_stmts (ρ : Renaming) (later : Set String) (ss : List TypedStmt) :
    Stmt.listLeft later (ρ.stmts ss) = Stmt.listLeft later ss ∧
      Stmt.listPlaces later (ρ.stmts ss) = Stmt.listPlaces later ss := by
  induction ss using Stmt.nested_induction
      (S := fun s => ∀ (ρ : Renaming) later, (ρ.stmt s).left later = s.left later ∧
        (ρ.stmt s).places later = s.places later)
      (C := fun cs => ∀ (ρ : Renaming) later,
        Stmt.cmdsLeft later (ρ.cmds cs) = Stmt.cmdsLeft later cs ∧
          Stmt.cmdsPlaces later (ρ.cmds cs) = Stmt.cmdsPlaces later cs) generalizing ρ later with
  | simple s => cases s <;> simp_all [Stmt.isSimple, stmt, Stmt.left, Stmt.places]
  | _ =>
    simp_all [stmt, cmds, stmts, Stmt.left, Stmt.places, Stmt.cmdsLeft, Stmt.cmdsPlaces,
      Stmt.listLeft, Stmt.listPlaces, Block.localNames]

end Renaming

/-! ## Preconditions of single statements -/

namespace Wp

open TypedExpr

variable {Γ : Set String} {o : Options} {scopes : Scopes} {post : TypedExpr}

variable {es : List TypedExpr} {e : TypedExpr}

theorem within_assign {xs : List Name} (hes : ∀ e ∈ es, e.Within Γ) (hpost : post.Within Γ) :
    (assign xs es post).Within Γ := by
  refine within_substitute hpost fun x d hd => ?_
  rw [NameMap.get?_ofList] at hd
  have hmem := List.mem_reverse.1 (NameMap.mem_of_lookup hd)
  obtain ⟨⟨y, e⟩, hzip, heq⟩ := List.mem_map.1 hmem
  cases heq
  exact hes _ (List.of_mem_zip hzip).2

theorem within_arrayAssign {a i v : TypedExpr} {loc : Loc} (ha : a.Within Γ) (hi : i.Within Γ)
    (hv : v.Within Γ) (hpost : post.Within Γ) (h : arrayAssign a i v loc post = .ok e) :
    e.Within Γ := by
  unfold arrayAssign at h
  split at h
  · cases h
    refine within_substitute_singleton hpost ?_ _
    exact Expr.within_union.2 ⟨Expr.within_union.2 ⟨ha, hi⟩, hv⟩
  · cases h

theorem within_cells {base : TypedExpr} (hbase : base.Within Γ) (hes : ∀ e ∈ es, e.Within Γ) :
    (cells base es).Within Γ := by
  have haddress : ∀ i, (address base i).Within Γ := by
    intro i
    unfold address
    split
    · exact hbase
    · exact within_binary _ hbase (within_ofLit _)
  have hcells : ∀ c ∈ es.mapIdx fun i e => pointsTo (address base i) e, c.Within Γ := by
    intro c hc
    obtain ⟨i, hi, rfl⟩ := List.mem_mapIdx.1 hc
    exact within_binary _ (haddress i) (hes _ (List.getElem_mem hi))
  unfold cells
  split
  · exact within_ofLit _
  · next c cs heq =>
    rw [heq] at hcells
    obtain ⟨hc, hcs⟩ := List.forall_mem_cons.1 hcells
    exact within_foldl _ hc hcs

theorem within_heapVar (v : Binder) : (ofVar v.name .int).Within (Γ ∪ {v.name.text}) :=
  within_ofVar _ (.inr rfl)

theorem within_alloc {x : Name} (hes : ∀ e ∈ es, e.Within Γ) (hpost : post.Within Γ) :
    (alloc o scopes x es post).Within Γ := by
  apply within_quantify
  apply within_binary
  · exact within_cells (within_heapVar _) fun e he => (hes e he).mono Set.subset_union_left
  · exact within_substitute_singleton (hpost.mono Set.subset_union_left) (within_heapVar _) _

theorem within_lookup {x : Name} (he : e.Within Γ) (hpost : post.Within Γ) :
    (lookup o scopes x e post).Within Γ := by
  apply within_quantify
  have hcell : ∀ v : Binder, (pointsTo e (ofVar v.name .int)).Within (Γ ∪ {v.name.text}) :=
    fun v => within_binary _ (he.mono Set.subset_union_left) (within_heapVar v)
  apply within_binary _ (hcell _)
  apply within_binary _ (hcell _)
  exact within_substitute_singleton (hpost.mono Set.subset_union_left) (within_heapVar _) _

theorem within_ownedCell {cell : TypedExpr} (avoid : NameSet) (hcell : cell.Within Γ) :
    (ownedCell o scopes cell avoid).Within Γ := by
  apply within_quantify
  exact within_binary _ (hcell.mono Set.subset_union_left) (within_heapVar _)

theorem within_stmt {B V : Set String} {s : TypedStmt} (hcond : ∀ cs loc, s = .cond cs loc → False)
    (hblock : ∀ b loc, s = .block b loc → False) (hs : s.Seen B V) (hΓ : withNew B V ⊆ Γ)
    (hpost : post.Within Γ) (h : stmt o scopes post s = .ok e) : e.Within Γ := by
  cases s with
  | skip | assert | invariant | hole =>
    rw [stmt] at h
    cases h
    exact hpost
  | abort =>
    rw [stmt] at h
    cases h
    exact within_ofLit _
  | assign xs es =>
    rw [stmt] at h
    cases h
    exact within_assign (fun e he => (hs.2 e he).mono hΓ) hpost
  | arrayAssign a i v =>
    rw [stmt] at h
    exact within_arrayAssign (hs.1.mono hΓ) (hs.2.1.mono hΓ) (hs.2.2.mono hΓ) hpost h
  | loop =>
    rw [stmt] at h
    cases h
  | cond cs loc => exact (hcond cs loc rfl).elim
  | block b loc => exact (hblock b loc rfl).elim
  | alloc x es =>
    rw [stmt] at h
    cases h
    exact within_alloc (fun e he => (hs e he).mono hΓ) hpost
  | lookup x cell =>
    rw [stmt] at h
    cases h
    exact within_lookup (hs.mono hΓ) hpost
  | mutate cell value =>
    rw [stmt] at h
    cases h
    have hcell := hs.1.mono hΓ
    apply within_binary _ (within_ownedCell _ hcell)
    exact within_binary _ (within_binary _ hcell (hs.2.mono hΓ)) hpost
  | dispose cell =>
    rw [stmt] at h
    cases h
    exact within_binary _ (within_ownedCell _ (hs.mono hΓ)) hpost

end Wp

/-! ## Recording holes -/

namespace SpecHole

def site (hole : SpecHole) : HoleSite := ⟨hole.env, hole.loc⟩

def names (hole : SpecHole) : Set String :=
  {x | x ∈ hole.pre.expr.freeVars ∨ x ∈ hole.post.expr.freeVars}

def unnumbered (hole : SpecHole) : SpecHole := { hole with id := 0 }

/-- A hole with its specification comes from a place, and if the program is in scope, it is
specified in names that may occur there. -/
def Fits (B : Set String) (inScope : Prop) (hole : SpecHole) (place : HolePlace) : Prop :=
  hole.site = place.site ∧
    (inScope → hole.names ⊆ withNew B (hole.env.visible ∪ place.later))

end SpecHole

/-- A computation that succeeds records one hole for each place. -/
def Records (B : Set String) (inScope : Prop) {α : Type} (m : VerificationM α) (Q : α → Prop)
    (places : List HolePlace) : Prop :=
  Accounts (fun l => (l.holes : Multiset SpecHole)) m fun a holes =>
    (inScope → Q a) ∧ holes.Rel (SpecHole.Fits B inScope) places

namespace Records

variable {B : Set String} {inScope : Prop} {α β : Type} {m : VerificationM α} {Q : α → Prop}
  {f : α → VerificationM β} {Q' : β → Prop} {places behind : List HolePlace}

theorem bind (hm : Records B inScope m Q places)
    (hf : ∀ a, (inScope → Q a) → Records B inScope (f a) Q' behind) :
    Records B inScope (m >>= f) Q' (places ++ behind) := by
  refine Accounts.bind hm fun a r hr => (hf a hr.1).mono fun b r' hr' => ⟨hr'.1, ?_⟩
  rw [← Multiset.coe_add]
  exact hr.2.add hr'.2

/-- What lies behind is worked through first. -/
theorem after (hm : Records B inScope m Q behind)
    (hf : ∀ a, (inScope → Q a) → Records B inScope (f a) Q' places) :
    Records B inScope (m >>= f) Q' (places ++ behind) := by
  unfold Records
  rw [Multiset.coe_eq_coe.2 List.perm_append_comm]
  exact hm.bind hf

theorem map (hm : Records B inScope m Q places)
    (hf : ∀ a, (inScope → Q a) → Records B inScope (f a) Q' []) :
    Records B inScope (m >>= f) Q' places :=
  hm.after hf

theorem pure {a : α} (h : inScope → Q a) : Records B inScope (Pure.pure a) Q [] :=
  Accounts.pure ⟨h, .zero⟩

theorem ofExcept {x : Except VerificationError α} (h : ∀ a, x = .ok a → inScope → Q a) :
    Records B inScope (MonadExcept.ofExcept x) Q [] :=
  Accounts.ofExcept fun a ha => ⟨h a ha, .zero⟩

theorem unchanged {f : Ledger → Ledger} (h : ∀ l, (f l).holes = l.holes) :
    Records B inScope (modify f) (fun _ => True) [] :=
  (Accounts.unchanged fun l => by simp only [h]).mono fun _ _ hr => ⟨fun _ => trivial, hr ▸ .zero⟩

theorem forM {γ : Type} {f : γ → VerificationM Unit} {cs : List γ}
    (h : ∀ c ∈ cs, Records B inScope (f c) (fun _ => True) []) :
    Records B inScope (cs.forM f) (fun _ => True) [] := by
  induction cs with
  | nil => exact pure fun _ => trivial
  | cons c cs ih =>
    obtain ⟨hc, hcs⟩ := List.forall_mem_cons.1 h
    exact hc.map fun _ _ => ih hcs

end Records

namespace Structure

variable {B V later : Set String} {inScope : Prop} {o : Options} {scopes : Scopes} {target : Target}
  {pre inv a : Pred} {segs : List Segment} {ss us : List TypedStmt} {s : TypedStmt}
  {cs : List TypedCmd} {c : TypedCmd} {loc : Loc}

theorem records_obligate (pre post : Pred) (origin : Origin) (label : Option String) :
    Records B inScope (obligate o pre post origin label) (fun _ => True) [] := by
  refine .unchanged fun l => ?_
  unfold Ledger.obligate
  split
  · rfl
  · dsimp only
    split <;> rfl

theorem records_checkLoop (inv : Pred) (cmds : List TypedCmd) (loc : Loc) (exit : Target) :
    Records B inScope (checkLoop o scopes inv cmds loc exit) (fun _ => True) [] := by
  have hwarn : ∀ w, Records B inScope (warn w) (fun _ => True) [] :=
    fun w => .unchanged fun _ => rfl
  have hdecrease : ∀ bound c, Records B inScope (checkDecrease o scopes inv.expr bound loc c)
      (fun _ => True) [] := by
    intro bound c
    unfold checkDecrease
    split
    · exact hwarn _
    · exact (Records.ofExcept (Q := fun _ => True) fun _ _ _ => trivial).map
        fun _ _ => records_obligate _ _ _ _
  unfold checkLoop
  refine (records_obligate _ _ _ _).map fun _ _ => ?_
  split
  · exact hwarn _
  · next bound _ =>
    exact (records_obligate _ _ _ _).map fun _ _ => .forM fun c _ => hdecrease bound c

theorem records_hole {pre post : Pred} {env : TypeEnv}
    (h : inScope → V ⊆ env.visible ∧ pre.expr.Within (withNew B (V ∪ later)) ∧
      post.expr.Within (withNew B (V ∪ later))) :
    Records B inScope (recordHole pre post env loc) (fun _ => True) [⟨⟨env, loc⟩, later⟩] := by
  refine Accounts.modifies fun l =>
    ⟨{⟨l.holes.length, pre, post, env, loc⟩}, ⟨fun _ => trivial, ?_⟩, rfl⟩
  refine .cons ⟨rfl, fun hscope => ?_⟩ .zero
  obtain ⟨hV, hpre, hpost⟩ := h hscope
  have hnames := withNew_mono (B := B) (Set.union_subset_union_left later hV)
  rintro x (hx | hx)
  · exact hnames (hpre x hx)
  · exact hnames (hpost x hx)

/-- Statements that see the names `V`, and whose blocks declare names of `B`. -/
structure Placed (B V : Set String) (ss : List TypedStmt) : Prop where
  seen : Stmt.ListSeen B V ss
  names : ∀ x ∈ Stmt.blockNamesList ss, x ∈ B

namespace Placed

theorem head (h : Placed B V (s :: us)) : s.Seen B V := h.seen.1

theorem tail (h : Placed B V (s :: us)) : Placed B V us :=
  ⟨h.seen.2, fun x hx => h.names x (NameSet.mem_union.2 (.inr hx))⟩

theorem single (h : Placed B V (s :: us)) : Placed B V [s] := by
  refine ⟨⟨h.seen.1, trivial⟩, fun x hx => h.names x (NameSet.mem_union.2 (.inl ?_))⟩
  simpa [Stmt.blockNamesList] using hx

theorem append (h : Placed B V (ss ++ us)) : Placed B V ss ∧ Placed B V us := by
  induction ss with
  | nil => exact ⟨⟨trivial, by simp [Stmt.blockNamesList]⟩, h⟩
  | cons s ss ih =>
    obtain ⟨hss, hus⟩ := ih h.tail
    refine ⟨⟨⟨h.head, hss.seen⟩, fun x hx => ?_⟩, hus⟩
    rcases NameSet.mem_union.1 hx with hx | hx
    · exact h.names x (NameSet.mem_union.2 (.inl hx))
    · exact hss.names x hx

theorem bodies (hseen : Stmt.CmdsSeen B V cs) (hnames : ∀ x ∈ Stmt.blockNamesCmds cs, x ∈ B) :
    ∀ c ∈ cs, c.guard.Within (withNew B V) ∧ Placed B V c.body := by
  induction cs with
  | nil => simp
  | cons c cs ih =>
    simp only [Stmt.blockNamesCmds, NameSet.mem_union] at hnames
    refine List.forall_mem_cons.2 ⟨⟨hseen.1, hseen.2.1, fun x hx => hnames x (.inl hx)⟩, ?_⟩
    exact ih hseen.2.2 fun x hx => hnames x (.inr hx)

theorem opened {b : TypedProgram} (scopes : Scopes) (post : TypedExpr)
    (h : Placed B V [.block b loc]) : Placed B (V ∪ {x | x ∈ b.localNames})
      ((Wp.OpenBlock.ofBlock scopes b post).renames.stmts b.stmts) := by
  obtain ⟨⟨⟨hdefns, -, hbody⟩, -⟩, hnames⟩ := h
  obtain ⟨hρ, hold, -, -, -, -, hnumbered⟩ := Wp.OpenBlock.opened_ofBlock scopes b post
  simp only [Stmt.blockNamesList, Stmt.blockNames, NameSet.mem_union, NameSet.mem_ofList,
    TypedProgram.map_boundNames hdefns, NameSet.not_mem_empty, or_false] at hnames
  have hinto : (Wp.OpenBlock.ofBlock scopes b post).renames.Into B
      (V ∪ {x | x ∈ b.localNames}) := by
    intro x y hxy
    have hx : x ∈ b.localNames := hold x y hxy
    exact .inr ⟨x, .inr hx, hnames x (.inl hx), hnumbered x y hxy⟩
  refine ⟨Renaming.seen_stmts hρ hinto b.stmts hbody, fun x hx => ?_⟩
  rw [Renaming.blockNamesList_stmts] at hx
  exact hnames x (.inr hx)

end Placed

section Recursion

variable (B inScope o)

def SegmentsLocated (scopes : Scopes) (target : Target) (pre : Pred) (segs : List Segment) : Prop :=
  ∀ V later ss, Segment.Covers segs ss →
    (inScope → Placed B V ss ∧ pre.expr.Within (withNew B V) ∧
      target.pred.expr.Within (withNew B (V ∪ later))) →
    Records B inScope (segments o scopes target pre segs) (fun _ => True)
      (Stmt.listPlaces later ss)

def PullBackLocated (scopes : Scopes) (target : Target) (segs : List Segment) : Prop :=
  ∀ V later ss, Segment.Covers segs ss →
    (inScope → Placed B V ss ∧ target.pred.expr.Within (withNew B (V ∪ later))) →
    Records B inScope (pullBack o scopes target segs)
      (fun next => next.pred.expr.Within (withNew B (V ∪ Stmt.listLeft later ss)))
      (Stmt.listPlaces later ss)

def BodiesLocated (scopes : Scopes) (inv : Pred) (loc : Loc) (cs : List TypedCmd) : Prop :=
  ∀ V, (inScope → inv.expr.Within (withNew B V) ∧
      ∀ c ∈ cs, c.guard.Within (withNew B V) ∧ Placed B V c.body) →
    Records B inScope (bodies o scopes inv loc cs) (fun _ => True) (Stmt.cmdsPlaces ∅ cs)

def RunLocated (scopes : Scopes) (target : Target) (ss : List TypedStmt) : Prop :=
  ∀ V later, (∀ s ∈ ss, Segment.cuts s = false) →
    (inScope → Placed B V ss ∧ target.pred.expr.Within (withNew B (V ∪ later))) →
    Records B inScope (run o scopes target ss)
      (fun next => next.pred.expr.Within (withNew B (V ∪ Stmt.listLeft later ss)))
      (Stmt.listPlaces later ss)

def StmtLocated (scopes : Scopes) (target : Target) (s : TypedStmt) : Prop :=
  ∀ V later, Segment.cuts s = false →
    (inScope → Placed B V [s] ∧ target.pred.expr.Within (withNew B (V ∪ later))) →
    Records B inScope (stmt o scopes target s)
      (fun e => e.Within (withNew B (V ∪ s.left later))) (s.places later)

def BranchesLocated (scopes : Scopes) (target : Target) (cs : List TypedCmd) : Prop :=
  ∀ V later, (inScope → (∀ c ∈ cs, c.guard.Within (withNew B V) ∧ Placed B V c.body) ∧
      target.pred.expr.Within (withNew B (V ∪ later))) →
    Records B inScope (branches o scopes target cs)
      (fun es => ∀ e ∈ es, e.Within (withNew B (V ∪ Stmt.cmdsLeft later cs)))
      (Stmt.cmdsPlaces later cs)

end Recursion

section Cases

theorem names_mono {later' : Set String} (h : later ⊆ later') :
    withNew B (V ∪ later) ⊆ withNew B (V ∪ later') :=
  withNew_mono (Set.union_subset_union_right V h)

theorem seen_subset : withNew B V ⊆ withNew B (V ∪ later) := withNew_mono Set.subset_union_left

theorem within_of_predOf? {p : Pred} (h : Segment.predOf? s = some p) (hs : s.Seen B V) :
    p.expr.Within (withNew B V) := by
  cases s <;> cases h
  · exact hs
  · exact hs.1

theorem listPlaces_of_predOf? {p : Pred} (h : Segment.predOf? s = some p) :
    Stmt.listLeft later (s :: us) = ∅ ∧
      Stmt.listPlaces later (s :: us) = Stmt.listPlaces later us := by
  rw [Stmt.listLeft, Stmt.listPlaces, (Stmt.left_of_predOf? h).1, (Stmt.left_of_predOf? h).2]
  exact ⟨rfl, rfl⟩

theorem segmentsLocated_assertion (ih : SegmentsLocated B inScope o scopes target a segs) :
    SegmentsLocated B inScope o scopes target pre (.assertion a :: segs) := by
  intro V later ss hcovers h
  cases hcovers with
  | assertion hs rest =>
    rw [segments, (listPlaces_of_predOf? hs).2]
    refine (records_obligate _ _ _ _).bind fun _ _ => ih V later _ rest fun hscope => ?_
    obtain ⟨hplaced, -, htarget⟩ := h hscope
    exact ⟨hplaced.tail, within_of_predOf? hs hplaced.head, htarget⟩

theorem segmentsLocated_hole {env : TypeEnv} (ih : PullBackLocated B inScope o scopes target segs) :
    SegmentsLocated B inScope o scopes target pre (.hole env loc :: segs) := by
  intro V later ss hcovers h
  cases hcovers with
  | hole rest =>
    rw [segments]
    refine (ih V later _ rest fun hscope => ?_).after fun next hnext =>
      records_hole (V := V) fun hscope => ?_
    · exact ⟨(h hscope).1.tail, (h hscope).2.2⟩
    · exact ⟨(h hscope).1.head, (h hscope).2.1.mono seen_subset, hnext hscope⟩

theorem segmentsLocated_pulled (hassertion : ∀ a rest, segs = .assertion a :: rest → False)
    (hhole : ∀ env loc rest, segs = .hole env loc :: rest → False)
    (ih : PullBackLocated B inScope o scopes target segs) :
    SegmentsLocated B inScope o scopes target pre segs := by
  intro V later ss hcovers h
  rw [segments.eq_3 _ _ _ _ _ hassertion hhole]
  refine (ih V later ss hcovers fun hscope => ?_).map fun _ _ => records_obligate _ _ _ _
  exact ⟨(h hscope).1, (h hscope).2.2⟩

theorem pullBackLocated_nil : PullBackLocated B inScope o scopes target [] := by
  intro V later ss hcovers h
  cases hcovers
  rw [pullBack]
  exact .pure fun hscope => (h hscope).2

theorem pullBackLocated_run (ihrest : PullBackLocated B inScope o scopes target segs)
    (ihrun : ∀ next, RunLocated B inScope o scopes next ss) :
    PullBackLocated B inScope o scopes target (.run ss :: segs) := by
  intro V later us hcovers h
  cases hcovers with
  | @run _ _ us hss rest =>
    rw [pullBack, Stmt.listLeft_append, Stmt.listPlaces_append]
    refine (ihrest V later us rest fun hscope => ?_).after fun next hnext =>
      ihrun next V _ hss fun hscope => ?_
    · exact ⟨(h hscope).1.append.2, (h hscope).2⟩
    · exact ⟨(h hscope).1.append.1, hnext hscope⟩

theorem pullBackLocated_assertion (ih : SegmentsLocated B inScope o scopes target a segs) :
    PullBackLocated B inScope o scopes target (.assertion a :: segs) := by
  intro V later ss hcovers h
  cases hcovers with
  | assertion hs rest =>
    have ha : inScope → a.expr.Within (withNew B V) :=
      fun hscope => within_of_predOf? hs (h hscope).1.head
    rw [pullBack, (listPlaces_of_predOf? hs).1, (listPlaces_of_predOf? hs).2]
    refine (ih V later _ rest fun hscope => ?_).map fun _ _ =>
      .pure fun hscope => (ha hscope).mono seen_subset
    exact ⟨(h hscope).1.tail, ha hscope, (h hscope).2⟩

theorem pullBackLocated_loop (ihrest : PullBackLocated B inScope o scopes target segs)
    (ihbodies : BodiesLocated B inScope o scopes inv loc cs) :
    PullBackLocated B inScope o scopes target (.loop inv cs loc :: segs) := by
  intro V later ss hcovers h
  cases hcovers with
  | loop hs rest =>
    have hinv : inScope → inv.expr.Within (withNew B V) :=
      fun hscope => within_of_predOf? hs (h hscope).1.head
    rw [pullBack, (listPlaces_of_predOf? hs).1, (listPlaces_of_predOf? hs).2, Stmt.listPlaces,
      Stmt.places]
    refine (ihrest V later _ rest fun hscope => ?_).after fun exit _ =>
      (ihbodies V fun hscope => ⟨hinv hscope, ?_⟩).map fun _ _ =>
        (records_checkLoop _ _ _ _).map fun _ _ =>
          .pure fun hscope => (hinv hscope).mono seen_subset
    · exact ⟨(h hscope).1.tail.tail, (h hscope).2⟩
    · obtain ⟨hseen, hnames⟩ := (h hscope).1.tail.single
      refine Placed.bodies hseen.1 fun x hx => hnames x ?_
      simpa [Stmt.blockNamesList, Stmt.blockNames] using hx

theorem pullBackLocated_hole {env : TypeEnv} (ih : PullBackLocated B inScope o scopes target segs) :
    PullBackLocated B inScope o scopes target (.hole env loc :: segs) := by
  intro V later ss hcovers h
  cases hcovers with
  | hole rest =>
    rw [pullBack]
    refine (ih V later _ rest fun hscope => ?_).after fun next hnext =>
      (records_hole (V := V) fun hscope => ?_).map fun _ _ => .pure hnext
    · exact ⟨(h hscope).1.tail, (h hscope).2⟩
    · exact ⟨(h hscope).1.head, hnext hscope, hnext hscope⟩

theorem bodiesLocated_nil : BodiesLocated B inScope o scopes inv loc [] := by
  intro V h
  rw [bodies]
  exact .pure fun _ => trivial

theorem bodiesLocated_cons
    (ihbody : SegmentsLocated B inScope o scopes
      ⟨inv, ⟨.preservation, loc⟩, some c.guard.text⟩ (.constant (.conj inv.expr c.guard))
      (Segment.ofStmts c.body))
    (ihrest : BodiesLocated B inScope o scopes inv loc cs) :
    BodiesLocated B inScope o scopes inv loc (c :: cs) := by
  intro V h
  rw [bodies, Stmt.cmdsPlaces]
  refine (ihbody V ∅ c.body (Segment.covers_ofStmts _) fun hscope => ?_).bind
    fun _ _ => ihrest V fun hscope => ?_
  · obtain ⟨hinv, hcs⟩ := h hscope
    obtain ⟨hguard, hbody⟩ := hcs c (.head _)
    exact ⟨hbody, TypedExpr.within_binary _ hinv hguard, hinv.mono seen_subset⟩
  · exact ⟨(h hscope).1, (List.forall_mem_cons.1 (h hscope).2).2⟩

theorem runLocated_nil : RunLocated B inScope o scopes target [] := by
  intro V later hss h
  rw [run]
  exact .pure fun hscope => (h hscope).2

theorem runLocated_cons (ihrest : RunLocated B inScope o scopes target ss)
    (ihstmt : ∀ next, StmtLocated B inScope o scopes next s) :
    RunLocated B inScope o scopes target (s :: ss) := by
  intro V later hss h
  obtain ⟨hs, hss⟩ := List.forall_mem_cons.1 hss
  rw [run]
  refine (ihrest V later hss fun hscope => ?_).after fun next hnext =>
    (ihstmt next V _ hs fun hscope => ?_).map fun e he => .pure he
  · exact ⟨(h hscope).1.tail, (h hscope).2⟩
  · exact ⟨(h hscope).1.single, hnext hscope⟩

theorem stmtLocated_cond (ih : BranchesLocated B inScope o scopes target cs) :
    StmtLocated B inScope o scopes target (.cond cs loc) := by
  intro V later _ h
  rw [stmt]
  refine (ih V later fun hscope => ⟨?_, (h hscope).2⟩).map fun es hes =>
    .pure fun hscope => TypedExpr.within_conjunction (hes hscope)
  obtain ⟨⟨hseen, -⟩, hnames⟩ := (h hscope).1
  refine Placed.bodies hseen fun x hx => hnames x ?_
  simpa [Stmt.blockNamesList, Stmt.blockNames] using hx

theorem stmtLocated_block {b : TypedProgram}
    (ih : PullBackLocated B inScope o
      ((Wp.OpenBlock.ofBlock scopes b target.pred.expr).scope :: scopes) target (Segment.ofStmts
        ((Wp.OpenBlock.ofBlock scopes b target.pred.expr).renames.stmts b.stmts))) :
    StmtLocated B inScope o scopes target (.block b loc) := by
  intro V later _ h
  have hbody := ih (V ∪ {x | x ∈ b.localNames}) later _ (Segment.covers_ofStmts _) fun hscope =>
    ⟨(h hscope).1.opened scopes _, (h hscope).2.mono
      (withNew_mono (Set.union_subset_union_left later Set.subset_union_left))⟩
  obtain ⟨hleft, hplaces⟩ := Renaming.listPlaces_stmts
    (Wp.OpenBlock.ofBlock scopes b target.pred.expr).renames later b.stmts
  rw [hleft, hplaces, Set.union_assoc] at hbody
  rw [stmt]
  exact hbody.map fun result hresult => .pure hresult

theorem stmtLocated_simple (hcond : ∀ cs loc, s = .cond cs loc → False)
    (hblock : ∀ b loc, s = .block b loc → False) : StmtLocated B inScope o scopes target s := by
  intro V later hs h
  rw [stmt.eq_3 _ _ _ _ hcond hblock]
  intro l e l' hl
  obtain ⟨he, rfl⟩ := EStateM.ok_of_ofExcept hl
  have hplain : s.left later = later ∧ s.places later = [] := by
    cases s with
    | assert | invariant | hole => cases hs
    | loop =>
      rw [Wp.stmt] at he
      cases he
    | cond cs loc => exact (hcond cs loc rfl).elim
    | block b loc => exact (hblock b loc rfl).elim
    | _ => exact ⟨rfl, rfl⟩
  rw [hplain.1, hplain.2]
  refine ⟨0, ⟨fun hscope => ?_, .zero⟩, (add_zero _).symm⟩
  obtain ⟨hplaced, htarget⟩ := h hscope
  exact Wp.within_stmt hcond hblock hplaced.head seen_subset htarget he

theorem branchesLocated_nil : BranchesLocated B inScope o scopes target [] := by
  intro V later h
  rw [branches]
  exact .pure fun _ => by simp

theorem branchesLocated_cons
    (ihbody : PullBackLocated B inScope o scopes target (Segment.ofStmts c.body))
    (ihrest : BranchesLocated B inScope o scopes target cs) :
    BranchesLocated B inScope o scopes target (c :: cs) := by
  intro V later h
  rw [branches, Stmt.cmdsPlaces, Stmt.cmdsLeft]
  refine (ihbody V later c.body (Segment.covers_ofStmts _) fun hscope => ?_).bind fun body hbody =>
    (ihrest V later fun hscope => ?_).map fun rest hrest => .pure fun hscope => ?_
  · exact ⟨((h hscope).1 c (.head _)).2, (h hscope).2⟩
  · exact ⟨(List.forall_mem_cons.1 (h hscope).1).2, (h hscope).2⟩
  · have hguard := ((h hscope).1 c (.head _)).1
    refine List.forall_mem_cons.2 ⟨?_, fun e he => ?_⟩
    · exact TypedExpr.within_binary _ (hguard.mono seen_subset)
        ((hbody hscope).mono (names_mono Set.subset_union_left))
    · exact (hrest hscope e he).mono (names_mono Set.subset_union_right)

end Cases

/-- Every hole of the text is recorded once on the way through segments, specified in names that
it may be specified in. -/
theorem segments_located (scopes : Scopes) (target : Target) (pre : Pred) (segs : List Segment) :
    SegmentsLocated B inScope o scopes target pre segs :=
  segments.induct (SegmentsLocated B inScope o) (PullBackLocated B inScope o)
    (BodiesLocated B inScope o) (RunLocated B inScope o) (StmtLocated B inScope o)
    (BranchesLocated B inScope o)
    (fun _ _ _ _ _ => segmentsLocated_assertion)
    (fun _ _ _ _ _ _ => segmentsLocated_hole)
    (fun _ _ _ _ => segmentsLocated_pulled)
    (fun _ _ => pullBackLocated_nil)
    (fun _ _ _ _ => pullBackLocated_run)
    (fun _ _ _ _ => pullBackLocated_assertion)
    (fun _ _ _ _ _ _ => pullBackLocated_loop)
    (fun _ _ _ _ _ => pullBackLocated_hole)
    (fun _ _ _ => bodiesLocated_nil)
    (fun _ _ _ _ _ => bodiesLocated_cons)
    (fun _ _ => runLocated_nil)
    (fun _ _ _ _ => runLocated_cons)
    (fun _ _ _ _ => stmtLocated_cond)
    (fun _ _ _ _ => stmtLocated_block)
    (fun _ _ _ => stmtLocated_simple)
    (fun _ _ => branchesLocated_nil)
    (fun _ _ _ _ => branchesLocated_cons)
    scopes target pre segs

theorem assertionOf_seen {found : Option TypedStmt} (h : ∀ s ∈ found, s.Seen B V) :
    (assertionOf found).expr.Within (withNew B V) := by
  unfold assertionOf
  split
  · exact h _ rfl
  · exact TypedExpr.within_ofLit _

end Structure

/-! ## Programs -/

namespace Ledger

theorem map_holes_output {γ : Type} {f : SpecHole → γ}
    (hf : ∀ hole i, f { hole with id := i } = f hole) (l : Ledger) : l.output.holes.map f =
      (l.holes.mergeSort fun a b => a.loc.offset ≤ b.loc.offset).map f := by
  exact List.ext_getElem (by simp [output]) (by simp [output, hf])

/-- Sorting and numbering change neither the specifications nor the places. -/
theorem rel_output {B : Set String} {inScope : Prop} {l : Ledger} {places : List HolePlace}
    (h : (l.holes : Multiset SpecHole).Rel (SpecHole.Fits B inScope) places) :
    (l.output.holes : Multiset SpecHole).Rel (SpecHole.Fits B inScope) places := by
  have hperm : (l.output.holes.map SpecHole.unnumbered).Perm (l.holes.map SpecHole.unnumbered) := by
    rw [map_holes_output fun _ _ => rfl]
    exact (List.mergeSort_perm ..).map _
  have hrel : ((l.holes : Multiset SpecHole).map SpecHole.unnumbered).Rel
      (SpecHole.Fits B inScope) places := Multiset.rel_map_left.2 h
  rw [Multiset.map_coe, ← Multiset.coe_eq_coe.2 hperm, ← Multiset.map_coe,
    Multiset.rel_map_left] at hrel
  exact hrel

end Ledger

theorem TypedProgram.holes_of_verify (B V : Set String) (inScope : Prop) {typed : TypedProgram}
    {o : Options} {out : Output} (hplaced : inScope → Structure.Placed B V typed.stmts)
    (h : typed.verify o = .ok out) :
    (out.holes : Multiset SpecHole).Rel (SpecHole.Fits B inScope)
      (Stmt.listPlaces ∅ typed.stmts) := by
  obtain ⟨l, hl, rfl⟩ := ledger_of_verify h
  have hends : inScope → Structure.Placed B V typed.stmts ∧
      (Structure.assertionOf typed.stmts.head?).expr.Within (withNew B V) ∧
      (Structure.assertionOf typed.stmts.getLast?).expr.Within (withNew B (V ∪ ∅)) := by
    intro hscope
    have hall := Stmt.listSeen_iff.1 (hplaced hscope).seen
    exact ⟨hplaced hscope, Structure.assertionOf_seen fun s hs => hall s (List.mem_of_head? hs),
      (Structure.assertionOf_seen fun s hs => hall s (List.mem_of_getLast? hs)).mono
        Structure.seen_subset⟩
  obtain ⟨r, ⟨-, hr⟩, hadd⟩ := Structure.segments_located _ _ _ _ V ∅ typed.stmts
    (Segment.covers_ofStmts _) hends _ _ _ hl
  rw [← hadd.trans (zero_add r)] at hr
  exact Ledger.rel_output hr

/-- Every hole of an accepted program is reported once, specified in names of its environment,
names that blocks between it and the next assertion declare, and new names for such of them as
blocks declare.  Without blocks, all the names are names of the environment. -/
theorem hole_names_in_scope {p : Program} {typed : TypedProgram} {o : Options} {out : Output}
    (h : p.elaborate = .ok typed) (hverify : typed.verify o = .ok out) :
    (out.holes : Multiset SpecHole).Rel
      (fun hole (place : HolePlace) => hole.site = place.site ∧
        hole.names ⊆ withNew {x | x ∈ Stmt.blockNamesList typed.stmts}
          (hole.env.visible ∪ place.later))
      (Stmt.listPlaces ∅ typed.stmts) ∧
    ((∀ x, x ∉ Stmt.blockNamesList typed.stmts) →
      ∀ hole ∈ out.holes, hole.names ⊆ hole.env.visible) := by
  obtain ⟨st, hinfer⟩ := Program.infer_of_elaborate h
  obtain ⟨⟨V, -, hseen⟩, -⟩ :=
    Program.infer_seen {x | x ∈ Stmt.blockNamesList typed.stmts} p _ _ _ hinfer
  have hholes := TypedProgram.holes_of_verify _ V True (fun _ => ⟨hseen, fun _ hx => hx⟩) hverify
  refine ⟨hholes.mono fun hole _ place _ hfits => ⟨hfits.1, hfits.2 trivial⟩,
    fun hnone hole hmem => ?_⟩
  obtain ⟨place, hplace, -, hnames⟩ := Multiset.exists_mem_of_rel_of_mem hholes hmem
  intro x hx
  rcases hnames trivial hx with (hx | hx) | ⟨y, -, hy, -⟩
  · exact hx
  · rcases (Stmt.left_subset ∅ typed.stmts).2 place hplace hx with hx | hx
    · exact hx.elim
    · exact absurd hx (hnone x)
  · exact absurd hy (hnone y)

namespace Leftovers

def source (between : List SourceStmt) : Program :=
  ⟨[], [⟨.var, [.bare "x"], .int, none, .none⟩], [],
    .hole "" () .none :: between ++
      [.assert (.chain (.var (.bare "x") .none) [⟨.eq, .none, .lit (.num 0) .none⟩] .none) .none],
    .none⟩

def block (stmts : List SourceStmt) : SourceStmt :=
  .block ⟨[], [⟨.var, [.bare "t"], .int, none, .none⟩], [], stmts, .none⟩ .none

/-- A block with a hole in it, and another one that reads what it has not assigned. -/
def blocks : List SourceStmt :=
  [block [.hole "" () .none, .assign [.bare "x"] [.var (.bare "t") .none] .none],
    block [.assign [.bare "x"] [.app (.app (.op (.arith .add) .none) (.var (.bare "x") .none) .none)
      (.var (.bare "t") .none) .none] .none]]

theorem verified_with : ∃ typed out, (source blocks).elaborate = .ok typed ∧
    typed.verify .default = .ok out ∧ (Stmt.blockNamesList typed.stmts).toList = ["t"] ∧
    out.holes.map (fun hole => (hole.env.names.map (·.text), hole.post.expr.freeVars.toList)) =
      [(["x", "t"], ["t", "t0"]), (["x"], ["t", "t0"])] := ⟨_, _, by cbv, by cbv, by cbv, by cbv⟩

end Leftovers

theorem leftover_names_located : ∃ typed out,
    (Leftovers.source Leftovers.blocks).elaborate = .ok typed ∧ typed.verify .default = .ok out ∧
      out.holes.length = 2 ∧ ∀ hole ∈ out.holes, ∀ x ∈ hole.names,
        x ∈ hole.env.visible ∨ x = "t" ∨ ∃ i : Nat, x = "t" ++ Nat.repr i := by
  obtain ⟨typed, out, htyped, hout, hblocks, hholes⟩ := Leftovers.verified_with
  have hblock : ∀ x, x ∈ Stmt.blockNamesList typed.stmts → x = "t" := by
    intro x hx
    have hx : x ∈ (Stmt.blockNamesList typed.stmts).toList := hx
    simpa [hblocks] using hx
  refine ⟨typed, out, htyped, hout, by simpa using congrArg List.length hholes, ?_⟩
  intro hole hhole x hx
  obtain ⟨place, hplace, -, hnames⟩ :=
    Multiset.exists_mem_of_rel_of_mem (hole_names_in_scope htyped hout).1 hhole
  rcases hnames hx with (hx | hx) | ⟨y, -, hy, i, rfl⟩
  · exact .inl hx
  · rcases (Stmt.left_subset ∅ typed.stmts).2 place hplace hx with hx | hx
    · exact hx.elim
    · exact .inr (.inl (hblock x hx))
  · rw [hblock y hy]
    exact .inr (.inr ⟨i, rfl⟩)

/-- A name that a block leaves behind is in the specification of the hole before the block, and
its new name in that of a hole inside another block. -/
theorem leftover_names_escape :
    ∃ typed out, (Leftovers.source Leftovers.blocks).elaborate = .ok typed ∧
      typed.verify .default = .ok out ∧
      (∃ hole ∈ out.holes, "t" ∈ hole.names ∧ "t" ∉ hole.env.visible) ∧
      ∃ hole ∈ out.holes, "t0" ∈ hole.names ∧ "t0" ∉ hole.env.visible := by
  obtain ⟨typed, out, htyped, hout, -, hholes⟩ := Leftovers.verified_with
  have hescape : ∀ x env post, (env, post) ∈ [(["x", "t"], ["t", "t0"]), (["x"], ["t", "t0"])] →
      x ∈ post → x ∉ env → ∃ hole ∈ out.holes, x ∈ hole.names ∧ x ∉ hole.env.visible := by
    intro x env post hmem hpost henv
    rw [← hholes] at hmem
    obtain ⟨hole, hhole, heq⟩ := List.mem_map.1 hmem
    cases heq
    exact ⟨hole, hhole, .inr hpost, henv⟩
  refine ⟨typed, out, htyped, hout, ?_, ?_⟩
  · exact hescape "t" ["x"] ["t", "t0"] (by decide) (by decide) (by decide)
  · exact hescape "t0" ["x", "t"] ["t", "t0"] (by decide) (by decide) (by decide)

end GuardedCommands
