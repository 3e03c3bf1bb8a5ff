import GuardedCommands.Proofs.UnlocatedPrograms
import GuardedCommands.Verification.Verifier

/-!
# Substitution and preconditions without locations

Substitution looks for names by their texts and chooses new ones outside sets of texts,
and so do the renaming of blocks and the rules for weakest preconditions.  On trees
without locations all of them compute the tree without locations that they compute on
the trees themselves.
-/

namespace GuardedCommands

/-! ## Comparing and reading typed expressions -/

@[simp] theorem Binder.unlocated_unlocated (b : Binder) : b.unlocated.unlocated = b.unlocated := by
  simp [unlocated]

namespace TypedExpr

theorem sameBinders_iff (bs bs' : List Binder) :
    sameBinders bs bs' = true ↔ bs.map Binder.unlocated = bs'.map Binder.unlocated := by
  induction bs generalizing bs' with
  | nil => cases bs' <;> simp [sameBinders]
  | cons b bs ih => cases bs' <;> simp [sameBinders, Binder.unlocated, ih]

mutual

theorem same_iff : (a b : TypedExpr) → (a.same b = true ↔ a.unlocated = b.unlocated)
  | .lit l t _, b | .var x t _, b | .const x t _, b
  | .op o t _, b => by cases b <;> simp [same, unlocated]
  | .chain head links t _, b => by
    cases b <;> simp [same, unlocated, same_iff head, sameLinks_iff links, and_assoc]
  | .app f a t _, b => by cases b <;> simp [same, unlocated, same_iff f, same_iff a, and_assoc]
  | .lam x body t _, b => by
    cases b <;> simp [same, unlocated, sameBinders_iff, same_iff body, and_assoc]
  | .quant q bs r body t _, b => by
    cases b <;>
      simp [same, unlocated, sameBinders_iff, same_iff q, same_iff r, same_iff body, and_assoc]
  | .index a i t _, b => by cases b <;> simp [same, unlocated, same_iff a, same_iff i, and_assoc]
  | .update a i v t _, b => by
    cases b <;> simp [same, unlocated, same_iff a, same_iff i, same_iff v, and_assoc]
termination_by structural e => e

theorem sameLinks_iff : (ls ls' : List (TypedLink TypedExpr)) →
    (sameLinks ls ls' = true ↔ unlocatedLinks ls = unlocatedLinks ls')
  | [], ls' => by cases ls' <;> simp [sameLinks, unlocatedLinks]
  | l :: ls, ls' => by
    cases ls' <;>
      simp [sameLinks, unlocatedLinks, same_iff l.rhs, sameLinks_iff ls, and_assoc]
termination_by structural ls => ls

end

theorem unlocated_unlocated (e : TypedExpr) : e.unlocated.unlocated = e.unlocated := by
  induction e using nested_induction
      (L := fun ls => unlocatedLinks (unlocatedLinks ls) = unlocatedLinks ls) with
  | _ => simp_all [unlocated, unlocatedLinks]

theorem same_unlocated (a b : TypedExpr) : a.unlocated.same b.unlocated = a.same b := by
  rw [Bool.eq_iff_iff, same_iff, same_iff, unlocated_unlocated, unlocated_unlocated]

theorem erase_unlocated (e : TypedExpr) : e.unlocated.erase = e.erase.unlocated := by
  induction e using nested_induction
      (L := fun ls => eraseLinks (unlocatedLinks ls) = Expr.unlocatedLinks (eraseLinks ls)) with
  | quant q bs r body _ _ ihq ihr ihbody =>
    simp only [unlocated, erase, Expr.unlocated, ihq, ihr, ihbody, List.map_map,
      Function.comp_def, Binder.unlocated]
  | _ =>
    simp_all only [unlocated, unlocatedLinks, erase, eraseLinks, Expr.unlocated,
      Expr.unlocatedLinks, Binder.unlocated]

theorem text_unlocated (e : TypedExpr) : e.unlocated.text = e.text := by
  rw [text, text, erase_unlocated, Expr.text_unlocated]

theorem asName?_unlocated (e : TypedExpr) :
    e.unlocated.asName? = e.asName?.map Name.unlocated := by
  cases e <;> rfl

theorem freeVars_unlocated (e : TypedExpr) : e.unlocated.freeVars = e.freeVars := by
  induction e using nested_induction
      (L := fun ls => freeVarsLinks (unlocatedLinks ls) = freeVarsLinks ls) with
  | quant q bs r body _ _ ihq ihr ihbody =>
    simp only [unlocated, freeVars, ihq, ihr, ihbody, List.map_map, Function.comp_def,
      Binder.unlocated, Name.text_unlocated]
  | _ =>
    simp_all only [unlocated, unlocatedLinks, freeVars, freeVarsLinks, Binder.unlocated,
      Name.text_unlocated]

/-! ## Building typed expressions -/

theorem unlocated_ofLit (l : Lit) : (ofLit l).unlocated = ofLit l := by
  simp only [ofLit, unlocated, Lit.unlocated_ty]

theorem apply_unlocated (f a : TypedExpr) :
    apply f.unlocated a.unlocated = (apply f a).unlocated := by
  simp only [apply, unlocated, ty_unlocated, loc_unlocated, Ty.asFunc?_unlocated, Loc.none_merge]
  cases f.ty.asFunc? <;> rfl

theorem unary_unlocated (o : ArithOp) (e : TypedExpr) :
    unary o e.unlocated = (unary o e).unlocated := by
  have hop : (ofOp o).unlocated = ofOp o := by simp only [ofOp, unlocated, ArithOp.unlocated_ty]
  rw [unary, unary, ← apply_unlocated, hop]

theorem binary_unlocated (o : ArithOp) (l r : TypedExpr) :
    binary o l.unlocated r.unlocated = (binary o l r).unlocated := by
  have hunary : apply (ofOp o) l.unlocated = (apply (ofOp o) l).unlocated := unary_unlocated o l
  rw [binary, binary, ← apply_unlocated, hunary]

theorem foldl_binary_unlocated (o : ArithOp) (es : List TypedExpr) (e : TypedExpr) :
    (es.map unlocated).foldl (binary o) e.unlocated = (es.foldl (binary o) e).unlocated := by
  rw [List.foldl_map]
  apply List.foldl_hom unlocated
  exact binary_unlocated o

theorem conjunction_unlocated (es : List TypedExpr) :
    conjunction (es.map unlocated) = (conjunction es).unlocated := by
  cases es with
  | nil => exact (unlocated_ofLit _).symm
  | cons e es => exact foldl_binary_unlocated .conj es e

theorem disjunction_unlocated (es : List TypedExpr) :
    disjunction (es.map unlocated) = (disjunction es).unlocated := by
  cases es with
  | nil => exact (unlocated_ofLit _).symm
  | cons e es => exact foldl_binary_unlocated .disj es e

theorem compare_unlocated (l : TypedExpr) (o : ChainOp) (r : TypedExpr) :
    compare l.unlocated o r.unlocated = (compare l o r).unlocated := by
  have hfuncs : Ty.funcs [l.ty.unlocated, r.ty.unlocated] .bool =
      (Ty.funcs [l.ty, r.ty] .bool).unlocated := Ty.funcs_unlocated [l.ty, r.ty] .bool
  simp only [compare, unlocated, unlocatedLinks, ty_unlocated, loc_unlocated, hfuncs]
  rfl

theorem quantify_unlocated (o : ArithOp) (bs : List Binder) (range body : TypedExpr) :
    quantify o (bs.map Binder.unlocated) range.unlocated body.unlocated =
      (quantify o bs range body).unlocated := by
  simp only [quantify, ofOp, unlocated, ty_unlocated, ArithOp.unlocated_ty]

end TypedExpr

/-! ## Substitution -/

def ExprSubst.unlocated (s : ExprSubst) : ExprSubst := s.map TypedExpr.unlocated

namespace TypedExpr

def UnderBinders.unlocated (u : UnderBinders) : UnderBinders :=
  ⟨u.binders.map Binder.unlocated, ExprSubst.unlocated u.inner⟩

theorem renameBinders_unlocated (captured : NameSet) (bs : List Binder) (avoid : NameSet)
    (inner : ExprSubst) :
    renameBinders captured (bs.map Binder.unlocated) avoid (ExprSubst.unlocated inner) =
      (renameBinders captured bs avoid inner).unlocated := by
  induction bs generalizing avoid inner with
  | nil => rfl
  | cons b bs ih =>
    simp only [List.map_cons, renameBinders]
    by_cases hmem : b.name.text ∈ captured
    · have hmem' : b.unlocated.name.text ∈ captured := hmem
      have hrest : ∀ x : Name, renameBinders captured (bs.map Binder.unlocated)
          (avoid.insert x.text) ((ExprSubst.unlocated inner).insert b.name.text
            (ofVar x.unlocated b.ty.unlocated)) =
          (renameBinders captured bs (avoid.insert x.text)
            (inner.insert b.name.text (ofVar x b.ty))).unlocated := by
        intro x
        rw [← ih]
        exact congrArg _ (NameMap.insert_map unlocated inner b.name.text (ofVar x b.ty))
      rw [if_pos hmem, if_pos hmem']
      exact congrArg (fun rest : UnderBinders => UnderBinders.mk (_ :: rest.binders) rest.inner)
        (hrest ⟨Fresh.inScopes b.name.text [avoid], b.name.loc⟩)
    · have hmem' : b.unlocated.name.text ∉ captured := hmem
      rw [if_neg hmem, if_neg hmem', ih]
      rfl

theorem underBinders_unlocated (s : ExprSubst) (bs : List Binder) (free : NameSet) :
    underBinders (ExprSubst.unlocated s) (bs.map Binder.unlocated) free =
      (underBinders s bs free).unlocated := by
  have hbound : (bs.map Binder.unlocated).map (·.name.text) = bs.map (·.name.text) := by
    simp [Binder.unlocated]
  simp only [underBinders, hbound, ExprSubst.unlocated, NameMap.filterKeys_map,
    NameMap.isEmpty_map, NameMap.values_map, NameMap.keys_map, NameSet.unionMap_map,
    freeVars_unlocated]
  split
  · rfl
  · exact renameBinders_unlocated _ bs _ _

theorem substitute_unlocated (s : ExprSubst) (e : TypedExpr) :
    e.unlocated.substitute (ExprSubst.unlocated s) = (e.substitute s).unlocated := by
  induction e using nested_induction (L := fun ls => ∀ s : ExprSubst,
      substituteLinks (ExprSubst.unlocated s) (unlocatedLinks ls) =
        unlocatedLinks (substituteLinks s ls)) generalizing s with
  | var x | const x =>
    simp only [unlocated, substitute, ExprSubst.unlocated, NameMap.get?_map, Name.text_unlocated]
    cases s.get? x.text <;> rfl
  | lam b body _ _ ih =>
    have hunder := underBinders_unlocated s [b] body.freeVars
    have hhead : ∀ bs : List Binder,
        (bs.map Binder.unlocated).headD b.unlocated = (bs.headD b).unlocated := by
      intro bs
      cases bs <;> rfl
    simp only [unlocated, substitute, freeVars_unlocated]
    rw [List.map_cons, List.map_nil] at hunder
    rw [hunder]
    simp only [UnderBinders.unlocated, hhead, ih]
  | quant q bs r body _ _ ihq ihr ihbody =>
    simp only [unlocated, substitute, freeVars_unlocated, underBinders_unlocated,
      UnderBinders.unlocated, ihq, ihr, ihbody]
  | _ => simp_all only [unlocated, unlocatedLinks, substitute, substituteLinks]

end TypedExpr

/-! ## Renaming of blocks -/

theorem TypedDefinition.boundNames_unlocated (d : TypedDefinition) :
    d.unlocated.boundNames = d.boundNames.map Name.unlocated := by
  cases d with
  | datatype d k => simp [unlocated, boundNames, Datatype.unlocated, Ctor.unlocated]
  | signature n t p l | function n t b l => rfl

theorem TypedProgram.map_text_boundNames (p : TypedProgram) :
    (boundNames (unlocated p)).map (·.text) = (boundNames p).map (·.text) := by
  simp [boundNames, unlocated, List.flatMap_map, List.map_flatMap, Declaration.unlocated,
    TypedDefinition.boundNames_unlocated, Function.comp_def]

namespace Renaming

def unlocated (ρ : Renaming) : Renaming := ⟨ρ.names, ExprSubst.unlocated ρ.exprs⟩

theorem insert_unlocated (ρ : Renaming) (d : TypedDeclaration) (old new : String) :
    ρ.unlocated.insert (d.unlocated TypedExpr.unlocated) old new =
      (ρ.insert d old new).unlocated := by
  have hinsert : ∀ e : TypedExpr, (ExprSubst.unlocated ρ.exprs).insert old e.unlocated = _ :=
    fun e => NameMap.insert_map TypedExpr.unlocated ρ.exprs old e
  obtain ⟨sort, names, ty, prop, loc⟩ := d
  cases sort with
  | const => exact congrArg (Renaming.mk _) (hinsert (.ofConst (.bare new) ty))
  | var => exact congrArg (Renaming.mk _) (hinsert (.ofVar (.bare new) ty))

theorem name_unlocated (ρ : Renaming) (x : Name) :
    ρ.unlocated.name x.unlocated = (ρ.name x).unlocated := rfl

theorem expr_unlocated (ρ : Renaming) (e : TypedExpr) :
    ρ.unlocated.expr e.unlocated = (ρ.expr e).unlocated :=
  TypedExpr.substitute_unlocated ρ.exprs e

theorem without_unlocated (ρ : Renaming) (hidden : NameSet) :
    ρ.unlocated.without hidden = (ρ.without hidden).unlocated := by
  simp only [without, unlocated, ExprSubst.unlocated, NameMap.filterKeys_map]

theorem stmts_unlocated (ρ : Renaming) (ss : List TypedStmt) :
    ρ.unlocated.stmts (TypedStmt.unlocatedList ss) = TypedStmt.unlocatedList (ρ.stmts ss) := by
  induction ss using Stmt.nested_induction (S := fun s => ∀ ρ : Renaming,
        ρ.unlocated.stmt (TypedStmt.unlocated s) = TypedStmt.unlocated (ρ.stmt s))
      (C := fun cs => ∀ ρ : Renaming,
        ρ.unlocated.cmds (TypedStmt.unlocatedCmds cs) = TypedStmt.unlocatedCmds (ρ.cmds cs))
      generalizing ρ with
  | simple s hs =>
    cases s with
    | loop | cond | block => cases hs
    | _ =>
      simp only [Stmt.unlocated, stmt, List.map_map, Option.map_map, Function.comp_def,
        name_unlocated, expr_unlocated]
  | block b _ ih ρ =>
    have hnames := TypedProgram.map_text_boundNames b
    rw [TypedProgram.unlocated] at hnames
    simp only [Stmt.unlocated, stmt, hnames, without_unlocated, ih]
  | noCmds | nil => simp only [Stmt.unlocatedCmds, Stmt.unlocatedList, cmds, stmts]
  | _ =>
    simp_all only [Stmt.unlocated, Stmt.unlocatedCmds, Stmt.unlocatedList, stmt, cmds, stmts,
      expr_unlocated]

end Renaming

namespace TypedStmt

theorem blockNamesList_unlocated (ss : List TypedStmt) :
    Stmt.blockNamesList (unlocatedList ss) = Stmt.blockNamesList ss := by
  induction ss using Stmt.nested_induction (S := fun s => (unlocated s).blockNames = s.blockNames)
      (C := fun cs => Stmt.blockNamesCmds (unlocatedCmds cs) = Stmt.blockNamesCmds cs) with
  | simple s => cases s <;> simp_all [Stmt.isSimple, Stmt.unlocated, Stmt.blockNames]
  | block b _ ih =>
    have hnames := TypedProgram.map_text_boundNames b
    rw [TypedProgram.unlocated] at hnames
    simp only [Stmt.unlocated, Stmt.blockNames, hnames, ih]
  | _ =>
    simp_all only [Stmt.unlocated, Stmt.unlocatedCmds, Stmt.unlocatedList, Stmt.blockNames,
      Stmt.blockNamesCmds, Stmt.blockNamesList]

end TypedStmt

theorem TypedProgram.declaredNames_unlocated (p : TypedProgram) :
    declaredNames (unlocated p) = declaredNames p := by
  rw [declaredNames, declaredNames, map_text_boundNames, unlocated,
    TypedStmt.blockNamesList_unlocated]

/-! ## Weakest preconditions -/

def VerificationError.unlocated : VerificationError → VerificationError
  | .nestedArray _ => .nestedArray .none
  | .missingAssertion _ => .missingAssertion .none

namespace Wp

open TypedExpr

namespace OpenBlock

def unlocated (b : OpenBlock) : OpenBlock := ⟨b.renames.unlocated, b.scope, b.avoid⟩

theorem declare_unlocated (scopes : Scopes) (postFree : NameSet) (d : TypedDeclaration)
    (b : OpenBlock) (x : Name) :
    declare scopes postFree (d.unlocated TypedExpr.unlocated) b.unlocated x.unlocated =
      (declare scopes postFree d b x).unlocated := by
  simp only [declare]
  rw [apply_ite unlocated]
  apply ite_congr rfl
  · intro _
    exact congrArg (fun ρ => OpenBlock.mk ρ _ _) (Renaming.insert_unlocated b.renames d x.text _)
  · intro _
    rfl

theorem ofBlock_unlocated (scopes : Scopes) (p : TypedProgram) (post : TypedExpr) :
    ofBlock scopes (TypedProgram.unlocated p) post.unlocated =
      (ofBlock scopes p post).unlocated := by
  have hnames : ∀ (b : OpenBlock) (d : TypedDeclaration),
      (d.unlocated TypedExpr.unlocated).names.foldl
          (declare scopes post.freeVars (d.unlocated TypedExpr.unlocated)) b.unlocated =
        (d.names.foldl (declare scopes post.freeVars d) b).unlocated := by
    intro b d
    rw [Declaration.unlocated, List.foldl_map]
    apply List.foldl_hom unlocated
    exact declare_unlocated scopes post.freeVars d
  simp only [ofBlock, freeVars_unlocated, TypedProgram.declaredNames_unlocated]
  rw [TypedProgram.unlocated, List.foldl_map]
  exact @List.foldl_hom _ _ _ unlocated _ _ _ ⟨.empty, ∅, _⟩ hnames

end OpenBlock

variable (o : Options) (scopes : Scopes)

theorem assign_unlocated (xs : List Name) (es : List TypedExpr) (post : TypedExpr) :
    assign (xs.map Name.unlocated) (es.map TypedExpr.unlocated) post.unlocated =
      (assign xs es post).unlocated := by
  have hentries : ((xs.map Name.unlocated).zip (es.map TypedExpr.unlocated)).map
      (fun e => (e.1.text, e.2)) =
      ((xs.zip es).map fun e => (e.1.text, e.2)).map fun e => (e.1, e.2.unlocated) := by
    simp [List.zip_map]
  rw [assign, hentries, NameMap.ofList_map]
  exact substitute_unlocated _ post

theorem substitute_singleton_unlocated (post e : TypedExpr) (x : String) :
    post.unlocated.substitute (.singleton x e.unlocated) =
      (post.substitute (.singleton x e)).unlocated :=
  substitute_unlocated (.singleton x e) post

theorem arrayAssign_unlocated (a i v : TypedExpr) (loc : Loc) (post : TypedExpr) :
    arrayAssign a.unlocated i.unlocated v.unlocated .none post.unlocated =
      Except.mirror VerificationError.unlocated TypedExpr.unlocated
        (arrayAssign a i v loc post) := by
  simp only [arrayAssign, asName?_unlocated]
  cases a.asName? with
  | none => rfl
  | some x =>
    rw [ty_unlocated]
    exact congrArg Except.ok
      (substitute_singleton_unlocated post (.update a i v a.ty loc) x.text)

theorem cells_unlocated (base : TypedExpr) (es : List TypedExpr) :
    cells base.unlocated (es.map TypedExpr.unlocated) = (cells base es).unlocated := by
  have haddress : ∀ i : Nat, address base.unlocated i = (address base i).unlocated := by
    intro i
    simp only [address]
    rw [apply_ite TypedExpr.unlocated, ← binary_unlocated, ofNum, unlocated_ofLit]
  have hcells : (es.map TypedExpr.unlocated).mapIdx
      (fun i e => pointsTo (address base.unlocated i) e) =
      (es.mapIdx fun i e => pointsTo (address base i) e).map TypedExpr.unlocated := by
    apply List.ext_getElem
    · simp
    · intro i _ _
      simp [haddress, pointsTo, binary_unlocated]
  rw [cells, hcells, cells]
  cases es.mapIdx fun i e => pointsTo (address base i) e with
  | nil => exact (unlocated_ofLit _).symm
  | cons c cs => exact foldl_binary_unlocated .sepConj cs c

theorem namesOf_unlocated (es : List TypedExpr) :
    namesOf (es.map TypedExpr.unlocated) = namesOf es := by
  rw [namesOf, NameSet.unionMap_map]
  simp only [freeVars_unlocated]
  rfl

theorem unlocated_heapVar (avoid : NameSet) :
    (heapVar o scopes avoid).unlocated = heapVar o scopes avoid := rfl

theorem unlocated_ofVar_heapVar (avoid : NameSet) :
    (ofVar (heapVar o scopes avoid).name .int).unlocated =
      ofVar (heapVar o scopes avoid).name .int := rfl

theorem quantify_heapVar_unlocated (c : ArithOp) (avoid : NameSet) (body : TypedExpr) :
    quantify c [heapVar o scopes avoid] (ofBool true) body.unlocated =
      (quantify c [heapVar o scopes avoid] (ofBool true) body).unlocated := by
  rw [← quantify_unlocated, List.map_cons, List.map_nil, unlocated_heapVar, ofBool,
    unlocated_ofLit]

theorem alloc_unlocated (x : Name) (es : List TypedExpr) (post : TypedExpr) :
    alloc o scopes x.unlocated (es.map TypedExpr.unlocated) post.unlocated =
      (alloc o scopes x es post).unlocated := by
  simp only [alloc, freeVars_unlocated, namesOf_unlocated, Name.text_unlocated]
  generalize (post.freeVars ∪ namesOf es).insert x.text = avoid
  have hcells := cells_unlocated (ofVar (heapVar o scopes avoid).name .int) es
  have hpost := substitute_singleton_unlocated post (ofVar (heapVar o scopes avoid).name .int)
    x.text
  rw [unlocated_ofVar_heapVar] at hcells hpost
  rw [hcells, hpost, implies, binary_unlocated]
  exact quantify_heapVar_unlocated o scopes .conj avoid _

theorem lookup_unlocated (x : Name) (e post : TypedExpr) :
    lookup o scopes x.unlocated e.unlocated post.unlocated =
      (lookup o scopes x e post).unlocated := by
  simp only [lookup, freeVars_unlocated, Name.text_unlocated]
  generalize (post.freeVars ∪ e.freeVars).insert x.text = avoid
  have hcell := binary_unlocated .pointsTo e (ofVar (heapVar o scopes avoid).name .int)
  have hpost := substitute_singleton_unlocated post (ofVar (heapVar o scopes avoid).name .int)
    x.text
  rw [unlocated_ofVar_heapVar] at hcell hpost
  rw [pointsTo, hcell, hpost, sepImp, binary_unlocated, conj, binary_unlocated]
  exact quantify_heapVar_unlocated o scopes .disj avoid _

theorem ownedCell_unlocated (cell : TypedExpr) (avoid : NameSet) :
    ownedCell o scopes cell.unlocated avoid = (ownedCell o scopes cell avoid).unlocated := by
  have hcell := binary_unlocated .pointsTo cell (ofVar (heapVar o scopes avoid).name .int)
  rw [unlocated_ofVar_heapVar] at hcell
  simp only [ownedCell, pointsTo, hcell]
  exact quantify_heapVar_unlocated o scopes .disj avoid _

theorem mutate_unlocated (cell value post : TypedExpr) :
    mutate o scopes cell.unlocated value.unlocated post.unlocated =
      (mutate o scopes cell value post).unlocated := by
  simp only [mutate, sepConj, sepImp, pointsTo, freeVars_unlocated, ownedCell_unlocated,
    binary_unlocated]

theorem dispose_unlocated (cell post : TypedExpr) :
    dispose o scopes cell.unlocated post.unlocated = (dispose o scopes cell post).unlocated := by
  simp only [dispose, sepConj, freeVars_unlocated, ownedCell_unlocated, binary_unlocated]

theorem list_unlocated (post : TypedExpr) (ss : List TypedStmt) :
    list o scopes post.unlocated (TypedStmt.unlocatedList ss) =
      Except.mirror VerificationError.unlocated TypedExpr.unlocated (list o scopes post ss) := by
  refine list.induct
    (fun scopes post ss => list o scopes post.unlocated (TypedStmt.unlocatedList ss) =
      Except.mirror VerificationError.unlocated TypedExpr.unlocated (list o scopes post ss))
    (fun scopes post s => stmt o scopes post.unlocated (TypedStmt.unlocated s) =
      Except.mirror VerificationError.unlocated TypedExpr.unlocated (stmt o scopes post s))
    (fun scopes post cs => cmds o scopes post.unlocated (TypedStmt.unlocatedCmds cs) =
      Except.mirror VerificationError.unlocated (List.map TypedExpr.unlocated)
        (cmds o scopes post cs))
    ?nil ?cons ?skip ?assert ?invariant ?hole ?abort ?assign ?arrayAssign ?loop ?cond ?alloc
    ?lookup ?mutate ?dispose ?block ?noCmds ?moreCmds scopes post ss
  case nil =>
    intro scopes post
    simp only [Stmt.unlocatedList, list, Except.mirror_ok]
  case cons =>
    intro scopes post s ss ihss ihs
    rw [TypedStmt.unlocatedList, Stmt.unlocatedList, list, list, ihss]
    exact Except.mirror_bind ihs
  case cond =>
    intro scopes post cs loc ih
    rw [TypedStmt.unlocated, Stmt.unlocated, stmt, stmt, ih]
    apply Except.mirror_bind
    intro es
    rw [conjunction_unlocated]
    rfl
  case block =>
    intro scopes post b loc opened ih
    have hopened := OpenBlock.ofBlock_unlocated scopes b post
    rw [TypedProgram.unlocated] at hopened
    rw [TypedStmt.unlocated, Stmt.unlocated, stmt, stmt]
    simp only [hopened]
    rw [OpenBlock.unlocated, Renaming.stmts_unlocated]
    exact ih
  case noCmds =>
    intro scopes post
    simp only [Stmt.unlocatedCmds, cmds, Except.mirror_ok, List.map_nil]
  case moreCmds =>
    intro scopes post c cs ihbody ihrest
    rw [TypedStmt.unlocatedCmds, Stmt.unlocatedCmds, cmds, cmds, ihbody]
    apply Except.mirror_bind
    intro body
    rw [ihrest]
    apply Except.mirror_bind
    intro rest
    rw [implies, binary_unlocated]
    rfl
  case abort =>
    intro scopes post loc
    simp only [Stmt.unlocated, stmt, Except.mirror_ok, ofBool, unlocated_ofLit]
  case arrayAssign =>
    intro scopes post a i v loc
    simp only [Stmt.unlocated, stmt]
    exact arrayAssign_unlocated a i v loc post
  all_goals
    intros
    simp only [Stmt.unlocated, stmt, Except.mirror_ok, Except.mirror_error, assign_unlocated,
      alloc_unlocated, lookup_unlocated, mutate_unlocated, dispose_unlocated,
      VerificationError.unlocated]

theorem stmt_unlocated (post : TypedExpr) (s : TypedStmt) :
    stmt o scopes post.unlocated (TypedStmt.unlocated s) =
      Except.mirror VerificationError.unlocated TypedExpr.unlocated (stmt o scopes post s) := by
  have hsingle : ∀ post s, list o scopes post [s] = stmt o scopes post s := by
    intro post s
    rw [list, list]
    rfl
  rw [← hsingle, ← hsingle]
  exact list_unlocated o scopes post [s]

end Wp

end GuardedCommands
