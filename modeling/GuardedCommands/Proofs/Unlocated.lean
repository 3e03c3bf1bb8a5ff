import GuardedCommands.Proofs.Basic
import GuardedCommands.Elaboration.Stmt

/-!
# Trees without locations

Every tree has a form in which all its locations are missing.  Two trees are the same
but for locations exactly when these forms are equal, so what does not depend on
locations can be read off them: the names, the variables and the text of a tree are
those of its form.
-/

namespace GuardedCommands

def Name.unlocated (n : Name) : Name := .bare n.text

namespace Name

@[simp] theorem text_unlocated (n : Name) : n.unlocated.text = n.text := rfl

@[simp] theorem loc_unlocated (n : Name) : n.unlocated.loc = .none := rfl

@[simp] theorem unlocated_unlocated (n : Name) : n.unlocated.unlocated = n.unlocated := rfl

@[simp] theorem same_iff (a b : Name) : a.same b = true ↔ a.unlocated = b.unlocated := by
  simp [same, unlocated, bare]

@[simp] theorem map_text_unlocated (xs : List Name) :
    (xs.map unlocated).map (·.text) = xs.map (·.text) := by
  simp [Function.comp_def]

theorem map_text_eq_iff (xs ys : List Name) :
    xs.map (·.text) = ys.map (·.text) ↔ xs.map unlocated = ys.map unlocated := by
  constructor
  · intro h
    have hbare := congrArg (List.map bare) h
    rwa [List.map_map, List.map_map] at hbare
  · intro h
    simpa [Function.comp_def] using congrArg (List.map (·.text)) h

end Name

/-! ## Expressions -/

namespace Expr

mutual

def unlocated : Expr → Expr
  | .lit l _ => .lit l .none
  | .var x _ => .var x.unlocated .none
  | .const x _ => .const x.unlocated .none
  | .op o _ => .op o .none
  | .chain head links _ => .chain head.unlocated (unlocatedLinks links) .none
  | .app f a _ => .app f.unlocated a.unlocated .none
  | .lam x body _ => .lam x.unlocated body.unlocated .none
  | .quant q xs r b _ =>
    .quant q.unlocated (xs.map Name.unlocated) r.unlocated b.unlocated .none
  | .index a i _ => .index a.unlocated i.unlocated .none
  | .update a i v _ => .update a.unlocated i.unlocated v.unlocated .none
  | .tuple es _ => .tuple (unlocatedItems es) .none
  | .caseOf e cs _ => .caseOf e.unlocated (unlocatedClauses cs) .none

def unlocatedLinks : List (ChainLink Expr) → List (ChainLink Expr)
  | [] => []
  | l :: ls => ⟨l.op, .none, l.rhs.unlocated⟩ :: unlocatedLinks ls

def unlocatedItems : List Expr → List Expr
  | [] => []
  | e :: es => e.unlocated :: unlocatedItems es

def unlocatedClauses : List (CaseClause Expr) → List (CaseClause Expr)
  | [] => []
  | c :: cs => ⟨c.pattern.unlocated, c.body.unlocated, .none⟩ :: unlocatedClauses cs

end

@[simp] theorem loc_unlocated (e : Expr) : e.unlocated.loc = .none := by
  cases e <;> rfl

mutual

@[simp] theorem same_iff : (a b : Expr) → (a.same b = true ↔ a.unlocated = b.unlocated)
  | .lit l _, b | .var x _, b | .const x _, b | .op o _, b => by cases b <;> simp [same, unlocated]
  | .chain head links _, b => by
    cases b <;> simp [same, unlocated, same_iff head, sameLinks_iff links]
  | .app f a _, b => by cases b <;> simp [same, unlocated, same_iff f, same_iff a]
  | .lam x body _, b => by cases b <;> simp [same, unlocated, same_iff body]
  | .quant q xs r body _, b => by
    cases b <;>
      simp [same, unlocated, Name.map_text_eq_iff, same_iff q, same_iff r, same_iff body,
        and_assoc]
  | .index a i _, b => by cases b <;> simp [same, unlocated, same_iff a, same_iff i]
  | .update a i v _, b => by
    cases b <;> simp [same, unlocated, same_iff a, same_iff i, same_iff v, and_assoc]
  | .tuple es _, b => by cases b <;> simp [same, unlocated, sameItems_iff es]
  | .caseOf e cs _, b => by cases b <;> simp [same, unlocated, same_iff e, sameClauses_iff cs]
termination_by structural e => e

theorem sameLinks_iff : (ls ls' : List (ChainLink Expr)) →
    (sameLinks ls ls' = true ↔ unlocatedLinks ls = unlocatedLinks ls')
  | [], ls' => by cases ls' <;> simp [sameLinks, unlocatedLinks]
  | l :: ls, ls' => by
    cases ls' <;> simp [sameLinks, unlocatedLinks, same_iff l.rhs, sameLinks_iff ls]
termination_by structural ls => ls

theorem sameItems_iff : (es es' : List Expr) →
    (sameItems es es' = true ↔ unlocatedItems es = unlocatedItems es')
  | [], es' => by cases es' <;> simp [sameItems, unlocatedItems]
  | e :: es, es' => by cases es' <;> simp [sameItems, unlocatedItems, same_iff e, sameItems_iff es]
termination_by structural es => es

theorem sameClauses_iff : (cs cs' : List (CaseClause Expr)) →
    (sameClauses cs cs' = true ↔ unlocatedClauses cs = unlocatedClauses cs')
  | [], cs' => by cases cs' <;> simp [sameClauses, unlocatedClauses]
  | c :: cs, cs' => by
    cases cs' <;>
      simp [sameClauses, unlocatedClauses, same_iff c.pattern, same_iff c.body,
        sameClauses_iff cs]
termination_by structural cs => cs

end

mutual

@[simp] theorem unlocated_unlocated : (e : Expr) → e.unlocated.unlocated = e.unlocated
  | .lit .. | .var .. | .const .. | .op .. => rfl
  | .chain head links _ => by
    simp only [unlocated, unlocated_unlocated head, unlocatedLinks_unlocatedLinks links]
  | .app f a _ => by simp only [unlocated, unlocated_unlocated f, unlocated_unlocated a]
  | .lam x body _ => by simp only [unlocated, Name.unlocated_unlocated, unlocated_unlocated body]
  | .quant q xs r b _ => by
    simp [unlocated, unlocated_unlocated q, unlocated_unlocated r, unlocated_unlocated b]
  | .index a i _ => by simp only [unlocated, unlocated_unlocated a, unlocated_unlocated i]
  | .update a i v _ => by
    simp only [unlocated, unlocated_unlocated a, unlocated_unlocated i, unlocated_unlocated v]
  | .tuple es _ => by simp only [unlocated, unlocatedItems_unlocatedItems es]
  | .caseOf e cs _ => by
    simp only [unlocated, unlocated_unlocated e, unlocatedClauses_unlocatedClauses cs]

theorem unlocatedLinks_unlocatedLinks : (ls : List (ChainLink Expr)) →
    unlocatedLinks (unlocatedLinks ls) = unlocatedLinks ls
  | [] => rfl
  | l :: ls => by
    simp only [unlocatedLinks, unlocated_unlocated l.rhs, unlocatedLinks_unlocatedLinks ls]

theorem unlocatedItems_unlocatedItems : (es : List Expr) →
    unlocatedItems (unlocatedItems es) = unlocatedItems es
  | [] => rfl
  | e :: es => by
    simp only [unlocatedItems, unlocated_unlocated e, unlocatedItems_unlocatedItems es]

theorem unlocatedClauses_unlocatedClauses : (cs : List (CaseClause Expr)) →
    unlocatedClauses (unlocatedClauses cs) = unlocatedClauses cs
  | [] => rfl
  | c :: cs => by
    simp only [unlocatedClauses, unlocated_unlocated c.pattern, unlocated_unlocated c.body,
      unlocatedClauses_unlocatedClauses cs]

end

theorem quantSign_unlocated (e : Expr) : e.unlocated.quantSign = e.quantSign := by
  cases e with
  | op o _ =>
    cases o with
    | chain o => rfl
    | arith o => cases o <;> rfl
  | _ => rfl

theorem of_unlocated_eq_op {f : Expr} {o : Op} {loc : Loc} (h : f.unlocated = .op o loc) :
    ∃ loc', f = .op o loc' := by
  cases f with
  | op o' loc' =>
    cases h
    exact ⟨loc', rfl⟩
  | _ => cases h

theorem of_unlocated_eq_app {f g a : Expr} {loc : Loc} (h : f.unlocated = .app g a loc) :
    ∃ g' a' loc', f = .app g' a' loc' ∧ g'.unlocated = g := by
  cases f with
  | app g' a' loc' =>
    cases h
    exact ⟨g', a', loc', rfl, rfl⟩
  | _ => cases h

theorem textAt_unlocated (p : Place) (e : Expr) : e.unlocated.textAt p = e.textAt p := by
  refine textAt.induct (fun p e => e.unlocated.textAt p = e.textAt p)
    (fun cs => clausesText (unlocatedClauses cs) = clausesText cs)
    (fun es => itemTexts (unlocatedItems es) = itemTexts es)
    (fun ls => linksText (unlocatedLinks ls) = linksText ls)
    ?lit ?var ?const ?op ?chain ?unary ?half ?overfull ?binary ?app ?lam ?quant ?index ?update
    ?tuple ?caseOf ?noLinks ?moreLinks ?noItems ?moreItems ?noClauses ?moreClauses p e
  case app =>
    intro p f a loc hop hbinary ihf iha
    -- An operator with all its operands stays one, and nothing else becomes one.
    have hop' : ∀ o loc, f.unlocated = .op (.arith o) loc → False := by
      intro o loc h
      obtain ⟨loc', hf⟩ := of_unlocated_eq_op h
      exact hop o loc' hf
    have hbinary' : ∀ o loc l loc', f.unlocated = .app (.op (.arith o) loc) l loc' → False := by
      intro o loc l loc' h
      obtain ⟨g, l', loc'', hf, hg⟩ := of_unlocated_eq_app h
      obtain ⟨loc₀, rfl⟩ := of_unlocated_eq_op hg
      exact hbinary o loc₀ l' loc'' hf
    rw [unlocated, textAt.eq_8 _ _ _ _ hop' hbinary', textAt.eq_8 _ _ _ _ hop hbinary, ihf, iha]
  case quant =>
    intro p q xs range body loc ihq ihrange ihbody
    simp only [unlocated, textAt, quantSign_unlocated, Name.map_text_unlocated, ihq, ihrange,
      ihbody]
  all_goals
    intros
    simp_all [unlocated, unlocatedLinks, unlocatedItems, unlocatedClauses, textAt, linksText,
      itemTexts, clausesText]

@[simp] theorem text_unlocated (e : Expr) : e.unlocated.text = e.text := textAt_unlocated .top e

@[simp] theorem isHash_unlocated (e : Expr) : e.unlocated.isHash = e.isHash := by
  cases e with
  | op o _ =>
    cases o with
    | chain o => rfl
    | arith o => cases o <;> rfl
  | _ => rfl

@[simp] theorem asName?_unlocated (e : Expr) :
    e.unlocated.asName? = e.asName?.map Name.unlocated := by
  cases e <;> rfl

end Expr

/-! ## Types and kinds -/

namespace Endpoint

def unlocated : Endpoint → Endpoint
  | .including e => .including e.unlocated
  | .excluding e => .excluding e.unlocated

@[simp] theorem same_iff (a b : Endpoint) : a.same b = true ↔ a.unlocated = b.unlocated := by
  cases a <;> cases b <;> simp [same, unlocated]

@[simp] theorem unlocated_unlocated (a : Endpoint) : a.unlocated.unlocated = a.unlocated := by
  cases a <;> simp [unlocated]

end Endpoint

namespace Interval

def unlocated (i : Interval) : Interval := ⟨i.lo.unlocated, i.hi.unlocated, .none⟩

@[simp] theorem same_iff (i j : Interval) : i.same j = true ↔ i.unlocated = j.unlocated := by
  simp [same, unlocated]

@[simp] theorem unlocated_unlocated (i : Interval) : i.unlocated.unlocated = i.unlocated := by
  simp [unlocated]

@[simp] theorem text_unlocated (i : Interval) : i.unlocated.text = i.text := by
  obtain ⟨lo, hi, loc⟩ := i
  cases lo <;> cases hi <;> simp [text, unlocated, Endpoint.unlocated]

end Interval

namespace Ty

def unlocated : Ty → Ty
  | .base b _ => .base b .none
  | .array i t _ => .array i.unlocated t.unlocated .none
  | .tuple n _ => .tuple n .none
  | .arrow _ => .arrow .none
  | .app f a _ => .app f.unlocated a.unlocated .none
  | .data n => .data n.unlocated
  | .rigid n => .rigid n.unlocated
  | .metavar n => .metavar n.unlocated

@[simp] theorem loc_unlocated (t : Ty) : t.unlocated.loc = .none := by
  cases t <;> rfl

@[simp] theorem same_iff (t u : Ty) : t.same u = true ↔ t.unlocated = u.unlocated := by
  induction t generalizing u with
  | app f a _ ihf iha => cases u <;> simp [same, unlocated, ihf, iha]
  | array i t _ ih => cases u <;> simp [same, unlocated, ih]
  | _ => cases u <;> simp [same, unlocated]

@[simp] theorem unlocated_unlocated (t : Ty) : t.unlocated.unlocated = t.unlocated := by
  induction t with
  | app f a _ ihf iha => simp only [unlocated, ihf, iha]
  | array i t _ ih => simp only [unlocated, ih, Interval.unlocated_unlocated]
  | _ => rfl

theorem of_unlocated_eq_arrow {t : Ty} {loc : Loc} (h : t.unlocated = .arrow loc) :
    ∃ loc', t = .arrow loc' := by
  cases t with
  | arrow loc' => exact ⟨loc', rfl⟩
  | _ => cases h

theorem of_unlocated_eq_app {t f a : Ty} {loc : Loc} (h : t.unlocated = .app f a loc) :
    ∃ f' a' loc', t = .app f' a' loc' ∧ f'.unlocated = f := by
  cases t with
  | app f' a' loc' =>
    cases h
    exact ⟨f', a', loc', rfl, rfl⟩
  | _ => cases h

theorem textAt_unlocated (p : Place) (t : Ty) : t.unlocated.textAt p = t.textAt p := by
  fun_induction textAt p t with
  | case6 p head arg loc hfunc ihhead iharg =>
    have hfunc' : ∀ loc dom loc', head.unlocated = .app (.arrow loc) dom loc' → False := by
      intro loc dom loc' h
      obtain ⟨f, dom', loc'', hhead, hf⟩ := of_unlocated_eq_app h
      obtain ⟨loc₀, rfl⟩ := of_unlocated_eq_arrow hf
      exact hfunc loc₀ dom' loc'' hhead
    rw [unlocated, textAt.eq_6 _ _ _ _ hfunc', ihhead, iharg]
  | _ => simp_all [unlocated, textAt]

@[simp] theorem text_unlocated (t : Ty) : t.unlocated.text = t.text := textAt_unlocated .top t

/-! ### What is built from types -/

@[simp] theorem apply_unlocated (t u : Ty) :
    apply t.unlocated u.unlocated = (apply t u).unlocated := by
  simp [apply, unlocated]

@[simp] theorem func_unlocated (t u : Ty) :
    func t.unlocated u.unlocated = (func t u).unlocated := by
  simp [func, unlocated]

@[simp] theorem funcs_unlocated (ts : List Ty) (u : Ty) :
    funcs (ts.map unlocated) u.unlocated = (funcs ts u).unlocated := by
  induction ts with
  | nil => rfl
  | cons t ts ih =>
    have hcons : ∀ (t : Ty) ts u, funcs (t :: ts) u = func t (funcs ts u) := fun _ _ _ => rfl
    rw [List.map_cons, hcons, hcons, ih, func_unlocated]

@[simp] theorem freeVars_unlocated (t : Ty) : t.unlocated.freeVars = t.freeVars := by
  induction t with
  | app f a _ ihf iha => simp only [unlocated, freeVars, ihf, iha]
  | array i t _ ih => simp only [unlocated, freeVars, ih]
  | _ => rfl

@[simp] theorem metavars_unlocated (t : Ty) : t.unlocated.metavars = t.metavars := by
  induction t with
  | app f a _ ihf iha => simp only [unlocated, metavars, ihf, iha]
  | array i t _ ih => simp only [unlocated, metavars, ih]
  | _ => rfl

@[simp] theorem rigidVars_unlocated (t : Ty) : t.unlocated.rigidVars = t.rigidVars := by
  induction t with
  | app f a _ ihf iha => simp only [unlocated, rigidVars, ihf, iha]
  | array i t _ ih => simp only [unlocated, rigidVars, ih]
  | _ => rfl

@[simp] theorem asFunc?_unlocated (t : Ty) :
    t.unlocated.asFunc? = t.asFunc?.map (Prod.map unlocated unlocated) := by
  cases t with
  | app f cod _ =>
    cases f with
    | app g dom _ => cases g <;> rfl
    | _ => rfl
  | _ => rfl

end Ty

/-! ## Finite sets and maps -/

theorem NameSet.unionMap_map {α β : Type} (f : β → NameSet) (g : α → β) (as : List α) :
    unionMap f (as.map g) = unionMap (fun a => f (g a)) as := by
  induction as with
  | nil => rfl
  | cons a as ih => simp only [List.map_cons, unionMap, ih]

namespace NameMap

variable {α β : Type} (f : α → β)

theorem place_map (x : String) (a : α) (l : List (String × α)) :
    place x (f a) (l.map fun e => (e.1, f e.2)) = (place x a l).map fun e => (e.1, f e.2) := by
  induction l with
  | nil => rfl
  | cons e rest ih =>
    simp only [List.map_cons, place, ih]
    split
    · rfl
    · split
      · rfl
      · rfl

@[simp] theorem insert_map (m : NameMap α) (x : String) (a : α) :
    (m.map f).insert x (f a) = (m.insert x a).map f :=
  NameMap.ext (place_map f x a m.toList)

@[simp] theorem insertAll_map (m : NameMap α) (es : List (String × α)) :
    (m.map f).insertAll (es.map fun e => (e.1, f e.2)) = (m.insertAll es).map f := by
  induction es generalizing m with
  | nil => rfl
  | cons e es ih =>
    have hcons : ∀ {γ : Type} (m : NameMap γ) e es,
        m.insertAll (e :: es) = (m.insert e.1 e.2).insertAll es := fun _ _ _ => rfl
    rw [List.map_cons, hcons, hcons, insert_map, ih]

@[simp] theorem ofList_map (es : List (String × α)) :
    ofList (es.map fun e => (e.1, f e.2)) = (ofList es).map f :=
  insertAll_map f ∅ es

@[simp] theorem override_map (m n : NameMap α) :
    (m.map f).override (n.map f) = (m.override n).map f :=
  insertAll_map f n m.toList

@[simp] theorem filterKeys_map (p : String → Bool) (m : NameMap α) :
    (m.map f).filterKeys p = (m.filterKeys p).map f :=
  NameMap.ext (by simp [filterKeys, map, List.filter_map, Function.comp_def])

@[simp] theorem keys_map (m : NameMap α) : (m.map f).keys = m.keys :=
  NameSet.ext (by simp [keys, map, Function.comp_def])

@[simp] theorem isEmpty_map (m : NameMap α) : (m.map f).isEmpty = m.isEmpty := by
  simp [isEmpty, map]

@[simp] theorem values_map (m : NameMap α) : (m.map f).values = m.values.map f := by
  simp [values, map, Function.comp_def]

theorem map_map_of_comm {f : α → β} {g : β → β} {h : α → α} (hcomm : ∀ a, g (f a) = f (h a))
    (m : NameMap α) : (m.map f).map g = (m.map h).map f :=
  NameMap.ext (by simp [map, hcomm])

end NameMap

namespace Ty

def Subst.unlocated (s : Subst) : Subst := s.map Ty.unlocated

@[simp] theorem subst_unlocated (s : Subst) (t : Ty) :
    t.unlocated.subst s.unlocated = (t.subst s).unlocated := by
  induction t with
  | rigid n | metavar n =>
    simp only [unlocated, subst, Subst.unlocated, NameMap.get?_map, Name.text_unlocated]
    cases s.get? n.text <;> rfl
  | app f a _ ihf iha => simp only [unlocated, subst, ihf, iha]
  | array i t _ ih => simp only [unlocated, subst, ih]
  | _ => rfl

@[simp] theorem Subst.compose_unlocated (s t : Subst) :
    s.unlocated.compose t.unlocated = (s.compose t).unlocated := by
  calc s.unlocated.compose t.unlocated
      = s.unlocated.override ((t.map Ty.unlocated).map (Ty.subst s.unlocated)) := rfl
    _ = s.unlocated.override ((t.map (Ty.subst s)).map Ty.unlocated) := by
        rw [NameMap.map_map_of_comm (subst_unlocated s)]
    _ = (s.compose t).unlocated := NameMap.override_map Ty.unlocated s _

end Ty

/-! ## Programs -/

section Same

variable {α : Type} {f : α → α} {same : α → α → Bool}

theorem sameList_iff (h : ∀ a b, same a b = true ↔ f a = f b) (as bs : List α) :
    sameList same as bs = true ↔ as.map f = bs.map f := by
  induction as generalizing bs with
  | nil => cases bs <;> simp [sameList]
  | cons a as ih => cases bs <;> simp [sameList, h, ih]

theorem sameOption_iff (h : ∀ a b, same a b = true ↔ f a = f b) (a b : Option α) :
    sameOption same a b = true ↔ a.map f = b.map f := by
  cases a <;> cases b <;> simp [sameOption, h]

end Same

def Ctor.unlocated (c : Ctor) : Ctor := ⟨c.name.unlocated, c.args.map Ty.unlocated, .none⟩

theorem Ctor.same_iff (a b : Ctor) : a.same b = true ↔ a.unlocated = b.unlocated := by
  simp [same, unlocated, sameList_iff Ty.same_iff]

def Datatype.unlocated (d : Datatype) : Datatype :=
  ⟨d.name.unlocated, d.params.map Name.unlocated, d.ctors.map Ctor.unlocated, .none⟩

theorem Datatype.same_iff (a b : Datatype) : a.same b = true ↔ a.unlocated = b.unlocated := by
  simp [same, unlocated, sameList_iff Name.same_iff, sameList_iff Ctor.same_iff, and_assoc]

namespace Definition

def unlocated : Definition → Definition
  | .datatype d => .datatype d.unlocated
  | .signature n t p _ => .signature n.unlocated t.unlocated (p.map Expr.unlocated) .none
  | .function n cs _ => .function n.unlocated (cs.map Expr.unlocated) .none

@[simp] theorem loc_unlocated (d : Definition) : d.unlocated.loc = .none := by
  cases d <;> rfl

theorem same_iff (a b : Definition) : a.same b = true ↔ a.unlocated = b.unlocated := by
  cases a <;> cases b <;>
    simp [same, unlocated, Datatype.same_iff, sameOption_iff Expr.same_iff,
      sameList_iff Expr.same_iff, and_assoc]

end Definition

def Declaration.unlocated {ε : Type} (f : ε → ε) (d : Declaration ε) : Declaration ε :=
  ⟨d.sort, d.names.map Name.unlocated, d.ty.unlocated, d.prop.map f, .none⟩

theorem Declaration.same_iff (a b : Declaration Expr) :
    a.same b = true ↔ a.unlocated Expr.unlocated = b.unlocated Expr.unlocated := by
  simp [same, unlocated, sameList_iff Name.same_iff, sameOption_iff Expr.same_iff, and_assoc]

namespace Stmt

variable {ε δ η : Type} (f : ε → ε) (g : δ → δ) (h : η → η)

mutual

def unlocated : Stmt ε δ η → Stmt ε δ η
  | .skip _ => .skip .none
  | .abort _ => .abort .none
  | .assign xs es _ => .assign (xs.map Name.unlocated) (es.map f) .none
  | .arrayAssign a i v _ => .arrayAssign (f a) (f i) (f v) .none
  | .assert e _ => .assert (f e) .none
  | .invariant e b _ => .invariant (f e) (b.map f) .none
  | .loop cs _ => .loop (unlocatedCmds cs) .none
  | .cond cs _ => .cond (unlocatedCmds cs) .none
  | .hole text env _ => .hole text (h env) .none
  | .alloc x es _ => .alloc x.unlocated (es.map f) .none
  | .lookup x e _ => .lookup x.unlocated (f e) .none
  | .mutate c v _ => .mutate (f c) (f v) .none
  | .dispose e _ => .dispose (f e) .none
  | .block b _ => .block
      ⟨b.defns.map g, b.decls.map (·.unlocated f), b.props.map f, unlocatedList b.stmts, .none⟩
      .none

def unlocatedCmds : List (GuardedCmd ε (Stmt ε δ η)) → List (GuardedCmd ε (Stmt ε δ η))
  | [] => []
  | c :: cs => ⟨f c.guard, unlocatedList c.body, .none⟩ :: unlocatedCmds cs

def unlocatedList : List (Stmt ε δ η) → List (Stmt ε δ η)
  | [] => []
  | s :: ss => unlocated s :: unlocatedList ss

end

end Stmt

namespace SourceStmt

abbrev unlocated (s : SourceStmt) : SourceStmt :=
  Stmt.unlocated Expr.unlocated Definition.unlocated id s

abbrev unlocatedCmds (cs : List SourceCmd) : List SourceCmd :=
  Stmt.unlocatedCmds Expr.unlocated Definition.unlocated id cs

abbrev unlocatedList (ss : List SourceStmt) : List SourceStmt :=
  Stmt.unlocatedList Expr.unlocated Definition.unlocated id ss

mutual

theorem same_iff : (s t : SourceStmt) → (s.same t = true ↔ unlocated s = unlocated t)
  | .skip _, t | .abort _, t => by cases t <;> simp [Stmt.same, Stmt.unlocated]
  | .assign xs es _, t => by
    cases t <;>
      simp [Stmt.same, Stmt.unlocated, sameList_iff Name.same_iff, sameList_iff Expr.same_iff]
  | .arrayAssign a i v _, t => by cases t <;> simp [Stmt.same, Stmt.unlocated, and_assoc]
  | .assert e _, t => by cases t <;> simp [Stmt.same, Stmt.unlocated]
  | .invariant e b _, t => by
    cases t <;> simp [Stmt.same, Stmt.unlocated, sameOption_iff Expr.same_iff]
  | .loop cs _, t
  | .cond cs _, t => by cases t <;> simp [Stmt.same, Stmt.unlocated, sameCmds_iff cs]
  | .hole text _ _, t => by cases t <;> simp [Stmt.same, Stmt.unlocated]
  | .alloc x es _, t => by cases t <;> simp [Stmt.same, Stmt.unlocated, sameList_iff Expr.same_iff]
  | .lookup x e _, t | .mutate c v _, t
  | .dispose e _, t => by cases t <;> simp [Stmt.same, Stmt.unlocated]
  | .block b _, t => by
    cases t <;>
      simp [Stmt.same, Stmt.unlocated, sameList_iff Definition.same_iff,
        sameList_iff Declaration.same_iff, sameList_iff Expr.same_iff, sameStmts_iff b.stmts,
        and_assoc]
termination_by structural s => s

theorem sameCmds_iff : (cs ds : List SourceCmd) →
    (Stmt.sameCmds cs ds = true ↔ unlocatedCmds cs = unlocatedCmds ds)
  | [], ds => by cases ds <;> simp [Stmt.sameCmds, Stmt.unlocatedCmds]
  | c :: cs, ds => by
    cases ds <;>
      simp [Stmt.sameCmds, Stmt.unlocatedCmds, sameStmts_iff c.body, sameCmds_iff cs]
termination_by structural cs => cs

theorem sameStmts_iff : (ss ts : List SourceStmt) →
    (Stmt.sameStmts ss ts = true ↔ unlocatedList ss = unlocatedList ts)
  | [], ts => by cases ts <;> simp [Stmt.sameStmts, Stmt.unlocatedList]
  | s :: ss, ts => by
    cases ts <;> simp [Stmt.sameStmts, Stmt.unlocatedList, same_iff s, sameStmts_iff ss]
termination_by structural ss => ss

end

end SourceStmt

def Program.unlocated (p : Program) : Program :=
  ⟨p.defns.map Definition.unlocated, p.decls.map (·.unlocated Expr.unlocated),
    p.props.map Expr.unlocated, SourceStmt.unlocatedList p.stmts, .none⟩

theorem Program.same_iff (p q : Program) : p.same q = true ↔ p.unlocated = q.unlocated := by
  simp [same, unlocated, sameList_iff Definition.same_iff, sameList_iff Declaration.same_iff,
    sameList_iff Expr.same_iff, SourceStmt.sameStmts_iff, and_assoc]

end GuardedCommands
