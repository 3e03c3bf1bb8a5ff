import GuardedCommands.Elaboration.Program
import GuardedCommands.Proofs.Nesting
import GuardedCommands.Proofs.Renaming

/-!
# Elaborated programs are in scope

Elaboration accepts a name only if the environment has it, and a block only if it
declares nothing that the environment has already.  So what it returns uses
visible names only and hides none of them, and every hole knows the visible names.
It also keeps the kind of every statement, hence a program without heap commands and
holes stays without them.
-/

namespace GuardedCommands

/-! ## What a computation returns -/

/-- Every result of a computation that succeeds is as wanted. -/
def Returns {ε σ α : Type} (m : EStateM ε σ α) (Q : α → Prop) : Prop :=
  ∀ s a s', m s = .ok a s' → Q a

namespace Returns

variable {ε σ α β : Type} {m : EStateM ε σ α} {f : α → EStateM ε σ β} {P : α → Prop}
  {Q : β → Prop}

theorem bind (hm : Returns m P) (hf : ∀ a, P a → Returns (f a) Q) : Returns (m >>= f) Q := by
  intro s b s' h
  obtain ⟨a, s₁, hms, hfs⟩ := EStateM.ok_of_bind h
  exact hf a (hm s a s₁ hms) s₁ b s' hfs

theorem andThen (hf : ∀ a, Returns (f a) Q) : Returns (m >>= f) Q := by
  intro s b s' h
  obtain ⟨a, s₁, -, hfs⟩ := EStateM.ok_of_bind h
  exact hf a s₁ b s' hfs

theorem pure {a : α} (h : P a) : Returns (Pure.pure a : EStateM ε σ α) P := by
  intro s b s' hs
  cases hs
  exact h

theorem throw {e : ε} : Returns (MonadExcept.throw e : EStateM ε σ α) P := by
  intro s b s' hs
  cases hs

theorem mapM {γ : Type} {g : γ → EStateM ε σ α} {R : γ → α → Prop}
    (hg : ∀ c, Returns (g c) (R c)) (cs : List γ) :
    Returns (cs.mapM g) fun as => List.Forall₂ R cs as := by
  induction cs with
  | nil => exact pure .nil
  | cons c cs ih =>
    rw [List.mapM_cons]
    exact (hg c).bind fun a ha => ih.bind fun as has => pure (.cons ha has)

end Returns

/-! ## Visible names -/

namespace TypeEnv

def visible (env : TypeEnv) : Set String := {x | x ∈ env.names.map (·.text)}

@[simp] theorem visible_subst (env : TypeEnv) (s : Ty.Subst) :
    (env.subst s).visible = env.visible := by
  simp [visible, names, subst, Function.comp_def]

@[simp] theorem visible_insert (env : TypeEnv) (x : Name) (info : TypeInfo) :
    (env.insert x info).visible = env.visible ∪ {x.text} := by
  ext z
  simp [visible, names, insert, or_comm]

@[simp] theorem visible_insertAll (env : TypeEnv) (xs : List Name) (info : TypeInfo) :
    (env.insertAll xs info).visible = env.visible ∪ {x | x ∈ xs.map (·.text)} := by
  ext z
  simp [visible, names, insertAll, Function.comp_def]

theorem contains_iff {env : TypeEnv} {x : String} : env.contains x = true ↔ x ∈ env.visible := by
  simp [contains, lookup?, visible, names]

theorem mem_visible_of_lookup? {env : TypeEnv} {x : String} {info : TypeInfo}
    (h : env.lookup? x = some info) : x ∈ env.visible :=
  contains_iff.1 (by simp [contains, h])

end TypeEnv

/-! ## Expressions -/

namespace Expr

open TypedExpr (Within)

theorem nameTy_visible (env : TypeEnv) (x : Name) (loc : Loc) :
    Returns (nameTy env x loc) fun _ => x.text ∈ env.visible := by
  unfold nameTy
  split
  · next h => exact fun _ _ _ _ => TypeEnv.mem_visible_of_lookup? h
  · exact .throw

theorem bindAll_visible (env : TypeEnv) (xs : List Name) :
    Returns (bindAll env xs) fun r =>
      r.1.visible = env.visible ∪ {x | x ∈ xs.map (·.text)} ∧
        r.2.map (·.name.text) = xs.map (·.text) := by
  induction xs generalizing env with
  | nil => exact .pure (by simp)
  | cons x xs ih =>
    unfold bindAll
    refine .andThen fun t => (ih _).bind ?_
    rintro ⟨inner, bs⟩ ⟨hinner, hbs⟩
    refine .pure ⟨?_, by simp_all⟩
    simp only [hinner, TypeEnv.visible_insert]
    ext z
    simp [or_assoc, or_left_comm]

theorem within_union {Γ : Set String} {a b : NameSet} :
    (∀ x ∈ a ∪ b, x ∈ Γ) ↔ (∀ x ∈ a, x ∈ Γ) ∧ ∀ x ∈ b, x ∈ Γ := by
  simp only [NameSet.mem_union, or_imp, forall_and]

mutual

theorem infer_within (env : TypeEnv) :
    (e : Expr) → Returns (e.infer env) fun r => r.1.Within env.visible
  | .lit l loc => by
    rw [infer]
    exact .pure (by simp [Within, TypedExpr.freeVars])
  | .var x loc | .const x loc => by
    rw [infer]
    exact (nameTy_visible env x loc).bind fun t hx => .pure (by simpa [Within, TypedExpr.freeVars])
  | .op (.arith o) loc => by
    rw [infer]
    exact .pure (by simp [Within, TypedExpr.freeVars])
  | .op (.chain o) loc => by
    rw [infer]
    exact .andThen fun t => .pure (by simp [Within, TypedExpr.freeVars])
  | .chain head links loc => by
    rw [infer]
    refine (infer_within env head).bind fun ⟨head', s₁⟩ hhead => ?_
    refine (inferLinks_within env loc head'.ty s₁ links).bind fun ⟨links', s₂⟩ hlinks => ?_
    exact .pure (within_union.2 ⟨hhead, hlinks⟩)
  | .app f a loc => by
    rw [infer]
    refine (infer_within env f).bind fun ⟨f', s₁⟩ hf => ?_
    refine (infer_within (env.subst s₁) a).bind fun ⟨a', s₂⟩ ha => ?_
    rw [TypeEnv.visible_subst] at ha
    exact .andThen fun ⟨t, s₃⟩ => .pure (within_union.2 ⟨hf, ha⟩)
  | .lam x body loc => by
    rw [infer]
    refine .andThen fun param => ?_
    refine (infer_within (env.insert x ⟨.const, param⟩) body).bind fun ⟨body', s⟩ hbody => ?_
    refine .pure fun z hz => ?_
    obtain ⟨hz, hne⟩ := NameSet.mem_erase.1 hz
    have hmem := hbody z hz
    rw [TypeEnv.visible_insert] at hmem
    exact hmem.resolve_right hne
  | .quant q xs range body loc => by
    rw [infer]
    refine (bindAll_visible env xs).bind fun ⟨inner, binders⟩ ⟨hinner, hnames⟩ => ?_
    refine (infer_within inner range).bind fun ⟨range', s₁⟩ hrange => ?_
    refine .andThen fun s₂ => ?_
    refine (infer_within (inner.subst (s₂.compose s₁)) body).bind fun ⟨body', s₃⟩ hbody => ?_
    refine (infer_within _ q).bind fun ⟨q', s₄⟩ hq => ?_
    rw [TypeEnv.visible_subst] at hbody hq
    have hquant : ∀ (t : Ty) (s : Ty.Subst),
        (TypedExpr.quant q' (binders.map (·.subst s)) range' body' t loc).Within env.visible := by
      refine fun t s => within_union.2 ⟨hq, fun z hz => ?_⟩
      obtain ⟨hfree, hbound⟩ := NameSet.mem_sdiff.1 hz
      have hmem : z ∈ inner.visible := within_union.2 ⟨hrange, hbody⟩ z hfree
      rw [hinner] at hmem
      refine hmem.resolve_right fun hz => hbound ?_
      rw [NameSet.mem_ofList, List.map_map]
      exact hnames ▸ hz
    dsimp only
    split
    · exact .andThen fun s₅ => .andThen fun ⟨t, s⟩ => .pure (hquant t s)
    · exact .andThen fun a => .andThen fun s₅ => .andThen fun s₆ => .andThen fun ⟨t, s⟩ =>
        .pure (hquant t s)
  | .index a i loc => by
    rw [infer]
    refine (infer_within env a).bind fun ⟨a', s₁⟩ ha => ?_
    refine (infer_within (env.subst s₁) i).bind fun ⟨i', s₂⟩ hi => ?_
    rw [TypeEnv.visible_subst] at hi
    exact .andThen fun ⟨t, s₃⟩ => .pure (within_union.2 ⟨ha, hi⟩)
  | .update a i v loc => by
    rw [infer]
    refine (infer_within env a).bind fun ⟨a', s₁⟩ ha => ?_
    refine (infer_within (env.subst s₁) i).bind fun ⟨i', s₂⟩ hi => ?_
    refine (infer_within (env.subst (s₂.compose s₁)) v).bind fun ⟨v', s₃⟩ hv => ?_
    rw [TypeEnv.visible_subst] at hi hv
    exact .andThen fun s₄ => .pure (within_union.2 ⟨within_union.2 ⟨ha, hi⟩, hv⟩)
  | .tuple es loc | .caseOf e cs loc => by
    rw [infer]
    exact .throw

theorem inferLinks_within (env : TypeEnv) (loc : Loc) (prev : Ty) (s : Ty.Subst) :
    (links : List (ChainLink Expr)) → Returns (inferLinks env loc prev s links) fun r =>
      ∀ x ∈ TypedExpr.freeVarsLinks r.1, x ∈ env.visible
  | [] => by
    rw [inferLinks]
    exact .pure (by simp [TypedExpr.freeVarsLinks])
  | link :: rest => by
    rw [inferLinks]
    refine (infer_within (env.subst s) link.rhs).bind fun ⟨rhs, s₁⟩ hrhs => ?_
    rw [TypeEnv.visible_subst] at hrhs
    refine .andThen fun opTy => .andThen fun result => .andThen fun s₂ => .andThen fun s₃ => ?_
    refine (inferLinks_within env loc _ _ rest).bind fun ⟨links, s'⟩ hlinks => ?_
    exact .pure (within_union.2 ⟨hrhs, hlinks⟩)

end

theorem expect_within (env : TypeEnv) (expected : Ty) (e : Expr) :
    Returns (e.expect env expected) fun r => r.1.Within env.visible := by
  unfold expect
  exact (infer_within env e).bind fun ⟨typed, s₁⟩ h => .andThen fun s₂ => .pure h

theorem expectEach_within (env : TypeEnv) (s : Ty.Subst) (es : List (Ty × Expr)) :
    Returns (expectEach env s es) fun r => ∀ e ∈ r.1, e.Within env.visible := by
  induction es generalizing s with
  | nil => exact .pure (by simp)
  | cons e es ih =>
    obtain ⟨expected, e⟩ := e
    unfold expectEach
    refine (expect_within _ _ e).bind fun ⟨typed, s₁⟩ htyped => ?_
    rw [TypeEnv.visible_subst] at htyped
    refine (ih _).bind fun ⟨others, s'⟩ hothers => .pure ?_
    exact List.forall_mem_cons.2 ⟨htyped, hothers⟩

theorem expectOption_within (env : TypeEnv) (expected : Ty) (e : Option Expr) :
    Returns (expectOption env expected e) fun r => ∀ e ∈ r.1, e.Within env.visible := by
  cases e with
  | none => exact .pure (by simp)
  | some e =>
    unfold expectOption
    refine (expect_within env expected e).bind fun ⟨typed, s⟩ h => .pure ?_
    simpa using h

end Expr

/-! ## Statements -/

theorem TypedExpr.Within.mono {Γ Δ : Set String} {e : TypedExpr} (h : e.Within Γ) (hΓ : Γ ⊆ Δ) :
    e.Within Δ := fun x hx => hΓ (h x hx)

/-- Some names, and the new names that those of them can get which are in `B`. -/
def withNew (B X : Set String) : Set String :=
  X ∪ {x | ∃ y ∈ X, y ∈ B ∧ ∃ i : Nat, x = y ++ Nat.repr i}

theorem subset_withNew {B X : Set String} : X ⊆ withNew B X := Set.subset_union_left

@[simp] theorem withNew_empty (X : Set String) : withNew ∅ X = X := by
  simp [withNew]

namespace Stmt

mutual

/-- The names that a statement uses are those of `V` and new names for them, no block hides a
name of `V`, and every hole knows the names of `V`. -/
def Seen (B V : Set String) : TypedStmt → Prop
  | .skip _ | .abort _ => True
  | .assign xs es _ => (∀ x ∈ xs, x.text ∈ withNew B V) ∧ ∀ e ∈ es, e.Within (withNew B V)
  | .alloc _ es _ => ∀ e ∈ es, e.Within (withNew B V)
  | .arrayAssign a i v _ => a.Within (withNew B V) ∧ i.Within (withNew B V) ∧ v.Within (withNew B V)
  | .assert e _ | .lookup _ e _ | .dispose e _ => e.Within (withNew B V)
  | .invariant e bound _ => e.Within (withNew B V) ∧ ∀ b ∈ bound, b.Within (withNew B V)
  | .mutate c v _ => c.Within (withNew B V) ∧ v.Within (withNew B V)
  | .loop cs _ | .cond cs _ => CmdsSeen B V cs
  | .hole _ env _ => V ⊆ env.visible
  | .block b _ =>
    b.defns = [] ∧ (∀ x ∈ b.localNames, x ∉ V) ∧ ListSeen B (V ∪ {x | x ∈ b.localNames}) b.stmts

def CmdsSeen (B V : Set String) : List TypedCmd → Prop
  | [] => True
  | c :: cs => c.guard.Within (withNew B V) ∧ ListSeen B V c.body ∧ CmdsSeen B V cs

def ListSeen (B V : Set String) : List TypedStmt → Prop
  | [] => True
  | s :: ss => s.Seen B V ∧ ListSeen B V ss

end

theorem listSeen_iff {B V : Set String} {ss : List TypedStmt} :
    ListSeen B V ss ↔ ∀ s ∈ ss, s.Seen B V := by
  induction ss with
  | nil => simp [ListSeen]
  | cons s ss ih => simp [ListSeen, ih]

theorem ListSeen.scoped {V : Set String} {ss : List TypedStmt} (h : ListSeen ∅ V ss) :
    ListScoped V ss := by
  induction ss using nested_induction (S := fun s => ∀ V, s.Seen ∅ V → s.Scoped V)
      (C := fun cs => ∀ V, CmdsSeen ∅ V cs → CmdsScoped V cs) generalizing V with
  | simple s hs V h => cases s <;> simp_all [isSimple, Seen, Scoped]
  | loop cs _ ih V h | cond cs _ ih V h => exact ih V h
  | block b _ ih V h => exact ⟨h.1, h.2.1, ih h.2.2⟩
  | noCmds V h | nil => trivial
  | cmds c cs ihbody ihrest V h =>
    exact ⟨by simpa using h.1, ihbody h.2.1, ihrest V h.2.2⟩
  | cons s ss ihs ihss => exact ⟨ihs V h.1, ihss h.2⟩

end Stmt

namespace Declaration

theorem declareAll_visible (env : TypeEnv) (ds : List (Declaration Expr)) :
    Returns (declareAll env ds) fun r =>
      r.visible = env.visible ∪ {x | x ∈ (ds.flatMap (·.names)).map (·.text)} := by
  induction ds generalizing env with
  | nil => exact .pure (by simp)
  | cons d ds ih =>
    unfold declareAll
    refine .andThen fun _ => fun st r st' hr => ?_
    rw [ih _ st r st' hr, TypeEnv.visible_insertAll]
    ext z
    simp [or_assoc]

theorem inferProps_names (env : TypeEnv) (s : Ty.Subst) (ds : List (Declaration Expr)) :
    Returns (inferProps env s ds) fun r => r.1.flatMap (·.names) = ds.flatMap (·.names) := by
  induction ds generalizing s with
  | nil => exact .pure rfl
  | cons d ds ih =>
    unfold inferProps
    refine .andThen fun ⟨prop, s₁⟩ => (ih _).bind fun ⟨others, s'⟩ h => .pure ?_
    simp only [List.flatMap_cons, h]

end Declaration

namespace Stmt

theorem mutableTy_visible (env : TypeEnv) (x : Name) :
    Returns (env.mutableTy x) fun _ => x.text ∈ env.visible := by
  unfold TypeEnv.mutableTy
  split
  · exact .throw
  · next h => exact fun _ _ _ _ => TypeEnv.mem_visible_of_lookup? h

theorem checkBlock_spec (env : TypeEnv) (b : Program) :
    Returns (checkBlock env b) fun _ => b.defns = [] ∧ ∀ x ∈ b.localNames, x ∉ env.visible := by
  unfold checkBlock
  cases hdefns : b.defns with
  | cons d ds => exact .bind .throw fun _ h => h
  | nil =>
    cases hfind : (b.decls.flatMap (·.names)).find? fun x => env.contains x.text with
    | some x => exact .bind .throw fun _ h => h
    | none =>
      refine fun st u st' _ => ⟨rfl, fun z hz hmem => ?_⟩
      obtain ⟨x, hx, rfl⟩ := List.mem_map.1 hz
      have hfree := List.find?_eq_none.1 hfind x hx
      exact hfree (TypeEnv.contains_iff.2 hmem)

section Elaborated

variable (B : Set String)

theorem inferAssign_seen (env : TypeEnv) (xs : List Name) (es : List Expr) (loc : Loc) :
    Returns (inferAssign env xs es loc) fun r =>
      r.1.Seen B env.visible ∧ r.1.isPlain = true := by
  unfold inferAssign
  refine (Returns.mapM (mutableTy_visible env) xs).bind fun targets htargets => ?_
  have hxs : ∀ x ∈ xs, x.text ∈ withNew B env.visible := by
    induction htargets with
    | nil => simp
    | cons hx _ ih => exact List.forall_mem_cons.2 ⟨subset_withNew hx, ih⟩
  dsimp only
  split
  · exact .bind .throw fun _ h => h
  · split
    · exact .bind .throw fun _ h => h
    · exact (Expr.expectEach_within env ∅ _).bind fun ⟨es', s⟩ hes =>
        .pure ⟨⟨hxs, fun e he => (hes e he).mono subset_withNew⟩, rfl⟩

theorem inferArrayAssign_seen (env : TypeEnv) (a i v : Expr) (loc : Loc) :
    Returns (inferArrayAssign env a i v loc) fun r =>
      r.1.Seen B env.visible ∧ r.1.isPlain = true := by
  unfold inferArrayAssign
  split
  on_goal 1 => refine .andThen fun _ => ?_
  all_goals
    refine (Expr.infer_within env a).bind fun ⟨a', s₁⟩ ha => ?_
    refine (Expr.infer_within _ i).bind fun ⟨i', s₂⟩ hi => ?_
    refine (Expr.infer_within _ v).bind fun ⟨v', s₃⟩ hv => ?_
    rw [TypeEnv.visible_subst] at hi hv
    exact .andThen fun s₄ => .pure ⟨⟨ha.mono subset_withNew, hi.mono subset_withNew,
      hv.mono subset_withNew⟩, rfl⟩

mutual

theorem infer_seen (env : TypeEnv) :
    (s : SourceStmt) → Returns (infer env s) fun r =>
      r.1.Seen B env.visible ∧ r.1.isPlain = s.isPlain
  | .skip loc | .abort loc => by
    rw [infer]
    exact .pure ⟨trivial, rfl⟩
  | .assign xs es loc => by
    rw [infer]
    exact inferAssign_seen B env xs es loc
  | .arrayAssign a i v loc => by
    rw [infer]
    exact inferArrayAssign_seen B env a i v loc
  | .assert e loc => by
    rw [infer]
    exact (Expr.expect_within env .bool e).bind fun ⟨e', s⟩ he =>
      .pure ⟨he.mono subset_withNew, rfl⟩
  | .invariant inv bound loc => by
    rw [infer]
    refine (Expr.expect_within env .bool inv).bind fun ⟨inv', s⟩ hinv => ?_
    refine (Expr.expectOption_within (env.subst s) .int bound).bind fun ⟨bound', s₁⟩ hbound => ?_
    rw [TypeEnv.visible_subst] at hbound
    exact .pure ⟨⟨hinv.mono subset_withNew, fun b hb => (hbound b hb).mono subset_withNew⟩, rfl⟩
  | .loop cs loc | .cond cs loc => by
    rw [infer]
    exact (inferCmds_seen env ∅ cs).bind fun ⟨cs', s⟩ hcs => .pure hcs
  | .hole text _ loc => by
    rw [infer]
    exact .pure ⟨Set.Subset.refl _, rfl⟩
  | .alloc x es loc => by
    rw [infer]
    refine .andThen fun s₁ => (Expr.expectEach_within _ ∅ _).bind fun ⟨es', s₂⟩ hes => ?_
    rw [TypeEnv.visible_subst] at hes
    exact .pure ⟨fun e he => (hes e he).mono subset_withNew, rfl⟩
  | .lookup x e loc => by
    rw [infer]
    refine .andThen fun s₁ => (Expr.expect_within _ .int e).bind fun ⟨e', s₂⟩ he => ?_
    rw [TypeEnv.visible_subst] at he
    exact .pure ⟨he.mono subset_withNew, rfl⟩
  | .mutate c v loc => by
    rw [infer]
    refine (Expr.expect_within env .int c).bind fun ⟨c', s₁⟩ hc => ?_
    refine (Expr.expect_within _ .int v).bind fun ⟨v', s₂⟩ hv => ?_
    rw [TypeEnv.visible_subst] at hv
    exact .pure ⟨⟨hc.mono subset_withNew, hv.mono subset_withNew⟩, rfl⟩
  | .dispose e loc => by
    rw [infer]
    exact (Expr.expect_within env .int e).bind fun ⟨e', s⟩ he =>
      .pure ⟨he.mono subset_withNew, rfl⟩
  | .block b loc => by
    rw [infer]
    refine (checkBlock_spec env b).bind fun _ hlocal => ?_
    refine (Declaration.declareAll_visible env b.decls).bind fun inner hinner => ?_
    refine (Declaration.inferProps_names inner ∅ b.decls).bind fun ⟨decls, s⟩ hdecls => ?_
    refine .andThen fun ⟨props, s₁⟩ => ?_
    refine (inferList_seen (inner.subst (s₁.compose s)) ∅ b.stmts).bind
      fun ⟨stmts, s₂⟩ ⟨hstmts, hplain⟩ => .pure ⟨?_, hplain⟩
    have hnames : (⟨[], decls, props, stmts, b.loc⟩ : TypedProgram).localNames = b.localNames :=
      congrArg (List.map Name.text) hdecls
    rw [TypeEnv.visible_subst, hinner] at hstmts
    refine ⟨rfl, ?_, ?_⟩
    · rw [hnames]
      exact hlocal.2
    · rw [hnames]
      exact hstmts

theorem inferCmds_seen (env : TypeEnv) (s : Ty.Subst) :
    (cs : List SourceCmd) → Returns (inferCmds env s cs) fun r =>
      CmdsSeen B env.visible r.1 ∧ cmdsPlain r.1 = cmdsPlain cs
  | [] => by
    rw [inferCmds]
    exact .pure ⟨trivial, rfl⟩
  | c :: cs => by
    rw [inferCmds]
    refine (Expr.expect_within (env.subst s) .bool c.guard).bind fun ⟨guard, s₁⟩ hguard => ?_
    refine (inferList_seen ((env.subst s).subst s₁) ∅ c.body).bind
      fun ⟨body, s₂⟩ ⟨hbody, hplain⟩ => ?_
    rw [TypeEnv.visible_subst] at hguard
    rw [TypeEnv.visible_subst, TypeEnv.visible_subst] at hbody
    refine (inferCmds_seen env _ cs).bind fun ⟨others, s'⟩ ⟨hothers, hplain'⟩ => .pure ?_
    exact ⟨⟨hguard.mono subset_withNew, hbody, hothers⟩, by simp only [cmdsPlain, hplain, hplain']⟩

theorem inferList_seen (env : TypeEnv) (s : Ty.Subst) :
    (ts : List SourceStmt) → Returns (inferList env s ts) fun r =>
      ListSeen B env.visible r.1 ∧ listPlain r.1 = listPlain ts
  | [] => by
    rw [inferList]
    exact .pure ⟨trivial, rfl⟩
  | t :: ts => by
    rw [inferList]
    refine (infer_seen (env.subst s) t).bind fun ⟨t', s₁⟩ ⟨ht, hplain⟩ => ?_
    rw [TypeEnv.visible_subst] at ht
    refine (inferList_seen env _ ts).bind fun ⟨others, s'⟩ ⟨hothers, hplain'⟩ => .pure ?_
    exact ⟨⟨ht, hothers⟩, by simp only [listPlain, hplain, hplain']⟩

end

end Elaborated

end Stmt

/-! ## Types do not matter -/

namespace TypedExpr

theorem freeVars_substTy (s : Ty.Subst) (e : TypedExpr) : (e.substTy s).freeVars = e.freeVars := by
  induction e using nested_induction
      (L := fun ls => freeVarsLinks (substTyLinks s ls) = freeVarsLinks ls) with
  | quant q bs r body _ _ ihq ihr ihbody =>
    simp only [substTy, freeVars, ihq, ihr, ihbody, List.map_map, Function.comp_def, Binder.subst]
  | _ => simp_all only [substTy, substTyLinks, freeVars, freeVarsLinks, Binder.subst]

theorem within_substTy {Γ : Set String} {s : Ty.Subst} {e : TypedExpr} :
    (e.substTy s).Within Γ ↔ e.Within Γ := by
  rw [Within, Within, freeVars_substTy]

end TypedExpr

theorem localNames_substTy (s : Ty.Subst) (b : TypedProgram) :
    (b.decls.map (·.substTy s)).flatMap (·.names) = b.decls.flatMap (·.names) := by
  simp [List.flatMap_map, Declaration.substTy]

namespace Stmt

theorem listSeen_substTy (s : Ty.Subst) {B V : Set String} (ts : List TypedStmt)
    (h : ListSeen B V ts) : ListSeen B V (substTyList s ts) := by
  induction ts using nested_induction (S := fun t => ∀ V, t.Seen B V → (t.substTy s).Seen B V)
      (C := fun cs => ∀ V, CmdsSeen B V cs → CmdsSeen B V (substTyCmds s cs)) generalizing V with
  | simple t ht V h =>
    cases t with
    | loop | cond | block => cases ht
    | _ => simp_all [substTy, Seen, TypedExpr.within_substTy, TypeEnv.visible_subst]
  | loop cs _ ih V h | cond cs _ ih V h => exact ih V h
  | block b _ ih V h =>
    have hnames := congrArg (List.map Name.text) (localNames_substTy s b)
    rw [substTy]
    refine ⟨by simp [h.1], ?_⟩
    rw [Block.localNames, hnames]
    exact ⟨h.2.1, ih h.2.2⟩
  | noCmds V h | nil => exact h
  | cmds c cs ihbody ihrest V h =>
    simp only [substTyCmds, CmdsSeen, TypedExpr.within_substTy]
    exact ⟨h.1, ihbody h.2.1, ihrest V h.2.2⟩
  | cons t ts iht ihts => exact ⟨iht V h.1, ihts h.2⟩

theorem listPlain_substTy (s : Ty.Subst) (ts : List TypedStmt) :
    listPlain (substTyList s ts) = listPlain ts := by
  induction ts using nested_induction (S := fun t => (t.substTy s).isPlain = t.isPlain)
      (C := fun cs => cmdsPlain (substTyCmds s cs) = cmdsPlain cs) with
  | simple t => cases t <;> simp_all [isSimple, substTy, isPlain]
  | _ => simp_all only [substTy, substTyCmds, substTyList, isPlain, cmdsPlain, listPlain]

end Stmt

/-! ## Programs -/

def Definition.valueNames : Definition → List Name
  | .datatype d => d.ctors.map (·.name)
  | .signature n _ _ _ => [n]
  | .function n (_ :: _) _ => [n]
  | .function _ [] _ => []

namespace Program

def definedFunctions (ds : List Definition) : List Name :=
  ds.filterMap fun
    | .function n (_ :: _) _ => some n
    | _ => none

def signedFunctions (ds : List Definition) : List Name :=
  ds.filterMap fun
    | .signature n _ _ _ => some n
    | _ => none

theorem length_inferKinds (p : Program) :
    Returns p.inferKinds fun kinds => kinds.length = p.datatypes.length := by
  have hgroup : ∀ ds, Returns (Datatype.inferGroup ds) fun kinds => kinds.length = ds.length := by
    intro ds
    unfold Datatype.inferGroup
    refine (Returns.mapM (R := fun _ _ => True) (fun _ _ _ _ _ => trivial) ds).bind
      fun metas hmetas => .andThen fun _ => .andThen fun _ => fun st kinds st' h => ?_
    have hkinds := Returns.mapM (R := fun _ _ => True) (fun _ _ _ _ _ => trivial) metas st kinds
      st' h
    rw [← hkinds.length_eq, ← hmetas.length_eq]
  unfold inferKinds
  split
  · next h => exact .pure (by simp [h])
  · intro st kinds st' h
    unfold ElaborationM.ofKinds at h
    split at h
    · next hok =>
      cases h
      exact hgroup _ _ _ _ hok
    · cases h

theorem visible_insertCtors (env : TypeEnv) (ds : List Datatype) {x : String}
    (hx : x ∈ (ds.foldl Datatype.insertCtors env).visible) :
    x ∈ env.visible ∨ ∃ d ∈ ds, ∃ c ∈ d.ctors, c.name.text = x := by
  have hone : ∀ (d : Datatype) (cs : List Ctor) (env : TypeEnv),
      x ∈ (cs.foldl (fun env c => env.insert c.name ⟨.ctor, .funcs c.args d.result⟩) env).visible →
        x ∈ env.visible ∨ ∃ c ∈ cs, c.name.text = x := by
    intro d cs
    induction cs with
    | nil => exact fun env h => .inl h
    | cons c cs ih =>
      intro env h
      rcases ih _ h with h | ⟨c', hc', hx⟩
      · rw [TypeEnv.visible_insert] at h
        rcases h with h | h
        · exact .inl h
        · exact .inr ⟨c, by simp, h.symm⟩
      · exact .inr ⟨c', by simp [hc'], hx⟩
  induction ds generalizing env with
  | nil => exact .inl hx
  | cons d ds ih =>
    rcases ih _ hx with h | ⟨d', hd', hx⟩
    · rcases hone d d.ctors env h with h | ⟨c, hc, hx⟩
      · exact .inl h
      · exact .inr ⟨d, by simp, c, hc, hx⟩
    · exact .inr ⟨d', by simp [hd'], hx⟩

theorem visible_insertDeclared (p : Program) (env : TypeEnv) {x : String}
    (hx : x ∈ (p.insertDeclared env).visible) :
    x ∈ env.visible ∨ ∃ d ∈ p.defns, x ∈ d.valueNames.map (·.text) := by
  unfold insertDeclared at hx
  generalize p.functionNames = fs at hx
  generalize p.defns = ds at hx ⊢
  induction ds generalizing env with
  | nil => exact .inl hx
  | cons d ds ih =>
    rcases ih _ hx with h | ⟨d', hd', hx⟩
    · cases d with
      | signature n t prop loc =>
        dsimp only at h
        split at h
        · exact .inl h
        · rw [TypeEnv.visible_insert] at h
          rcases h with h | h
          · exact .inl h
          · exact .inr ⟨_, List.mem_cons_self .., by simpa [Definition.valueNames] using h⟩
      | _ => exact .inl h
    · exact .inr ⟨d', by simp [hd'], hx⟩

theorem startFunctions_names (ds : List Definition) :
    Returns (startFunctions ds) fun ps => ps.map (·.name) = definedFunctions ds := by
  fun_induction startFunctions ds with
  | case1 => exact .pure rfl
  | case2 n body rest loc ds ih =>
    exact .andThen fun t => .andThen fun _ => ih.bind fun ps hps => .pure (by
      simp [hps, definedFunctions])
  | case3 d ds h ih =>
    refine fun st ps st' hok => (ih st ps st' hok).trans ?_
    cases d with
    | function n clauses loc =>
      cases clauses with
      | nil => rfl
      | cons body rest => exact absurd rfl (h n body rest loc)
    | _ => rfl

theorem length_inferBodies (signatures : NameMap Ty) (env : TypeEnv) (s : Ty.Subst)
    (ps : List Pending) :
    Returns (inferBodies signatures env s ps) fun r => r.1.1.length = ps.length := by
  induction ps generalizing s with
  | nil => exact .pure rfl
  | cons p ps ih =>
    unfold inferBodies
    refine .andThen fun ⟨body, s₁⟩ => .andThen fun s₂ => ?_
    split
    · exact (ih _).bind fun ⟨⟨bodies, skolems⟩, s'⟩ h => .pure (by simpa using h)
    · exact .andThen fun ⟨t, metas⟩ => .andThen fun s₃ =>
        (ih _).bind fun ⟨⟨bodies, skolems⟩, s'⟩ h => .pure (by simpa using h)

theorem length_generalizeAll (ambient : TypeEnv) (s : Ty.Subst) (ps : List Pending) :
    Returns (generalizeAll ambient s ps) fun r => r.1.length = ps.length := by
  induction ps generalizing s with
  | nil => exact .pure rfl
  | cons p ps ih =>
    unfold generalizeAll
    exact .andThen fun g => (ih _).bind fun ⟨schemes, s'⟩ h => .pure (by simpa using h)

theorem visible_insertFunctions (env : TypeEnv) (fs : List FunctionType) {x : String}
    (hx : x ∈ (fs.foldl (fun env f => env.insert f.name ⟨.const, f.ty⟩) env).visible) :
    x ∈ env.visible ∨ ∃ f ∈ fs, f.name.text = x := by
  induction fs generalizing env with
  | nil => exact .inl hx
  | cons f fs ih =>
    rcases ih _ hx with h | ⟨f', hf', hx⟩
    · rw [TypeEnv.visible_insert] at h
      rcases h with h | h
      · exact .inl h
      · exact .inr ⟨f, by simp, h.symm⟩
    · exact .inr ⟨f', by simp [hf'], hx⟩

theorem map_name_zip (pending : List Pending) (rest : List (Ty × TypedExpr))
    (f : Pending × Ty × TypedExpr → FunctionType) (hf : ∀ q, (f q).name = q.1.name)
    (hlen : pending.length ≤ rest.length) :
    ((pending.zip rest).map f).map (·.name) = pending.map (·.name) := by
  have hcomp : (fun g : FunctionType => g.name) ∘ f = (·.name) ∘ Prod.fst := funext hf
  rw [List.map_map, hcomp, ← List.map_map, List.map_fst_zip hlen]

theorem inferFunctions_names (p : Program) (env : TypeEnv) :
    Returns (p.inferFunctions env) fun r =>
      r.1.1.map (·.name) = definedFunctions p.defns ∧
        ∀ x ∈ r.1.2.visible, x ∈ env.visible ∨ ∃ f ∈ r.1.1, f.name.text = x := by
  unfold inferFunctions
  refine (startFunctions_names p.defns).bind fun pending hpending => ?_
  split
  · next hempty =>
    rw [List.isEmpty_iff] at hempty
    subst hempty
    exact .pure ⟨hpending, fun x hx => .inl hx⟩
  · refine (length_inferBodies _ _ _ pending).bind fun ⟨⟨bodies, skolems⟩, s⟩ hbodies => ?_
    refine .andThen fun _ => .andThen fun _ => ?_
    refine (length_generalizeAll _ _ pending).bind fun ⟨schemes, s'⟩ hschemes => ?_
    have hlen : pending.length ≤ (schemes.zip bodies).length := by
      simp only [List.length_zip] at hbodies hschemes ⊢
      omega
    exact .pure ⟨(map_name_zip pending _ _ (fun _ => rfl) hlen).trans hpending,
      fun x hx => visible_insertFunctions env _ hx⟩

theorem length_inferSignatureProps (env : TypeEnv) (s : Ty.Subst) (ds : List Definition) :
    Returns (inferSignatureProps env s ds) fun r => r.1.length = (signedFunctions ds).length := by
  fun_induction inferSignatureProps env s ds with
  | case1 => exact .pure rfl
  | case2 s n t prop loc ds ih =>
    exact .andThen fun ⟨prop', s₁⟩ => (ih _).bind fun ⟨others, s'⟩ h => .pure (by
      simp_all [signedFunctions])
  | case3 s d ds h ih =>
    refine fun st r st' hok => (ih st r st' hok).trans ?_
    cases d with
    | signature n t prop loc => exact absurd rfl (h n t prop loc)
    | _ => simp [signedFunctions]

/-- Typed definitions stand in the places of definitions, with properties and functions that
have been found for them. -/
inductive Aligned : List Definition → List (Option TypedExpr) → List FunctionType →
    List TypedDefinition → Prop
  | nil : Aligned [] [] [] []
  | datatype {ds props fs ts d kind} (h : Aligned ds props fs ts) :
      Aligned (.datatype d :: ds) props fs (.datatype d kind :: ts)
  | signature {ds props fs ts n t prop prop' loc} (h : Aligned ds props fs ts) :
      Aligned (.signature n t prop loc :: ds) (prop' :: props) fs (.signature n t prop' loc :: ts)
  | function {ds props fs ts n body rest loc f} (hname : f.name = n) (h : Aligned ds props fs ts) :
      Aligned (.function n (body :: rest) loc :: ds) props (f :: fs)
        (.function f.name f.ty f.body f.loc :: ts)
  | undefined {ds props fs ts n loc} (h : Aligned ds props fs ts) :
      Aligned (.function n [] loc :: ds) props fs ts

theorem aligned_typedDefinitions (ds : List Definition) (kinds : List Kind)
    (props : List (Option TypedExpr)) (fs : List FunctionType)
    (hkinds : kinds.length = (ds.filterMap fun
      | .datatype d => some d
      | _ => none).length)
    (hprops : props.length = (signedFunctions ds).length)
    (hfs : fs.map (·.name) = definedFunctions ds) :
    Aligned ds props fs (typedDefinitions ds kinds props fs) := by
  fun_induction typedDefinitions ds kinds props fs with
  | case1 d ds k kinds props fs ih => exact .datatype (ih (by simpa using hkinds) hprops hfs)
  | case2 n t prop loc ds kinds prop' props fs ih =>
    exact .signature (ih hkinds (by simpa [signedFunctions] using hprops) hfs)
  | case3 n body rest loc ds kinds props f fs ih =>
    obtain ⟨hname, hfs⟩ := List.cons.inj hfs
    exact .function hname (ih hkinds hprops hfs)
  | case4 d ds kinds props fs hdata hsig hfun ih =>
    cases d with
    | datatype d =>
      cases kinds with
      | nil => simp at hkinds
      | cons k kinds => exact absurd rfl (hdata d k kinds rfl)
    | signature n t prop loc =>
      cases props with
      | nil => simp [signedFunctions] at hprops
      | cons prop' props => exact absurd rfl (hsig n t prop loc prop' props rfl)
    | function n clauses loc =>
      cases clauses with
      | nil => exact .undefined (ih hkinds hprops hfs)
      | cons body rest =>
        cases fs with
        | nil => simp [definedFunctions] at hfs
        | cons f fs => exact absurd rfl (hfun n body rest loc f fs rfl)
  | case5 kinds props fs =>
    obtain rfl : props = [] := List.length_eq_zero_iff.1 hprops
    obtain rfl : fs = [] := List.map_eq_nil_iff.1 hfs
    exact .nil

theorem Aligned.boundNames {ds : List Definition} {props : List (Option TypedExpr)}
    {fs : List FunctionType} {ts : List TypedDefinition} (h : Aligned ds props fs ts) :
    ts.flatMap (·.boundNames) = ds.flatMap Definition.valueNames := by
  induction h with
  | nil => rfl
  | datatype _ ih | signature _ ih =>
    rw [List.flatMap_cons, List.flatMap_cons, ih]
    rfl
  | function hname _ ih =>
    rw [List.flatMap_cons, List.flatMap_cons, ih, ← hname]
    rfl
  | undefined _ ih => exact ih

theorem boundNames_substTy (s : Ty.Subst) (p : TypedProgram) :
    TypedProgram.boundNames (TypedProgram.substTy s p) = TypedProgram.boundNames p := by
  have hdefn : ∀ d : TypedDefinition, (d.substTy s).boundNames = d.boundNames := by
    intro d
    cases d <;> rfl
  simp only [TypedProgram.boundNames, TypedProgram.substTy, List.flatMap_map, hdefn,
    Declaration.substTy]

theorem mem_names_of_visible {p : Program} {env env' : TypeEnv} {functions : List FunctionType}
    (henv : env.visible = (p.datatypes.foldl Datatype.insertCtors .empty).visible ∪
      {x | x ∈ (p.decls.flatMap (·.names)).map (·.text)})
    (hfunctions : functions.map (·.name) = definedFunctions p.defns)
    (henv' : ∀ x ∈ env'.visible,
      x ∈ (p.insertDeclared env).visible ∨ ∃ f ∈ functions, f.name.text = x)
    {x : String} (hx : x ∈ env'.visible) :
    x ∈ (p.decls.flatMap (·.names)).map (·.text) ∨
      x ∈ (p.defns.flatMap Definition.valueNames).map (·.text) := by
  have hvalue : ∀ d ∈ p.defns, ∀ n ∈ d.valueNames,
      n.text ∈ (p.defns.flatMap Definition.valueNames).map (·.text) :=
    fun d hd n hn => List.mem_map_of_mem (List.mem_flatMap.2 ⟨d, hd, hn⟩)
  rcases henv' x hx with hx | ⟨f, hf, rfl⟩
  · rcases visible_insertDeclared p env hx with hx | ⟨d, hd, hx⟩
    · rw [henv] at hx
      rcases hx with hx | hx
      · rcases visible_insertCtors _ _ hx with hx | ⟨d, hd, c, hc, rfl⟩
        · simp [TypeEnv.visible, TypeEnv.names, TypeEnv.empty] at hx
        · obtain ⟨defn, hdefn, hsome⟩ := List.mem_filterMap.1 hd
          cases defn <;> cases hsome
          exact .inr (hvalue _ hdefn c.name (List.mem_map_of_mem hc))
      · exact .inl hx
    · obtain ⟨n, hn, rfl⟩ := List.mem_map.1 hx
      exact .inr (hvalue d hd n hn)
  · have hname : f.name ∈ definedFunctions p.defns := hfunctions ▸ List.mem_map_of_mem hf
    obtain ⟨defn, hdefn, hsome⟩ := List.mem_filterMap.1 hname
    refine .inr (hvalue defn hdefn f.name ?_)
    split at hsome
    · cases hsome
      simp [Definition.valueNames]
    · cases hsome

/-- Whatever an elaborated program uses it binds, and no block in it hides a name. -/
theorem infer_seen (B : Set String) (p : Program) :
    Returns p.infer fun tp =>
      (∃ V : Set String, (∀ x ∈ V, x ∈ (TypedProgram.boundNames tp).map (·.text)) ∧
        Stmt.ListSeen B V tp.stmts) ∧
      Stmt.listPlain tp.stmts = Stmt.listPlain p.stmts := by
  unfold infer
  refine .andThen fun _ => .andThen fun _ => ?_
  refine (length_inferKinds p).bind fun kinds hkinds => ?_
  refine (Declaration.declareAll_visible _ p.decls).bind fun env henv => .andThen fun _ => ?_
  refine (inferFunctions_names p _).bind fun ⟨⟨functions, env'⟩, s⟩ ⟨hfunctions, henv'⟩ => ?_
  refine (Declaration.inferProps_names _ _ p.decls).bind fun ⟨decls, s₁⟩ hdecls => ?_
  refine .andThen fun ⟨props, s₂⟩ => ?_
  refine (length_inferSignatureProps _ _ p.defns).bind fun ⟨sigProps, s₃⟩ hsigProps => ?_
  refine (Stmt.inferList_seen B _ _ p.stmts).bind fun ⟨stmts, s₄⟩ ⟨hstmts, hplain⟩ => .pure ?_
  rw [TypeEnv.visible_subst] at hstmts
  refine ⟨⟨env'.visible, fun x hx => ?_, Stmt.listSeen_substTy _ stmts hstmts⟩,
    (Stmt.listPlain_substTy _ stmts).trans hplain⟩
  rw [boundNames_substTy, TypedProgram.boundNames, List.map_append, List.mem_append,
    (aligned_typedDefinitions _ _ _ _ hkinds hsigProps hfunctions).boundNames]
  dsimp only at hdecls ⊢
  rw [hdecls]
  exact mem_names_of_visible henv hfunctions henv' hx

/-- The steps of an elaboration that succeeds. -/
theorem infer_cases {p : Program} {typed : TypedProgram} {st st' : ElaborationState}
    (h : p.infer st = .ok typed st') :
    p.checkClauses = .ok () ∧ p.checkDistinct = .ok () ∧
      ∃ kinds st₁, p.inferKinds st = .ok kinds st₁ ∧
      ∃ env st₂,
        Declaration.declareAll (p.datatypes.foldl Datatype.insertCtors .empty) p.decls st₁ =
          .ok env st₂ ∧
      ∃ st₃, p.checkSignatures st₂ = .ok () st₃ ∧
      ∃ functions outer s st₄,
        p.inferFunctions (p.insertDeclared env) st₃ = .ok ((functions, outer), s) st₄ ∧
      ∃ decls s₁ st₅, Declaration.inferProps (outer.subst s) ∅ p.decls st₄ = .ok (decls, s₁) st₅ ∧
      ∃ props s₂ st₆, Expr.expectAll (outer.subst (s₁.compose s)) .bool p.props st₅ =
        .ok (props, s₂) st₆ ∧
      ∃ sigProps s₃ st₇, inferSignatureProps outer (s₂.compose (s₁.compose s)) p.defns st₆ =
        .ok (sigProps, s₃) st₇ ∧
      ∃ stmts s₄, Stmt.inferList (outer.subst s₃) ∅ p.stmts st₇ = .ok (stmts, s₄) st' ∧
        typed = TypedProgram.substTy (s₄.compose s₃)
          ⟨typedDefinitions p.defns kinds sigProps functions, decls, props, stmts, p.loc⟩ := by
  obtain ⟨_, _, h₁, h⟩ := EStateM.ok_of_bind h
  obtain ⟨_, _, h₂, h⟩ := EStateM.ok_of_bind h
  obtain ⟨hclauses, rfl⟩ := EStateM.ok_of_ofExcept h₁
  obtain ⟨hdistinct, rfl⟩ := EStateM.ok_of_ofExcept h₂
  obtain ⟨kinds, st₁, hkinds, h⟩ := EStateM.ok_of_bind h
  obtain ⟨env, st₂, henv, h⟩ := EStateM.ok_of_bind h
  obtain ⟨_, st₃, hsignatures, h⟩ := EStateM.ok_of_bind h
  obtain ⟨⟨⟨functions, outer⟩, s⟩, st₄, hfunctions, h⟩ := EStateM.ok_of_bind h
  obtain ⟨⟨decls, s₁⟩, st₅, hdecls, h⟩ := EStateM.ok_of_bind h
  obtain ⟨⟨props, s₂⟩, st₆, hprops, h⟩ := EStateM.ok_of_bind h
  obtain ⟨⟨sigProps, s₃⟩, st₇, hsigProps, h⟩ := EStateM.ok_of_bind h
  obtain ⟨⟨stmts, s₄⟩, st₈, hstmts, h⟩ := EStateM.ok_of_bind h
  cases h
  exact ⟨hclauses, hdistinct, kinds, st₁, hkinds, env, st₂, henv, st₃, hsignatures, functions,
    outer, s, st₄, hfunctions, decls, s₁, st₅, hdecls, props, s₂, st₆, hprops, sigProps, s₃, st₇,
    hsigProps, stmts, s₄, hstmts, rfl⟩

theorem infer_of_elaborate {p : Program} {typed : TypedProgram} (h : p.elaborate = .ok typed) :
    ∃ st, p.infer .initial = .ok typed st := by
  unfold elaborate at h
  split at h
  · next st hinfer =>
    cases h
    exact ⟨st, hinfer⟩
  · cases h

end Program

end GuardedCommands
