import GuardedCommands.Elaboration.Program
import GuardedCommands.Proofs.Unification

/-!
# Typing rules

The rules that a typed tree is to satisfy, stated on the tree alone.  A scope has
two parts: names whose types are schemes, of which every use takes an instance,
and names that have one fixed type, as bound variables do.  Types are compared up
to the equivalence of arrays and functions from the integers.

A program makes a scope of its own.  Its constructors, its declared names and the
functions that it defines have schemes; while the functions are being defined they
are used at one type each, the type that is then made general.
-/

namespace GuardedCommands

namespace Ty

/-- `t` comes from `scheme` by putting types in the place of rigid variables. -/
def IsInstance (scheme t : Ty) : Prop :=
  ∃ θ : Subst, (∀ x ∈ θ.keys, x ∈ scheme.rigidVars) ∧ t = scheme.subst θ

/-- `t` is equivalent to `u` with other names for the rigid variables, different ones for
different variables. -/
def IsRenaming (u t : Ty) : Prop :=
  ∃ θ : Subst, (∀ x ∈ u.rigidVars, ∃ a, θ.get? x = some (.rigid a)) ∧
    (∀ x ∈ u.rigidVars, ∀ y ∈ u.rigidVars, ∀ a b, θ.get? x = some (.rigid a) →
      θ.get? y = some (.rigid b) → a.text = b.text → x = y) ∧
    t ≈ u.subst θ

end Ty

def ChainOp.HasTy : ChainOp → Ty → Prop
  | .eq, t | .neq, t => ∃ a : Ty, t ≈ .funcs [a, a] .bool
  | .lt, t | .lte, t | .gt, t | .gte, t => t ≈ .funcs [.int, .int] .bool
  | .eqProp, t => t ≈ .funcs [.bool, .bool] .bool

def TypeEnv.declare {ε : Type} (env : TypeEnv) (ds : List (Declaration ε)) : TypeEnv :=
  ds.foldl (fun env d => env.insertAll d.names ⟨d.sort.role, d.ty⟩) env

/-- The names that may be used, with what is known of them. -/
structure Scope where
  schemes : TypeEnv
  fixed : TypeEnv

namespace Scope

def env (Γ : Scope) : TypeEnv := ⟨Γ.schemes.entries ++ Γ.fixed.entries⟩

def subst (s : Ty.Subst) (Γ : Scope) : Scope := { Γ with fixed := Γ.fixed.subst s }

def bind (Γ : Scope) (x : Name) (t : Ty) : Scope :=
  { Γ with fixed := Γ.fixed.insert x ⟨.const, t⟩ }

def bindAll (Γ : Scope) (bs : List Binder) : Scope := bs.foldl (fun Γ b => Γ.bind b.name b.ty) Γ

def declare {ε : Type} (Γ : Scope) (ds : List (Declaration ε)) : Scope :=
  { Γ with fixed := Γ.fixed.declare ds }

inductive Gives (Γ : Scope) (x : String) : Ty → Prop
  | fixed {info : TypeInfo} (h : Γ.fixed.lookup? x = some info) : Gives Γ x info.ty
  | scheme {info : TypeInfo} {t : Ty} (hidden : Γ.fixed.lookup? x = none)
      (h : Γ.schemes.lookup? x = some info) (ht : info.ty.IsInstance t) : Gives Γ x t

def Assignable (Γ : Scope) (x : Name) (t : Ty) : Prop :=
  ∃ info, Γ.env.lookup? x.text = some info ∧ info.isMutable = true ∧ info.ty = t

end Scope

namespace TypedExpr

mutual

/-- Every node of an expression is typed as it should be. -/
inductive WellTyped : Scope → TypedExpr → Prop
  | lit {Γ l t loc} (h : t ≈ l.ty) : WellTyped Γ (.lit l t loc)
  | var {Γ x t loc} (h : Γ.Gives x.text t) : WellTyped Γ (.var x t loc)
  | const {Γ x t loc} (h : Γ.Gives x.text t) : WellTyped Γ (.const x t loc)
  | arith {Γ o t loc} (h : t ≈ o.ty) : WellTyped Γ (.op (.arith o) t loc)
  | comparison {Γ o t loc} (h : ChainOp.HasTy o t) : WellTyped Γ (.op (.chain o) t loc)
  | chain {Γ head links t loc} (hhead : WellTyped Γ head)
      (hlinks : LinksTyped Γ head.ty links) (h : t ≈ .bool) :
      WellTyped Γ (.chain head links t loc)
  | app {Γ f a t loc} (hf : WellTyped Γ f) (ha : WellTyped Γ a) (h : f.ty ≈ .func a.ty t) :
      WellTyped Γ (.app f a t loc)
  | lam {Γ b body t loc} (hbody : WellTyped (Γ.bind b.name b.ty) body)
      (h : t ≈ .func b.ty body.ty) : WellTyped Γ (.lam b body t loc)
  /-- The number of values in the range for which the body holds. -/
  | count {Γ q bs range body t loc} (hcounts : q.erase.isHash = true) (hq : WellTyped Γ q)
      (hrange : WellTyped (Γ.bindAll bs) range) (hbool : range.ty ≈ .bool)
      (hbody : WellTyped (Γ.bindAll bs) body) (hprop : body.ty ≈ .bool) (h : t ≈ .int) :
      WellTyped Γ (.quant q bs range body t loc)
  /-- The values of the body over the range, joined by an operator. -/
  | fold {Γ q bs range body t loc} {a : Ty} (hcounts : q.erase.isHash = false)
      (hq : WellTyped Γ q) (hop : q.ty ≈ .funcs [a, a] a)
      (hrange : WellTyped (Γ.bindAll bs) range) (hbool : range.ty ≈ .bool)
      (hbody : WellTyped (Γ.bindAll bs) body) (hvalue : a ≈ body.ty) (h : t ≈ a) :
      WellTyped Γ (.quant q bs range body t loc)
  | index {Γ a i t loc} (ha : WellTyped Γ a) (hi : WellTyped Γ i) (h : a.ty ≈ .func i.ty t) :
      WellTyped Γ (.index a i t loc)
  | update {Γ a i v t loc} (ha : WellTyped Γ a) (hi : WellTyped Γ i) (hv : WellTyped Γ v)
      (harray : a.ty ≈ .func i.ty v.ty) (h : t ≈ a.ty) : WellTyped Γ (.update a i v t loc)

inductive LinksTyped : Scope → Ty → List (TypedLink TypedExpr) → Prop
  | nil {Γ left} : LinksTyped Γ left []
  | cons {Γ left l ls} (hrhs : WellTyped Γ l.rhs) (hop : l.op.HasTy l.opTy)
      (h : l.opTy ≈ .funcs [left, l.rhs.ty] .bool) (hlinks : LinksTyped Γ l.rhs.ty ls) :
      LinksTyped Γ left (l :: ls)

end

def HasTy (Γ : Scope) (e : TypedExpr) (t : Ty) : Prop := e.WellTyped Γ ∧ e.ty ≈ t

end TypedExpr

namespace Stmt

open TypedExpr (HasTy)

mutual

inductive WellTyped : Scope → TypedStmt → Prop
  | skip {Γ loc} : WellTyped Γ (.skip loc)
  | abort {Γ loc} : WellTyped Γ (.abort loc)
  | assign {Γ xs es loc} (h : List.Forall₂ (fun x e => ∃ t, Γ.Assignable x t ∧ HasTy Γ e t) xs es) :
      WellTyped Γ (.assign xs es loc)
  | arrayAssign {Γ a i v loc}
      (hvar : ∀ x, a.erase.asName? = some x → ∃ t, Γ.Assignable x t)
      (ha : a.WellTyped Γ) (hi : i.WellTyped Γ) (hv : v.WellTyped Γ)
      (h : a.ty ≈ .func i.ty v.ty) : WellTyped Γ (.arrayAssign a i v loc)
  | assert {Γ e loc} (h : HasTy Γ e .bool) : WellTyped Γ (.assert e loc)
  | invariant {Γ e bound loc} (h : HasTy Γ e .bool) (hbound : ∀ b ∈ bound, HasTy Γ b .int) :
      WellTyped Γ (.invariant e bound loc)
  | loop {Γ cmds loc} (h : CmdsTyped Γ cmds) : WellTyped Γ (.loop cmds loc)
  | cond {Γ cmds loc} (h : CmdsTyped Γ cmds) : WellTyped Γ (.cond cmds loc)
  /-- A hole knows what is in scope. -/
  | hole {Γ text loc} : WellTyped Γ (.hole text Γ.env loc)
  | alloc {Γ x es t loc} (hx : Γ.Assignable x t) (ht : t ≈ .int) (h : ∀ e ∈ es, HasTy Γ e .int) :
      WellTyped Γ (.alloc x es loc)
  | lookup {Γ x e t loc} (hx : Γ.Assignable x t) (ht : t ≈ .int) (h : HasTy Γ e .int) :
      WellTyped Γ (.lookup x e loc)
  | mutate {Γ c v loc} (hc : HasTy Γ c .int) (hv : HasTy Γ v .int) : WellTyped Γ (.mutate c v loc)
  | dispose {Γ e loc} (h : HasTy Γ e .int) : WellTyped Γ (.dispose e loc)
  | block {Γ : Scope} {b : TypedProgram} {loc : Loc} (hdefns : b.defns = [])
      (hdecls : ∀ d ∈ b.decls, ∀ e ∈ d.prop, HasTy (Γ.declare b.decls) e .bool)
      (hprops : ∀ e ∈ b.props, HasTy (Γ.declare b.decls) e .bool)
      (h : ListTyped (Γ.declare b.decls) b.stmts) : WellTyped Γ (.block b loc)

inductive CmdsTyped : Scope → List TypedCmd → Prop
  | nil {Γ} : CmdsTyped Γ []
  | cons {Γ c cs} (hguard : HasTy Γ c.guard .bool) (hbody : ListTyped Γ c.body)
      (hcmds : CmdsTyped Γ cs) : CmdsTyped Γ (c :: cs)

inductive ListTyped : Scope → List TypedStmt → Prop
  | nil {Γ} : ListTyped Γ []
  | cons {Γ t ts} (h : WellTyped Γ t) (hrest : ListTyped Γ ts) : ListTyped Γ (t :: ts)

end

end Stmt

namespace TypedProgram

def datatypes (p : TypedProgram) : List Datatype :=
  p.defns.filterMap fun
    | .datatype d _ => some d
    | _ => none

def defined (p : TypedProgram) : TypeEnv :=
  ⟨p.defns.filterMap fun
    | .function n t _ _ => some (n, ⟨.const, t⟩)
    | _ => none⟩

def signatures (p : TypedProgram) : NameMap Ty :=
  .ofList (p.defns.filterMap fun
    | .signature n t _ _ => some (n.text, t)
    | _ => none)

/-- What a program has besides the functions it defines: constructors, declared names, and
functions of which there is a signature only. -/
def given (p : TypedProgram) : TypeEnv :=
  ⟨((p.datatypes.foldl Datatype.insertCtors .empty).declare p.decls).entries ++
    p.defns.filterMap fun
      | .signature n t _ _ => if p.defined.contains n.text then none else some (n, ⟨.const, t⟩)
      | _ => none⟩

def scope (p : TypedProgram) : Scope := ⟨⟨p.given.entries ++ p.defined.entries⟩, .empty⟩

open TypedExpr (HasTy)

structure WellTyped (p : TypedProgram) : Prop where
  /-- A body has the type that is general afterwards, with each of the functions that are
  defined together at one type. -/
  functions : ∀ {n t body loc}, .function n t body loc ∈ p.defns →
    t.metavars = ∅ ∧ HasTy ⟨p.given, p.defined⟩ body t
  conform : ∀ {n t body loc u}, .function n t body loc ∈ p.defns →
    p.signatures.get? n.text = some u → u.IsRenaming t
  signatureProps : ∀ {n t prop loc}, .signature n t prop loc ∈ p.defns →
    ∀ e ∈ prop, HasTy p.scope e .bool
  declProps : ∀ d ∈ p.decls, ∀ e ∈ d.prop, HasTy p.scope e .bool
  props : ∀ e ∈ p.props, HasTy p.scope e .bool
  stmts : Stmt.ListTyped p.scope p.stmts

end TypedProgram

end GuardedCommands
