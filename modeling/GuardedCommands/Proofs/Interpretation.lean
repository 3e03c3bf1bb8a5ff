import GuardedCommands.Proofs.Basic
import GuardedCommands.Typed.Substitute
import Mathlib

/-!
# Reading expressions

An interpretation says what each construct does with the values of its parts, so
the value of an expression is found from the leaves upward.  No type enters: a
name has the value that a valuation gives it, whether it is written as a variable
or as a constant, and a binder gives its name a value for the expression below.
The connectives and the two truth values are classical; everything else is left
to the interpretation.

Some facts hold of every meaning that goes by the parts of an expression, whatever it
takes the parts to mean; interpretations are such meanings.
-/

namespace GuardedCommands

universe u

abbrev Valuation (V : Type u) := String → V

structure Interpretation (V : Type u) where
  lit : Lit → V
  op : Op → V
  chain : V → List (ChainOp × V) → V
  app : V → V → V
  lam : (V → V) → V
  /-- The value of a quantifier from the value of its operator and from what the range and
  the body are for the values of the binders. -/
  quant : V → (n : ℕ) → ((Fin n → V) → V) → ((Fin n → V) → V) → V
  index : V → V → V
  update : V → V → V → V
  IsTrue : V → Prop
  isTrue_bool : ∀ b, IsTrue (lit (.bool b)) ↔ b = true
  isTrue_conj : ∀ a b, IsTrue (app (app (op (.arith .conj)) a) b) ↔ IsTrue a ∧ IsTrue b
  isTrue_disj : ∀ a b, IsTrue (app (app (op (.arith .disj)) a) b) ↔ IsTrue a ∨ IsTrue b
  isTrue_implies : ∀ a b, IsTrue (app (app (op (.arith .implies)) a) b) ↔ (IsTrue a → IsTrue b)
  isTrue_neg : ∀ a, IsTrue (app (op (.arith .neg)) a) ↔ ¬ IsTrue a

namespace Valuation

variable {V : Type u}

def bindAll (σ : Valuation V) : List String → List V → Valuation V
  | x :: xs, v :: vs => bindAll (Function.update σ x v) xs vs
  | _, _ => σ

@[simp] theorem bindAll_nil (σ : Valuation V) (vs : List V) : σ.bindAll [] vs = σ := by
  cases vs <;> rfl

@[simp] theorem bindAll_cons (σ : Valuation V) (x : String) (xs : List String) (v : V)
    (vs : List V) :
    σ.bindAll (x :: xs) (v :: vs) = bindAll (Function.update σ x v) xs vs := rfl

variable {σ τ : Valuation V} {xs : List String} {vs : List V}

theorem bindAll_of_not_mem {z : String} (hz : z ∉ xs) : σ.bindAll xs vs z = σ z := by
  induction xs generalizing σ vs with
  | nil => simp
  | cons x xs ih =>
    cases vs with
    | nil => rfl
    | cons v vs =>
      have hzx : z ≠ x := fun h => hz (h ▸ List.mem_cons_self)
      have hzxs : z ∉ xs := fun h => hz (List.mem_cons_of_mem _ h)
      rw [bindAll_cons, ih hzxs, Function.update_of_ne hzx]

theorem bindAll_head {x : String} {v : V} (hx : x ∉ xs) : σ.bindAll (x :: xs) (v :: vs) x = v := by
  rw [bindAll_cons, bindAll_of_not_mem hx, Function.update_self]

theorem bindAll_of_mem {z : String} (hz : z ∈ xs) (hlen : vs.length = xs.length) :
    σ.bindAll xs vs z = τ.bindAll xs vs z := by
  induction xs generalizing σ τ vs with
  | nil => cases hz
  | cons x xs ih =>
    cases vs with
    | nil => cases hlen
    | cons v vs =>
      simp only [bindAll_cons]
      by_cases hzxs : z ∈ xs
      · exact ih hzxs (by simpa using hlen)
      · have hzx : z = x := (List.mem_cons.1 hz).resolve_right hzxs
        subst hzx
        rw [bindAll_of_not_mem hzxs, bindAll_of_not_mem hzxs, Function.update_self,
          Function.update_self]

theorem bindAll_congr {z : String} (hlen : vs.length = xs.length) (h : z ∉ xs → σ z = τ z) :
    σ.bindAll xs vs z = τ.bindAll xs vs z := by
  by_cases hz : z ∈ xs
  · exact bindAll_of_mem hz hlen
  · rw [bindAll_of_not_mem hz, bindAll_of_not_mem hz, h hz]

theorem bindAll_apply_congr {z : String} (h : σ z = τ z) (xs : List String) (vs : List V) :
    σ.bindAll xs vs z = τ.bindAll xs vs z := by
  induction xs generalizing σ τ vs with
  | nil => simpa using h
  | cons x xs ih =>
    cases vs with
    | nil => exact h
    | cons v vs =>
      refine ih ?_ vs
      by_cases hzx : z = x
      · simp [hzx]
      · rw [Function.update_of_ne hzx, Function.update_of_ne hzx, h]

end Valuation

namespace Interpretation

variable {V : Type u}

def quantOver (I : Interpretation V) (q : V) (n : ℕ) (range body : List V → V) : V :=
  I.quant q n (fun vs => range (List.ofFn vs)) (fun vs => body (List.ofFn vs))

theorem quantOver_congr (I : Interpretation V) {q : V} {m n : ℕ} {r r' b b' : List V → V}
    (hmn : m = n) (hr : ∀ vs, vs.length = n → r vs = r' vs)
    (hb : ∀ vs, vs.length = n → b vs = b' vs) :
    I.quantOver q m r b = I.quantOver q n r' b' := by
  subst hmn
  unfold quantOver
  congr 1
  · funext vs
    exact hr _ (List.length_ofFn)
  · funext vs
    exact hb _ (List.length_ofFn)

end Interpretation

namespace TypedExpr

variable {V : Type u}

mutual

def eval (I : Interpretation V) (σ : Valuation V) : TypedExpr → V
  | .lit l _ _ => I.lit l
  | .var x _ _ | .const x _ _ => σ x.text
  | .op o _ _ => I.op o
  | .chain head links _ _ => I.chain (head.eval I σ) (evalLinks I σ links)
  | .app f a _ _ => I.app (f.eval I σ) (a.eval I σ)
  | .lam b body _ _ => I.lam fun v => body.eval I (Function.update σ b.name.text v)
  | .quant q bs r b _ _ =>
    I.quantOver (q.eval I σ) bs.length
      (fun vs => r.eval I (σ.bindAll (bs.map (·.name.text)) vs))
      (fun vs => b.eval I (σ.bindAll (bs.map (·.name.text)) vs))
  | .index a i _ _ => I.index (a.eval I σ) (i.eval I σ)
  | .update a i v _ _ => I.update (a.eval I σ) (i.eval I σ) (v.eval I σ)

def evalLinks (I : Interpretation V) (σ : Valuation V) :
    List (TypedLink TypedExpr) → List (ChainOp × V)
  | [] => []
  | l :: ls => (l.op, l.rhs.eval I σ) :: evalLinks I σ ls

end

theorem evalLinks_congr (I : Interpretation V) {σ τ : Valuation V}
    {ls ls' : List (TypedLink TypedExpr)}
    (h : List.Forall₂ (fun l l' => l.op = l'.op ∧ l.rhs.eval I σ = l'.rhs.eval I τ) ls ls') :
    evalLinks I σ ls = evalLinks I τ ls' := by
  induction h with
  | nil => rfl
  | cons hl _ ih => simp only [evalLinks, hl.1, hl.2, ih]

end TypedExpr

/-- A meaning of expressions that goes by their parts.  A name means its value, and every
other construct is fixed by what it is and by what its parts mean, those below a binder for
all values of what is bound; how a binder is called, types and locations do not count. -/
structure Meaning (V : Type u) where
  value : TypedExpr → Valuation V → V
  var : ∀ x t loc σ, value (.var x t loc) σ = σ x.text
  const : ∀ x t loc σ, value (.const x t loc) σ = σ x.text
  lit : ∀ l {t t' loc loc' σ τ}, value (.lit l t loc) σ = value (.lit l t' loc') τ
  op : ∀ o {t t' loc loc' σ τ}, value (.op o t loc) σ = value (.op o t' loc') τ
  chain : ∀ {head head' links links' t t' loc loc' σ τ}, value head σ = value head' τ →
    List.Forall₂ (fun l l' => l.op = l'.op ∧ value l.rhs σ = value l'.rhs τ) links links' →
    value (.chain head links t loc) σ = value (.chain head' links' t' loc') τ
  app : ∀ {f f' a a' t t' loc loc' σ τ}, value f σ = value f' τ → value a σ = value a' τ →
    value (.app f a t loc) σ = value (.app f' a' t' loc') τ
  lam : ∀ {b b' body body' t t' loc loc' σ τ},
    (∀ v, value body (Function.update σ b.name.text v) =
      value body' (Function.update τ b'.name.text v)) →
    value (.lam b body t loc) σ = value (.lam b' body' t' loc') τ
  quant : ∀ {q q' bs bs' r r' b b' t t' loc loc' σ τ}, value q σ = value q' τ →
    bs.length = bs'.length →
    (∀ vs, vs.length = bs.length → value r (σ.bindAll (bs.map (·.name.text)) vs) =
      value r' (τ.bindAll (bs'.map (·.name.text)) vs)) →
    (∀ vs, vs.length = bs.length → value b (σ.bindAll (bs.map (·.name.text)) vs) =
      value b' (τ.bindAll (bs'.map (·.name.text)) vs)) →
    value (.quant q bs r b t loc) σ = value (.quant q' bs' r' b' t' loc') τ
  index : ∀ {a a' i i' t t' loc loc' σ τ}, value a σ = value a' τ → value i σ = value i' τ →
    value (.index a i t loc) σ = value (.index a' i' t' loc') τ
  update : ∀ {a a' i i' e e' t t' loc loc' σ τ}, value a σ = value a' τ →
    value i σ = value i' τ → value e σ = value e' τ →
    value (.update a i e t loc) σ = value (.update a' i' e' t' loc') τ

def Interpretation.meaning {V : Type u} (I : Interpretation V) : Meaning V where
  value e σ := e.eval I σ
  var _ _ _ _ := rfl
  const _ _ _ _ := rfl
  lit _ := rfl
  op _ := rfl
  chain hhead hlinks := by
    simp only [TypedExpr.eval, hhead, TypedExpr.evalLinks_congr I hlinks]
  app hf ha := by simp only [TypedExpr.eval, hf, ha]
  lam hbody := congrArg I.lam (funext hbody)
  quant hq hlen hr hb := by
    simp only [TypedExpr.eval, hq]
    exact I.quantOver_congr hlen (fun vs hvs => hr vs (hvs.trans hlen.symm))
      (fun vs hvs => hb vs (hvs.trans hlen.symm))
  index ha hi := by simp only [TypedExpr.eval, ha, hi]
  update ha hi he := by simp only [TypedExpr.eval, ha, hi, he]

namespace Meaning

variable {V : Type u}

mutual

/-- The value of an expression depends only on the names that it uses and does not bind. -/
theorem value_congr (D : Meaning V) {σ τ : Valuation V} :
    (e : TypedExpr) → (∀ x ∈ e.freeVars, σ x = τ x) → D.value e σ = D.value e τ
  | .lit l _ _, _ => D.lit l
  | .op o _ _, _ => D.op o
  | .var x t loc, h => by
    rw [D.var, D.var]
    exact h x.text (by simp [TypedExpr.freeVars])
  | .const x t loc, h => by
    rw [D.const, D.const]
    exact h x.text (by simp [TypedExpr.freeVars])
  | .chain head links _ _, h =>
    D.chain (D.value_congr head fun x hx => h x (by simp [TypedExpr.freeVars, hx]))
      (D.valueLinks_congr links fun x hx => h x (by simp [TypedExpr.freeVars, hx]))
  | .app f a _ _, h =>
    D.app (D.value_congr f fun x hx => h x (by simp [TypedExpr.freeVars, hx]))
      (D.value_congr a fun x hx => h x (by simp [TypedExpr.freeVars, hx]))
  | .lam b body _ _, h => by
    refine D.lam fun v => D.value_congr body fun x hx => ?_
    by_cases hxb : x = b.name.text
    · simp [hxb]
    · rw [Function.update_of_ne hxb, Function.update_of_ne hxb]
      exact h x (by simp [TypedExpr.freeVars, hx, hxb])
  | .quant q bs r b _ _, h => by
    have hq := D.value_congr q fun x hx => h x (by simp [TypedExpr.freeVars, hx])
    have hbound : ∀ x, x ∈ r.freeVars ∨ x ∈ b.freeVars → x ∉ bs.map (·.name.text) →
        σ x = τ x := by
      intro x hx hxb
      refine h x ?_
      simp only [TypedExpr.freeVars, NameSet.mem_union, NameSet.mem_sdiff, NameSet.mem_ofList]
      exact .inr ⟨hx, hxb⟩
    refine D.quant hq rfl (fun vs hlen => ?_) (fun vs hlen => ?_)
    · exact D.value_congr r fun x hx =>
        Valuation.bindAll_congr (by simpa using hlen) (hbound x (.inl hx))
    · exact D.value_congr b fun x hx =>
        Valuation.bindAll_congr (by simpa using hlen) (hbound x (.inr hx))
  | .index a i _ _, h =>
    D.index (D.value_congr a fun x hx => h x (by simp [TypedExpr.freeVars, hx]))
      (D.value_congr i fun x hx => h x (by simp [TypedExpr.freeVars, hx]))
  | .update a i e _ _, h =>
    D.update (D.value_congr a fun x hx => h x (by simp [TypedExpr.freeVars, hx]))
      (D.value_congr i fun x hx => h x (by simp [TypedExpr.freeVars, hx]))
      (D.value_congr e fun x hx => h x (by simp [TypedExpr.freeVars, hx]))

theorem valueLinks_congr (D : Meaning V) {σ τ : Valuation V} :
    (ls : List (TypedLink TypedExpr)) → (∀ x ∈ TypedExpr.freeVarsLinks ls, σ x = τ x) →
      List.Forall₂ (fun l l' => l.op = l'.op ∧ D.value l.rhs σ = D.value l'.rhs τ) ls ls
  | [], _ => .nil
  | l :: ls, h =>
    .cons ⟨rfl, D.value_congr l.rhs fun x hx => h x (by simp [TypedExpr.freeVarsLinks, hx])⟩
      (D.valueLinks_congr ls fun x hx => h x (by simp [TypedExpr.freeVarsLinks, hx]))

end

end Meaning

namespace TypedExpr

variable {V : Type u}

theorem eval_congr (I : Interpretation V) {σ τ : Valuation V} (e : TypedExpr)
    (h : ∀ x ∈ e.freeVars, σ x = τ x) : e.eval I σ = e.eval I τ :=
  I.meaning.value_congr e h

theorem sameBinders_names {bs bs' : List Binder} (h : sameBinders bs bs' = true) :
    bs.map (·.name.text) = bs'.map (·.name.text) := by
  fun_induction sameBinders bs bs' with
  | case1 => rfl
  | case2 b bs b' bs' ih =>
    simp only [Name.same, Bool.and_eq_true, beq_iff_eq] at h
    simp only [List.map_cons, h.1.1, ih h.2]
  | case3 => cases h

mutual

theorem eval_same (I : Interpretation V) {σ : Valuation V} :
    (e e' : TypedExpr) → e.same e' = true → e.eval I σ = e'.eval I σ
  | .lit l _ _, e', h => by
    cases e' <;> simp_all [same, eval]
  | .var x _ _, e', h | .const x _ _, e', h => by
    cases e' <;> simp_all [same, eval, Name.same]
  | .op o _ _, e', h => by
    cases e' <;> simp_all [same, eval]
  | .chain head links _ _, e', h => by
    cases e' with
    | chain head' links' =>
      simp only [same, Bool.and_eq_true] at h
      simp only [eval, eval_same I head head' h.1.1, evalLinks_same I links links' h.1.2]
    | _ => simp [same] at h
  | .app f a _ _, e', h => by
    cases e' with
    | app f' a' =>
      simp only [same, Bool.and_eq_true] at h
      simp only [eval, eval_same I f f' h.1.1, eval_same I a a' h.1.2]
    | _ => simp [same] at h
  | .lam b body _ _, e', h => by
    cases e' with
    | lam b' body' =>
      simp only [same, Bool.and_eq_true] at h
      have hname : b.name.text = b'.name.text := by
        simpa using sameBinders_names h.1.1
      simp only [eval, hname]
      congr 1
      funext v
      exact eval_same I body body' h.1.2
    | _ => simp [same] at h
  | .quant q bs r b _ _, e', h => by
    cases e' with
    | quant q' bs' r' b' =>
      simp only [same, Bool.and_eq_true] at h
      obtain ⟨⟨⟨⟨hq, hbs⟩, hr⟩, hb⟩, -⟩ := h
      have hnames := sameBinders_names hbs
      have hlen : bs.length = bs'.length := by
        simpa using congrArg List.length hnames
      simp only [eval, eval_same I q q' hq, hnames]
      exact I.quantOver_congr hlen (fun vs _ => eval_same I r r' hr)
        (fun vs _ => eval_same I b b' hb)
    | _ => simp [same] at h
  | .index a i _ _, e', h => by
    cases e' with
    | index a' i' =>
      simp only [same, Bool.and_eq_true] at h
      simp only [eval, eval_same I a a' h.1.1, eval_same I i i' h.1.2]
    | _ => simp [same] at h
  | .update a i v _ _, e', h => by
    cases e' with
    | update a' i' v' =>
      simp only [same, Bool.and_eq_true] at h
      simp only [eval, eval_same I a a' h.1.1.1, eval_same I i i' h.1.1.2,
        eval_same I v v' h.1.2]
    | _ => simp [same] at h

theorem evalLinks_same (I : Interpretation V) {σ : Valuation V} :
    (ls ls' : List (TypedLink TypedExpr)) → sameLinks ls ls' = true →
      evalLinks I σ ls = evalLinks I σ ls'
  | [], [], _ => rfl
  | [], _ :: _, h | _ :: _, [], h => by simp [sameLinks] at h
  | l :: ls, l' :: ls', h => by
    simp only [sameLinks, Bool.and_eq_true, beq_iff_eq] at h
    obtain ⟨⟨⟨hop, -⟩, hrhs⟩, hls⟩ := h
    simp only [evalLinks, hop, eval_same I l.rhs l'.rhs hrhs, evalLinks_same I ls ls' hls]

end

end TypedExpr

namespace Interpretation

variable {V : Type u} (I : Interpretation V)

def Holds (σ : Valuation V) (e : TypedExpr) : Prop := I.IsTrue (e.eval I σ)

theorem holds_congr {σ τ : Valuation V} {e : TypedExpr} (h : ∀ x ∈ e.freeVars, σ x = τ x) :
    I.Holds σ e ↔ I.Holds τ e := by
  rw [Holds, Holds, e.eval_congr I h]

@[simp] theorem holds_ofBool (σ : Valuation V) (b : Bool) :
    I.Holds σ (.ofBool b) ↔ b = true :=
  I.isTrue_bool b

@[simp] theorem holds_conj (σ : Valuation V) (l r : TypedExpr) :
    I.Holds σ (.conj l r) ↔ I.Holds σ l ∧ I.Holds σ r :=
  I.isTrue_conj _ _

@[simp] theorem holds_disj (σ : Valuation V) (l r : TypedExpr) :
    I.Holds σ (.disj l r) ↔ I.Holds σ l ∨ I.Holds σ r :=
  I.isTrue_disj _ _

@[simp] theorem holds_implies (σ : Valuation V) (l r : TypedExpr) :
    I.Holds σ (.implies l r) ↔ (I.Holds σ l → I.Holds σ r) :=
  I.isTrue_implies _ _

@[simp] theorem holds_neg (σ : Valuation V) (e : TypedExpr) :
    I.Holds σ (.neg e) ↔ ¬ I.Holds σ e :=
  I.isTrue_neg _

theorem holds_foldl_conj (σ : Valuation V) (e : TypedExpr) (es : List TypedExpr) :
    I.Holds σ (es.foldl .conj e) ↔ I.Holds σ e ∧ ∀ d ∈ es, I.Holds σ d := by
  induction es generalizing e with
  | nil => simp
  | cons d es ih => simp [ih, and_assoc]

theorem holds_foldl_disj (σ : Valuation V) (e : TypedExpr) (es : List TypedExpr) :
    I.Holds σ (es.foldl .disj e) ↔ I.Holds σ e ∨ ∃ d ∈ es, I.Holds σ d := by
  induction es generalizing e with
  | nil => simp
  | cons d es ih => simp [ih, or_assoc]

@[simp] theorem holds_conjunction (σ : Valuation V) (es : List TypedExpr) :
    I.Holds σ (.conjunction es) ↔ ∀ e ∈ es, I.Holds σ e := by
  cases es with
  | nil => simp [TypedExpr.conjunction]
  | cons e es => simp [TypedExpr.conjunction, holds_foldl_conj]

@[simp] theorem holds_disjunction (σ : Valuation V) (es : List TypedExpr) :
    I.Holds σ (.disjunction es) ↔ ∃ e ∈ es, I.Holds σ e := by
  cases es with
  | nil => simp [TypedExpr.disjunction]
  | cons e es => simp [TypedExpr.disjunction, holds_foldl_disj]

end Interpretation

end GuardedCommands
