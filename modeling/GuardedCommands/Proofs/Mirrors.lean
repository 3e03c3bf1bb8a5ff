import GuardedCommands.Proofs.Basic

/-!
# Computations that mirror each other

A computation mirrors another if, started in the image of a state, it ends in the
image of where the other one ends, with the image of its result or of its error.
There is a rule for each way of building computations, so that two programs of the
same shape are compared step by step.
-/

namespace GuardedCommands

def Except.mirror {ε α β : Type} (g : ε → ε) (u : α → β) (x : Except ε α) : Except ε β :=
  (x.map u).mapError g

namespace Except

variable {ε α β γ δ : Type} {g : ε → ε} {u : α → β} {v : γ → δ}

@[simp] theorem mirror_ok (a : α) : mirror g u (.ok a) = .ok (u a) := rfl

@[simp] theorem mirror_error (e : ε) : mirror g u (.error e) = .error (g e) := rfl

theorem mirror_bind {x : Except ε α} {f : α → Except ε γ} {f' : β → Except ε δ}
    (h : ∀ a, f' (u a) = mirror g v (f a)) : mirror g u x >>= f' = mirror g v (x >>= f) := by
  cases x with
  | error e => rfl
  | ok a => exact h a

theorem mirror_forM {f : α → Except ε PUnit} {f' : β → Except ε PUnit}
    (h : ∀ a, f' (u a) = mirror g id (f a)) (as : List α) :
    (as.map u).forM f' = mirror g id (as.forM f) := by
  induction as with
  | nil => rfl
  | cons a as ih =>
    have hcons : ((a :: as).map u).forM f' = f' (u a) >>= fun _ => (as.map u).forM f' := rfl
    rw [hcons, h a]
    exact mirror_bind fun _ => ih

end Except

def EStateM.mirror {ε σ α β : Type} (g : ε → ε) (h : σ → σ) (u : α → β) :
    EStateM.Result ε σ α → EStateM.Result ε σ β
  | .ok a s => .ok (u a) (h s)
  | .error e s => .error (g e) (h s)

/-- The second computation does with images what the first one does. -/
def Mirrors {ε σ α β : Type} (g : ε → ε) (h : σ → σ) (u : α → β) (m : EStateM ε σ α)
    (m' : EStateM ε σ β) : Prop :=
  ∀ s, m' (h s) = EStateM.mirror g h u (m s)

namespace Mirrors

variable {ε σ α β γ δ : Type} {g : ε → ε} {h : σ → σ} {u : α → β} {v : γ → δ}

theorem pure {a : α} {b : β} (hb : b = u a) : Mirrors g h u (Pure.pure a) (Pure.pure b) := by
  intro s
  subst hb
  rfl

variable {e e' : ε} {f : α → EStateM ε σ γ} {f' : β → EStateM ε σ δ} {m : EStateM ε σ α}
  {m' : EStateM ε σ β} {w : γ → δ}

theorem throw (he : e' = g e) : Mirrors g h u (MonadExcept.throw e) (MonadExcept.throw e') := by
  intro s
  subst he
  rfl

theorem throw_bind (he : e' = g e) :
    Mirrors g h v (MonadExcept.throw e >>= f) (MonadExcept.throw e' >>= f') := by
  intro s
  subst he
  rfl

theorem bind (hm : Mirrors g h u m m') (hf : ∀ a, Mirrors g h v (f a) (f' (u a))) :
    Mirrors g h v (m >>= f) (m' >>= f') := by
  intro s
  have hleft : (m >>= f) s = EStateM.bind m f s := rfl
  have hright : (m' >>= f') (h s) = EStateM.bind m' f' (h s) := rfl
  rw [hleft, hright, EStateM.bind, EStateM.bind, hm s]
  cases m s with
  | ok a s' => exact hf a s'
  | error e s' => rfl

theorem discard (hm : Mirrors g h u m m') : Mirrors g h id (discard m) (discard m') := by
  intro s
  have hrun : ∀ {γ : Type} (m : EStateM ε σ γ) (s : σ), Functor.discard m s = match m s with
      | .ok _ s' => .ok () s'
      | .error e s' => .error e s' := fun _ _ => rfl
  rw [hrun, hrun, hm s]
  cases m s <;> rfl

theorem ofExcept {x : Except ε α} {x' : Except ε β} (hx : x' = Except.mirror g u x) :
    Mirrors g h u (MonadExcept.ofExcept x) (MonadExcept.ofExcept x') := by
  intro s
  subst hx
  cases x <;> rfl

theorem get : Mirrors g h h MonadState.get MonadState.get := fun _ => rfl

theorem modifies {f f' : σ → σ} (hf : ∀ s, f' (h s) = h (f s)) :
    Mirrors g h id (modify f) (modify f') := by
  intro s
  have hright : (modify f' : EStateM ε σ PUnit) (h s) = .ok ⟨⟩ (f' (h s)) := rfl
  rw [hright, hf]
  rfl

theorem modifyGet {f : σ → α × σ} {f' : σ → β × σ} (hf : ∀ s, f' (h s) = (u (f s).1, h (f s).2)) :
    Mirrors g h u (modifyGet f) (modifyGet f') := by
  intro s
  have hright : (MonadState.modifyGet f' : EStateM ε σ β) (h s) =
      .ok (f' (h s)).1 (f' (h s)).2 := rfl
  exact hright.trans (by rw [hf]; rfl)

theorem mapM {f : γ → EStateM ε σ α} {k : δ → EStateM ε σ β}
    (hf : ∀ x, Mirrors g h u (f x) (k (w x))) (xs : List γ) :
    Mirrors g h (List.map u) (xs.mapM f) ((xs.map w).mapM k) := by
  induction xs with
  | nil => exact pure rfl
  | cons x xs ih =>
    rw [List.map_cons, List.mapM_cons, List.mapM_cons]
    exact (hf x).bind fun a => ih.bind fun as => pure rfl

theorem forM {f : γ → EStateM ε σ PUnit} {k : δ → EStateM ε σ PUnit}
    (hf : ∀ x, Mirrors g h id (f x) (k (w x))) (xs : List γ) :
    Mirrors g h id (xs.forM f) ((xs.map w).forM k) := by
  induction xs with
  | nil => exact pure rfl
  | cons x xs ih => exact (hf x).bind fun _ => ih

end Mirrors

end GuardedCommands
