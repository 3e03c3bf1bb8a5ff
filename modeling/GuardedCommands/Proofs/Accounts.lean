import GuardedCommands.Proofs.Basic
import GuardedCommands.Verification.Structure

/-!
# What is added to a ledger

A ledger only grows.  What a computation adds to it is measured in a monoid in which the
order of the entries does not count: the reports on loops, the holes, the obligations,
each as often as it has been recorded.  The parts of a computation add up.
-/

namespace GuardedCommands

/-- A computation that succeeds adds something to the ledger, and it goes with the result. -/
def Accounts {M : Type} [AddCommMonoid M] (view : Ledger → M) {α : Type} (m : VerificationM α)
    (Q : α → M → Prop) : Prop :=
  ∀ l a l', m l = .ok a l' → ∃ r, Q a r ∧ view l' = view l + r

namespace Accounts

variable {M : Type} [AddCommMonoid M] {view : Ledger → M} {α β : Type} {m : VerificationM α}
  {Q : α → M → Prop}

theorem bind {f : α → VerificationM β} {Q' : β → M → Prop} (hm : Accounts view m Q)
    (hf : ∀ a r, Q a r → Accounts view (f a) fun b r' => Q' b (r + r')) :
    Accounts view (m >>= f) Q' := by
  intro l b l' h
  obtain ⟨a, l₁, hml, hfl⟩ := EStateM.ok_of_bind h
  obtain ⟨r, hr, hfirst⟩ := hm l a l₁ hml
  obtain ⟨r', hr', hsecond⟩ := hf a r hr l₁ b l' hfl
  exact ⟨r + r', hr', by rw [hsecond, hfirst, add_assoc]⟩

theorem pure {a : α} (h : Q a 0) : Accounts view (Pure.pure a : VerificationM α) Q := by
  intro l b l' hl
  cases hl
  exact ⟨0, h, (add_zero _).symm⟩

theorem ofExcept {x : Except VerificationError α} (h : ∀ a, x = .ok a → Q a 0) :
    Accounts view (MonadExcept.ofExcept x : VerificationM α) Q := by
  intro l a l' hl
  obtain ⟨hx, rfl⟩ := EStateM.ok_of_ofExcept hl
  exact ⟨0, h a hx, (add_zero _).symm⟩

theorem mono {Q' : α → M → Prop} (hm : Accounts view m Q) (h : ∀ a r, Q a r → Q' a r) :
    Accounts view m Q' := by
  intro l a l' hl
  obtain ⟨r, hr, hadd⟩ := hm l a l' hl
  exact ⟨r, h a r hr, hadd⟩

theorem modifies {f : Ledger → Ledger} {R : M → Prop}
    (h : ∀ l, ∃ r, R r ∧ view (f l) = view l + r) :
    Accounts view (modify f : VerificationM Unit) fun _ r => R r := by
  intro l a l' hl
  cases hl
  exact h l

theorem unchanged {f : Ledger → Ledger} (h : ∀ l, view (f l) = view l) :
    Accounts view (modify f : VerificationM Unit) fun _ r => r = 0 :=
  .modifies fun l => ⟨0, rfl, by rw [h, add_zero]⟩

theorem forM {γ : Type} {f : γ → VerificationM Unit} {P : γ → M → Prop} {R : List γ → M → Prop}
    {cs : List γ} (h : ∀ c ∈ cs, Accounts view (f c) fun _ r => P c r) (nil : R [] 0)
    (cons : ∀ c cs r r', P c r → R cs r' → R (c :: cs) (r + r')) :
    Accounts view (cs.forM f) fun _ r => R cs r := by
  induction cs with
  | nil => exact pure nil
  | cons c cs ih =>
    obtain ⟨hc, hcs⟩ := List.forall_mem_cons.1 h
    exact hc.bind fun _ r hr => (ih hcs).mono fun _ r' hr' => cons c cs r r' hr hr'

end Accounts

end GuardedCommands
