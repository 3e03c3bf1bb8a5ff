import GuardedCommands.Ty
import GuardedCommands.NameMap

/-!
# Substitution of types

A substitution replaces variables by types, rigid ones and metavariables alike,
and leaves the intervals of arrays as they are.  `compose s t` does `t` first.
-/

namespace GuardedCommands

namespace Ty

abbrev Subst := NameMap Ty

def subst (s : Subst) : Ty → Ty
  | .rigid n => (s.get? n.text).getD (.rigid n)
  | .metavar n => (s.get? n.text).getD (.metavar n)
  | .array i t l => .array i (t.subst s) l
  | .app f a l => .app (f.subst s) (a.subst s) l
  | .base b l => .base b l
  | .tuple n l => .tuple n l
  | .arrow l => .arrow l
  | .data n => .data n

/-- The substitution that does `t` first and `s` after it. -/
def Subst.compose (s t : Subst) : Subst := s.override (t.map (Ty.subst s))

def freeVars : Ty → NameSet
  | .rigid n | .metavar n => {n.text}
  | .array _ t _ => t.freeVars
  | .app f a _ => f.freeVars ∪ a.freeVars
  | .base .. | .tuple .. | .arrow _ | .data _ => ∅

def metavars : Ty → NameSet
  | .metavar n => {n.text}
  | .array _ t _ => t.metavars
  | .app f a _ => f.metavars ∪ a.metavars
  | .rigid _ | .base .. | .tuple .. | .arrow _ | .data _ => ∅

def rigidVars : Ty → NameSet
  | .rigid n => {n.text}
  | .array _ t _ => t.rigidVars
  | .app f a _ => f.rigidVars ∪ a.rigidVars
  | .metavar _ | .base .. | .tuple .. | .arrow _ | .data _ => ∅

def size : Ty → Nat
  | .array _ t _ => t.size + 1
  | .app f a _ => f.size + a.size + 1
  | .base .. | .tuple .. | .arrow _ | .data _ | .rigid _ | .metavar _ => 1

/-- What is left after one variable has been replaced by a type without it. -/
theorem mem_freeVars_subst_singleton {x z : String} {u t : Ty} (hx : x ∉ u.freeVars)
    (hz : z ∈ (t.subst (.singleton x u)).freeVars) :
    z ≠ x ∧ (z ∈ t.freeVars ∨ z ∈ u.freeVars) := by
  induction t with
  | rigid n | metavar n =>
    simp only [subst, NameMap.get?_singleton] at hz
    split at hz
    · exact ⟨fun h => hx (h ▸ hz), .inr hz⟩
    · next h =>
      simp only [Option.getD_none, freeVars, NameSet.mem_singleton] at hz ⊢
      exact ⟨fun h' => h (hz ▸ h'), .inl hz⟩
  | array i t l ih => exact ih hz
  | app f a l ihf iha =>
    simp only [subst, freeVars, NameSet.mem_union] at hz ⊢
    rcases hz with hz | hz
    · exact ⟨(ihf hz).1, (ihf hz).2.imp_left .inl⟩
    · exact ⟨(iha hz).1, (iha hz).2.imp_left .inr⟩
  | base b l | tuple n l | arrow l | data n =>
    simp [subst, freeVars] at hz

end Ty

end GuardedCommands
