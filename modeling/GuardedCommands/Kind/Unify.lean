import GuardedCommands.Elaboration.Error
import GuardedCommands.Kind.Context

/-!
# Unification of kinds

A metavariable is solved by a kind whose own metavariables stand before it in the
context.  One that stands behind is first promoted: a new metavariable is put in
front of the one to be solved, and the later one is solved by it.  Either way one
unsolved metavariable less is left, so unification ends.
-/

namespace GuardedCommands

/-- A context of kinds with the supply that names its metavariables. -/
structure KindState where
  supply : Supply
  context : KindContext

/-- Kind inference, which leaves its changes behind when it fails. -/
abbrev KindM := EStateM ElaborationError KindState

/-- The entries around the metavariable that is being solved. -/
structure Focus where
  before : List KindEntry
  after : List KindEntry
  supply : Supply
  /-- What has been promoted, with the earlier metavariables. -/
  promoted : Kind.Subst

namespace Focus

/-- Brings a metavariable that stands behind to the front. -/
def promote (f : Focus) (x : String) : Focus :=
  if f.after.any (·.leaves x) then
    let earlier := f.supply.next "k"
    { before := f.before ++ [.unsolved earlier]
      after := KindContext.solveFirst x (.metavar earlier) f.after
      supply := f.supply.advance
      promoted := Kind.Subst.compose (.singleton x (.metavar earlier)) f.promoted }
  else f

def unsolved (f : Focus) : Nat :=
  KindContext.unsolvedCount f.before + KindContext.unsolvedCount f.after

theorem unsolved_promote (f : Focus) (x : String) : (f.promote x).unsolved = f.unsolved := by
  unfold promote
  split
  · next h =>
    have := KindContext.unsolvedCount_solveFirst (k := .metavar (f.supply.next "k")) h
    simp only [unsolved, KindContext.unsolvedCount_append, KindContext.unsolvedCount] at this ⊢
    omega
  · rfl

theorem unsolved_foldl_promote (xs : List String) (f : Focus) :
    (xs.foldl promote f).unsolved = f.unsolved := by
  induction xs generalizing f with
  | nil => rfl
  | cons x xs ih => rw [List.foldl_cons, ih, unsolved_promote]

end Focus

namespace KindState

def initial : KindState := ⟨.initial, .empty⟩

def unsolved (st : KindState) : Nat := KindContext.unsolvedCount st.context.entries

/-- Solves an unsolved metavariable by a kind that it does not occur in. -/
def solve? (st : KindState) (x : String) (k : Kind) : Option KindState :=
  if x ∈ k.freeVars then none
  else
    match KindContext.split? x st.context.entries with
    | none => none
    | some (before, n, after) =>
      let f := k.freeVars.toList.foldl Focus.promote ⟨before, after, st.supply, ∅⟩
      let around : KindContext := ⟨f.before ++ .unsolved n :: f.after⟩
      let solution := around.zonk (k.apply f.promoted)
      some ⟨f.supply, ⟨f.before ++ .solved n solution :: f.after⟩⟩

theorem unsolved_solve? {st st' : KindState} {x : String} {k : Kind}
    (h : st.solve? x k = some st') : st'.unsolved < st.unsolved := by
  unfold solve? at h
  split at h
  · cases h
  · split at h
    · cases h
    · next before n after hsplit =>
      cases h
      have hf := Focus.unsolved_foldl_promote k.freeVars.toList ⟨before, after, st.supply, ∅⟩
      simp only [Focus.unsolved] at hf
      simp only [unsolved, (KindContext.split?_eq_some hsplit).1,
        KindContext.unsolvedCount_append, KindContext.unsolvedCount] at hf ⊢
      omega

end KindState

namespace Kind

inductive Step
  | split (eqs : List (Kind × Kind))
  | solve (x : String) (k : Kind)
  | clash

def step (k l : Kind) : Step :=
  match k, l with
  | .star, .star => .split []
  | .arrow a b, .arrow c d => .split [(a, c), (b, d)]
  | .metavar a, .metavar b => if a.text = b.text then .split [] else .solve a.text l
  | .metavar a, _ => .solve a.text l
  | _, .metavar b => .solve b.text k
  | _, _ => .clash

def size : Kind → Nat
  | .arrow dom cod => dom.size + cod.size + 1
  | _ => 1

def equationSize : List (Kind × Kind) → Nat
  | [] => 0
  | eq :: eqs => eq.1.size + eq.2.size + equationSize eqs

theorem equationSize_append (eqs eqs' : List (Kind × Kind)) :
    equationSize (eqs ++ eqs') = equationSize eqs + equationSize eqs' := by
  induction eqs with
  | nil => simp [equationSize]
  | cons eq eqs ih => simp only [List.cons_append, equationSize, ih]; omega

theorem step_split {k l : Kind} {eqs : List (Kind × Kind)} (h : step k l = .split eqs) :
    equationSize eqs < k.size + l.size := by
  unfold step at h
  split at h
  · cases h; simp [equationSize, size]
  · cases h; simp only [equationSize, size]
    omega
  · split at h
    · cases h; simp [equationSize, size]
    · cases h
  · cases h
  · cases h
  · cases h

/-- Solves equations of zonked kinds in order.  A solution is put into all equations
that remain. -/
def solveAll (loc : Loc) (eqs : List (Kind × Kind)) (st : KindState) :
    EStateM.Result ElaborationError KindState Unit :=
  match eqs with
  | [] => .ok () st
  | (k, l) :: rest =>
    match _h : step k l with
    | .split parts => solveAll loc (parts ++ rest) st
    | .solve x m =>
      match _h' : st.solve? x m with
      | some st' =>
        solveAll loc (rest.map fun eq => (st'.context.zonk eq.1, st'.context.zonk eq.2)) st'
      | none => .error (.kindUnifyFailed k l loc) st
    | .clash => .error (.kindUnifyFailed k l loc) st
termination_by (st.unsolved, equationSize eqs)
decreasing_by
  · refine Prod.Lex.right _ ?_
    have := step_split _h
    simp only [equationSize_append, equationSize]
    omega
  · exact Prod.Lex.left _ _ (KindState.unsolved_solve? _h')

def unify (k l : Kind) (loc : Loc) : KindM Unit := fun st =>
  solveAll loc [(st.context.zonk k, st.context.zonk l)] st

end Kind

end GuardedCommands
