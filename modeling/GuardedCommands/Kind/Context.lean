import GuardedCommands.Fresh
import GuardedCommands.Kind

/-!
# Contexts of kinds

A context lists, in the order in which they came to be known, the type names
with their kinds and the kind metavariables, solved or not.  `zonk` puts the
solutions of a context into a kind, as often as there is something to put in.
-/

namespace GuardedCommands

inductive KindEntry
  /-- A type name with its kind. -/
  | annotated (n : Name) (k : Kind)
  | unsolved (n : Name)
  | solved (n : Name) (k : Kind)

namespace KindEntry

def annotates (x : String) : KindEntry → Bool
  | .annotated n _ => n.text == x
  | _ => false

def leaves (x : String) : KindEntry → Bool
  | .unsolved n => n.text == x
  | _ => false

end KindEntry

structure KindContext where
  entries : List KindEntry

namespace KindContext

def empty : KindContext := ⟨[]⟩

def annotation? (x : String) : List KindEntry → Option Kind
  | [] => none
  | .annotated n k :: rest => if n.text = x then some k else annotation? x rest
  | _ :: rest => annotation? x rest

def solution? (x : String) : List KindEntry → Option Kind
  | [] => none
  | .solved n k :: rest => if n.text = x then some k else solution? x rest
  | _ :: rest => solution? x rest

/-- What a metavariable stands for, through at most `depth` solutions. -/
def resolve (entries : List KindEntry) : (depth : Nat) → Name → Kind
  | 0, n => .metavar n
  | depth + 1, n =>
    match solution? n.text entries with
    | some k => k.bind (resolve entries depth)
    | none => .metavar n

/-- A kind with all solutions put in.  Solutions never lead back to themselves, so a
path through them meets each entry at most once. -/
def zonk (ctx : KindContext) (k : Kind) : Kind := k.bind (resolve ctx.entries ctx.entries.length)

def lookup? (ctx : KindContext) (x : String) : Option Kind :=
  (annotation? x ctx.entries).map ctx.zonk

def isUnsolved (ctx : KindContext) (x : String) : Bool := ctx.entries.any (·.leaves x)

def push (ctx : KindContext) (e : KindEntry) : KindContext := ⟨ctx.entries ++ [e]⟩

def unannotate (ctx : KindContext) (x : String) : KindContext :=
  ⟨ctx.entries.eraseP (·.annotates x)⟩

def defaultUnsolved (ctx : KindContext) : KindContext :=
  ⟨ctx.entries.map fun
    | .unsolved n => .solved n .star
    | e => e⟩

def unsolvedCount : List KindEntry → Nat
  | [] => 0
  | .unsolved _ :: rest => unsolvedCount rest + 1
  | _ :: rest => unsolvedCount rest

@[simp] theorem unsolvedCount_append (a b : List KindEntry) :
    unsolvedCount (a ++ b) = unsolvedCount a + unsolvedCount b := by
  induction a with
  | nil => simp [unsolvedCount]
  | cons e a ih =>
    cases e <;> simp only [List.cons_append, unsolvedCount, ih]
    omega

def split? (x : String) : List KindEntry → Option (List KindEntry × Name × List KindEntry)
  | [] => none
  | e :: rest =>
    match e with
    | .unsolved n =>
      if n.text = x then some ([], n, rest)
      else (split? x rest).map fun (before, m, after) => (e :: before, m, after)
    | _ => (split? x rest).map fun (before, m, after) => (e :: before, m, after)

theorem split?_eq_some {x : String} {entries before after : List KindEntry} {n : Name}
    (h : split? x entries = some (before, n, after)) :
    entries = before ++ .unsolved n :: after ∧ n.text = x := by
  induction entries generalizing before with
  | nil => cases h
  | cons e rest ih =>
    have hrest : (split? x rest).map (fun (b, m, a) => (e :: b, m, a)) = some (before, n, after) →
        e :: rest = before ++ .unsolved n :: after ∧ n.text = x := by
      intro h
      obtain ⟨⟨b, m, a⟩, hb, heq⟩ := Option.map_eq_some_iff.1 h
      cases heq
      have := ih hb
      exact ⟨by simp [this.1], this.2⟩
    unfold split? at h
    split at h
    · split at h
      · next hx =>
        cases h
        exact ⟨rfl, hx⟩
      · exact hrest h
    · exact hrest h

def solveFirst (x : String) (k : Kind) : List KindEntry → List KindEntry
  | [] => []
  | .unsolved n :: rest =>
    if n.text = x then .solved n k :: rest else .unsolved n :: solveFirst x k rest
  | e :: rest => e :: solveFirst x k rest

theorem unsolvedCount_solveFirst {x : String} {k : Kind} {entries : List KindEntry}
    (h : entries.any (·.leaves x) = true) :
    unsolvedCount (solveFirst x k entries) + 1 = unsolvedCount entries := by
  induction entries with
  | nil => simp at h
  | cons e rest ih =>
    cases e with
    | annotated n j | solved n j =>
      simp only [List.any_cons, KindEntry.leaves, Bool.false_or] at h
      simpa only [solveFirst, unsolvedCount] using ih h
    | unsolved n =>
      by_cases hx : n.text = x
      · simp [solveFirst, hx, unsolvedCount]
      · have hany : rest.any (·.leaves x) = true := by
          simpa [KindEntry.leaves, hx] using h
        simpa [solveFirst, hx, unsolvedCount] using ih hany

end KindContext

end GuardedCommands
