import GuardedCommands.Proofs.Renaming

/-!
# What statements guarantee

Assertions, invariants and holes can be passed over, as if each were a statement
that does nothing.  Statements guarantee a condition from a state if no run from
there fails when they are passed over, and every run that ends does so where the
condition holds.  For statements without loops and heap commands there is one rule
for each kind, and every rule is an equivalence.

New names for the locals of a block change nothing in what its statements
guarantee.
-/

namespace GuardedCommands

universe u

namespace Stmt

mutual

def freeNames : TypedStmt → NameSet
  | .skip _ | .abort _ | .hole .. => ∅
  | .assign xs es _ => NameSet.ofList (xs.map (·.text)) ∪ Wp.namesOf es
  | .arrayAssign a i v _ => a.freeVars ∪ i.freeVars ∪ v.freeVars
  | .assert e _ => e.freeVars
  | .invariant e bound _ => e.freeVars ∪ Wp.namesOf bound.toList
  | .loop cs _ | .cond cs _ => freeNamesCmds cs
  | .alloc x es _ => (Wp.namesOf es).insert x.text
  | .lookup x e _ => e.freeVars.insert x.text
  | .mutate cell value _ => cell.freeVars ∪ value.freeVars
  | .dispose cell _ => cell.freeVars
  | .block b _ => freeNamesList b.stmts \ NameSet.ofList b.localNames

def freeNamesCmds : List TypedCmd → NameSet
  | [] => ∅
  | c :: cs => c.guard.freeVars ∪ freeNamesList c.body ∪ freeNamesCmds cs

def freeNamesList : List TypedStmt → NameSet
  | [] => ∅
  | s :: ss => s.freeNames ∪ freeNamesList ss

end

mutual

def isStraight : TypedStmt → Bool
  | .loop .. | .alloc .. | .lookup .. | .mutate .. | .dispose .. => false
  | .cond cs _ => cmdsStraight cs
  | .block b _ => b.defns.isEmpty && listStraight b.stmts
  | _ => true

def cmdsStraight : List TypedCmd → Bool
  | [] => true
  | c :: cs => listStraight c.body && cmdsStraight cs

def listStraight : List TypedStmt → Bool
  | [] => true
  | s :: ss => s.isStraight && listStraight ss

end

mutual

/-- A statement with every assertion, invariant and hole in it made a `skip`. -/
def passOver : TypedStmt → TypedStmt
  | .assert _ loc | .invariant _ _ loc | .hole _ _ loc => .skip loc
  | .loop cs loc => .loop (passOverCmds cs) loc
  | .cond cs loc => .cond (passOverCmds cs) loc
  | .block b loc => .block ⟨b.defns, b.decls, b.props, passOverList b.stmts, b.loc⟩ loc
  | s => s

def passOverCmds : List TypedCmd → List TypedCmd
  | [] => []
  | c :: cs => ⟨c.guard, passOverList c.body, c.loc⟩ :: passOverCmds cs

def passOverList : List TypedStmt → List TypedStmt
  | [] => []
  | s :: ss => s.passOver :: passOverList ss

end

theorem assertion?_passOver (s : TypedStmt) : s.passOver.assertion? = none := by
  cases s <;> rfl

theorem mem_passOverCmds {cs : List TypedCmd} {d : TypedCmd} :
    d ∈ passOverCmds cs ↔ ∃ c ∈ cs, d = ⟨c.guard, passOverList c.body, c.loc⟩ := by
  induction cs with
  | nil => simp [passOverCmds]
  | cons c cs ih => simp [passOverCmds, ih]

end Stmt

/-! ## Rules as equivalences -/

namespace Execution

variable {V : Type u} {I : Interpretation V} {fails : Prop} {P : Valuation V → Prop}
  {c d : Execution V} {σ : Valuation V}

theorem Upholds.of_reaches (h : Upholds I fails P c) (hcd : Reaches I c d) :
    Upholds I fails P d :=
  ⟨fun hd => h.safe (hcd.trans hd), fun τ hd => h.final τ (hcd.trans hd)⟩

theorem Reaches.append (h : Reaches I c d) (us : List (Task V)) :
    Reaches I (c.append us) (d.append us) := by
  induction h with
  | refl => exact .refl
  | tail _ hlast ih =>
    obtain ⟨hstep⟩ := hlast
    refine ih.tail ?_
    rw [append_append]
    exact .head hstep

theorem upholds_append_iff {us : List (Task V)} :
    Upholds I fails P (c.append us) ↔
      Upholds I fails (fun σ => Upholds I fails P (.running us σ)) c := by
  constructor
  · intro h
    exact ⟨fun hc => h.safe (hc.append us), fun σ hc => h.of_reaches (hc.append us)⟩
  · intro h
    exact h.append fun σ hσ => hσ

theorem upholds_single_iff {t : Task V} :
    Upholds I fails P (.running [t] σ) ↔ ∀ d, t.Step I σ d → Upholds I fails P d := by
  constructor
  · intro h d hd
    exact h.step (step_single.2 hd)
  · intro h
    exact upholds_head fun d hd => by simpa using h d hd

theorem upholds_done_iff : Upholds I fails P (.running [] σ) ↔ P σ :=
  ⟨fun h => h.final σ .refl, upholds_done⟩

end Execution

/-- No run of the statements fails, assertions being passed over, and every run that ends
does so in a wanted state. -/
def Guarantees {V : Type u} (I : Interpretation V) (P : Valuation V → Prop)
    (ss : List TypedStmt) (σ : Valuation V) : Prop :=
  Execution.Upholds I False P (.running (Task.ofStmts none (Stmt.passOverList ss)) σ)

section Rules

open Execution

variable {V : Type u} {I : Interpretation V} {P : Valuation V → Prop} {σ : Valuation V}
  {loc : Loc}

theorem guarantees_nil : Guarantees I P [] σ ↔ P σ := upholds_done_iff

theorem guarantees_cons {s : TypedStmt} {ss : List TypedStmt} :
    Guarantees I P (s :: ss) σ ↔ Guarantees I (Guarantees I P ss) [s] σ := by
  have htasks : (Task.ofStmts none (Stmt.passOverList (s :: ss)) : List (Task V)) =
      [.exec none s.passOver] ++ Task.ofStmts none (Stmt.passOverList ss) := by
    simp [Stmt.passOverList, Task.ofStmts, Stmt.assertion?_passOver]
  rw [Guarantees, htasks]
  exact upholds_append_iff (c := .running [.exec none s.passOver] σ)

theorem guarantees_single {s : TypedStmt} :
    Guarantees I P [s] σ ↔
      ∀ d, Task.Step I (.exec none s.passOver) σ d → Upholds I False P d :=
  upholds_single_iff

theorem guarantees_passed {s : TypedStmt} (hs : s.passOver = .skip loc) :
    Guarantees I P [s] σ ↔ P σ := by
  rw [guarantees_single, hs]
  constructor
  · exact fun h => upholds_done_iff.1 (h _ .skip)
  · intro hP d hd
    cases hd with
    | skip => exact upholds_done hP
    | passed hs | refused hs | foreign hs => cases hs

theorem not_guarantees_abort : ¬ Guarantees I P [.abort loc] σ := by
  intro h
  exact (guarantees_single.1 h _ .abort).safe .refl

theorem guarantees_assign {xs : List Name} {es : List TypedExpr} :
    Guarantees I P [.assign xs es loc] σ ↔
      P (σ.bindAll (xs.map (·.text)) (es.map (·.eval I σ))) := by
  rw [guarantees_single]
  constructor
  · exact fun h => upholds_done_iff.1 (h _ .assign)
  · intro hP d hd
    cases hd with
    | assign => exact upholds_done hP
    | passed hs | refused hs | foreign hs => cases hs

theorem guarantees_arrayAssign {a i v : TypedExpr} {x : Name} (hname : a.asName? = some x) :
    Guarantees I P [.arrayAssign a i v loc] σ ↔
      P (Function.update σ x.text (I.update (a.eval I σ) (i.eval I σ) (v.eval I σ))) := by
  rw [guarantees_single]
  constructor
  · exact fun h => upholds_done_iff.1 (h _ (.arrayAssign hname))
  · intro hP d hd
    cases hd with
    | arrayAssign hname' =>
      cases hname.symm.trans hname'
      exact upholds_done hP
    | nestedArray hname' =>
      rw [hname] at hname'
      cases hname'
    | passed hs | refused hs | foreign hs => cases hs

theorem not_guarantees_nestedArray {a i v : TypedExpr} (hname : a.asName? = none) :
    ¬ Guarantees I P [.arrayAssign a i v loc] σ := by
  intro h
  exact (guarantees_single.1 h _ (.nestedArray hname)).safe .refl

theorem guarantees_cond {cs : List TypedCmd} :
    Guarantees I P [.cond cs loc] σ ↔
      ∀ c ∈ cs, I.Holds σ c.guard → Guarantees I P c.body σ := by
  rw [guarantees_single]
  constructor
  · intro h c hc hguard
    exact h _ (.branch (Stmt.mem_passOverCmds.2 ⟨c, hc, rfl⟩) hguard)
  · intro h d hd
    cases hd with
    | branch hc hguard =>
      obtain ⟨c, hmem, rfl⟩ := Stmt.mem_passOverCmds.1 hc
      exact h c hmem hguard
    | passed hs | refused hs | foreign hs => cases hs

theorem guarantees_block {b : TypedProgram} :
    Guarantees I P [.block b loc] σ ↔
      ∀ σ', (∀ x ∉ b.localNames, σ' x = σ x) →
        Guarantees I (fun τ => P (τ.restore σ b.localNames)) b.stmts σ' := by
  -- leaving the block is one more task, which puts the outer values back
  have hleave : ∀ τ, Upholds I False P (.running [.leave b.localNames σ] τ) ↔
      P (τ.restore σ b.localNames) := by
    intro τ
    rw [upholds_single_iff]
    constructor
    · exact fun h => upholds_done_iff.1 (h _ .leave)
    · intro hP d hd
      cases hd
      exact upholds_done hP
  have hbody : ∀ σ', Upholds I False P (.running (Task.ofStmts none
      (Stmt.passOverList b.stmts) ++ [.leave b.localNames σ]) σ') ↔
        Guarantees I (fun τ => P (τ.restore σ b.localNames)) b.stmts σ' := by
    intro σ'
    rw [← running_append, upholds_append_iff]
    simp only [hleave, Guarantees]
  rw [guarantees_single]
  constructor
  · exact fun h σ' hσ' => (hbody σ').1 (h _ (.enter hσ'))
  · intro h d hd
    cases hd with
    | enter hσ' => exact (hbody _).2 (h _ hσ')
    | passed hs | refused hs | foreign hs => cases hs

end Rules

/-! ## Renamed statements -/

namespace Renaming

variable {ρ : Renaming}

theorem listStraight_stmts (ρ : Renaming) (ss : List TypedStmt) :
    Stmt.listStraight (ρ.stmts ss) = Stmt.listStraight ss := by
  induction ss using Stmt.nested_induction
      (S := fun s => ∀ ρ : Renaming, (ρ.stmt s).isStraight = s.isStraight)
      (C := fun cs => ∀ ρ : Renaming, Stmt.cmdsStraight (ρ.cmds cs) = Stmt.cmdsStraight cs)
      generalizing ρ with
  | simple s => cases s <;> simp_all [Stmt.isSimple, stmt, Stmt.isStraight]
  | _ =>
    simp_all only [stmt, cmds, stmts, Stmt.isStraight, Stmt.cmdsStraight, Stmt.listStraight]

/-! What a renamed statement uses are the new forms of the names that it used before. -/

theorem mem_freeVars_expr (hρ : ρ.Consistent) {e : TypedExpr} {z : String}
    (hz : z ∈ (ρ.expr e).freeVars) : ∃ x ∈ e.freeVars, ρ.text x = z :=
  within_expr (Δ := {x | x ∈ e.freeVars}) hρ (fun _ hx => hx) z hz

theorem mem_namesOf_expr (hρ : ρ.Consistent) {es : List TypedExpr} {z : String}
    (hz : z ∈ Wp.namesOf (es.map ρ.expr)) : ∃ x ∈ Wp.namesOf es, ρ.text x = z := by
  simp only [Wp.namesOf, NameSet.mem_unionMap, List.mem_map] at hz ⊢
  obtain ⟨_, ⟨e, he, rfl⟩, hz⟩ := hz
  obtain ⟨x, hx, rfl⟩ := mem_freeVars_expr hρ hz
  exact ⟨x, ⟨e, he, hx⟩, rfl⟩

mutual

theorem mem_freeNames_stmt {ρ : Renaming} (hρ : ρ.Consistent) {z : String} :
    (s : TypedStmt) → s.isStraight = true → z ∈ (ρ.stmt s).freeNames →
      ∃ x ∈ s.freeNames, ρ.text x = z
  | .skip _, _, hz | .abort _, _, hz | .hole .., _, hz => by
    simp [stmt, Stmt.freeNames] at hz
  | .assign xs es _, _, hz => by
    simp only [stmt, Stmt.freeNames, NameSet.mem_union, NameSet.mem_ofList] at hz ⊢
    rcases hz with hz | hz
    · simp only [List.map_map, List.mem_map] at hz
      obtain ⟨x, hx, rfl⟩ := hz
      exact ⟨x.text, .inl (List.mem_map_of_mem hx), rfl⟩
    · obtain ⟨x, hx, hz⟩ := mem_namesOf_expr hρ hz
      exact ⟨x, .inr hx, hz⟩
  | .arrayAssign a i v _, _, hz => by
    simp only [stmt, Stmt.freeNames, NameSet.mem_union] at hz ⊢
    have := @mem_freeVars_expr ρ hρ
    grind
  | .assert e _, _, hz => by
    simp only [stmt, Stmt.freeNames] at hz ⊢
    exact mem_freeVars_expr hρ hz
  | .invariant e bound _, _, hz => by
    simp only [stmt, Stmt.freeNames, NameSet.mem_union] at hz ⊢
    rcases hz with hz | hz
    · obtain ⟨x, hx, hz⟩ := mem_freeVars_expr hρ hz
      exact ⟨x, .inl hx, hz⟩
    · rw [Option.toList_map] at hz
      obtain ⟨x, hx, hz⟩ := mem_namesOf_expr hρ hz
      exact ⟨x, .inr hx, hz⟩
  | .cond cs _, hs, hz => by
    simp only [stmt, Stmt.freeNames, Stmt.isStraight] at hs hz ⊢
    exact mem_freeNames_cmds hρ cs hs hz
  | .block b _, hs, hz => by
    simp only [Stmt.isStraight, Bool.and_eq_true, List.isEmpty_iff] at hs
    simp only [stmt, Stmt.freeNames, NameSet.mem_sdiff, NameSet.mem_ofList,
      TypedProgram.map_boundNames hs.1] at hz ⊢
    obtain ⟨x, hx, hz'⟩ := mem_freeNames_stmts (hρ.without _) b.stmts hs.2 hz.1
    rw [text_without] at hz'
    split at hz'
    · next hlocal =>
      have hmem : z ∈ b.localNames := by simpa [hz'] using hlocal
      exact absurd hmem hz.2
    · next hlocal => exact ⟨x, ⟨hx, by simpa using hlocal⟩, hz'⟩
  | .loop .., hs, _ | .alloc .., hs, _ | .lookup .., hs, _ | .mutate .., hs, _
  | .dispose .., hs, _ => by simp [Stmt.isStraight] at hs

theorem mem_freeNames_cmds {ρ : Renaming} (hρ : ρ.Consistent) {z : String} :
    (cs : List TypedCmd) → Stmt.cmdsStraight cs = true → z ∈ Stmt.freeNamesCmds (ρ.cmds cs) →
      ∃ x ∈ Stmt.freeNamesCmds cs, ρ.text x = z
  | [], _, hz => by simp [cmds, Stmt.freeNamesCmds] at hz
  | c :: cs, hcs, hz => by
    simp only [Stmt.cmdsStraight, Bool.and_eq_true] at hcs
    simp only [cmds, Stmt.freeNamesCmds, NameSet.mem_union] at hz ⊢
    rcases hz with (hz | hz) | hz
    · obtain ⟨x, hx, hz⟩ := mem_freeVars_expr hρ hz
      exact ⟨x, .inl (.inl hx), hz⟩
    · obtain ⟨x, hx, hz⟩ := mem_freeNames_stmts hρ c.body hcs.1 hz
      exact ⟨x, .inl (.inr hx), hz⟩
    · obtain ⟨x, hx, hz⟩ := mem_freeNames_cmds hρ cs hcs.2 hz
      exact ⟨x, .inr hx, hz⟩

theorem mem_freeNames_stmts {ρ : Renaming} (hρ : ρ.Consistent) {z : String} :
    (ss : List TypedStmt) → Stmt.listStraight ss = true →
      z ∈ Stmt.freeNamesList (ρ.stmts ss) → ∃ x ∈ Stmt.freeNamesList ss, ρ.text x = z
  | [], _, hz => by simp [stmts, Stmt.freeNamesList] at hz
  | s :: ss, hss, hz => by
    simp only [Stmt.listStraight, Bool.and_eq_true] at hss
    simp only [stmts, Stmt.freeNamesList, NameSet.mem_union] at hz ⊢
    rcases hz with hz | hz
    · obtain ⟨x, hx, hz⟩ := mem_freeNames_stmt hρ s hss.1 hz
      exact ⟨x, .inl hx, hz⟩
    · obtain ⟨x, hx, hz⟩ := mem_freeNames_stmts hρ ss hss.2 hz
      exact ⟨x, .inr hx, hz⟩

end

/-! ## Renamed statements guarantee the same -/

section Tracks

variable {V : Type u} {I : Interpretation V} {Δ : Set String} {start σ τ : Valuation V}

/-- The second state follows the first one under new names, and gives every other name the
value that it had at the start. -/
structure Tracks (ρ : Renaming) (Δ : Set String) (start σ τ : Valuation V) : Prop where
  agree : ρ.Agree Δ σ τ
  rest : ∀ z ∉ ρ.text '' Δ, τ z = start z

theorem Tracks.bindAll (hρ : ρ.Consistent) (hΔ : ρ.Over Δ) (h : ρ.Tracks Δ start σ τ)
    {xs : List String} (hxs : ∀ x ∈ xs, x ∈ Δ) (vs : List V) :
    ρ.Tracks Δ start (σ.bindAll xs vs) (τ.bindAll (xs.map ρ.text) vs) := by
  refine ⟨h.agree.bindAll (hΔ.injOn hρ) hxs vs, fun z hz => ?_⟩
  rw [Valuation.bindAll_of_not_mem, h.rest z hz]
  intro hmem
  obtain ⟨x, hx, rfl⟩ := List.mem_map.1 hmem
  exact hz ⟨x, hxs x hx, rfl⟩

variable {names : List String}

theorem text_under_of_mem {x : String} (hx : x ∈ names) :
    (ρ.without (NameSet.ofList names)).text x = x := by
  simp [text_without, hx]

theorem text_under_of_not_mem {x : String} (hx : x ∉ names) :
    (ρ.without (NameSet.ofList names)).text x = ρ.text x := by
  simp [text_without, hx]

theorem text_not_mem (hnew : ρ.Avoids {x | x ∈ names}) {x : String} (hx : x ∉ names) :
    ρ.text x ∉ names := by
  cases hn : ρ.names.get? x with
  | none => rwa [text_of_none hn]
  | some y =>
    rw [text_of_some hn]
    exact hnew x y hn

theorem Tracks.enter (h : ρ.Tracks Δ start σ τ) (hnew : ρ.Avoids {x | x ∈ names})
    {σ' τ' : Valuation V} (hσ' : ∀ x ∉ names, σ' x = σ x) (hτ' : ∀ x ∉ names, τ' x = τ x)
    (hlocal : ∀ x ∈ names, τ' x = σ' x) :
    (ρ.without (NameSet.ofList names)).Tracks (Δ ∪ {x | x ∈ names}) τ' σ' τ' := by
  refine ⟨fun x hx => ?_, fun _ _ => rfl⟩
  by_cases hmem : x ∈ names
  · rw [text_under_of_mem hmem, hlocal x hmem]
  · rw [text_under_of_not_mem hmem, hτ' _ (text_not_mem hnew hmem), hσ' x hmem]
    exact h.agree x (hx.resolve_right hmem)

theorem not_mem_image_under {z : String} (hz : z ∉ names)
    (h : ∀ x ∈ Δ, x ∉ names → ρ.text x ≠ z) :
    z ∉ (ρ.without (NameSet.ofList names)).text '' (Δ ∪ {x | x ∈ names}) := by
  rintro ⟨x, hx, rfl⟩
  by_cases hmem : x ∈ names
  · rw [text_under_of_mem hmem] at hz
    exact hz hmem
  · rw [text_under_of_not_mem hmem] at h
    exact h x (hx.resolve_right hmem) hmem rfl

/-- When a block is left, the names that it has hidden have their values again, each under
its new name. -/
theorem Tracks.leave (hρ : ρ.Consistent) (hΔ : ρ.Over Δ) (h : ρ.Tracks Δ start σ τ)
    (hnew : ρ.Avoids {x | x ∈ names}) {τ' σ'' τ'' : Valuation V}
    (hτ' : ∀ x ∉ names, τ' x = τ x)
    (h'' : (ρ.without (NameSet.ofList names)).Tracks (Δ ∪ {x | x ∈ names}) τ' σ'' τ'') :
    ρ.Tracks Δ start (σ''.restore σ names) (τ''.restore τ names) := by
  constructor
  · intro x hx
    by_cases hmem : x ∈ names
    · have hσx : σ''.restore σ names x = σ x := if_pos hmem
      by_cases htext : ρ.text x ∈ names
      · have hτx : τ''.restore τ names (ρ.text x) = τ (ρ.text x) := if_pos htext
        rw [hσx, hτx, h.agree x hx]
      · have hτx : τ''.restore τ names (ρ.text x) = τ'' (ρ.text x) := if_neg htext
        have hout := not_mem_image_under htext fun y hy hynames heq =>
          hynames (hΔ.injOn hρ hy hx heq ▸ hmem)
        rw [hσx, hτx, h''.rest _ hout, hτ' _ htext, h.agree x hx]
    · have hσx : σ''.restore σ names x = σ'' x := if_neg hmem
      have hτx : τ''.restore τ names (ρ.text x) = τ'' (ρ.text x) :=
        if_neg (text_not_mem hnew hmem)
      rw [hσx, hτx, ← text_under_of_not_mem hmem]
      exact h''.agree x (.inl hx)
  · intro z hz
    by_cases hmem : z ∈ names
    · have hτz : τ''.restore τ names z = τ z := if_pos hmem
      rw [hτz, h.rest z hz]
    · have hτz : τ''.restore τ names z = τ'' z := if_neg hmem
      have hout := not_mem_image_under hmem fun y hy _ heq => hz ⟨y, hy, heq⟩
      rw [hτz, h''.rest z hout, hτ' z hmem, h.rest z hz]

mutual

theorem guarantees_stmt {ρ : Renaming} (hρ : ρ.Consistent) {Δ : Set String} (hΔ : ρ.Over Δ)
    {start σ τ : Valuation V} {P Q : Valuation V → Prop}
    (hPQ : ∀ σ τ, ρ.Tracks Δ start σ τ → (P σ ↔ Q τ)) (h : ρ.Tracks Δ start σ τ) :
    (s : TypedStmt) → s.isStraight = true → (∀ x ∈ s.freeNames, x ∈ Δ) →
      ρ.Avoids {x | x ∈ s.blockNames} →
      (Guarantees I P [s] σ ↔ Guarantees I Q [ρ.stmt s] τ)
  | .skip loc, _, _, _ | .assert _ loc, _, _, _ | .invariant _ _ loc, _, _, _
  | .hole _ _ loc, _, _, _ => by
    rw [stmt, guarantees_passed rfl, guarantees_passed rfl]
    exact hPQ σ τ h
  | .abort _, _, _, _ => by
    rw [stmt]
    exact iff_of_false not_guarantees_abort not_guarantees_abort
  | .assign xs es _, _, hfree, _ => by
    simp only [Stmt.freeNames, NameSet.mem_union, NameSet.mem_ofList, Wp.namesOf,
      NameSet.mem_unionMap] at hfree
    have hxs : ∀ x ∈ xs.map (·.text), x ∈ Δ := fun x hx => hfree x (.inl hx)
    have hes : ∀ e ∈ es, e.Within Δ := fun e he x hx => hfree x (.inr ⟨e, he, hx⟩)
    rw [stmt, guarantees_assign, guarantees_assign, h.agree.map_eval hρ hes, map_text_name]
    exact hPQ _ _ (h.bindAll hρ hΔ hxs _)
  | .arrayAssign a i v _, _, hfree, _ => by
    simp only [Stmt.freeNames, NameSet.mem_union] at hfree
    have hname := asName?_expr hρ a
    rw [stmt]
    cases ha : a.asName? with
    | none =>
      rw [ha, Option.map_none, Option.map_eq_none_iff] at hname
      exact iff_of_false (not_guarantees_nestedArray ha) (not_guarantees_nestedArray hname)
    | some x =>
      rw [ha, Option.map_some] at hname
      obtain ⟨x', hx', htext⟩ := Option.map_eq_some_iff.1 hname
      have hx : x.text ∈ Δ :=
        hfree _ (.inl (.inl (by simp [TypedExpr.freeVars_of_asName? ha])))
      rw [guarantees_arrayAssign ha, guarantees_arrayAssign hx', htext,
        h.agree.eval hρ fun x hx => hfree x (.inl (.inl hx)),
        h.agree.eval hρ fun x hx => hfree x (.inl (.inr hx)),
        h.agree.eval hρ fun x hx => hfree x (.inr hx)]
      exact hPQ _ _ (h.bindAll hρ hΔ (List.forall_mem_singleton.2 hx) [_])
  | .cond cs _, hs, hfree, hnew => by
    simp only [Stmt.isStraight, Stmt.freeNames, Stmt.blockNames] at hs hfree hnew
    rw [stmt, guarantees_cond, guarantees_cond]
    exact guarantees_cmds hρ hΔ hPQ h cs hs hfree hnew
  | .block b _, hs, hfree, hnew => by
    simp only [Stmt.isStraight, Bool.and_eq_true, List.isEmpty_iff] at hs
    simp only [Stmt.freeNames, NameSet.mem_sdiff, NameSet.mem_ofList] at hfree
    obtain ⟨hnewLocal, hnewBody⟩ := avoids_block hs.1 hnew
    have hbody : ∀ σ' τ', (∀ x ∉ b.localNames, σ' x = σ x) →
        (∀ x ∉ b.localNames, τ' x = τ x) → (∀ x ∈ b.localNames, τ' x = σ' x) →
        (Guarantees I (fun σ'' => P (σ''.restore σ b.localNames)) b.stmts σ' ↔
          Guarantees I (fun τ'' => Q (τ''.restore τ b.localNames))
            ((ρ.without (NameSet.ofList b.localNames)).stmts b.stmts) τ') := by
      intro σ' τ' hσ' hτ' hlocal
      refine guarantees_stmts (hρ.without _)
        ((hΔ.without _).union (hnewLocal.without _)) (fun σ'' τ'' h'' => ?_)
        (h.enter hnewLocal hσ' hτ' hlocal) b.stmts hs.2 (fun x hx => ?_) (hnewBody.without _)
      · exact hPQ _ _ (h.leave hρ hΔ hnewLocal hτ' h'')
      · by_cases hmem : x ∈ b.localNames
        · exact .inr hmem
        · exact .inl (hfree x ⟨hx, hmem⟩)
    rw [stmt, TypedProgram.map_boundNames hs.1, guarantees_block, guarantees_block]
    -- what the locals start with can be copied from either side to the other
    constructor
    · intro hguar τ' hτ'
      exact (hbody (σ.restore τ' b.localNames) τ' (fun x hx => if_neg hx) hτ'
        (fun x hx => (if_pos hx).symm)).1 (hguar _ fun x hx => if_neg hx)
    · intro hguar σ' hσ'
      exact (hbody σ' (τ.restore σ' b.localNames) hσ' (fun x hx => if_neg hx)
        (fun x hx => if_pos hx)).2 (hguar _ fun x hx => if_neg hx)
  | .loop .., hs, _, _ | .alloc .., hs, _, _ | .lookup .., hs, _, _ | .mutate .., hs, _, _
  | .dispose .., hs, _, _ => by simp [Stmt.isStraight] at hs

theorem guarantees_cmds {ρ : Renaming} (hρ : ρ.Consistent) {Δ : Set String} (hΔ : ρ.Over Δ)
    {start σ τ : Valuation V} {P Q : Valuation V → Prop}
    (hPQ : ∀ σ τ, ρ.Tracks Δ start σ τ → (P σ ↔ Q τ)) (h : ρ.Tracks Δ start σ τ) :
    (cs : List TypedCmd) → Stmt.cmdsStraight cs = true → (∀ x ∈ Stmt.freeNamesCmds cs, x ∈ Δ) →
      ρ.Avoids {x | x ∈ Stmt.blockNamesCmds cs} →
      ((∀ c ∈ cs, I.Holds σ c.guard → Guarantees I P c.body σ) ↔
        ∀ c ∈ ρ.cmds cs, I.Holds τ c.guard → Guarantees I Q c.body τ)
  | [], _, _, _ => by simp [cmds]
  | c :: cs, hcs, hfree, hnew => by
    simp only [Stmt.cmdsStraight, Bool.and_eq_true] at hcs
    simp only [Stmt.freeNamesCmds, NameSet.mem_union] at hfree
    simp only [Stmt.blockNamesCmds] at hnew
    rw [cmds, List.forall_mem_cons, List.forall_mem_cons,
      h.agree.holds hρ fun x hx => hfree x (.inl (.inl hx)),
      guarantees_stmts hρ hΔ hPQ h c.body hcs.1 (fun x hx => hfree x (.inl (.inr hx)))
        (hnew.mono fun x hx => NameSet.mem_union.2 (.inl hx)),
      guarantees_cmds hρ hΔ hPQ h cs hcs.2 (fun x hx => hfree x (.inr hx))
        (hnew.mono fun x hx => NameSet.mem_union.2 (.inr hx))]

theorem guarantees_stmts {ρ : Renaming} (hρ : ρ.Consistent) {Δ : Set String} (hΔ : ρ.Over Δ)
    {start σ τ : Valuation V} {P Q : Valuation V → Prop}
    (hPQ : ∀ σ τ, ρ.Tracks Δ start σ τ → (P σ ↔ Q τ)) (h : ρ.Tracks Δ start σ τ) :
    (ss : List TypedStmt) → Stmt.listStraight ss = true →
      (∀ x ∈ Stmt.freeNamesList ss, x ∈ Δ) → ρ.Avoids {x | x ∈ Stmt.blockNamesList ss} →
      (Guarantees I P ss σ ↔ Guarantees I Q (ρ.stmts ss) τ)
  | [], _, _, _ => by
    rw [stmts, guarantees_nil, guarantees_nil]
    exact hPQ σ τ h
  | s :: ss, hss, hfree, hnew => by
    simp only [Stmt.listStraight, Bool.and_eq_true] at hss
    simp only [Stmt.freeNamesList, NameSet.mem_union] at hfree
    simp only [Stmt.blockNamesList] at hnew
    rw [stmts]
    refine guarantees_cons.trans (Iff.trans ?_ guarantees_cons.symm)
    refine guarantees_stmt hρ hΔ (fun σ' τ' h' => ?_) h s hss.1
      (fun x hx => hfree x (.inl hx)) (hnew.mono fun x hx => NameSet.mem_union.2 (.inl hx))
    exact guarantees_stmts hρ hΔ hPQ h' ss hss.2 (fun x hx => hfree x (.inr hx))
      (hnew.mono fun x hx => NameSet.mem_union.2 (.inr hx))

end

end Tracks

end Renaming

end GuardedCommands
