import GuardedCommands.Proofs.HoleScope
import GuardedCommands.Proofs.StructuralErrors

/-!
# Holes in the order of the text

Preconditions are computed backwards, so the holes of a program are recorded in an
order that is not that of the text: what follows a hole comes first, the branches of a
conditional come in turn, and the body of a loop after everything behind the loop.
Still every hole is recorded once.  Sorting by offsets then brings the holes back into
the order of the text, and they are numbered in that order.
-/

namespace GuardedCommands

/-! ## The holes of a program -/

namespace Stmt

mutual

def holeSites : TypedStmt → List HoleSite
  | .hole _ env loc => [⟨env, loc⟩]
  | .loop cs _ | .cond cs _ => cmdsHoleSites cs
  | .block b _ => listHoleSites b.stmts
  | _ => []

def cmdsHoleSites : List TypedCmd → List HoleSite
  | [] => []
  | c :: cs => listHoleSites c.body ++ cmdsHoleSites cs

def listHoleSites : List TypedStmt → List HoleSite
  | [] => []
  | s :: ss => s.holeSites ++ listHoleSites ss

end

theorem map_site_listPlaces (later : Set String) (ss : List TypedStmt) :
    (listPlaces later ss).map HolePlace.site = listHoleSites ss := by
  induction ss using nested_induction
      (S := fun s => ∀ later, (s.places later).map HolePlace.site = s.holeSites)
      (C := fun cs => ∀ later, (cmdsPlaces later cs).map HolePlace.site = cmdsHoleSites cs)
      generalizing later with
  | simple s => cases s <;> simp_all [isSimple, places, holeSites]
  | _ => simp_all [places, cmdsPlaces, listPlaces, holeSites, cmdsHoleSites, listHoleSites]

end Stmt

/-! ## Sorting and numbering -/

theorem HoleSite.eq_of_offset_eq {sites : List HoleSite}
    (h : sites.Pairwise (·.loc.offset < ·.loc.offset)) {a b : HoleSite} (ha : a ∈ sites)
    (hb : b ∈ sites) (heq : a.loc.offset = b.loc.offset) : a = b := by
  have hnodup : (sites.map (·.loc.offset)).Nodup :=
    List.pairwise_map.2 (h.imp fun hlt => UInt64.ne_of_lt hlt)
  exact List.inj_on_of_nodup_map hnodup ha hb heq

namespace Ledger

theorem holeSites_output_sorted (l : Ledger) :
    (l.output.holes.map SpecHole.site).Pairwise (·.loc.offset ≤ ·.loc.offset) := by
  rw [map_holes_output fun _ _ => rfl, List.pairwise_map]
  have hsorted : (l.holes.mergeSort fun a b => a.loc.offset ≤ b.loc.offset).Pairwise
      fun a b => decide (a.loc.offset ≤ b.loc.offset) = true := by
    refine List.pairwise_mergeSort (fun a b c hab hbc => ?_) (fun a b => ?_) _
    · exact decide_eq_true (UInt64.le_trans (of_decide_eq_true hab) (of_decide_eq_true hbc))
    · simpa using UInt64.le_total a.loc.offset b.loc.offset
  simpa only [decide_eq_true_eq, SpecHole.site] using hsorted

theorem holeIds_output (l : Ledger) :
    l.output.holes.map (·.id) = List.range l.output.holes.length := by
  exact List.ext_getElem (by simp) (by simp [output])

end Ledger

/-- Every hole of a program is reported once, with the environment and the location that it has
in the text.  The holes are numbered in the order in which they are reported, and this is the
order of the text if offsets grow along the text. -/
theorem TypedProgram.verify_reports_holes {p : TypedProgram} {o : Options} {out : Output}
    (h : p.verify o = .ok out) :
    (out.holes.map SpecHole.site).Perm (Stmt.listHoleSites p.stmts) ∧
      out.holes.map (·.id) = List.range out.holes.length ∧
      ((Stmt.listHoleSites p.stmts).Pairwise (·.loc.offset < ·.loc.offset) →
        out.holes.map SpecHole.site = Stmt.listHoleSites p.stmts) := by
  have hperm : (out.holes.map SpecHole.site).Perm (Stmt.listHoleSites p.stmts) := by
    have hrel := holes_of_verify ∅ ∅ False False.elim h
    have hsites := Multiset.rel_eq.1 (Multiset.rel_map.2 (hrel.mono fun _ _ _ _ hfits => hfits.1))
    rwa [Multiset.map_coe, Multiset.map_coe, Multiset.coe_eq_coe,
      Stmt.map_site_listPlaces] at hsites
  obtain ⟨l, hl, rfl⟩ := ledger_of_verify h
  refine ⟨hperm, l.holeIds_output, fun hsorted => ?_⟩
  refine List.Perm.eq_of_pairwise (fun a b ha hb hab hba => ?_) l.holeSites_output_sorted
    (hsorted.imp fun hlt => UInt64.le_of_lt hlt) hperm
  exact HoleSite.eq_of_offset_eq hsorted (hperm.mem_iff.1 ha) hb (UInt64.le_antisymm hab hba)

namespace ScatteredHoles

def hole (offset : UInt64) (env : TypeEnv) : TypedStmt := .hole "" env ⟨offset, 5⟩

def declared : TypedDeclaration := ⟨.var, [.bare "t"], .int, none, .none⟩

def inner : TypeEnv := TypeEnv.empty.insert (.bare "t") ⟨.var, .int⟩

def branch (body : List TypedStmt) : TypedCmd := ⟨.ofBool true, body, .none⟩

/-- A hole, two branches with a hole each, and a block with two holes and a loop between them,
which has a hole in its body. -/
def program : TypedProgram :=
  ⟨[], [], [],
    [hole 3 .empty,
      .cond [branch [hole 20 .empty], branch [hole 40 .empty]] .none,
      .block ⟨[], [declared], [],
        [hole 60 inner, .invariant (.ofBool true) none .none,
          .loop [branch [hole 80 inner]] .none, hole 99 inner], .none⟩ .none], .none⟩

end ScatteredHoles

theorem scattered_holes_reported : ∃ out, ScatteredHoles.program.verify .default = .ok out ∧
    (Stmt.listHoleSites ScatteredHoles.program.stmts).Pairwise (·.loc.offset < ·.loc.offset) ∧
    out.holes.map SpecHole.site = [⟨.empty, 3, 5⟩, ⟨.empty, 20, 5⟩, ⟨.empty, 40, 5⟩,
      ⟨ScatteredHoles.inner, 60, 5⟩, ⟨ScatteredHoles.inner, 80, 5⟩, ⟨ScatteredHoles.inner, 99, 5⟩] ∧
    out.holes.map (·.id) = [0, 1, 2, 3, 4, 5] := by
  obtain ⟨out, hverify⟩ := TypedProgram.exists_verify (p := ScatteredHoles.program) rfl .default
  obtain ⟨hperm, hids, hsites⟩ := TypedProgram.verify_reports_holes hverify
  have hsorted : (Stmt.listHoleSites ScatteredHoles.program.stmts).Pairwise
      (·.loc.offset < ·.loc.offset) := by decide
  have hlength : out.holes.length = 6 := by
    rw [← List.length_map SpecHole.site, hperm.length_eq]
    rfl
  refine ⟨out, hverify, hsorted, hsites hsorted, ?_⟩
  rw [hids, hlength]
  rfl

end GuardedCommands
