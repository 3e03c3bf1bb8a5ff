import GuardedCommands.Proofs.Soundness

/-!
# Segments as a partition

What the cut of a statement list has to be, said without cutting.  The segments cover the
statements of the list, each once and in order; only the text of a hole is not kept.  Runs
are maximal.  A loop goes with what is asserted right before it, and what is asserted stands
alone if no loop follows.  These conditions determine the segments.  A walk through the
list by positions, which remembers where the current run began, finds the same segments.
-/

namespace GuardedCommands

/-- The statement that a predicate is written as. -/
def Pred.stmt? : Pred → Option TypedStmt
  | .constant _ => none
  | .assertion e loc => some (.assert e loc)
  | .invariant inv bound loc => some (.invariant inv bound loc)

def Stmt.dropText : TypedStmt → TypedStmt
  | .hole _ env loc => .hole "" env loc
  | s => s

namespace Segment

def isRun : Segment → Bool
  | .run _ => true
  | _ => false

/-- The statements that a segment covers. -/
def stmts : Segment → List TypedStmt
  | .run ss => ss
  | .assertion p => p.stmt?.toList
  | .loop inv cmds loc => inv.stmt?.toList ++ [.loop cmds loc]
  | .hole env loc => [.hole "" env loc]

/-- No run is empty or holds a statement at which the list is cut, and all predicates are
written. -/
def Proper : Segment → Prop
  | .run ss => ss ≠ [] ∧ ∀ s ∈ ss, cuts s = false
  | .assertion p | .loop p _ _ => ∃ s, p.stmt? = some s
  | .hole _ _ => True

/-- The segments before this one cover the statements in `before`. -/
def StartsAfter (segs : List Segment) (before : List TypedStmt) (seg : Segment) : Prop :=
  ∃ segs₁ segs₂, segs = segs₁ ++ seg :: segs₂ ∧ segs₁.flatMap stmts = before.map Stmt.dropText

/-- How statements fall into segments.  The segment of a loop covers what is asserted before
the loop as well, so a loop at the beginning of a list is in no such segment. -/
structure Partition (ss : List TypedStmt) (segs : List Segment) : Prop where
  lossless : segs.flatMap stmts = ss.map Stmt.dropText
  proper : ∀ seg ∈ segs, seg.Proper
  apart : segs.IsChain fun seg seg' => ¬(seg.isRun ∧ seg'.isRun)
  /-- A loop has a segment of its own with `inv` exactly if `inv` stands right before it. -/
  loop_iff : ∀ before s cmds loc after, ss = before ++ s :: .loop cmds loc :: after →
    ∀ inv, StartsAfter segs before (.loop inv cmds loc) ↔ predOf? s = some inv
  assertion : ∀ before s after p, ss = before ++ s :: after → predOf? s = some p →
    (∀ cmds loc, after.head? ≠ some (.loop cmds loc)) → StartsAfter segs before (.assertion p)

variable {s : TypedStmt} {ss us rest before after : List TypedStmt} {p : Pred}
  {cmds : List TypedCmd} {loc : Loc} {seg seg' : Segment} {segs segs' : List Segment}

/-! ## Statements -/

theorem dropText_of_plain (h : cuts s = false) : s.dropText = s := by
  cases s with
  | hole => simp [cuts] at h
  | _ => rfl

theorem cuts_dropText (s : TypedStmt) : cuts s.dropText = cuts s := by
  cases s <;> rfl

theorem predOf?_of_dropText (h : p.stmt? = some s.dropText) : predOf? s = some p := by
  cases p <;> cases s <;> cases h <;> rfl

theorem dropText_eq_loop_iff : s.dropText = .loop cmds loc ↔ s = .loop cmds loc := by
  cases s <;> simp [Stmt.dropText]

theorem exists_of_dropText_eq_hole {text : String} {env : TypeEnv}
    (h : s.dropText = .hole text env loc) : ∃ text, s = .hole text env loc := by
  cases s <;> cases h
  exact ⟨_, rfl⟩

theorem map_dropText (h : ∀ s ∈ us, cuts s = false) : us.map Stmt.dropText = us :=
  (List.map_congr_left fun s hs => dropText_of_plain (h s hs)).trans (List.map_id us)

/-! ## The cut -/

theorem consRun_of_head (h : ∀ seg ∈ segs.head?, seg.isRun = false) :
    consRun s segs = .run [s] :: segs := by
  unfold consRun
  split
  · cases h _ rfl
  · rfl

theorem ofStmts_cons_of_plain (h : cuts s = false) (ss : List TypedStmt) :
    ofStmts (s :: ss) = consRun s (ofStmts ss) := by
  cases s with
  | assert | invariant | hole => simp [cuts] at h
  | _ => rw [ofStmts] <;> simp

theorem ofStmts_cons_of_loop (h : predOf? s = some p) (cmds : List TypedCmd) (loc : Loc)
    (ss : List TypedStmt) :
    ofStmts (s :: .loop cmds loc :: ss) = .loop p cmds loc :: ofStmts ss := by
  cases s <;> cases h <;> rw [ofStmts]

theorem ofStmts_cons_of_assertion (h : predOf? s = some p)
    (hnext : ∀ cmds loc, ss.head? ≠ some (.loop cmds loc)) :
    ofStmts (s :: ss) = .assertion p :: ofStmts ss := by
  have hss : ∀ cmds loc rest, ss = .loop cmds loc :: rest → False := by
    rintro cmds loc rest rfl
    exact hnext cmds loc rfl
  cases s <;> cases h <;> rw [ofStmts] <;> exact hss

theorem head_ofStmts_of_cuts (h : cuts s = true) :
    ∀ seg ∈ (ofStmts (s :: ss)).head?, seg.isRun = false := by
  generalize hss : s :: ss = full
  fun_cases ofStmts full with
  | case1 => cases hss
  | case7 _ _ _ hassert _ hinvariant hhole =>
    cases hss
    cases h.symm.trans (plain_of_ne hassert hinvariant hhole)
  | _ => simp [isRun]

theorem consRun_append (h : ∀ seg ∈ segs'.head?, seg.isRun = false) (segs : List Segment) :
    consRun s (segs ++ segs') = consRun s segs ++ segs' := by
  cases segs with
  | nil => exact consRun_of_head h
  | cons seg segs => cases seg <;> rfl

/-- No segment goes across a statement at which the list is cut. -/
theorem ofStmts_append_of_cuts (h : cuts s = true) (before after : List TypedStmt) :
    ofStmts (before ++ s :: after) = ofStmts before ++ ofStmts (s :: after) := by
  have hnext : ∀ rest : List TypedStmt, (∀ cmds loc tail, rest = .loop cmds loc :: tail → False) →
      ∀ cmds loc, (rest ++ s :: after).head? ≠ some (.loop cmds loc) := by
    rintro (_ | ⟨t, rest⟩) hrest cmds loc hloop
    · cases hloop
      simp [cuts] at h
    · cases hloop
      exact hrest cmds loc rest rfl
  fun_induction ofStmts before with
  | case1 => rfl
  | case2 e l cmds loc rest ih | case4 e bound l cmds loc rest ih =>
    exact (ofStmts_cons_of_loop rfl _ _ _).trans (congrArg _ ih)
  | case3 e l rest hrest ih | case5 e bound l rest hrest ih =>
    exact (ofStmts_cons_of_assertion rfl (hnext rest hrest)).trans (congrArg _ ih)
  | case6 text env l rest ih =>
    rw [List.cons_append, ofStmts, ih]
    rfl
  | case7 t rest _ hassert _ hinvariant hhole ih =>
    rw [List.cons_append, ofStmts_cons_of_plain (plain_of_ne hassert hinvariant hhole), ih]
    exact consRun_append (head_ofStmts_of_cuts h) _

theorem ofStmts_run_append (hne : us ≠ []) (hus : ∀ s ∈ us, cuts s = false)
    (hrest : ∀ seg ∈ (ofStmts rest).head?, seg.isRun = false) :
    ofStmts (us ++ rest) = .run us :: ofStmts rest := by
  induction us with
  | nil => exact absurd rfl hne
  | cons s us ih =>
    obtain ⟨hs, hus⟩ := List.forall_mem_cons.1 hus
    rw [List.cons_append, ofStmts_cons_of_plain hs]
    cases us with
    | nil => exact consRun_of_head hrest
    | cons t us => rw [ih (by simp) hus, consRun]

/-! ## The cut is a partition -/

theorem flatMap_stmts_consRun (s : TypedStmt) (segs : List Segment) :
    (consRun s segs).flatMap stmts = s :: segs.flatMap stmts := by
  unfold consRun
  split <;> rfl

theorem lossless_ofStmts (ss : List TypedStmt) :
    (ofStmts ss).flatMap stmts = ss.map Stmt.dropText := by
  fun_induction ofStmts ss with
  | case1 => rfl
  | case7 s rest _ hassert _ hinvariant hhole ih =>
    rw [flatMap_stmts_consRun, ih, List.map_cons,
      dropText_of_plain (plain_of_ne hassert hinvariant hhole)]
  | _ => simp_all [stmts, Pred.stmt?, Stmt.dropText]

theorem proper_consRun (hs : cuts s = false) (h : ∀ seg ∈ segs, seg.Proper) :
    ∀ seg ∈ consRun s segs, seg.Proper := by
  unfold consRun
  split
  · obtain ⟨hrun, hsegs⟩ := List.forall_mem_cons.1 h
    exact List.forall_mem_cons.2 ⟨⟨by simp, List.forall_mem_cons.2 ⟨hs, hrun.2⟩⟩, hsegs⟩
  · exact List.forall_mem_cons.2 ⟨⟨by simp, by simpa using hs⟩, h⟩

theorem proper_ofStmts (ss : List TypedStmt) : ∀ seg ∈ ofStmts ss, seg.Proper := by
  fun_induction ofStmts ss with
  | case1 => simp
  | case7 s rest _ hassert _ hinvariant hhole ih =>
    exact proper_consRun (plain_of_ne hassert hinvariant hhole) ih
  | case6 => exact List.forall_mem_cons.2 ⟨trivial, by assumption⟩
  | _ => exact List.forall_mem_cons.2 ⟨⟨_, rfl⟩, by assumption⟩

theorem apart_consRun (h : segs.IsChain fun seg seg' => ¬(seg.isRun ∧ seg'.isRun)) :
    (consRun s segs).IsChain fun seg seg' => ¬(seg.isRun ∧ seg'.isRun) := by
  cases segs with
  | nil => simp [consRun]
  | cons seg segs => cases seg <;> simp_all [consRun, List.isChain_cons, isRun]

theorem apart_ofStmts (ss : List TypedStmt) :
    (ofStmts ss).IsChain fun seg seg' => ¬(seg.isRun ∧ seg'.isRun) := by
  fun_induction ofStmts ss with
  | case1 => simp
  | case7 s rest _ _ _ _ _ ih => exact apart_consRun ih
  | _ => simp_all [List.isChain_cons, isRun]

theorem partition_ofStmts (ss : List TypedStmt) : Partition ss (ofStmts ss) where
  lossless := lossless_ofStmts ss
  proper := proper_ofStmts ss
  apart := apart_ofStmts ss
  loop_iff := by
    rintro before s cmds loc after rfl inv
    constructor
    · rintro ⟨segs₁, segs₂, hsegs, hbefore⟩
      have hlossless := lossless_ofStmts (before ++ s :: .loop cmds loc :: after)
      have hproper := proper_ofStmts (before ++ s :: .loop cmds loc :: after)
      rw [hsegs] at hlossless hproper
      obtain ⟨t, ht⟩ : (loop inv cmds loc).Proper := hproper _ (by simp)
      simp [hbefore, stmts, ht] at hlossless
      exact predOf?_of_dropText (ht.trans (congrArg some hlossless.1))
    · intro hs
      refine ⟨ofStmts before, ofStmts after, ?_, lossless_ofStmts before⟩
      rw [ofStmts_append_of_cuts (cuts_of_predOf? hs), ofStmts_cons_of_loop hs]
  assertion := by
    rintro before s after p rfl hs hnext
    refine ⟨ofStmts before, ofStmts after, ?_, lossless_ofStmts before⟩
    rw [ofStmts_append_of_cuts (cuts_of_predOf? hs), ofStmts_cons_of_assertion hs hnext]

/-! ## No other partition -/

theorem Proper.stmts_ne_nil (h : seg.Proper) : seg.stmts ≠ [] := by
  cases seg with
  | run ss => exact h.1
  | assertion p =>
    obtain ⟨s, hs⟩ := h
    simp [stmts, hs]
  | loop | hole => simp [stmts]

theorem startsAfter_cons_iff (hseg : seg.Proper) {front : List TypedStmt}
    (hfront : front.map Stmt.dropText = seg.stmts) :
    StartsAfter (seg :: segs) (front ++ before) seg' ↔ StartsAfter segs before seg' := by
  constructor
  · rintro ⟨_ | ⟨seg₁, segs₁⟩, segs₂, hsegs, hbefore⟩
    · rw [List.map_append, hfront] at hbefore
      exact absurd (List.append_eq_nil_iff.1 hbefore.symm).1 hseg.stmts_ne_nil
    · obtain ⟨rfl, rfl⟩ := List.cons.inj hsegs
      rw [List.map_append, hfront, List.flatMap_cons] at hbefore
      exact ⟨segs₁, segs₂, rfl, List.append_cancel_left hbefore⟩
  · rintro ⟨segs₁, segs₂, rfl, hbefore⟩
    exact ⟨seg :: segs₁, segs₂, rfl, by rw [List.flatMap_cons, hbefore, List.map_append, hfront]⟩

theorem eq_of_startsAfter_nil (hseg : seg.Proper) (h : StartsAfter (seg :: segs) [] seg') :
    seg = seg' := by
  obtain ⟨_ | ⟨seg₁, segs₁⟩, segs₂, hsegs, hbefore⟩ := h
  · exact (List.cons.inj hsegs).1
  · obtain ⟨rfl, rfl⟩ := List.cons.inj hsegs
    exact absurd (List.append_eq_nil_iff.1 hbefore).1 hseg.stmts_ne_nil

theorem Partition.tail {front : List TypedStmt} (h : Partition (front ++ rest) (seg :: segs))
    (hfront : front.map Stmt.dropText = seg.stmts) : Partition rest segs where
  lossless := by
    have hlossless := h.lossless
    rw [List.flatMap_cons, List.map_append, hfront] at hlossless
    exact List.append_cancel_left hlossless
  proper seg' hseg' := h.proper seg' (.tail _ hseg')
  apart := (List.isChain_cons.1 h.apart).2
  loop_iff := by
    rintro before s cmds loc after rfl inv
    rw [← startsAfter_cons_iff (h.proper _ (.head _)) hfront]
    exact h.loop_iff _ s cmds loc after (by simp) inv
  assertion := by
    rintro before s after p rfl hs hnext
    rw [← startsAfter_cons_iff (h.proper _ (.head _)) hfront]
    exact h.assertion _ s after p (by simp) hs hnext

theorem Partition.eq_ofStmts (h : Partition ss segs) : segs = ofStmts ss := by
  induction segs generalizing ss with
  | nil => rw [List.map_eq_nil_iff.1 h.lossless.symm, ofStmts]
  | cons seg segs ih =>
    have hproper := h.proper seg (.head _)
    have hlossless := h.lossless
    rw [List.flatMap_cons, eq_comm, List.map_eq_append_iff] at hlossless
    obtain ⟨front, rest, rfl, hfront, -⟩ := hlossless
    have hsegs : segs = ofStmts rest := ih (h.tail hfront)
    cases seg with
    | run us =>
      rw [stmts] at hfront
      have hplain : ∀ s ∈ front, cuts s = false := by
        intro s hs
        rw [← cuts_dropText]
        exact hproper.2 _ (hfront ▸ List.mem_map_of_mem hs)
      obtain rfl : front = us := (map_dropText hplain).symm.trans hfront
      have hhead := (List.isChain_cons.1 h.apart).1
      rw [hsegs, ofStmts_run_append hproper.1 hplain]
      simpa [isRun, hsegs] using hhead
    | assertion p =>
      obtain ⟨t, ht⟩ := hproper
      rw [stmts, ht, Option.toList, List.map_eq_singleton_iff] at hfront
      obtain ⟨s, rfl, rfl⟩ := hfront
      have hs : predOf? s = some p := predOf?_of_dropText ht
      rw [hsegs, List.singleton_append, ofStmts_cons_of_assertion hs]
      intro cmds loc hloop
      obtain ⟨tail, rfl⟩ := List.head?_eq_some_iff.1 hloop
      -- the loop would be in the first segment
      have hstart := (h.loop_iff [] s cmds loc tail rfl p).2 hs
      cases eq_of_startsAfter_nil (h.proper _ (.head _)) hstart
    | loop inv cmds loc =>
      obtain ⟨t, ht⟩ := hproper
      rw [stmts, ht, Option.toList, List.singleton_append, List.map_eq_cons_iff] at hfront
      obtain ⟨s, front, rfl, rfl, hfront⟩ := hfront
      rw [List.map_eq_singleton_iff] at hfront
      obtain ⟨t, rfl, hloop⟩ := hfront
      rw [dropText_eq_loop_iff] at hloop
      rw [hsegs, hloop]
      exact (ofStmts_cons_of_loop (predOf?_of_dropText ht) cmds loc rest).symm
    | hole env loc =>
      rw [stmts, List.map_eq_singleton_iff] at hfront
      obtain ⟨s, rfl, hs⟩ := hfront
      obtain ⟨text, rfl⟩ := exists_of_dropText_eq_hole hs
      rw [hsegs, List.singleton_append, ofStmts]

/-- The segments of a list are a partition of it, and there is no other.  They hold all its
statements in order, runs are maximal and without assertions and holes, a loop goes with the
assertion or invariant right before it and with no other, and an assertion or invariant with
no loop after it stands alone. -/
theorem partition_iff_ofStmts (ss : List TypedStmt) (segs : List Segment) :
    Partition ss segs ↔ segs = ofStmts ss := by
  constructor
  · exact Partition.eq_ofStmts
  · rintro rfl
    exact partition_ofStmts ss

/-! ## Cutting by positions -/

/-- The segment that begins with a statement at which the list is cut, and how many statements
it takes; the next statement tells whether it is a loop. -/
def cut? (s : TypedStmt) (next : Option TypedStmt) : Option (Segment × Nat) :=
  match predOf? s, next, s with
  | some p, some (.loop cmds loc), _ => some (.loop p cmds loc, 2)
  | some p, _, _ => some (.assertion p, 1)
  | none, _, .hole _ env loc => some (.hole env loc, 1)
  | none, _, _ => none

theorem plain_of_cut? {next : Option TypedStmt} (h : cut? s next = none) : cuts s = false := by
  cases s with
  | assert | invariant => cases next with
    | none => cases h
    | some t => cases t <;> cases h
  | hole => cases h
  | _ => rfl

theorem ofStmts_of_cut? {width : Nat} (h : cut? s ss.head? = some (seg, width)) :
    cuts s = true ∧ ∃ front rest, s :: ss = front ++ rest ∧ front.length = width ∧
      ofStmts (s :: ss) = seg :: ofStmts rest := by
  unfold cut? at h
  split at h
  · next p cmds loc hnext hs =>
    obtain ⟨rest, rfl⟩ := List.head?_eq_some_iff.1 hnext
    cases h
    exact ⟨cuts_of_predOf? hs, [_, _], rest, rfl, rfl, ofStmts_cons_of_loop hs cmds loc rest⟩
  · next p hnext hs =>
    cases h
    exact ⟨cuts_of_predOf? hs, [_], ss, rfl, rfl, ofStmts_cons_of_assertion hs hnext⟩
  · cases h
    exact ⟨rfl, [_], ss, rfl, rfl, by rw [ofStmts]⟩
  · cases h

/-- The segments so far, the position behind the last of them, and the position reached. -/
structure Cursor where
  out : List Segment
  start : Nat
  pos : Nat

namespace Cursor

/-- The segments when the run up to a position is closed, unless it is empty. -/
def close (ss : List TypedStmt) (c : Cursor) : List Segment :=
  if c.start < c.pos then c.out ++ [.run ((ss.take c.pos).drop c.start)] else c.out

def step (ss : List TypedStmt) (c : Cursor) : Cursor :=
  match ss[c.pos]?.bind (cut? · ss[c.pos + 1]?) with
  | some (seg, width) => ⟨c.close ss ++ [seg], c.pos + width, c.pos + width⟩
  | none => { c with pos := c.pos + 1 }

theorem lt_pos_step (ss : List TypedStmt) (c : Cursor) : c.pos < (c.step ss).pos := by
  unfold step
  split
  · next seg width h =>
    obtain ⟨s, -, h⟩ := Option.bind_eq_some_iff.1 h
    unfold cut? at h
    split at h <;> cases h <;> exact Nat.lt_add_of_pos_right (by decide)
  · exact Nat.lt_add_one c.pos

def scan (ss : List TypedStmt) (c : Cursor) : List Segment :=
  if c.pos < ss.length then scan ss (c.step ss) else close ss { c with pos := ss.length }
termination_by ss.length - c.pos
decreasing_by
  have := lt_pos_step ss c
  omega

/-- The position is behind the statements in `front` and `run`, and the segments of those in
`front` are there. -/
structure At (ss : List TypedStmt) (c : Cursor) (front run rest : List TypedStmt) : Prop where
  stmts : ss = front ++ (run ++ rest)
  start : c.start = front.length
  pos : c.pos = front.length + run.length
  plain : ∀ s ∈ run, cuts s = false
  out : ofStmts ss = c.out ++ ofStmts (run ++ rest)

variable {c : Cursor} {front run : List TypedStmt}

theorem At.close (h : c.At ss front run rest) : c.close ss = c.out ++ ofStmts run := by
  unfold Cursor.close
  cases run with
  | nil =>
    rw [if_neg (by simp [h.start, h.pos]), ofStmts, List.append_nil]
  | cons t run =>
    have hrun : ofStmts (t :: run ++ []) = .run (t :: run) :: ofStmts [] :=
      ofStmts_run_append (List.cons_ne_nil t run) h.plain (by simp [ofStmts])
    have hss : ss = (front ++ t :: run) ++ rest := by rw [h.stmts, List.append_assoc]
    rw [List.append_nil, ofStmts] at hrun
    rw [if_pos (by simp [h.start, h.pos]), h.start, h.pos, hrun, hss, ← List.length_append,
      List.take_left, List.drop_left]

theorem At.step (h : c.At ss front run (s :: rest)) :
    ∃ front run rest', (c.step ss).At ss front run rest' := by
  have hlook : ∀ i, ss[c.pos + i]? = (s :: rest)[i]? := by
    intro i
    rw [h.stmts, h.pos, ← List.append_assoc, List.getElem?_append_right (by simp)]
    simp
  have hcut : ss[c.pos]?.bind (cut? · ss[c.pos + 1]?) = cut? s rest.head? := by
    rw [hlook 1, ← Nat.add_zero c.pos, hlook 0]
    simp [List.head?_eq_getElem?]
  unfold Cursor.step
  rw [hcut]
  split
  · next seg width hsome =>
    obtain ⟨hs, taken, rest', htaken, rfl, hseg⟩ := ofStmts_of_cut? hsome
    refine ⟨front ++ run ++ taken, [], rest', ⟨?_, ?_, ?_, by simp, ?_⟩⟩
    · rw [h.stmts, htaken]
      simp
    · simp [h.pos, Nat.add_assoc]
    · simp [h.pos, Nat.add_assoc]
    · rw [h.out, h.close, ofStmts_append_of_cuts hs, hseg]
      simp
  · next hnone =>
    refine ⟨front, run ++ [s], rest, ⟨?_, h.start, ?_, ?_, ?_⟩⟩
    · rw [h.stmts]
      simp
    · simp [h.pos, Nat.add_assoc]
    · exact List.forall_mem_append.2 ⟨h.plain, by simpa using plain_of_cut? hnone⟩
    · rw [h.out]
      simp

theorem At.scan (h : c.At ss front run rest) : c.scan ss = ofStmts ss := by
  fun_induction Cursor.scan ss c generalizing front run rest with
  | case1 c hpos ih =>
    cases rest with
    | nil => simp [h.pos, h.stmts] at hpos
    | cons s rest =>
      obtain ⟨front, run, rest, h⟩ := h.step
      exact ih h
  | case2 c hpos =>
    have hlength := congrArg List.length h.stmts
    rw [List.length_append, List.length_append, ← Nat.add_assoc, ← h.pos] at hlength
    obtain rfl : rest = [] := List.length_eq_zero_iff.1 (by omega)
    have hend : c.pos = ss.length := by simpa using hlength.symm
    rw [← hend, h.close, h.out, List.append_nil]

end Cursor

/-- Walking through a list by positions, with the position where the run began and a look at
the statement behind an assertion, gives the segments. -/
theorem scan_eq_ofStmts (ss : List TypedStmt) : Cursor.scan ss ⟨[], 0, 0⟩ = ofStmts ss := by
  have hstart : Cursor.At ss ⟨[], 0, 0⟩ [] [] ss := ⟨rfl, rfl, rfl, by simp, rfl⟩
  exact hstart.scan

end Segment

end GuardedCommands
