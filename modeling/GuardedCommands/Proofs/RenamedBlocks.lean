import GuardedCommands.Proofs.LoopAccounting
import Mathlib

/-!
# The recursion over renamed blocks

Preconditions are computed by a recursion that goes on, at a block, not in the block but in
a copy of it with other names.  It ends because renaming changes expressions and names and
nothing else.  A copy has the statements of the original, nested alike and at the same
places; it has the same number of them, it is cut into the same segments, and a loop occurs
in it if one occurs in the original.

To say that it ends, the recursion is written down once more, with a limit to the number of
calls that are open at a time in the place of a measure.  Wherever it is started, there is a
limit at which it is not cut off, and then it gives what the recursion with a measure gives.
-/

namespace GuardedCommands

/-! ## Copies -/

namespace Stmt

mutual

/-- The second statement is the first with other expressions and other names.  An array that
is a plain name stays one, and a block keeps all that it defines and declares. -/
inductive Copy : TypedStmt → TypedStmt → Prop
  | same {s} : Copy s s
  | assign {xs ys es ds loc} (hxs : ys.map (·.loc) = xs.map (·.loc)) (hes : ds.length = es.length) :
      Copy (.assign xs es loc) (.assign ys ds loc)
  | arrayAssign {a b i j v w loc} (h : b.asName?.isSome = a.asName?.isSome) :
      Copy (.arrayAssign a i v loc) (.arrayAssign b j w loc)
  | assert {e d loc} : Copy (.assert e loc) (.assert d loc)
  | invariant {e d b c loc} (h : c.isSome = b.isSome) :
      Copy (.invariant e b loc) (.invariant d c loc)
  | loop {cs ds loc} (h : List.Forall₂ CmdCopy cs ds) : Copy (.loop cs loc) (.loop ds loc)
  | cond {cs ds loc} (h : List.Forall₂ CmdCopy cs ds) : Copy (.cond cs loc) (.cond ds loc)
  | alloc {x y es ds loc} (hx : y.loc = x.loc) (hes : ds.length = es.length) :
      Copy (.alloc x es loc) (.alloc y ds loc)
  | lookup {x y e d loc} (hx : y.loc = x.loc) : Copy (.lookup x e loc) (.lookup y d loc)
  | mutate {c d v w loc} : Copy (.mutate c v loc) (.mutate d w loc)
  | dispose {e d loc} : Copy (.dispose e loc) (.dispose d loc)
  | block {b ss loc} (h : List.Forall₂ Copy b.stmts ss) :
      Copy (.block b loc) (.block { b with stmts := ss } loc)

inductive CmdCopy : TypedCmd → TypedCmd → Prop
  | body {c e ss} (h : List.Forall₂ Copy c.body ss) : CmdCopy c ⟨e, ss, c.loc⟩

end

end Stmt

namespace Renaming

/-- How renamings are made: names are taken in one by one, and may be left out again. -/
inductive Built : Renaming → Prop
  | empty : Built .empty
  | insert {ρ} (h : Built ρ) (d : TypedDeclaration) (old new : String) : Built (ρ.insert d old new)
  | without {ρ} (h : Built ρ) (hidden : NameSet) : Built (ρ.without hidden)

variable {ρ : Renaming}

theorem Built.isSome_asName? (h : ρ.Built) :
    ∀ x e, ρ.exprs.get? x = some e → e.asName?.isSome = true := by
  induction h with
  | empty => simp [Renaming.empty]
  | insert h d old new ih =>
    intro x e he
    rw [Renaming.insert, NameMap.get?_insert] at he
    split at he
    · cases he
      cases d.sort <;> rfl
    · exact ih x e he
  | without h hidden ih =>
    intro x e he
    rw [Renaming.without, NameMap.get?_filterKeys] at he
    split at he
    · exact ih x e he
    · cases he

theorem isSome_asName?_expr (h : ρ.Built) (e : TypedExpr) :
    (ρ.expr e).asName?.isSome = e.asName?.isSome := by
  cases e with
  | var x t loc | const x t loc =>
    rw [expr, TypedExpr.substitute]
    cases hx : ρ.exprs.get? x.text with
    | none => rfl
    | some d => exact h.isSome_asName? _ d hx
  | _ => rfl

theorem copy_stmts (hρ : ρ.Built) (ss : List TypedStmt) :
    List.Forall₂ Stmt.Copy ss (ρ.stmts ss) := by
  induction ss using Stmt.nested_induction
      (S := fun s => ∀ ρ : Renaming, ρ.Built → s.Copy (ρ.stmt s))
      (C := fun cs => ∀ ρ : Renaming, ρ.Built → List.Forall₂ Stmt.CmdCopy cs (ρ.cmds cs))
      generalizing ρ with
  | simple s hs ρ hρ =>
    cases s with
    | skip | abort | hole => exact .same
    | assign => exact .assign (by simp [name, Function.comp_def]) (by simp)
    | arrayAssign a => exact .arrayAssign (isSome_asName?_expr hρ a)
    | assert => exact .assert
    | invariant => exact .invariant (by simp)
    | alloc => exact .alloc rfl (by simp)
    | lookup => exact .lookup rfl
    | mutate => exact .mutate
    | dispose => exact .dispose
    | loop | cond | block => cases hs
  | loop cs loc ih ρ hρ => exact .loop (ih ρ hρ)
  | cond cs loc ih ρ hρ => exact .cond (ih ρ hρ)
  | block b loc ih ρ hρ => exact .block (ih (hρ.without _))
  | noCmds | nil => exact .nil
  | cmds c cs ihbody ihrest ρ hρ => exact .cons (.body (ihbody hρ)) (ihrest ρ hρ)
  | cons s ss ihs ihss => exact .cons (ihs _ hρ) (ihss hρ)

/-! ## Segments of copies -/

def pred (ρ : Renaming) : Pred → Pred
  | .constant e => .constant (ρ.expr e)
  | .assertion e loc => .assertion (ρ.expr e) loc
  | .invariant inv bound loc => .invariant (ρ.expr inv) (bound.map ρ.expr) loc

def segment (ρ : Renaming) : Segment → Segment
  | .run ss => .run (ρ.stmts ss)
  | .assertion p => .assertion (ρ.pred p)
  | .loop inv cs loc => .loop (ρ.pred inv) (ρ.cmds cs) loc
  | .hole env loc => .hole env loc

theorem consRun_stmt (ρ : Renaming) (s : TypedStmt) (segs : List Segment) :
    Segment.consRun (ρ.stmt s) (segs.map ρ.segment) = (Segment.consRun s segs).map ρ.segment := by
  cases segs with
  | nil => rfl
  | cons seg segs => cases seg <;> rfl

theorem ofStmts_stmts (ρ : Renaming) (ss : List TypedStmt) :
    Segment.ofStmts (ρ.stmts ss) = (Segment.ofStmts ss).map ρ.segment := by
  fun_induction Segment.ofStmts ss with
  | case1 => rfl
  | case2 _ _ _ _ _ ih | case4 _ _ _ _ _ _ ih | case6 _ _ _ _ ih => exact congrArg (List.cons _) ih
  | case3 e loc rest hloop ih | case5 inv bound loc rest hloop ih =>
    -- a loop that comes next would have been cut off together with the assertion
    cases rest with
    | nil => rfl
    | cons s rest =>
      cases s with
      | loop cs loc => exact absurd rfl (hloop cs loc rest)
      | _ => exact congrArg (List.cons _) ih
  | case7 s rest _ hassert _ hinvariant hhole ih =>
    rw [← consRun_stmt, ← ih]
    cases s with
    | assert e loc => exact absurd rfl (hassert e loc)
    | invariant inv bound loc => exact absurd rfl (hinvariant inv bound loc)
    | hole text env loc => exact absurd rfl (hhole text env loc)
    | _ => rfl

end Renaming

/-! ## The recursion without a measure

The clauses are those of the recursion with a measure, which is used as it is in the clauses
without a call.
-/

/-- Obligation generation that has no result where it is cut off. -/
abbrev LimitedM := ExceptT VerificationError (StateT Ledger Option)

namespace VerificationM

variable {α β : Type}

/-- A run that ends, with a result or an error. -/
def ended (m : VerificationM α) : LimitedM α := fun l =>
  match m l with
  | .ok a l' => some (.ok a, l')
  | .error e l' => some (.error e, l')

instance : MonadLift VerificationM LimitedM := ⟨ended⟩

theorem ended_bind (m : VerificationM α) (f : α → VerificationM β) :
    (m >>= f).ended = m.ended >>= fun a => (f a).ended := by
  funext l
  simp only [ended, bind, EStateM.bind, ExceptT.bind, ExceptT.mk, ExceptT.bindCont, StateT.bind]
  cases m l <;> rfl

end VerificationM

namespace Limited

open Structure (obligate recordHole warn)
open Segment (ofStmts)

def cutOff {α : Type} : LimitedM α := fun _ => none

def wpStmt (o : Options) : (limit : Nat) → Scopes → TypedStmt → TypedExpr → LimitedM TypedExpr
  | 0, _, _, _ => cutOff
  | n + 1, scopes, .cond cs _, post => do
    let commands ← cs.mapM fun c => do
      return .implies c.guard (← c.body.foldrM (wpStmt o n scopes) post)
    return .conjunction commands
  | n + 1, scopes, .block b _, post =>
    let opened := Wp.OpenBlock.ofBlock scopes b post
    (opened.renames.stmts b.stmts).foldrM (wpStmt o n (opened.scope :: scopes)) post
  | _ + 1, scopes, s, post => (ofExcept (Wp.stmt o scopes post s) : VerificationM TypedExpr)

def checkDecrease (o : Options) (limit : Nat) (scopes : Scopes) (inv bound : TypedExpr) (loc : Loc)
    (c : TypedCmd) : LimitedM Unit :=
  if Stmt.listHasLoop c.body then warn (.uncheckedDecrease c.loc)
  else do
    let snapshot := scopes.freshName o.boundStem (inv.freeVars ∪ bound.freeVars ∪ c.guard.freeVars)
    let old := TypedExpr.ofConst (.bare snapshot) .int
    let pre := TypedExpr.conjunction [inv, c.guard, .compare bound .eq old]
    let post ← c.body.foldrM (wpStmt o limit ({snapshot} :: scopes)) (.compare bound .lt old)
    obligate o (.constant pre) (.constant post) ⟨.boundDecrease, loc⟩ (some c.guard.text)

def checkLoop (o : Options) (limit : Nat) (scopes : Scopes) (inv : Pred) (cs : List TypedCmd)
    (loc : Loc) (exit : Target) : LimitedM Unit := do
  let guards := cs.map (·.guard)
  obligate o (.constant (.conj inv.expr (.neg (.disjunction guards)))) exit.pred
    ⟨.loopExit, loc⟩ exit.label
  match inv.bound with
  | none => warn (.missingBound loc)
  | some bound =>
    obligate o (.constant (.conj inv.expr (.disjunction guards)))
      (.constant (.compare bound .gte (.ofNum 0))) ⟨.loopTermination, loc⟩ none
    cs.forM (checkDecrease o limit scopes inv.expr bound loc)

mutual

def segments (o : Options) :
    (limit : Nat) → Scopes → Target → Pred → List Segment → LimitedM Unit
  | 0, _, _, _, _ => cutOff
  | n + 1, scopes, target, pre, .assertion a :: rest => do
    obligate o pre a ⟨.assertion, a.loc⟩ none
    segments o n scopes target a rest
  | n + 1, scopes, target, pre, .hole env loc :: rest => do
    let next ← pullBack o n scopes target rest
    recordHole pre next.pred env loc
  | n + 1, scopes, target, pre, segs => do
    let next ← pullBack o n scopes target segs
    obligate o pre next.pred next.origin next.label

def pullBack (o : Options) : (limit : Nat) → Scopes → Target → List Segment → LimitedM Target
  | 0, _, _, _ => cutOff
  | _ + 1, _, target, [] => return target
  | n + 1, scopes, target, .run ss :: rest => do
    let next ← pullBack o n scopes target rest
    ss.foldrM (fun s next => return next.withExpr (← stmt o n scopes next s)) next
  | n + 1, scopes, target, .assertion a :: rest => do
    segments o n scopes target a rest
    return .ofPred a
  | n + 1, scopes, target, .loop inv cs loc :: rest => do
    let exit ← pullBack o n scopes target rest
    cs.forM fun c => segments o n scopes ⟨inv, ⟨.preservation, loc⟩, some c.guard.text⟩
      (.constant (.conj inv.expr c.guard)) (ofStmts c.body)
    checkLoop o n scopes inv cs loc exit
    return .ofPred inv
  | n + 1, scopes, target, .hole env loc :: rest => do
    let next ← pullBack o n scopes target rest
    recordHole next.pred next.pred env loc
    return next

def stmt (o : Options) : (limit : Nat) → Scopes → Target → TypedStmt → LimitedM TypedExpr
  | 0, _, _, _ => cutOff
  | n + 1, scopes, target, .cond cs _ => do
    let commands ← cs.mapM fun c => do
      return .implies c.guard (← pullBack o n scopes target (ofStmts c.body)).pred.expr
    return .conjunction commands
  | n + 1, scopes, target, .block b _ => do
    let opened := Wp.OpenBlock.ofBlock scopes b target.pred.expr
    let result ← pullBack o n (opened.scope :: scopes) target
      (ofStmts (opened.renames.stmts b.stmts))
    return result.pred.expr
  | _ + 1, scopes, target, s =>
    (ofExcept (Wp.stmt o scopes target.pred.expr s) : VerificationM TypedExpr)

end

/-! ## It ends -/

open VerificationM (ended ended_bind)

variable {α β : Type}

/-- With every ledger, the runs with a limit are the run without one as soon as the limit is
high enough. -/
def Ends (runs : Nat → LimitedM α) (m : VerificationM α) : Prop :=
  ∀ l, ∃ limit, ∀ n ≥ limit, runs n l = m.ended l

namespace Ends

variable {runs : Nat → LimitedM α} {m : VerificationM α}

theorem pure (a : α) : Ends (fun _ => Pure.pure a) (Pure.pure a) :=
  fun _ => ⟨0, fun _ _ => rfl⟩

theorem lift (m : VerificationM α) : Ends (fun _ => liftM m) m :=
  fun _ => ⟨0, fun _ _ => rfl⟩

theorem bind {next : Nat → α → LimitedM β} {f : α → VerificationM β} (h : Ends runs m)
    (hnext : ∀ a, Ends (fun n => next n a) (f a)) :
    Ends (fun n => runs n >>= next n) (m >>= f) := by
  intro l
  rw [ended_bind]
  obtain ⟨limit, hlimit⟩ := h l
  simp only [Bind.bind, ExceptT.bind, ExceptT.mk, ExceptT.bindCont, StateT.bind]
  cases hm : m l with
  | ok a l' =>
    obtain ⟨limit', hlimit'⟩ := hnext a l'
    refine ⟨max limit limit', fun n hn => ?_⟩
    rw [hlimit n (by omega), ended, hm]
    exact hlimit' n (by omega)
  | error e l' =>
    refine ⟨limit, fun n hn => ?_⟩
    rw [hlimit n hn, ended, hm]
    rfl

theorem forM {f : Nat → β → LimitedM Unit} {g : β → VerificationM Unit}
    (h : ∀ b, Ends (fun n => f n b) (g b)) (bs : List β) :
    Ends (fun n => bs.forM (f n)) (bs.forM g) := by
  induction bs with
  | nil => exact .pure ()
  | cons b bs ih => exact (h b).bind fun _ => ih

/-- A call leaves one call less that may be open. -/
theorem succ (h : Ends (fun n => runs (n + 1)) m) : Ends runs m := by
  intro l
  obtain ⟨limit, hlimit⟩ := h l
  refine ⟨limit + 1, fun n hn => ?_⟩
  obtain ⟨n, rfl⟩ : ∃ k, n = k + 1 := ⟨n - 1, by omega⟩
  exact hlimit n (by omega)

end Ends

variable {o : Options}

theorem wpList_ends (scopes : Scopes) (post : TypedExpr) (ss : List TypedStmt) :
    Ends (fun n => ss.foldrM (wpStmt o n scopes) post) (ofExcept (Wp.list o scopes post ss)) := by
  refine Wp.list.induct
    (fun scopes post ss =>
      Ends (fun n => ss.foldrM (wpStmt o n scopes) post) (ofExcept (Wp.list o scopes post ss)))
    (fun scopes post s =>
      Ends (fun n => wpStmt o n scopes s post) (ofExcept (Wp.stmt o scopes post s)))
    (fun scopes post cs =>
      Ends (fun n => cs.mapM fun c => do
        return .implies c.guard (← c.body.foldrM (wpStmt o n scopes) post))
        (ofExcept (Wp.cmds o scopes post cs)))
    ?nil ?cons ?skip ?assert ?invariant ?hole ?abort ?assign ?arrayAssign ?loop ?cond ?alloc
    ?lookup ?mutate ?dispose ?block ?noCmds ?moreCmds scopes post ss
  case nil =>
    intro scopes post
    rw [Wp.list]
    exact .pure post
  case cons =>
    intro scopes post s ss ihss ihs
    simp only [List.foldrM_cons, Wp.list, EStateM.ofExcept_bind]
    exact ihss.bind ihs
  case cond =>
    intro scopes post cs loc ih
    refine .succ ?_
    simp only [wpStmt, Wp.stmt, EStateM.ofExcept_bind]
    exact ih.bind fun _ => .pure _
  case block =>
    intro scopes post b loc opened ih
    refine .succ ?_
    simp only [wpStmt, Wp.stmt]
    exact ih
  case noCmds =>
    intro scopes post
    rw [Wp.cmds]
    exact .pure []
  case moreCmds =>
    intro scopes post c cs ihbody ihrest
    simp only [List.mapM_cons, Wp.cmds, EStateM.ofExcept_bind, bind_assoc, pure_bind]
    exact ihbody.bind fun _ => ihrest.bind fun _ => .pure _
  all_goals
    intros
    exact .succ (.lift _)

theorem checkDecrease_ends (scopes : Scopes) (inv bound : TypedExpr) (loc : Loc) (c : TypedCmd) :
    Ends (fun n => checkDecrease o n scopes inv bound loc c)
      (Structure.checkDecrease o scopes inv bound loc c) := by
  unfold checkDecrease Structure.checkDecrease
  split
  · exact .lift _
  · exact (wpList_ends _ _ _).bind fun _ => .lift _

theorem checkLoop_ends (scopes : Scopes) (inv : Pred) (cs : List TypedCmd) (loc : Loc)
    (exit : Target) :
    Ends (fun n => checkLoop o n scopes inv cs loc exit)
      (Structure.checkLoop o scopes inv cs loc exit) := by
  unfold checkLoop Structure.checkLoop
  refine (Ends.lift _).bind fun _ => ?_
  cases inv.bound with
  | none => exact .lift _
  | some bound =>
    exact (Ends.lift _).bind fun _ => .forM (checkDecrease_ends scopes inv.expr bound loc) cs

theorem segments_ends (scopes : Scopes) (target : Target) (pre : Pred) (segs : List Segment) :
    Ends (fun n => segments o n scopes target pre segs)
      (Structure.segments o scopes target pre segs) := by
  refine Structure.segments.induct
    (fun scopes target pre segs => Ends (fun n => segments o n scopes target pre segs)
      (Structure.segments o scopes target pre segs))
    (fun scopes target segs =>
      Ends (fun n => pullBack o n scopes target segs) (Structure.pullBack o scopes target segs))
    (fun scopes inv loc cs =>
      Ends (fun n => cs.forM fun c => segments o n scopes
        ⟨inv, ⟨.preservation, loc⟩, some c.guard.text⟩ (.constant (.conj inv.expr c.guard))
        (ofStmts c.body)) (Structure.bodies o scopes inv loc cs))
    (fun scopes target ss => Ends
      (fun n => ss.foldrM (fun s next => return next.withExpr (← stmt o n scopes next s)) target)
      (Structure.run o scopes target ss))
    (fun scopes target s =>
      Ends (fun n => stmt o n scopes target s) (Structure.stmt o scopes target s))
    (fun scopes target cs =>
      Ends (fun n => cs.mapM fun c => do
        return .implies c.guard (← pullBack o n scopes target (ofStmts c.body)).pred.expr)
        (Structure.branches o scopes target cs))
    ?assertion ?hole ?pulled ?noSegments ?pullRun ?pullAssertion ?pullLoop ?pullHole ?noBodies
    ?moreBodies ?noStmts ?moreStmts ?cond ?block ?simple ?noBranches ?moreBranches
    scopes target pre segs
  case assertion =>
    intro scopes target pre a rest ih
    refine .succ ?_
    simp only [segments, Structure.segments]
    exact (Ends.lift _).bind fun _ => ih
  case hole =>
    intro scopes target pre env loc rest ih
    refine .succ ?_
    simp only [segments, Structure.segments]
    exact ih.bind fun _ => .lift _
  case pulled =>
    intro scopes target pre segs hassertion hhole ih
    refine .succ ?_
    simp only [segments.eq_4 _ _ _ _ _ _ hassertion hhole,
      Structure.segments.eq_3 _ _ _ _ _ hassertion hhole]
    exact ih.bind fun _ => .lift _
  case noSegments =>
    intro scopes target
    rw [Structure.pullBack]
    exact .succ (.pure _)
  case pullRun =>
    intro scopes target ss rest ih ihrun
    refine .succ ?_
    simp only [pullBack, Structure.pullBack]
    exact ih.bind ihrun
  case pullAssertion | cond | block =>
    intros
    refine .succ ?_
    simp only [pullBack, stmt, Structure.pullBack, Structure.stmt]
    exact Ends.bind ‹_› fun _ => .pure _
  case pullLoop =>
    intro scopes target inv cs loc rest ih ihbodies
    refine .succ ?_
    simp only [pullBack, Structure.pullBack]
    exact ih.bind fun exit => ihbodies.bind fun _ =>
      (checkLoop_ends scopes inv cs loc exit).bind fun _ => .pure _
  case pullHole =>
    intro scopes target env loc rest ih
    refine .succ ?_
    simp only [pullBack, Structure.pullBack]
    exact ih.bind fun _ => (Ends.lift _).bind fun _ => .pure _
  case moreBodies =>
    intro scopes inv loc c cs target ih ihrest
    rw [Structure.bodies]
    exact ih.bind fun _ => ihrest
  case moreStmts =>
    intro scopes target s ss ih ihstmt
    simp only [List.foldrM_cons, Structure.run]
    exact ih.bind fun next => (ihstmt next).bind fun _ => .pure _
  case simple =>
    intro scopes target s hcond hblock
    refine .succ ?_
    simp only [stmt.eq_4 _ _ _ _ _ hcond hblock, Structure.stmt.eq_3 _ _ _ _ hcond hblock]
    exact .lift _
  case noBodies | noStmts | noBranches =>
    intros
    simp only [Structure.bodies, Structure.run, Structure.branches]
    exact .pure _
  case moreBranches =>
    intro scopes target c cs ih ihrest
    simp only [List.mapM_cons, Structure.branches, bind_assoc, pure_bind]
    exact ih.bind fun _ => ihrest.bind fun _ => .pure _

end Limited

theorem Wp.OpenBlock.built_ofBlock (scopes : Scopes) (p : TypedProgram) (post : TypedExpr) :
    (ofBlock scopes p post).renames.Built := by
  unfold ofBlock
  refine List.foldlRecOn _ _ (motive := fun b : OpenBlock => b.renames.Built) .empty ?_
  intro b hb d _
  refine List.foldlRecOn _ _ (motive := fun b : OpenBlock => b.renames.Built) hb ?_
  intro b hb x _
  unfold declare
  split
  · exact hb.insert d _ _
  · exact hb

/-- Renaming keeps the shape of statements, and the recursion that goes on in renamed blocks
ends, with a result or an error, wherever it is started. -/
theorem structuring_ends :
    (∀ (ρ : Renaming) (ss : List TypedStmt),
      (ρ.Built → List.Forall₂ Stmt.Copy ss (ρ.stmts ss)) ∧
      Stmt.listHasLoop (ρ.stmts ss) = Stmt.listHasLoop ss ∧
      Stmt.weightList (ρ.stmts ss) = Stmt.weightList ss ∧
      Segment.ofStmts (ρ.stmts ss) = (Segment.ofStmts ss).map ρ.segment) ∧
    (∀ scopes b post, (Wp.OpenBlock.ofBlock scopes b post).renames.Built) ∧
    (∀ o scopes target pre segs,
      Limited.Ends (fun limit => Limited.segments o limit scopes target pre segs)
        (Structure.segments o scopes target pre segs)) ∧
    ∀ o scopes post ss, Limited.Ends (fun limit => ss.foldrM (Limited.wpStmt o limit scopes) post)
      (ofExcept (Wp.list o scopes post ss)) := by
  refine ⟨fun ρ ss => ⟨fun hρ => ρ.copy_stmts hρ ss, ρ.listHasLoop_stmts ss, ρ.weightList_stmts ss,
    ρ.ofStmts_stmts ss⟩, Wp.OpenBlock.built_ofBlock, ?_, ?_⟩
  · intro o
    exact Limited.segments_ends
  · intro o
    exact Limited.wpList_ends

end GuardedCommands
