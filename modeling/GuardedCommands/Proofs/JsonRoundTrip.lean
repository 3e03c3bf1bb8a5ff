import GuardedCommands.Analysis
import GuardedCommands.Proofs.Decoding

/-!
# Programs and analyses come back from their texts

Every decoder reads what is written for a value as that value.  The proofs go along the
decoders, with one rule for each way to build one, and where a bracket is opened inside
another the gain of one level is given away by `lower`.

A program within the limit of nesting then comes back from every text of it, whatever
blanks are in the text, and so does an analysis from the text that is written for it.
Decoders with a higher limit exist, so that text tells analyses apart without any limit.
-/

namespace GuardedCommands

open Json

variable {n : Nat}

/-! ## Expressions -/

theorem Loc.reads (l : Loc) : decoder.ReadsBelow n l.toJson l :=
  .lower <| .record (by simp) <| .seq (.map mk (.required (.uint64 l.offset)))
    (.required (.uint64 l.len))

theorem Name.reads (x : Name) : decoder.ReadsBelow n x.toJson x :=
  .lower <| .record (by simp) <| .seq (.map mk (.required (.string x.text)))
    (.required x.loc.reads)

theorem Lit.reads (l : Lit) : decoder.ReadsBelow n l.toJson l := by
  cases l with
  | num m => exact .lower (.cases_tagged rfl rfl (.map num (.int64 m)))
  | bool b => exact .lower (.cases_tagged rfl rfl (.map Lit.bool (.bool b)))
  | chr c => exact .lower (.cases_tagged rfl rfl (.map chr (.char c)))
  | emp => exact .cases_plain rfl

theorem ChainOp.reads (o : ChainOp) : decoder.ReadsBelow n o.toJson o := by
  cases o <;> exact .cases_plain rfl

theorem ArithOp.reads (o : ArithOp) : decoder.ReadsBelow n o.toJson o := by
  cases o <;> exact .cases_plain rfl

theorem Op.reads (o : Op) : decoder.ReadsBelow n o.toJson o := by
  cases o with
  | chain o => exact .lower (.cases_tagged rfl rfl (.map chain o.reads))
  | arith o => exact .lower (.cases_tagged rfl rfl (.map arith o.reads))

namespace Expr

theorem linksToJson_eq (ls : List (ChainLink Expr)) : linksToJson ls = ls.map fun l =>
    .obj [("op", l.op.toJson), ("loc", l.loc.toJson), ("rhs", l.rhs.toJson)] := by
  induction ls with
  | nil => rw [linksToJson, List.map_nil]
  | cons l ls ih => rw [linksToJson, ih, List.map_cons]

theorem listToJson_eq (es : List Expr) : listToJson es = es.map toJson := by
  induction es with
  | nil => rw [listToJson, List.map_nil]
  | cons e es ih => rw [listToJson, ih, List.map_cons]

theorem clausesToJson_eq (cs : List (CaseClause Expr)) : clausesToJson cs = cs.map fun c =>
    .obj [("pattern", c.pattern.toJson), ("body", c.body.toJson), ("loc", c.loc.toJson)] := by
  induction cs with
  | nil => rw [clausesToJson, List.map_nil]
  | cons c cs ih => rw [clausesToJson, ih, List.map_cons]

section Content

variable {sub : Decoder Expr} (hsub : ∀ e, sub.ReadsBelow n (toJson e) e)

include hsub

theorem reads_links (ls : List (ChainLink Expr)) :
    (Decoder.list (contentDecoder.link sub)).ReadsBelow n (.arr (linksToJson ls)) ls := by
  rw [linksToJson_eq]
  refine .lower <| .list (fun l => .lower <| .record (by simp) ?_) ls
  exact .seq (.seq (.map ChainLink.mk (.required l.op.reads)) (.required l.loc.reads))
    (.required (hsub l.rhs))

theorem reads_list (es : List Expr) :
    (Decoder.list sub).ReadsBelow n (.arr (listToJson es)) es := by
  rw [listToJson_eq]
  exact .lower (.list hsub es)

theorem reads_clauses (cs : List (CaseClause Expr)) :
    (Decoder.list (contentDecoder.clause sub)).ReadsBelow n (.arr (clausesToJson cs)) cs := by
  rw [clausesToJson_eq]
  refine .lower <| .list (fun c => .lower <| .record (by simp) ?_) cs
  exact .seq (.seq (.map CaseClause.mk (.required (hsub c.pattern))) (.required (hsub c.body)))
    (.required c.loc.reads)

end Content

theorem reads (e : Expr) : decoder.ReadsBelow n e.toJson e := by
  refine .tree (fun n sub hsub e => ?_) e
  have hnode {j : Json} {f : Loc → Expr} (loc : Loc) (h : (contentDecoder sub).ReadsBelow n j f) :
      Decoder.ReadsBelow (n + 1) _ (.obj [("kind", j), ("loc", loc.toJson)]) (f loc) :=
    .record (by simp) <| .seq (.map (fun content loc => content loc) (.required h))
      (.required loc.reads)
  cases e with
  | lit l loc => exact hnode loc <| .lower (.cases_tagged rfl rfl (.map lit l.reads))
  | var x loc => exact hnode loc <| .lower (.cases_tagged rfl rfl (.map var x.reads))
  | const x loc => exact hnode loc <| .lower (.cases_tagged rfl rfl (.map Expr.const x.reads))
  | op o loc => exact hnode loc <| .lower (.cases_tagged rfl rfl (.map op o.reads))
  | chain head links loc =>
    refine hnode loc <| .lower <| .cases_tagged rfl rfl <| .lower <| .record (by simp) ?_
    exact .seq (.map chain (.required (hsub head))) (.required (reads_links hsub links))
  | app f a loc =>
    refine hnode loc <| .lower <| .cases_tagged rfl rfl ?_
    exact .map (fun p => app p.1 p.2) (.lower (.pair (hsub f) (hsub a)))
  | lam x b loc =>
    refine hnode loc <| .lower <| .cases_tagged rfl rfl ?_
    exact .map (fun p => lam p.1 p.2) (.lower (.pair x.reads (hsub b)))
  | quant q xs r b loc =>
    refine hnode loc <| .lower <| .cases_tagged rfl rfl <| .lower <| .record (by simp) ?_
    exact .seq (.seq (.seq (.map quant (.required (hsub q)))
      (.required (.lower (.list Name.reads xs)))) (.required (hsub r))) (.required (hsub b))
  | index a i loc =>
    refine hnode loc <| .lower <| .cases_tagged rfl rfl ?_
    exact .map (fun p => index p.1 p.2) (.lower (.pair (hsub a) (hsub i)))
  | update a i v loc =>
    refine hnode loc <| .lower <| .cases_tagged rfl rfl <| .lower <| .record (by simp) ?_
    exact .seq (.seq (.map update (.required (hsub a))) (.required (hsub i)))
      (.required (hsub v))
  | tuple es loc =>
    exact hnode loc <| .lower <| .cases_tagged rfl rfl (.map tuple (reads_list hsub es))
  | caseOf e cs loc =>
    refine hnode loc <| .lower <| .cases_tagged rfl rfl ?_
    exact .map (fun p => caseOf p.1 p.2) (.lower (.pair (hsub e) (reads_clauses hsub cs)))

theorem toJson_ne_null (e : Expr) : e.toJson ≠ .null := by
  cases e <;> exact Json.noConfusion

end Expr

/-! ## Types -/

theorem BaseTy.reads (b : BaseTy) : decoder.ReadsBelow n b.toJson b := by
  cases b <;> exact .cases_plain rfl

theorem Endpoint.reads (e : Endpoint) : decoder.ReadsBelow n e.toJson e := by
  cases e with
  | including e => exact .lower (.cases_tagged rfl rfl (.map including e.reads))
  | excluding e => exact .lower (.cases_tagged rfl rfl (.map excluding e.reads))

theorem Interval.reads (i : Interval) : decoder.ReadsBelow n i.toJson i :=
  .lower <| .record (by simp) <| .seq (.seq (.map mk (.required i.lo.reads))
    (.required i.hi.reads)) (.required i.loc.reads)

theorem Ty.reads (t : Ty) : decoder.ReadsBelow n t.toJson t := by
  refine .tree (fun n sub hsub t => ?_) t
  cases t with
  | base b loc =>
    refine .cases_tagged rfl rfl ?_
    exact .map (fun p => base p.1 p.2) (.lower (.pair b.reads loc.reads))
  | array i t loc =>
    refine .cases_tagged rfl rfl ?_
    exact .map (fun p => array p.1 p.2.1 p.2.2) (.lower (.triple i.reads (hsub t) loc.reads))
  | tuple m loc =>
    refine .cases_tagged rfl rfl ?_
    exact .map (fun p => tuple p.1 p.2) (.lower (.pair (.uint64 m) loc.reads))
  | arrow loc => exact .cases_tagged rfl rfl (.map arrow loc.reads)
  | app t u loc =>
    refine .cases_tagged rfl rfl ?_
    exact .map (fun p => app p.1 p.2.1 p.2.2) (.lower (.triple (hsub t) (hsub u) loc.reads))
  | data x => exact .cases_tagged rfl rfl (.map data x.reads)
  | rigid x => exact .cases_tagged rfl rfl (.map rigid x.reads)
  | metavar x => exact .cases_tagged rfl rfl (.map metavar x.reads)

theorem Kind.reads (k : Kind) : decoder.ReadsBelow n k.toJson k := by
  refine .tree (fun n sub hsub k => ?_) k
  cases k with
  | star => exact .cases_plain rfl
  | arrow k l =>
    refine .cases_tagged rfl rfl ?_
    exact .map (fun p => arrow p.1 p.2) (.lower (.pair (hsub k) (hsub l)))
  | metavar x => exact .cases_tagged rfl rfl (.map metavar x.reads)

/-! ## Statements -/

section Statements

variable {ε δ σ η : Type} {expr : Decoder ε} {defn : Decoder δ} {stmt : Decoder σ}
  {exprJson : ε → Json} {defnJson : δ → Json} {stmtJson : σ → Json}

theorem Declaration.reads (hnull : ∀ e, exprJson e ≠ .null)
    (hexpr : ∀ e, expr.ReadsBelow n (exprJson e) e) (d : Declaration ε) :
    (decoder expr).ReadsBelow n (d.toJson exprJson) d := by
  obtain ⟨s, names, ty, prop, loc⟩ := d
  have hfields : (decoder.ofSort expr s).ReadsBelow n (.obj _) ⟨s, names, ty, prop, loc⟩ :=
    .lower <| .record (by simp) <| .seq (.seq (.seq (.map (mk s)
      (.required (.lower (.list Name.reads names)))) (.required ty.reads))
      (.withDefault (.option hnull hexpr prop))) (.required loc.reads)
  cases s <;> exact .lower (.cases_tagged rfl rfl hfields)

theorem GuardedCmd.reads (hexpr : ∀ e, expr.ReadsBelow n (exprJson e) e)
    (hstmt : ∀ s, stmt.ReadsBelow n (stmtJson s) s) (c : GuardedCmd ε σ) :
    (decoder expr stmt).ReadsBelow n (c.toJson exprJson stmtJson) c :=
  .lower <| .record (by simp) <| .seq (.seq (.map mk (.required (hexpr c.guard)))
    (.required (.lower (.list hstmt c.body)))) (.required c.loc.reads)

theorem Block.reads (hnull : ∀ e, exprJson e ≠ .null)
    (hexpr : ∀ e, expr.ReadsBelow n (exprJson e) e) (hdefn : ∀ d, defn.ReadsBelow n (defnJson d) d)
    (hstmt : ∀ s, stmt.ReadsBelow n (stmtJson s) s) (b : Block ε δ σ) :
    (decoder expr defn stmt).ReadsBelow n (b.toJson exprJson defnJson stmtJson) b :=
  .lower <| .record (by simp) <| .seq (.seq (.seq (.seq (.map mk
    (.required (.lower (.list hdefn b.defns))))
    (.required (.lower (.list (Declaration.reads hnull hexpr) b.decls))))
    (.required (.lower (.list hexpr b.props)))) (.required (.lower (.list hstmt b.stmts))))
    (.required b.loc.reads)

namespace Stmt

variable {env : Fields η} {envJson : η → List (String × Json)}

theorem listToJson_eq (ss : List (Stmt ε δ η)) :
    listToJson exprJson defnJson envJson ss = ss.map (toJson exprJson defnJson envJson) := by
  induction ss with
  | nil => rw [listToJson, List.map_nil]
  | cons s ss ih => rw [listToJson, ih, List.map_cons]

theorem cmdsToJson_eq (cs : List (GuardedCmd ε (Stmt ε δ η))) :
    cmdsToJson exprJson defnJson envJson cs =
      cs.map (GuardedCmd.toJson exprJson (toJson exprJson defnJson envJson)) := by
  induction cs with
  | nil => rw [cmdsToJson, List.map_nil]
  | cons c cs ih => rw [cmdsToJson, ih, listToJson_eq, List.map_cons, GuardedCmd.toJson, ofList]

theorem reads (hnull : ∀ e, exprJson e ≠ .null)
    (hexpr : ∀ n e, expr.ReadsBelow n (exprJson e) e)
    (hdefn : ∀ n d, defn.ReadsBelow n (defnJson d) d)
    (henv : ∀ n h, env.ReadsBelow n (envJson h) h)
    (hnames : ∀ h, ("text" :: (envJson h).map (·.1) ++ ["loc"]).Nodup) (s : Stmt ε δ η) :
    (decoder expr defn env).ReadsBelow n (s.toJson exprJson defnJson envJson) s := by
  refine .tree (fun n sub hsub s => ?_) s
  have hcmds (cs : List (GuardedCmd ε (Stmt ε δ η))) :
      (Decoder.list (GuardedCmd.decoder expr sub)).ReadsBelow n
        (.arr (cmdsToJson exprJson defnJson envJson cs)) cs := by
    rw [cmdsToJson_eq]
    exact .lower (.list (GuardedCmd.reads (hexpr n) hsub) cs)
  cases s with
  | skip loc => exact .cases_tagged rfl rfl (.map skip loc.reads)
  | abort loc => exact .cases_tagged rfl rfl (.map abort loc.reads)
  | assign xs es loc =>
    refine .cases_tagged rfl rfl <| .lower <| .record (by simp) ?_
    exact .seq (.seq (.map assign (.required (.lower (.list Name.reads xs))))
      (.required (.lower (.list (hexpr n) es)))) (.required loc.reads)
  | arrayAssign a i v loc =>
    refine .cases_tagged rfl rfl <| .lower <| .record (by simp) ?_
    exact .seq (.seq (.seq (.map arrayAssign (.required (hexpr n a))) (.required (hexpr n i)))
      (.required (hexpr n v))) (.required loc.reads)
  | assert e loc =>
    refine .cases_tagged rfl rfl ?_
    exact .map (fun p => assert p.1 p.2) (.lower (.pair (hexpr n e) loc.reads))
  | invariant e b loc =>
    refine .cases_tagged rfl rfl <| .lower <| .record (by simp) ?_
    exact .seq (.seq (.map invariant (.required (hexpr n e)))
      (.withDefault (.option hnull (hexpr n) b))) (.required loc.reads)
  | loop cs loc =>
    refine .cases_tagged rfl rfl ?_
    exact .map (fun p => loop p.1 p.2) (.lower (.pair (hcmds cs) loc.reads))
  | cond cs loc =>
    refine .cases_tagged rfl rfl ?_
    exact .map (fun p => cond p.1 p.2) (.lower (.pair (hcmds cs) loc.reads))
  | hole text h loc =>
    refine .cases_tagged rfl rfl <| .lower <| .record ?_ ?_
    · simpa using hnames h
    · exact .seq (.seq (.map hole (.required (.string text))) (henv n h)) (.required loc.reads)
  | alloc x es loc =>
    refine .cases_tagged rfl rfl <| .lower <| .record (by simp) ?_
    exact .seq (.seq (.map alloc (.required x.reads)) (.required (.lower (.list (hexpr n) es))))
      (.required loc.reads)
  | lookup x e loc =>
    refine .cases_tagged rfl rfl <| .lower <| .record (by simp) ?_
    exact .seq (.seq (.map lookup (.required x.reads)) (.required (hexpr n e)))
      (.required loc.reads)
  | mutate c v loc =>
    refine .cases_tagged rfl rfl <| .lower <| .record (by simp) ?_
    exact .seq (.seq (.map mutate (.required (hexpr n c))) (.required (hexpr n v)))
      (.required loc.reads)
  | dispose e loc =>
    refine .cases_tagged rfl rfl ?_
    exact .map (fun p => dispose p.1 p.2) (.lower (.pair (hexpr n e) loc.reads))
  | block b loc =>
    have hstmts : ofList (toJson exprJson defnJson envJson) b.stmts =
        .arr (listToJson exprJson defnJson envJson b.stmts) := by rw [ofList, listToJson_eq]
    have hblock := Block.reads hnull (hexpr n) (hdefn n) hsub b
    rw [Block.toJson, hstmts] at hblock
    refine .cases_tagged rfl rfl ?_
    exact .map (fun p => block p.1 p.2) (.lower (.pair hblock loc.reads))

end Stmt

end Statements

/-! ## Programs -/

theorem Ctor.reads (c : Ctor) : decoder.ReadsBelow n c.toJson c :=
  .lower <| .record (by simp) <| .seq (.seq (.map mk (.required c.name.reads))
    (.required (.lower (.list Ty.reads c.args)))) (.required c.loc.reads)

theorem Definition.reads (d : Definition) : decoder.ReadsBelow n d.toJson d := by
  cases d with
  | datatype d =>
    refine .lower <| .cases_tagged rfl rfl <| .map datatype <| .lower <| .record (by simp) ?_
    exact .seq (.seq (.seq (.map Datatype.mk (.required d.name.reads))
      (.required (.lower (.list Name.reads d.params))))
      (.required (.lower (.list Ctor.reads d.ctors)))) (.required d.loc.reads)
  | signature x t p loc =>
    refine .lower <| .cases_tagged rfl rfl <| .lower <| .record (by simp) ?_
    exact .seq (.seq (.seq (.map signature (.required x.reads)) (.required t.reads))
      (.withDefault (.option Expr.toJson_ne_null Expr.reads p))) (.required loc.reads)
  | function x cs loc =>
    refine .lower <| .cases_tagged rfl rfl <| .lower <| .record (by simp) ?_
    exact .seq (.seq (.map function (.required x.reads))
      (.required (.lower (.list Expr.reads cs)))) (.required loc.reads)

theorem SourceStmt.reads (s : SourceStmt) : decoder.ReadsBelow n (toJson s) s :=
  Stmt.reads Expr.toJson_ne_null (fun _ => Expr.reads) (fun _ => Definition.reads)
    (fun _ => .pure) (by simp) s

theorem Program.reads (p : Program) : decoder.ReadsBelow n (toJson p) p :=
  Block.reads Expr.toJson_ne_null Expr.reads Definition.reads SourceStmt.reads p

/-! ## Typed programs -/

theorem Binder.reads (b : Binder) : decoder.ReadsBelow n b.toJson b :=
  .lower <| .record (by simp) <| .seq (.map mk (.required b.name.reads)) (.required b.ty.reads)

namespace TypedExpr

theorem linksToJson_eq (ls : List (TypedLink TypedExpr)) : linksToJson ls = ls.map fun l =>
    .obj [("op", l.op.toJson), ("op_ty", l.opTy.toJson), ("loc", l.loc.toJson),
      ("rhs", l.rhs.toJson)] := by
  induction ls with
  | nil => rw [linksToJson, List.map_nil]
  | cons l ls ih => rw [linksToJson, ih, List.map_cons]

theorem reads_links {sub : Decoder TypedExpr} (hsub : ∀ e, sub.ReadsBelow n (toJson e) e)
    (ls : List (TypedLink TypedExpr)) :
    (Decoder.list (contentDecoder.link sub)).ReadsBelow n (.arr (linksToJson ls)) ls := by
  rw [linksToJson_eq]
  refine .lower <| .list (fun l => .lower <| .record (by simp) ?_) ls
  exact .seq (.seq (.seq (.map TypedLink.mk (.required l.op.reads)) (.required l.opTy.reads))
    (.required l.loc.reads)) (.required (hsub l.rhs))

theorem reads (e : TypedExpr) : decoder.ReadsBelow n e.toJson e := by
  refine .tree (fun n sub hsub e => ?_) e
  have hnode {j : Json} {f : Ty → Loc → TypedExpr} (t : Ty) (loc : Loc)
      (h : (contentDecoder sub).ReadsBelow n j f) : Decoder.ReadsBelow (n + 1) _
        (.obj [("kind", j), ("ty", t.toJson), ("loc", loc.toJson)]) (f t loc) :=
    .record (by simp) <| .seq (.seq (.map (fun content t loc => content t loc) (.required h))
      (.required t.reads)) (.required loc.reads)
  cases e with
  | lit l t loc => exact hnode t loc <| .lower (.cases_tagged rfl rfl (.map lit l.reads))
  | var x t loc => exact hnode t loc <| .lower (.cases_tagged rfl rfl (.map var x.reads))
  | const x t loc =>
    exact hnode t loc <| .lower (.cases_tagged rfl rfl (.map TypedExpr.const x.reads))
  | op o t loc => exact hnode t loc <| .lower (.cases_tagged rfl rfl (.map op o.reads))
  | chain head links t loc =>
    refine hnode t loc <| .lower <| .cases_tagged rfl rfl <| .lower <| .record (by simp) ?_
    exact .seq (.map chain (.required (hsub head))) (.required (reads_links hsub links))
  | app f a t loc =>
    refine hnode t loc <| .lower <| .cases_tagged rfl rfl ?_
    exact .map (fun p => app p.1 p.2) (.lower (.pair (hsub f) (hsub a)))
  | lam b e t loc =>
    refine hnode t loc <| .lower <| .cases_tagged rfl rfl ?_
    exact .map (fun p => lam p.1 p.2) (.lower (.pair b.reads (hsub e)))
  | quant q bs r e t loc =>
    refine hnode t loc <| .lower <| .cases_tagged rfl rfl <| .lower <| .record (by simp) ?_
    exact .seq (.seq (.seq (.map quant (.required (hsub q)))
      (.required (.lower (.list Binder.reads bs)))) (.required (hsub r))) (.required (hsub e))
  | index a i t loc =>
    refine hnode t loc <| .lower <| .cases_tagged rfl rfl ?_
    exact .map (fun p => index p.1 p.2) (.lower (.pair (hsub a) (hsub i)))
  | update a i v t loc =>
    refine hnode t loc <| .lower <| .cases_tagged rfl rfl <| .lower <| .record (by simp) ?_
    exact .seq (.seq (.map update (.required (hsub a))) (.required (hsub i)))
      (.required (hsub v))

theorem toJson_ne_null (e : TypedExpr) : e.toJson ≠ .null := by
  cases e <;> exact Json.noConfusion

end TypedExpr

theorem TypeInfo.reads (i : TypeInfo) : decoder.ReadsBelow n i.toJson i := by
  obtain ⟨role, ty⟩ := i
  cases role <;> exact .lower (.cases_tagged rfl rfl (.map _ ty.reads))

theorem TypeEnv.reads (env : TypeEnv) : decoder.ReadsBelow n env.toJson env := by
  refine .lower <| .record (by simp) <| .map mk <| .required <| .lower ?_
  exact .list (fun p => .lower (.pair p.1.reads p.2.reads)) env.entries

theorem TypedDefinition.reads (d : TypedDefinition) : decoder.ReadsBelow n d.toJson d := by
  cases d with
  | datatype d k =>
    refine .lower <| .cases_tagged rfl rfl <| .lower <| .record (by simp) ?_
    exact .seq (.seq (.seq (.seq (.map (fun x ps cs k loc => datatype ⟨x, ps, cs, loc⟩ k)
      (.required d.name.reads)) (.required (.lower (.list Name.reads d.params))))
      (.required (.lower (.list Ctor.reads d.ctors)))) (.required k.reads))
      (.required d.loc.reads)
  | signature x t p loc =>
    refine .lower <| .cases_tagged rfl rfl <| .lower <| .record (by simp) ?_
    exact .seq (.seq (.seq (.map signature (.required x.reads)) (.required t.reads))
      (.withDefault (.option TypedExpr.toJson_ne_null TypedExpr.reads p))) (.required loc.reads)
  | function x t b loc =>
    refine .lower <| .cases_tagged rfl rfl <| .lower <| .record (by simp) ?_
    exact .seq (.seq (.seq (.map function (.required x.reads)) (.required t.reads))
      (.required b.reads)) (.required loc.reads)

theorem TypedStmt.reads (s : TypedStmt) : decoder.ReadsBelow n (toJson s) s :=
  Stmt.reads TypedExpr.toJson_ne_null (fun _ => TypedExpr.reads) (fun _ => TypedDefinition.reads)
    (fun _ env => .required env.reads) (by simp) s

theorem TypedProgram.reads (p : TypedProgram) : decoder.ReadsBelow n (toJson p) p :=
  Block.reads TypedExpr.toJson_ne_null TypedExpr.reads TypedDefinition.reads TypedStmt.reads p

/-! ## Analyses -/

theorem Pred.reads (p : Pred) : decoder.ReadsBelow n p.toJson p := by
  cases p with
  | constant e => exact .lower (.cases_tagged rfl rfl (.map constant e.reads))
  | assertion e loc =>
    refine .lower <| .cases_tagged rfl rfl ?_
    exact .map (fun p => assertion p.1 p.2) (.lower (.pair e.reads loc.reads))
  | invariant e b loc =>
    refine .lower <| .cases_tagged rfl rfl <| .lower <| .record (by simp) ?_
    exact .seq (.seq (.map invariant (.required e.reads))
      (.withDefault (.option TypedExpr.toJson_ne_null TypedExpr.reads b))) (.required loc.reads)

theorem Origin.reads (o : Origin) : decoder.ReadsBelow n o.toJson o := by
  obtain ⟨reason, loc⟩ := o
  cases reason <;> exact .lower (.cases_tagged rfl rfl (.map _ loc.reads))

theorem Obligation.reads (o : Obligation) : decoder.ReadsBelow n o.toJson o :=
  .lower <| .record (by simp) <| .seq (.seq (.seq (.seq (.map mk (.required o.pre.reads))
    (.required o.post.reads)) (.required (.string o.id)))
    (.withDefault (.option (fun _ => Json.noConfusion) .string o.label)))
    (.required o.origin.reads)

theorem SpecHole.reads (h : SpecHole) : decoder.ReadsBelow n h.toJson h :=
  .lower <| .record (by simp) <| .seq (.seq (.seq (.seq (.map mk (.required (.nat h.id)))
    (.required h.pre.reads)) (.required h.post.reads)) (.required h.env.reads))
    (.required h.loc.reads)

theorem Warning.reads (w : Warning) : decoder.ReadsBelow n w.toJson w := by
  cases w with
  | missingBound loc => exact .lower (.cases_tagged rfl rfl (.map missingBound loc.reads))
  | uncheckedDecrease loc =>
    exact .lower (.cases_tagged rfl rfl (.map uncheckedDecrease loc.reads))

theorem Analysis.reads (a : Analysis) : decoder.ReadsBelow n a.toJson a :=
  .lower <| .record (by simp) <| .seq (.seq (.seq (.map mk
    (.required (TypedProgram.reads a.program)))
    (.required (.lower (.list Obligation.reads a.obligations))))
    (.required (.lower (.list SpecHole.reads a.holes))))
    (.required (.lower (.list Warning.reads a.warnings)))

/-! ## Texts -/

theorem Program.parse_isText {p : Program} (hdepth : (toJson p).depth ≤ maxDepth) {text : String}
    (htext : (toJson p).IsText text) : parse text = .ok p := by
  rw [parse, Decoder.decodeText_isText p.reads hdepth htext]

namespace Analysis

theorem decodeText_text {a : Analysis} {depth : Nat} (hdepth : a.toJson.depth ≤ depth) :
    decoder.decodeText depth a.text = .ok a :=
  Decoder.decodeText_isText a.reads hdepth a.toJson.isText_pretty

theorem text_injective : Function.Injective text := by
  intro a b htext
  have ha := decodeText_text (a := a) (le_max_left a.toJson.depth b.toJson.depth)
  have hb := decodeText_text (a := b) (le_max_right a.toJson.depth b.toJson.depth)
  rw [htext, hb] at ha
  exact (Outcome.ok.inj ha).symm

end Analysis

/-- Programs and analyses come back from what is written for them, and no two analyses have
the same text. -/
theorem written_texts_read_back :
    (∀ p : Program, (Program.toJson p).depth ≤ Program.maxDepth →
      Program.parse (Program.toJson p).compact = .ok p ∧
      Program.parse (Program.toJson p).pretty = .ok p ∧
      ∀ text, (Program.toJson p).IsText text → Program.parse text = .ok p) ∧
    (∀ a : Analysis, a.toJson.depth ≤ Program.maxDepth →
      Analysis.decoder.decodeText Program.maxDepth a.text = .ok a) ∧
    ∀ a b : Analysis, a.text = b.text → a = b := by
  refine ⟨fun p hdepth => ⟨?_, ?_, ?_⟩, fun a hdepth => ?_, fun a b htext => ?_⟩
  · exact Program.parse_isText hdepth (isText_compact _)
  · exact Program.parse_isText hdepth (isText_pretty _)
  · exact fun text htext => Program.parse_isText hdepth htext
  · exact Analysis.decodeText_text hdepth
  · exact Analysis.text_injective htext

theorem quotes_read_back : ∃ (p : Program) (a : Analysis),
    p.props = [.lit (.chr '"') ⟨0, 18446744073709551615⟩] ∧
    a.warnings = [.missingBound ⟨18446744073709551615, 1⟩] ∧
    (Program.toJson p).depth ≤ Program.maxDepth ∧ a.toJson.depth ≤ Program.maxDepth ∧
    Program.parse (Program.toJson p).compact = .ok p ∧
    Analysis.decoder.decodeText Program.maxDepth a.text = .ok a := by
  have hp : (Program.toJson ⟨[], [], [.lit (.chr '"') ⟨0, 18446744073709551615⟩], [],
      ⟨0, 3⟩⟩).depth ≤ Program.maxDepth := by decide
  have ha : (Analysis.toJson ⟨⟨[], [], [], [], ⟨0, 3⟩⟩, [], [],
      [.missingBound ⟨18446744073709551615, 1⟩]⟩).depth ≤ Program.maxDepth := by decide
  exact ⟨_, _, rfl, rfl, hp, ha, (written_texts_read_back.1 _ hp).1,
    written_texts_read_back.2.1 _ ha⟩

end GuardedCommands
