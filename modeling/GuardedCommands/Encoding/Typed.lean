import GuardedCommands.Encoding.Program
import GuardedCommands.Typed.Program

/-!
# Typed expressions and programs in JSON
-/

namespace GuardedCommands

namespace Binder

def toJson (b : Binder) : Json := .obj [("name", b.name.toJson), ("ty", b.ty.toJson)]

def decoder : Decoder Binder :=
  .record (mk <$> .required "name" Name.decoder <*> .required "ty" Ty.decoder)

end Binder

namespace TypedExpr

mutual

def toJson : TypedExpr → Json
  | .lit l t loc => node "Lit" l.toJson t loc
  | .var x t loc => node "Var" x.toJson t loc
  | .const x t loc => node "Const" x.toJson t loc
  | .op o t loc => node "Op" o.toJson t loc
  | .chain head links t loc =>
    node "Chain" (.obj [("head", head.toJson), ("links", .arr (linksToJson links))]) t loc
  | .app f a t loc => node "App" (.arr [f.toJson, a.toJson]) t loc
  | .lam b e t loc => node "Lam" (.arr [b.toJson, e.toJson]) t loc
  | .quant q bs r e t loc =>
    node "Quant" (.obj [("op", q.toJson), ("binders", .ofList Binder.toJson bs),
      ("range", r.toJson), ("body", e.toJson)]) t loc
  | .index a i t loc => node "ArrIdx" (.arr [a.toJson, i.toJson]) t loc
  | .update a i v t loc =>
    node "ArrUpd" (.obj [("array", a.toJson), ("index", i.toJson), ("value", v.toJson)]) t loc
where
  /-- A node with what is in it, its type and where it stands. -/
  node (tag : String) (content : Json) (t : Ty) (loc : Loc) : Json :=
    .obj [("kind", .tagged tag content), ("ty", t.toJson), ("loc", loc.toJson)]

def linksToJson : List (TypedLink TypedExpr) → List Json
  | [] => []
  | l :: ls =>
    .obj [("op", l.op.toJson), ("op_ty", l.opTy.toJson), ("loc", l.loc.toJson),
      ("rhs", l.rhs.toJson)] :: linksToJson ls

end

def contentDecoder (sub : Decoder TypedExpr) : Decoder (Ty → Loc → TypedExpr) :=
  .cases []
    [("Lit", .lit <$> Lit.decoder),
      ("Var", .var <$> Name.decoder),
      ("Const", .const <$> Name.decoder),
      ("Op", .op <$> Op.decoder),
      ("Chain", .record (.chain <$> .required "head" sub <*> .required "links" (.list link))),
      ("App", (fun (f, a) => .app f a) <$> Decoder.pair sub sub),
      ("Lam", (fun (b, e) => .lam b e) <$> Decoder.pair Binder.decoder sub),
      ("Quant", .record (.quant <$> .required "op" sub
        <*> .required "binders" (.list Binder.decoder) <*> .required "range" sub
        <*> .required "body" sub)),
      ("ArrIdx", (fun (a, i) => .index a i) <$> Decoder.pair sub sub),
      ("ArrUpd", .record (.update <$> .required "array" sub <*> .required "index" sub
        <*> .required "value" sub))]
where
  link : Decoder (TypedLink TypedExpr) := .record (.mk <$> .required "op" ChainOp.decoder
    <*> .required "op_ty" Ty.decoder <*> .required "loc" Loc.decoder <*> .required "rhs" sub)

def decoder : Decoder TypedExpr := .tree fun sub =>
  .record ((fun content t loc => content t loc) <$> .required "kind" (contentDecoder sub)
    <*> .required "ty" Ty.decoder <*> .required "loc" Loc.decoder)

end TypedExpr

namespace TypeInfo

def tag : Role → String
  | .ctor => "TypeDefnCtor"
  | .const => "Const"
  | .var => "Var"

def toJson (i : TypeInfo) : Json := .tagged (tag i.role) i.ty.toJson

def decoder : Decoder TypeInfo :=
  .cases [] ([.ctor, .const, .var].map fun r => (tag r, mk r <$> Ty.decoder))

end TypeInfo

namespace TypeEnv

def toJson (env : TypeEnv) : Json :=
  .obj [("entries", .ofList (fun (x, i) => .arr [x.toJson, i.toJson]) env.entries)]

def decoder : Decoder TypeEnv :=
  .record (mk <$> .required "entries" (.list (.pair Name.decoder TypeInfo.decoder)))

end TypeEnv

namespace TypedDefinition

def toJson : TypedDefinition → Json
  | .datatype d k => .tagged "TypeDefn" (.obj [("name", d.name.toJson),
      ("params", .ofList Name.toJson d.params), ("ctors", .ofList Ctor.toJson d.ctors),
      ("kind", k.toJson), ("loc", d.loc.toJson)])
  | .signature x t p loc => .tagged "FuncDefnSig" (.obj [("name", x.toJson), ("ty", t.toJson),
      ("prop", .ofOption TypedExpr.toJson p), ("loc", loc.toJson)])
  | .function x t b loc => .tagged "FuncDefn" (.obj [("name", x.toJson), ("ty", t.toJson),
      ("body", b.toJson), ("loc", loc.toJson)])

def decoder : Decoder TypedDefinition :=
  .cases []
    [("TypeDefn", .record ((fun x ps cs k loc => .datatype ⟨x, ps, cs, loc⟩ k)
        <$> .required "name" Name.decoder <*> .required "params" (.list Name.decoder)
        <*> .required "ctors" (.list Ctor.decoder) <*> .required "kind" Kind.decoder
        <*> .required "loc" Loc.decoder)),
      ("FuncDefnSig", .record (.signature <$> .required "name" Name.decoder
        <*> .required "ty" Ty.decoder <*> .withDefault "prop" none (.option TypedExpr.decoder)
        <*> .required "loc" Loc.decoder)),
      ("FuncDefn", .record (.function <$> .required "name" Name.decoder
        <*> .required "ty" Ty.decoder <*> .required "body" TypedExpr.decoder
        <*> .required "loc" Loc.decoder))]

end TypedDefinition

namespace TypedStmt

def toJson (s : TypedStmt) : Json :=
  Stmt.toJson TypedExpr.toJson TypedDefinition.toJson (fun env => [("env", env.toJson)]) s

def decoder : Decoder TypedStmt :=
  Stmt.decoder TypedExpr.decoder TypedDefinition.decoder (.required "env" TypeEnv.decoder)

end TypedStmt

namespace TypedProgram

def toJson (p : TypedProgram) : Json :=
  Block.toJson TypedExpr.toJson TypedDefinition.toJson TypedStmt.toJson p

def decoder : Decoder TypedProgram :=
  Block.decoder TypedExpr.decoder TypedDefinition.decoder TypedStmt.decoder

end TypedProgram

end GuardedCommands
