import GuardedCommands.Expr
import GuardedCommands.Json
import GuardedCommands.Json.Decoder

/-!
# Expressions in JSON

A structure is written as an object with its fields in order, and a case as the
object whose only field is the name of the case, or as that name alone if nothing
comes with it.
-/

namespace GuardedCommands

namespace Loc

def toJson (l : Loc) : Json := .obj [("offset", .int l.offset.toNat), ("len", .int l.len.toNat)]

def decoder : Decoder Loc :=
  .record (mk <$> .required "offset" .uint64 <*> .required "len" .uint64)

end Loc

namespace Name

def toJson (n : Name) : Json := .obj [("text", .str n.text), ("loc", n.loc.toJson)]

def decoder : Decoder Name :=
  .record (mk <$> .required "text" .string <*> .required "loc" Loc.decoder)

end Name

namespace Lit

def toJson : Lit → Json
  | .num n => .tagged "Num" (.int n.toInt)
  | .bool b => .tagged "Bool" (.bool b)
  | .chr c => .tagged "Chr" (.str (String.singleton c))
  | .emp => .str "Emp"

def decoder : Decoder Lit :=
  .cases [("Emp", .emp)]
    [("Num", .num <$> Decoder.int64), ("Bool", .bool <$> Decoder.bool),
      ("Chr", .chr <$> Decoder.char)]

end Lit

namespace ChainOp

def tag : ChainOp → String
  | .eq => "Eq"
  | .neq => "Neq"
  | .lt => "Lt"
  | .lte => "Lte"
  | .gt => "Gt"
  | .gte => "Gte"
  | .eqProp => "EqProp"

def all : List ChainOp := [.eq, .neq, .lt, .lte, .gt, .gte, .eqProp]

def toJson (o : ChainOp) : Json := .str o.tag

def decoder : Decoder ChainOp := .cases (all.map fun o => (o.tag, o)) []

end ChainOp

namespace ArithOp

def tag : ArithOp → String
  | .implies => "Implies"
  | .conj => "Conj"
  | .disj => "Disj"
  | .neg => "Neg"
  | .negNum => "NegNum"
  | .add => "Add"
  | .sub => "Sub"
  | .mul => "Mul"
  | .div => "Div"
  | .mod => "Mod"
  | .max => "Max"
  | .min => "Min"
  | .exp => "Exp"
  | .hash => "Hash"
  | .pointsTo => "PointsTo"
  | .sepConj => "SConj"
  | .sepImp => "SImp"

def all : List ArithOp :=
  [.implies, .conj, .disj, .neg, .negNum, .add, .sub, .mul, .div, .mod, .max, .min, .exp, .hash,
    .pointsTo, .sepConj, .sepImp]

def toJson (o : ArithOp) : Json := .str o.tag

def decoder : Decoder ArithOp := .cases (all.map fun o => (o.tag, o)) []

end ArithOp

namespace Op

def toJson : Op → Json
  | .chain o => .tagged "Chain" o.toJson
  | .arith o => .tagged "Arith" o.toJson

def decoder : Decoder Op :=
  .cases [] [("Chain", .chain <$> ChainOp.decoder), ("Arith", .arith <$> ArithOp.decoder)]

end Op

namespace Expr

mutual

def toJson : Expr → Json
  | .lit l loc => node "Lit" l.toJson loc
  | .var x loc => node "Var" x.toJson loc
  | .const x loc => node "Const" x.toJson loc
  | .op o loc => node "Op" o.toJson loc
  | .chain head links loc =>
    node "Chain" (.obj [("head", head.toJson), ("links", .arr (linksToJson links))]) loc
  | .app f a loc => node "App" (.arr [f.toJson, a.toJson]) loc
  | .lam x b loc => node "Lam" (.arr [x.toJson, b.toJson]) loc
  | .quant q xs r b loc =>
    node "Quant" (.obj [("op", q.toJson), ("binders", .ofList Name.toJson xs),
      ("range", r.toJson), ("body", b.toJson)]) loc
  | .index a i loc => node "ArrIdx" (.arr [a.toJson, i.toJson]) loc
  | .update a i v loc =>
    node "ArrUpd" (.obj [("array", a.toJson), ("index", i.toJson), ("value", v.toJson)]) loc
  | .tuple es loc => node "Tuple" (.arr (listToJson es)) loc
  | .caseOf e cs loc => node "Case" (.arr [e.toJson, .arr (clausesToJson cs)]) loc
where
  /-- A node with what is in it and where it stands. -/
  node (tag : String) (content : Json) (loc : Loc) : Json :=
    .obj [("kind", .tagged tag content), ("loc", loc.toJson)]

def linksToJson : List (ChainLink Expr) → List Json
  | [] => []
  | l :: ls =>
    .obj [("op", l.op.toJson), ("loc", l.loc.toJson), ("rhs", l.rhs.toJson)] :: linksToJson ls

def listToJson : List Expr → List Json
  | [] => []
  | e :: es => e.toJson :: listToJson es

def clausesToJson : List (CaseClause Expr) → List Json
  | [] => []
  | c :: cs =>
    .obj [("pattern", c.pattern.toJson), ("body", c.body.toJson), ("loc", c.loc.toJson)]
      :: clausesToJson cs

end

def contentDecoder (sub : Decoder Expr) : Decoder (Loc → Expr) :=
  .cases []
    [("Lit", .lit <$> Lit.decoder),
      ("Var", .var <$> Name.decoder),
      ("Const", .const <$> Name.decoder),
      ("Op", .op <$> Op.decoder),
      ("Chain", .record (.chain <$> .required "head" sub <*> .required "links" (.list link))),
      ("App", (fun (f, a) => .app f a) <$> Decoder.pair sub sub),
      ("Lam", (fun (x, b) => .lam x b) <$> Decoder.pair Name.decoder sub),
      ("Quant", .record (.quant <$> .required "op" sub
        <*> .required "binders" (.list Name.decoder) <*> .required "range" sub
        <*> .required "body" sub)),
      ("ArrIdx", (fun (a, i) => .index a i) <$> Decoder.pair sub sub),
      ("ArrUpd", .record (.update <$> .required "array" sub <*> .required "index" sub
        <*> .required "value" sub)),
      ("Tuple", .tuple <$> Decoder.list sub),
      ("Case", (fun (e, cs) => .caseOf e cs) <$> Decoder.pair sub (.list clause))]
where
  link : Decoder (ChainLink Expr) := .record (.mk <$> .required "op" ChainOp.decoder
    <*> .required "loc" Loc.decoder <*> .required "rhs" sub)
  clause : Decoder (CaseClause Expr) := .record (.mk <$> .required "pattern" sub
    <*> .required "body" sub <*> .required "loc" Loc.decoder)

def decoder : Decoder Expr := .tree fun sub =>
  .record ((fun content loc => content loc) <$> .required "kind" (contentDecoder sub)
    <*> .required "loc" Loc.decoder)

end Expr

end GuardedCommands
