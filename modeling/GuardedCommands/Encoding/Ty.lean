import GuardedCommands.Encoding.Expr
import GuardedCommands.Kind
import GuardedCommands.Ty

/-!
# Types and kinds in JSON
-/

namespace GuardedCommands

namespace BaseTy

def tag : BaseTy → String
  | .int => "Int"
  | .bool => "Bool"
  | .char => "Char"

def all : List BaseTy := [.int, .bool, .char]

def toJson (b : BaseTy) : Json := .str b.tag

def decoder : Decoder BaseTy := .cases (all.map fun b => (b.tag, b)) []

end BaseTy

namespace Endpoint

def toJson : Endpoint → Json
  | .including e => .tagged "Including" e.toJson
  | .excluding e => .tagged "Excluding" e.toJson

def decoder : Decoder Endpoint :=
  .cases [] [("Including", .including <$> Expr.decoder), ("Excluding", .excluding <$> Expr.decoder)]

end Endpoint

namespace Interval

def toJson (i : Interval) : Json :=
  .obj [("lo", i.lo.toJson), ("hi", i.hi.toJson), ("loc", i.loc.toJson)]

def decoder : Decoder Interval :=
  .record (mk <$> .required "lo" Endpoint.decoder <*> .required "hi" Endpoint.decoder
    <*> .required "loc" Loc.decoder)

end Interval

namespace Ty

def toJson : Ty → Json
  | .base b loc => .tagged "Base" (.arr [b.toJson, loc.toJson])
  | .array i t loc => .tagged "Array" (.arr [i.toJson, t.toJson, loc.toJson])
  | .tuple n loc => .tagged "Tuple" (.arr [.int n.toNat, loc.toJson])
  | .arrow loc => .tagged "Arrow" loc.toJson
  | .app t u loc => .tagged "App" (.arr [t.toJson, u.toJson, loc.toJson])
  | .data n => .tagged "Data" n.toJson
  | .rigid n => .tagged "Var" n.toJson
  | .metavar n => .tagged "Meta" n.toJson

def decoder : Decoder Ty := .tree fun sub =>
  .cases []
    [("Base", (fun (b, loc) => .base b loc) <$> Decoder.pair BaseTy.decoder Loc.decoder),
      ("Array", (fun (i, t, loc) => .array i t loc)
        <$> Decoder.triple Interval.decoder sub Loc.decoder),
      ("Tuple", (fun (n, loc) => .tuple n loc) <$> Decoder.pair .uint64 Loc.decoder),
      ("Arrow", .arrow <$> Loc.decoder),
      ("App", (fun (t, u, loc) => .app t u loc) <$> Decoder.triple sub sub Loc.decoder),
      ("Data", .data <$> Name.decoder),
      ("Var", .rigid <$> Name.decoder),
      ("Meta", .metavar <$> Name.decoder)]

end Ty

namespace Kind

def toJson : Kind → Json
  | .star => .str "Star"
  | .arrow k l => .tagged "Arrow" (.arr [k.toJson, l.toJson])
  | .metavar n => .tagged "Meta" n.toJson

def decoder : Decoder Kind := .tree fun sub =>
  .cases [("Star", .star)]
    [("Arrow", (fun (k, l) => .arrow k l) <$> Decoder.pair sub sub),
      ("Meta", .metavar <$> Name.decoder)]

end Kind

end GuardedCommands
