import GuardedCommands.Encoding.Typed
import GuardedCommands.Verification.Obligation
import GuardedCommands.Verification.Options

/-!
# Obligations, holes, warnings and options in JSON
-/

namespace GuardedCommands

namespace Pred

def toJson : Pred → Json
  | .constant e => .tagged "Constant" e.toJson
  | .assertion e loc => .tagged "Assertion" (.arr [e.toJson, loc.toJson])
  | .invariant e b loc => .tagged "LoopInvariant" (.obj [("inv", e.toJson),
      ("bound", .ofOption TypedExpr.toJson b), ("loc", loc.toJson)])

def decoder : Decoder Pred :=
  .cases []
    [("Constant", .constant <$> TypedExpr.decoder),
      ("Assertion", (fun (e, loc) => .assertion e loc)
        <$> Decoder.pair TypedExpr.decoder Loc.decoder),
      ("LoopInvariant", .record (.invariant <$> .required "inv" TypedExpr.decoder
        <*> .withDefault "bound" none (.option TypedExpr.decoder)
        <*> .required "loc" Loc.decoder))]

end Pred

namespace Origin

def tag : Reason → String
  | .assertion => "Assertion"
  | .preservation => "Preservation"
  | .loopExit => "LoopExit"
  | .loopTermination => "LoopTermination"
  | .boundDecrease => "BoundDecrease"

def toJson (o : Origin) : Json := .tagged (tag o.reason) o.loc.toJson

def decoder : Decoder Origin :=
  .cases [] ([.assertion, .preservation, .loopExit, .loopTermination, .boundDecrease].map
    fun r => (tag r, mk r <$> Loc.decoder))

end Origin

namespace Obligation

def toJson (o : Obligation) : Json :=
  .obj [("pre", o.pre.toJson), ("post", o.post.toJson), ("id", .str o.id),
    ("label", .ofOption .str o.label), ("origin", o.origin.toJson)]

def decoder : Decoder Obligation :=
  .record (mk <$> .required "pre" Pred.decoder <*> .required "post" Pred.decoder
    <*> .required "id" .string <*> .withDefault "label" none (.option .string)
    <*> .required "origin" Origin.decoder)

end Obligation

namespace SpecHole

def toJson (h : SpecHole) : Json :=
  .obj [("id", .int h.id), ("pre", h.pre.toJson), ("post", h.post.toJson), ("env", h.env.toJson),
    ("loc", h.loc.toJson)]

def decoder : Decoder SpecHole :=
  .record (mk <$> .required "id" .nat <*> .required "pre" Pred.decoder
    <*> .required "post" Pred.decoder <*> .required "env" TypeEnv.decoder
    <*> .required "loc" Loc.decoder)

end SpecHole

namespace Warning

def toJson : Warning → Json
  | .missingBound loc => .tagged "MissingBound" loc.toJson
  | .uncheckedDecrease loc => .tagged "UncheckedBoundDecrease" loc.toJson

def decoder : Decoder Warning :=
  .cases []
    [("MissingBound", .missingBound <$> Loc.decoder),
      ("UncheckedBoundDecrease", .uncheckedDecrease <$> Loc.decoder)]

end Warning

namespace Output

def toJson (o : Output) : Json :=
  .obj [("obligations", .ofList Obligation.toJson o.obligations),
    ("specs", .ofList SpecHole.toJson o.holes), ("warnings", .ofList Warning.toJson o.warnings)]

end Output

namespace Options

def toJson (o : Options) : Json :=
  .obj [("dedupe_obligations", .bool o.dedupe), ("obligation_id_len", .int o.idLength),
    ("bound_prefix", .str o.boundStem), ("heap_prefix", .str o.heapStem)]

/-- Options in which a field that is missing has its default. -/
def decoder : Decoder Options :=
  .record (mk <$> .withDefault "dedupe_obligations" default.dedupe .bool
    <*> .withDefault "obligation_id_len" default.idLength (UInt64.toNat <$> Decoder.uint64)
    <*> .withDefault "bound_prefix" default.boundStem .string
    <*> .withDefault "heap_prefix" default.heapStem .string)

end Options

end GuardedCommands
