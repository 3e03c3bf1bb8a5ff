import GuardedCommands.Encoding.Ty
import GuardedCommands.Program

/-!
# Statements and programs in JSON

Statements are written alike before and after elaboration; what stands in them is
written by the functions that are passed along.
-/

namespace GuardedCommands

namespace Declaration

def tag : DeclSort → String
  | .const => "Const"
  | .var => "Var"

def toJson (expr : ε → Json) (d : Declaration ε) : Json :=
  .tagged (tag d.sort) (.obj [("names", .ofList Name.toJson d.names), ("ty", d.ty.toJson),
    ("prop", .ofOption expr d.prop), ("loc", d.loc.toJson)])

def decoder (expr : Decoder ε) : Decoder (Declaration ε) :=
  .cases [] [(tag .const, ofSort .const), (tag .var, ofSort .var)]
where
  ofSort (s : DeclSort) : Decoder (Declaration ε) :=
    .record (mk s <$> .required "names" (.list Name.decoder) <*> .required "ty" Ty.decoder
      <*> .withDefault "prop" none (.option expr) <*> .required "loc" Loc.decoder)

end Declaration

namespace Stmt

section Writing

variable (expr : ε → Json) (defn : δ → Json) (env : η → List (String × Json))

mutual

/-- Writes a statement; `env` gives the fields of what a hole knows. -/
def toJson : Stmt ε δ η → Json
  | .skip loc => .tagged "Skip" loc.toJson
  | .abort loc => .tagged "Abort" loc.toJson
  | .assign xs es loc => .tagged "Assign" (.obj [("names", .ofList Name.toJson xs),
      ("exprs", .ofList expr es), ("loc", loc.toJson)])
  | .arrayAssign a i v loc => .tagged "AAssign" (.obj [("array", expr a), ("index", expr i),
      ("value", expr v), ("loc", loc.toJson)])
  | .assert e loc => .tagged "Assert" (.arr [expr e, loc.toJson])
  | .invariant e b loc => .tagged "LoopInvariant" (.obj [("inv", expr e),
      ("bound", .ofOption expr b), ("loc", loc.toJson)])
  | .loop cmds loc => .tagged "Do" (.arr [.arr (cmdsToJson cmds), loc.toJson])
  | .cond cmds loc => .tagged "If" (.arr [.arr (cmdsToJson cmds), loc.toJson])
  | .hole text h loc => .tagged "Spec" (.obj (("text", .str text) :: env h
      ++ [("loc", loc.toJson)]))
  | .alloc x es loc => .tagged "Alloc" (.obj [("var", x.toJson), ("exprs", .ofList expr es),
      ("loc", loc.toJson)])
  | .lookup x e loc => .tagged "HLookup" (.obj [("var", x.toJson), ("expr", expr e),
      ("loc", loc.toJson)])
  | .mutate c v loc => .tagged "HMutate" (.obj [("cell", expr c), ("value", expr v),
      ("loc", loc.toJson)])
  | .dispose e loc => .tagged "Dispose" (.arr [expr e, loc.toJson])
  | .block b loc => .tagged "Block" (.arr [.obj [("defns", .ofList defn b.defns),
      ("decls", .ofList (·.toJson expr) b.decls), ("props", .ofList expr b.props),
      ("stmts", .arr (listToJson b.stmts)), ("loc", b.loc.toJson)], loc.toJson])

def cmdsToJson : List (GuardedCmd ε (Stmt ε δ η)) → List Json
  | [] => []
  | c :: cs =>
    .obj [("guard", expr c.guard), ("body", .arr (listToJson c.body)), ("loc", c.loc.toJson)]
      :: cmdsToJson cs

def listToJson : List (Stmt ε δ η) → List Json
  | [] => []
  | s :: ss => s.toJson :: listToJson ss

end

end Writing

end Stmt

namespace GuardedCmd

def toJson (expr : ε → Json) (stmt : σ → Json) (c : GuardedCmd ε σ) : Json :=
  .obj [("guard", expr c.guard), ("body", .ofList stmt c.body), ("loc", c.loc.toJson)]

def decoder (expr : Decoder ε) (stmt : Decoder σ) : Decoder (GuardedCmd ε σ) :=
  .record (mk <$> .required "guard" expr <*> .required "body" (.list stmt)
    <*> .required "loc" Loc.decoder)

end GuardedCmd

namespace Block

def toJson (expr : ε → Json) (defn : δ → Json) (stmt : σ → Json) (b : Block ε δ σ) : Json :=
  .obj [("defns", .ofList defn b.defns), ("decls", .ofList (·.toJson expr) b.decls),
    ("props", .ofList expr b.props), ("stmts", .ofList stmt b.stmts), ("loc", b.loc.toJson)]

def decoder (expr : Decoder ε) (defn : Decoder δ) (stmt : Decoder σ) : Decoder (Block ε δ σ) :=
  .record (mk <$> .required "defns" (.list defn)
    <*> .required "decls" (.list (Declaration.decoder expr)) <*> .required "props" (.list expr)
    <*> .required "stmts" (.list stmt) <*> .required "loc" Loc.decoder)

end Block

/-- Decodes a statement; `env` decodes what a hole knows. -/
def Stmt.decoder (expr : Decoder ε) (defn : Decoder δ) (env : Fields η) :
    Decoder (Stmt ε δ η) := .tree fun sub =>
  let cmds := Decoder.list (GuardedCmd.decoder expr sub)
  .cases []
    [("Skip", .skip <$> Loc.decoder),
      ("Abort", .abort <$> Loc.decoder),
      ("Assign", .record (.assign <$> .required "names" (.list Name.decoder)
        <*> .required "exprs" (.list expr) <*> .required "loc" Loc.decoder)),
      ("AAssign", .record (.arrayAssign <$> .required "array" expr <*> .required "index" expr
        <*> .required "value" expr <*> .required "loc" Loc.decoder)),
      ("Assert", (fun (e, loc) => .assert e loc) <$> Decoder.pair expr Loc.decoder),
      ("LoopInvariant", .record (.invariant <$> .required "inv" expr
        <*> .withDefault "bound" none (.option expr) <*> .required "loc" Loc.decoder)),
      ("Do", (fun (cs, loc) => .loop cs loc) <$> Decoder.pair cmds Loc.decoder),
      ("If", (fun (cs, loc) => .cond cs loc) <$> Decoder.pair cmds Loc.decoder),
      ("Spec", .record (.hole <$> .required "text" .string <*> env
        <*> .required "loc" Loc.decoder)),
      ("Alloc", .record (.alloc <$> .required "var" Name.decoder
        <*> .required "exprs" (.list expr) <*> .required "loc" Loc.decoder)),
      ("HLookup", .record (.lookup <$> .required "var" Name.decoder <*> .required "expr" expr
        <*> .required "loc" Loc.decoder)),
      ("HMutate", .record (.mutate <$> .required "cell" expr <*> .required "value" expr
        <*> .required "loc" Loc.decoder)),
      ("Dispose", (fun (e, loc) => .dispose e loc) <$> Decoder.pair expr Loc.decoder),
      ("Block", (fun (b, loc) => .block b loc)
        <$> Decoder.pair (Block.decoder expr defn sub) Loc.decoder)]

/-! ## Source programs -/

namespace Ctor

def toJson (c : Ctor) : Json :=
  .obj [("name", c.name.toJson), ("args", .ofList Ty.toJson c.args), ("loc", c.loc.toJson)]

def decoder : Decoder Ctor :=
  .record (mk <$> .required "name" Name.decoder <*> .required "args" (.list Ty.decoder)
    <*> .required "loc" Loc.decoder)

end Ctor

namespace Datatype

def decoder : Decoder Datatype :=
  .record (mk <$> .required "name" Name.decoder <*> .required "params" (.list Name.decoder)
    <*> .required "ctors" (.list Ctor.decoder) <*> .required "loc" Loc.decoder)

end Datatype

namespace Definition

def toJson : Definition → Json
  | .datatype d => .tagged "TypeDefn" (.obj [("name", d.name.toJson),
      ("params", .ofList Name.toJson d.params), ("ctors", .ofList Ctor.toJson d.ctors),
      ("loc", d.loc.toJson)])
  | .signature x t p loc => .tagged "FuncDefnSig" (.obj [("name", x.toJson), ("ty", t.toJson),
      ("prop", .ofOption Expr.toJson p), ("loc", loc.toJson)])
  | .function x cs loc => .tagged "FuncDefn" (.obj [("name", x.toJson),
      ("clauses", .ofList Expr.toJson cs), ("loc", loc.toJson)])

def decoder : Decoder Definition :=
  .cases []
    [("TypeDefn", .datatype <$> Datatype.decoder),
      ("FuncDefnSig", .record (.signature <$> .required "name" Name.decoder
        <*> .required "ty" Ty.decoder <*> .withDefault "prop" none (.option Expr.decoder)
        <*> .required "loc" Loc.decoder)),
      ("FuncDefn", .record (.function <$> .required "name" Name.decoder
        <*> .required "clauses" (.list Expr.decoder) <*> .required "loc" Loc.decoder))]

end Definition

namespace SourceStmt

def toJson (s : SourceStmt) : Json := Stmt.toJson Expr.toJson Definition.toJson (fun _ => []) s

def decoder : Decoder SourceStmt := Stmt.decoder Expr.decoder Definition.decoder (pure ())

end SourceStmt

namespace Program

def toJson (p : Program) : Json := Block.toJson Expr.toJson Definition.toJson SourceStmt.toJson p

def decoder : Decoder Program :=
  Block.decoder Expr.decoder Definition.decoder SourceStmt.decoder

end Program

end GuardedCommands
