import GuardedCommands.Ty
import GuardedCommands.Expr.Printer

/-!
# The text of a type

Function types associate to the right, and the ends of an array's interval are
written as expressions.
-/

namespace GuardedCommands

def BaseTy.text : BaseTy → String
  | .int => "Int"
  | .bool => "Bool"
  | .char => "Char"

namespace Interval

def text (i : Interval) : String :=
  (match i.lo with
    | .including e => "[" ++ e.text
    | .excluding e => "(" ++ e.text)
  ++ " .. " ++
  (match i.hi with
    | .including e => e.text ++ "]"
    | .excluding e => e.text ++ ")")

end Interval

namespace Ty

def textAt (p : Place) : Ty → String
  | .app (.app (.arrow _) dom _) cod _ =>
    parens (p != .top) (dom.textAt .operand ++ " → " ++ cod.textAt .top)
  | .base b _ => b.text
  | .array interval elem _ =>
    parens (p == .argument) ("array " ++ interval.text ++ " of " ++ elem.textAt .top)
  | .tuple arity _ => "(" ++ String.ofList (List.replicate (arity.toNat - 1) ',') ++ ")"
  | .arrow _ => "(→)"
  | .app head arg _ =>
    parens (p == .argument) (head.textAt .operand ++ " " ++ arg.textAt .argument)
  | .data n | .rigid n | .metavar n => n.text

def text (t : Ty) : String := t.textAt .top

end Ty

end GuardedCommands
