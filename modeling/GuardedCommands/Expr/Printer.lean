import GuardedCommands.Expr

/-!
# The text of an expression

Every expression has one text, which does not depend on locations.  Parentheses
are decided by where a subexpression stands, not by the strength of operators.
-/

namespace GuardedCommands

/-- Where a piece of text stands: alone, beside an operator, or as an argument. -/
inductive Place
  | top | operand | argument
deriving DecidableEq

def parens (wanted : Bool) (text : String) : String :=
  if wanted then "(" ++ text ++ ")" else text

def ChainOp.symbol : ChainOp → String
  | .eq => "="
  | .neq => "≠"
  | .lt => "<"
  | .lte => "≤"
  | .gt => ">"
  | .gte => "≥"
  | .eqProp => "≡"

def ArithOp.symbol : ArithOp → String
  | .implies => "⇒"
  | .conj => "∧"
  | .disj => "∨"
  | .neg => "¬"
  | .negNum => "-"
  | .add => "+"
  | .sub => "-"
  | .mul => "*"
  | .div => "/"
  | .mod => "%"
  | .max => "↑"
  | .min => "↓"
  | .exp => "^"
  | .hash => "#"
  | .pointsTo => "↦"
  | .sepConj => "∗"
  | .sepImp => "-∗"

def Op.symbol : Op → String
  | .chain o => o.symbol
  | .arith o => o.symbol

def decimal (n : Int) : String :=
  if n < 0 then "-" ++ Nat.repr n.natAbs else Nat.repr n.natAbs

def Lit.text : Lit → String
  | .num n => decimal n.toInt
  | .bool true => "True"
  | .bool false => "False"
  | .chr c => "'" ++ String.singleton c ++ "'"
  | .emp => "emp"

namespace Expr

def quantSign : Expr → Option String
  | .op (.arith .conj) _ => some "∀"
  | .op (.arith .disj) _ => some "∃"
  | .op (.arith .hash) _ => some "#"
  | .op (.arith .add) _ => some "Σ"
  | .op (.arith .mul) _ => some "Π"
  | _ => none

mutual

/-- The text of an expression at a place.  An operator with all its operands is
written with the operator between or before them; any other application puts
the argument after the function. -/
def textAt (p : Place) : Expr → String
  | .lit l _ => l.text
  | .var x _ => x.text
  | .const x _ => x.text
  | .op o _ => "(" ++ o.symbol ++ ")"
  | .chain head links _ =>
    parens (p != .top) (head.textAt .operand ++ linksText links)
  | .app (.op (.arith o) _) a _ =>
    if o.isUnary then parens (p != .top) (o.symbol ++ a.textAt .argument)
    else parens (p == .argument) ("(" ++ o.symbol ++ ") " ++ a.textAt .argument)
  | .app (.app (.op (.arith o) _) l _) r _ =>
    if o.isUnary then
      parens (p == .argument)
        ("(" ++ o.symbol ++ l.textAt .argument ++ ") " ++ r.textAt .argument)
    else
      parens (p != .top) (l.textAt .operand ++ " " ++ o.symbol ++ " " ++ r.textAt .operand)
  | .app f a _ => parens (p == .argument) (f.textAt .operand ++ " " ++ a.textAt .argument)
  | .lam x body _ => parens (p != .top) ("λ" ++ x.text ++ " → " ++ body.textAt .top)
  | .quant q binders range body _ =>
    let sign := match q.quantSign with
      | some sign => sign
      | none => q.textAt .argument
    "⟨" ++ sign ++ " " ++ " ".intercalate (binders.map (·.text)) ++ " : "
      ++ range.textAt .top ++ " : " ++ body.textAt .top ++ "⟩"
  | .index a i _ => a.textAt .argument ++ "[" ++ i.textAt .top ++ "]"
  | .update a i v _ =>
    "(" ++ a.textAt .top ++ " : " ++ i.textAt .top ++ " ↦ " ++ v.textAt .top ++ ")"
  | .tuple items _ => "(" ++ ", ".intercalate (itemTexts items) ++ ")"
  | .caseOf e clauses _ =>
    parens (p != .top) ("case " ++ e.textAt .top ++ " of" ++ clausesText clauses)

def linksText : List (ChainLink Expr) → String
  | [] => ""
  | l :: ls => " " ++ l.op.symbol ++ " " ++ l.rhs.textAt .operand ++ linksText ls

def itemTexts : List Expr → List String
  | [] => []
  | e :: es => e.textAt .top :: itemTexts es

def clausesText : List (CaseClause Expr) → String
  | [] => ""
  | c :: cs =>
    " | " ++ c.pattern.textAt .top ++ " → " ++ c.body.textAt .top ++ clausesText cs

end

def text (e : Expr) : String := e.textAt .top

end Expr

end GuardedCommands
