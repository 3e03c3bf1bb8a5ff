import GuardedCommands.Kind
import GuardedCommands.Ty.Printer

/-!
# Why elaboration fails

Each cause is a constructor with what it is about and where.  The wording of
the report, its code and its place are functions of the cause.
-/

namespace GuardedCommands

/-- What a program may contain but elaboration does not handle. -/
inductive Unsupported
  | clauses | blockDefinition | shadowing | tuple | caseOf
deriving DecidableEq

def Unsupported.text : Unsupported → String
  | .clauses => "multi-clause function definition"
  | .blockDefinition => "definition inside a block"
  | .shadowing => "block declaration shadowing a visible name"
  | .tuple => "tuple expression"
  | .caseOf => "case expression"

inductive ElaborationError
  | notInScope (name : String) (loc : Loc)
  | unifyFailed (expected found : Ty) (loc : Loc)
  | kindUnifyFailed (expected found : Kind) (loc : Loc)
  | recursiveType (var : String) (ty : Ty) (loc : Loc)
  | assignToConst (name : String) (loc : Loc)
  | undefinedType (name : String) (loc : Loc)
  | duplicatedIdentifiers (names : List String) (loc : Loc)
  /-- An assignment with names left over. -/
  | redundantNames (names : List String) (loc : Loc)
  /-- An assignment with expressions left over, given by their texts. -/
  | redundantExprs (exprs : List String) (loc : Loc)
  | missingArguments (names : List String) (loc : Loc)
  | unsupported (what : Unsupported) (loc : Loc)

namespace ElaborationError

def loc : ElaborationError → Loc
  | .notInScope _ l | .unifyFailed _ _ l | .kindUnifyFailed _ _ l | .recursiveType _ _ l
  | .assignToConst _ l | .undefinedType _ l | .duplicatedIdentifiers _ l | .redundantNames _ l
  | .redundantExprs _ l | .missingArguments _ l | .unsupported _ l => l

def quoted (text : String) : String := "`" ++ text ++ "`"

def listed (texts : List String) : String := ", ".intercalate texts

def message : ElaborationError → String
  | .notInScope name _ => quoted name ++ " is not in scope"
  | .unifyFailed expected found _ =>
    "cannot unify " ++ quoted expected.text ++ " with " ++ quoted found.text
  | .kindUnifyFailed expected found _ =>
    "cannot unify kind " ++ quoted expected.text ++ " with " ++ quoted found.text
  | .recursiveType var ty _ => "recursive type: " ++ quoted var ++ " occurs in " ++ quoted ty.text
  | .assignToConst name _ => "cannot assign to " ++ quoted name ++ ": it is not a variable"
  | .undefinedType name _ => "undefined type " ++ quoted name
  | .duplicatedIdentifiers names _ => "duplicated identifiers: " ++ listed names
  | .redundantNames names _ => "assignment has more names than expressions: " ++ listed names
  | .redundantExprs exprs _ => "assignment has more expressions than names: " ++ listed exprs
  | .missingArguments names _ => "missing type arguments: " ++ listed names
  | .unsupported what _ => "unsupported construct: " ++ what.text

def code : ElaborationError → String
  | .notInScope .. => "gcl::elab::not_in_scope"
  | .unifyFailed .. => "gcl::elab::unify_failed"
  | .kindUnifyFailed .. => "gcl::elab::kind_unify_failed"
  | .recursiveType .. => "gcl::elab::recursive_type"
  | .assignToConst .. => "gcl::elab::assign_to_const"
  | .undefinedType .. => "gcl::elab::undefined_type"
  | .duplicatedIdentifiers .. => "gcl::elab::duplicated_identifiers"
  | .redundantNames .. => "gcl::elab::redundant_names"
  | .redundantExprs .. => "gcl::elab::redundant_exprs"
  | .missingArguments .. => "gcl::elab::missing_arguments"
  | .unsupported .. => "gcl::unsupported"

end ElaborationError

end GuardedCommands
