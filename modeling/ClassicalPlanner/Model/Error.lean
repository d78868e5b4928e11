import ClassicalPlanner.Formula.Error

/-!
# Errors and warnings of planning

Causes of failure in reading and solving a problem, and the remarks made on the way, each with its
wording.
-/

namespace ClassicalPlanner

/-- Why a text is not a domain or problem definition.  Each cause quotes at most forty characters of
the text. -/
inductive Malformation where
  | unclosed (near : String)
  | unopened (near : String)
  | notDefinition
  | severalForms
  /-- A parenthesised type in a typed list. -/
  | unsupportedType (found : String)
  | notName (found : String)
  | unnamedAction
  | parametersNotList (action : String)
  | notKeyword (action found : String)
deriving DecidableEq, Repr

namespace Malformation

/-- The wording of a cause. -/
def message : Malformation → String
  | unclosed near => "unbalanced parentheses near `" ++ near ++ "`"
  | unopened near => "unexpected `)` near `" ++ near ++ "`"
  | notDefinition => "expected a `(define ...)` form"
  | severalForms => "expected exactly one top-level form"
  | unsupportedType found =>
    "unsupported type `" ++ found ++ "`; `either` types are not supported"
  | notName found => "expected a name in typed list, found `" ++ found ++ "`"
  | unnamedAction => "`:action` without a name"
  | parametersNotList action => "parameters of `" ++ action ++ "` must be a list"
  | notKeyword action found =>
    "expected a keyword in action `" ++ action ++ "`, found `" ++ found ++ "`"

end Malformation

/-- Why a problem cannot be read, grounded or solved. -/
inductive PlanningError where
  | malformed (cause : Malformation)
  | missingSection (name : String)
  | domainMismatch (expected found : String)
  | unknownAction (name : String)
  | formula (cause : FormulaError)
  /-- The search went on beyond the number of worlds that there are. -/
  | unfinished
deriving DecidableEq, Repr

namespace PlanningError

/-- The wording of an error. -/
def message : PlanningError → String
  | malformed cause => "PDDL syntax error: " ++ cause.message
  | missingSection name => "missing `" ++ name ++ "` section"
  | domainMismatch expected found =>
    "problem is for domain `" ++ found ++ "`, planner holds `" ++ expected ++ "`"
  | unknownAction name => "unknown action `" ++ name ++ "`"
  | formula cause => cause.message
  | unfinished => "search did not finish"

end PlanningError

/-- What has been passed over. -/
inductive Warning where
  | domainSection (name domain : String)
  | problemSection (name problem : String)
  | actionField (action keyword : String)
  /-- The goal has no goal count, so the search goes blind. -/
  | blindSearch (kind : Kind)
deriving DecidableEq, Repr

namespace Warning

/-- The wording of a warning. -/
def message : Warning → String
  | domainSection _ _ => "ignoring unsupported domain section"
  | problemSection _ _ => "ignoring unsupported problem section"
  | actionField _ _ => "ignoring unsupported action field"
  | blindSearch _ => "goal cannot seed goal-count heuristic, using blind"

/-- What a warning is about, by name. -/
def fields : Warning → List (String × String)
  | domainSection name domain => [("section", name), ("domain", domain)]
  | problemSection name problem => [("section", name), ("problem", problem)]
  | actionField action keyword => [("action", action), ("keyword", keyword)]
  | blindSearch kind => [("kind", kind.name)]

end Warning

/-- An operation that may warn and may fail; warnings are kept when it does. -/
abbrev WarnM := ExceptT PlanningError (StateM (List Warning))

/-- Adds a warning. -/
def warn (w : Warning) : WarnM Unit := modify (· ++ [w])

end ClassicalPlanner
