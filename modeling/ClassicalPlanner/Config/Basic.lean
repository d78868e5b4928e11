/-!
# Configuration

How problems are solved: the budget of a search, how it looks ahead, and whether actions that can
never run are dropped.
-/

namespace ClassicalPlanner

/-- How a search looks ahead. -/
inductive Heuristic where
  | goalCount
  | blind
deriving DecidableEq, Repr

namespace Heuristic

/-- The name of a heuristic. -/
def name : Heuristic → String
  | goalCount => "goal-count"
  | blind => "blind"

/-- The heuristic with a name. -/
def ofName? : String → Option Heuristic
  | "goal-count" => some goalCount
  | "blind" => some blind
  | _ => none

end Heuristic

/-- How problems are solved. -/
structure Configuration where
  /-- The largest number of expansions of a search. -/
  maxExpansions : Option Nat := none
  heuristic : Heuristic := .goalCount
  pruneUnreachable : Bool := true
deriving DecidableEq, Repr

end ClassicalPlanner
