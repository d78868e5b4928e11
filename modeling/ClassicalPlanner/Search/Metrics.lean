import ClassicalPlanner.Search.AStar
import ClassicalPlanner.Text.Decimal

/-!
# Search metrics

The counters of a search with the time it took, as shown after a plan.
-/

namespace ClassicalPlanner

/-- A span of time. -/
structure Elapsed where
  seconds : UInt64 := 0
  nanoseconds : UInt32 := 0
deriving DecidableEq, Repr

namespace Elapsed

/-- The span in seconds; each part is rounded to a double before they are added. -/
def toFloat (t : Elapsed) : Float :=
  t.seconds.toFloat + t.nanoseconds.toFloat / 1000000000

/-- The span in whole milliseconds, modulo `2 ^ 64`. -/
def milliseconds (t : Elapsed) : UInt64 :=
  UInt64.ofNat (t.seconds.toNat * 1000 + t.nanoseconds.toNat / 1000000)

end Elapsed

namespace Search.Counters

/-- The lines shown for a search that took some time. -/
def lines (c : Counters) (elapsed : Elapsed) : List String :=
  ["Time taken: " ++ Text.fixed 3 elapsed.toFloat ++ " s",
    "Frontier nodes: " ++ toString c.known,
    "Expanded nodes: " ++ toString c.expanded,
    "Visited nodes: " ++ toString c.visited]
    ++ if c.exhausted then ["Expansion budget exhausted"] else []

/-- The lines as one text. -/
def text (c : Counters) (elapsed : Elapsed) : String :=
  "\n".intercalate (c.lines elapsed)

end Search.Counters

end ClassicalPlanner
