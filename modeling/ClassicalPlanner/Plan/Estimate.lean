import ClassicalPlanner.Session.Apply

/-!
# Estimates of the way to the goal

The goal count is the number of atoms that the goal asks for and a world lacks.  It reads the goal
as an effect, so a goal that is no effect has no goal count.
-/

namespace ClassicalPlanner

/-- The number of members of `goal` that are not in `present`; both lists are sorted. -/
def missing : (goal present : List Key) → Nat
  | [], _ => 0
  | atom :: goal, present =>
    let present := present.dropWhile fun candidate => compare candidate atom == .lt
    if present.head? = some atom then missing goal present else missing goal present + 1

/-- How a search looks ahead. -/
inductive Estimate where
  /-- Not at all. -/
  | blind
  /-- By the number of these atoms that a world lacks. -/
  | goalCount (atoms : AtomSet)
deriving DecidableEq

namespace Estimate

/-- The goal count of a goal. -/
def ofGoal (goal : Key) : SessionM Estimate := do
  let changes ← Session.changesFrom ∅ (Session.collectAll goal)
  return goalCount changes.add

/-- The estimate of a world. -/
def value (estimate : Estimate) (world : World) : SessionM UInt32 :=
  match estimate with
  | blind => pure 0
  | goalCount atoms => do
    return UInt32.ofNat (missing atoms.toList (← Session.atoms world).toList)

end Estimate

end ClassicalPlanner
