import ClassicalPlanner.Session.Apply
import ClassicalPlanner.Task.ActionTable

/-!
# Reachability

Every world that can be reached from an initial world lies between two bounds: the initial atoms
and all that some action may add, and the initial atoms without all that some action may remove.
An action whose precondition fails between the bounds never runs, and `ActionTable.prune` drops it.
-/

namespace ClassicalPlanner

/-- An operation on a table that may fail; the table and the session are kept when it does. -/
abbrev TableM := ExceptT FormulaError (StateT ActionTable (StateM Session))

namespace ActionTable

/-- The upper and the lower bound of the worlds reachable from `initial`. -/
def reachabilityBounds (t : ActionTable) (initial : World) : SessionM (World × World) := do
  let changes ← Session.changesFrom ∅ (t.toList.forM fun a => Session.collectAll a.effect)
  let atoms ← Session.atoms initial
  let upper ← Session.addWorld (atoms ∪ changes.add)
  let lower ← Session.addWorld (atoms \ changes.remove)
  return (upper, lower)

/-- The actions whose precondition may hold between two bounds. -/
def retained (upper lower : World) : List GroundAction → SessionM (List GroundAction)
  | [] => pure []
  | a :: rest => do
    let keep ← Session.laxEvaluate a.precondition upper lower
    let rest ← retained upper lower rest
    return if keep then a :: rest else rest

/-- Runs an operation on the session alone. -/
def onSession {α : Type} (x : SessionM α) : TableM α :=
  fun t s => let (result, s) := x s; ((result, t), s)

/-- Drops the actions that can never run from `initial`, and tells how many they were. -/
def prune (initial : World) : TableM Nat := do
  let t ← get
  let (upper, lower) ← onSession (t.reachabilityBounds initial)
  let kept ← onSession (retained upper lower t.toList)
  set { t with actions := kept.toArray }
  return t.size - kept.length

/-- The table without the actions that can never run from `initial`. -/
def pruned (t : ActionTable) (initial : World) : SessionM ActionTable := fun s =>
  match prune initial t s with
  | ((.ok _, t), s) => (.ok t, s)
  | ((.error e, _), s) => (.error e, s)

end ActionTable

end ClassicalPlanner
