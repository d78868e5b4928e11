import ClassicalPlanner.Config.Basic
import ClassicalPlanner.Pddl.Domain
import ClassicalPlanner.Pddl.Problem
import ClassicalPlanner.Plan.Report

/-!
# Planners

A planner solves problems of one domain.  Each problem is grounded in a session that knows nothing,
so that no problem leaves anything to the next.
-/

namespace ClassicalPlanner

/-- An operation of a planner on its session, which may warn and may fail. -/
abbrev PlannerM := ExceptT PlanningError (StateT Session (StateM (List Warning)))

namespace PlannerM

/-- An operation on the session alone. -/
def ofSession {α : Type} (x : PlanM α) : PlannerM α := fun s warnings => (x s, warnings)

/-- An operation that does not touch the session. -/
def ofReading {α : Type} (x : WarnM α) : PlannerM α := fun s warnings =>
  let (result, warnings) := x warnings
  ((result, s), warnings)

end PlannerM

/-- What came of a search for a plan. -/
structure Solution where
  /-- The names of the ground actions in the order of execution. -/
  actions : List String
  ids : List ActionId
  /-- Whether a plan was found; the empty plan may be one. -/
  solved : Bool
  grounded : Nat
  retained : Nat
  counters : Search.Counters
deriving DecidableEq, Repr

/-- A domain, and how its problems are solved. -/
structure Planner where
  domain : Domain
  configuration : Configuration := {}

namespace Planner

/-- The planner of the domain that a text defines. -/
def ofText (text : String) : WarnM Planner := return { domain := ← Pddl.readDomain text }

/-- Reads a problem of the planner's domain. -/
def readProblem (p : Planner) (text : String) : WarnM Problem := Pddl.readProblem p.domain text

/-- Grounds a problem in a fresh session. -/
def ground (p : Planner) (problem : Problem) (prune : Bool) : PlannerM Task := do
  set (∅ : Session)
  .ofSession (WorldSpace.ofFormulas (Task.ofProblem p.domain problem prune))

/-- How the search for a goal looks ahead: a goal without a goal count is searched for blindly. -/
def estimate (p : Planner) (goal : Key) : PlannerM Estimate :=
  match p.configuration.heuristic with
  | .blind => pure .blind
  | .goalCount => do
    try .ofSession (WorldSpace.ofFormulas (Estimate.ofGoal goal))
    catch
      | .formula (.misplaced kind _) => do
        PlannerM.ofReading (warn (.blindSearch kind))
        pure .blind
      | e => throw e

/-- The names of the actions with the given numbers. -/
def actionNames (actions : ActionTable) : List ActionId → Except PlanningError (List String)
  | [] => .ok []
  | id :: rest =>
    match actions.get? id with
    | some action => do return action.name :: (← actionNames actions rest)
    | none => .error (.unknownAction id.text)

/-- Searches for a plan. -/
def solve (p : Planner) (problem : Problem) : PlannerM Solution := do
  let task ← p.ground problem p.configuration.pruneUnreachable
  let estimate ← p.estimate task.goal
  let (path, counters) ← .ofSession
    (WorldSpace.search task.actions task.goal estimate p.configuration.maxExpansions task.initial)
  let ids := path.actions
  let actions ← liftExcept (actionNames task.actions ids)
  return {
    actions, ids, solved := path.isSolved, grounded := task.grounded,
    retained := task.actions.size, counters }
where
  liftExcept {α : Type} (x : Except PlanningError α) : PlannerM α := fun s warnings =>
    ((x, s), warnings)

/-- Searches for a plan of the problem that a text defines. -/
def plan (p : Planner) (text : String) : PlannerM Solution := do
  p.solve (← .ofReading (p.readProblem text))

/-- Replays a plan.  No action is dropped, so those that can never run are known too. -/
def verify (p : Planner) (problem : Problem) (plan : List String) : PlannerM Report := do
  let task ← p.ground problem false
  .ofSession (task.replay p.domain.name problem.name plan)

/-- Searches for a plan and replays it. -/
def report (p : Planner) (problem : Problem) : PlannerM Report := do
  let solution ← p.solve problem
  let report ← p.verify problem solution.actions
  return { report with counters := some solution.counters }

end Planner

end ClassicalPlanner
