import ClassicalPlanner.Digest.Sha256
import ClassicalPlanner.Plan.WorldSpace
import ClassicalPlanner.Session.Render
import ClassicalPlanner.Task.Basic

/-!
# Replaying plans

A plan is a list of names of ground actions.  Replaying it runs the actions from the initial world,
up to the first whose precondition fails, and reports each step.  The plan is valid if all
preconditions hold and the goal holds at the end.
-/

namespace ClassicalPlanner

/-- The bytes of a plan: each name is ended by a line feed. -/
def planBytes (plan : List String) : List UInt8 :=
  plan.flatMap fun name => name.toUTF8.data.toList ++ [10]

/-- The digest of a plan. -/
def planDigest (plan : List String) : String := Sha256.hex (planBytes plan)

/-- A replayed action. -/
structure ReportStep where
  step : Nat
  action : String
  precondition : String
  effect : String
  preconditionHeld : Bool
  /-- The world after the step; the one before it if the precondition fails. -/
  state : String
deriving DecidableEq, Repr

/-- What came of replaying a plan. -/
structure Report where
  planHash : String
  domain : String
  problem : String
  initialState : String
  goal : String
  actions : List String
  steps : List ReportStep
  valid : Bool
  goalReached : Bool
  /-- The counters of the search that found the plan. -/
  counters : Option Search.Counters := none
deriving DecidableEq, Repr

namespace Report

/-- The first step whose precondition fails. -/
def failedStep? (r : Report) : Option ReportStep := r.steps.find? (!·.preconditionHeld)

end Report

namespace Task

/-- The text of an expression. -/
def render (key : Key) : PlanM String := fun s =>
  (match s.render key with
    | .ok text => .ok text
    | .error e => .error (.formula e), s)

/-- Runs actions from a world, up to the first whose precondition fails.  Gives the steps, numbered
from `step`, the world at the end, and whether all preconditions held. -/
def replaySteps (actions : ActionTable) : Nat → World → List String →
    PlanM (List ReportStep × World × Bool)
  | _, world, [] => pure ([], world, true)
  | step, world, name :: rest => do
    let some action := actions.find? name | throw (.unknownAction name)
    let held ← WorldSpace.ofFormulas (Session.evaluate action.precondition world)
    let world ←
      if held then WorldSpace.ofFormulas (Session.apply world action.effect) else pure world
    let precondition ← render action.precondition
    let effect ← render action.effect
    let state ← render world.key
    let entry : ReportStep :=
      { step, action := name, precondition, effect, preconditionHeld := held, state }
    if held then
      let (steps, world, applicable) ← replaySteps actions (step + 1) world rest
      return (entry :: steps, world, applicable)
    else return ([entry], world, false)

/-- Replays a plan. -/
def replay (t : Task) (domain problem : String) (plan : List String) : PlanM Report := do
  let initialState ← render t.initial.key
  let goal ← render t.goal
  let (steps, world, applicable) ← replaySteps t.actions 0 t.initial plan
  let goalReached ←
    if applicable then WorldSpace.ofFormulas (Session.evaluate t.goal world) else pure false
  return {
    planHash := planDigest plan, domain, problem, initialState, goal, actions := plan, steps,
    valid := goalReached, goalReached }

end Task

end ClassicalPlanner
