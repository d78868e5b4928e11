import ClassicalPlanner.Task.Grounding
import ClassicalPlanner.Task.Reachability

/-!
# Planning tasks

A task is a grounded problem: an initial world, a goal, and the ground actions.
-/

namespace ClassicalPlanner

/-- A problem ready for search. -/
structure Task where
  initial : World
  goal : Key
  actions : ActionTable
  /-- The number of actions before pruning. -/
  grounded : Nat
deriving DecidableEq

namespace Task

/-- The number of actions that pruning has dropped. -/
def pruned (t : Task) : Nat := t.grounded - t.actions.size

/-- Grounds a problem.  The groups of the session become those of the problem. -/
def ofProblem (d : Domain) (p : Problem) (prune : Bool) : SessionM Task := do
  let groups := p.objects.toList.map fun (name, members) => (name, members.toList)
  let initial ← Session.makeWorld p.init.toList groups
  let goal ← Session.parse p.goal
  let actions ← ground d p
  let grounded := actions.size
  let actions ← if prune then actions.pruned initial else pure actions
  return { initial, goal, actions, grounded }

end Task

end ClassicalPlanner
