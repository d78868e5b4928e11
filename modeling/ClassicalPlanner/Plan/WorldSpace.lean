import ClassicalPlanner.Model.Error
import ClassicalPlanner.Plan.Estimate
import ClassicalPlanner.Search.AStar
import ClassicalPlanner.Task.ActionTable

/-!
# Worlds as a state space

Worlds are the states; each action whose precondition holds is an edge of cost one.  Only atoms that
hold at first or that some effect adds ever hold, so there are finitely many worlds, and a search
ends within `roundBound` rounds.
-/

namespace ClassicalPlanner

/-- An operation on a session that may fail in planning. -/
abbrev PlanM := ExceptT PlanningError (StateM Session)

namespace WorldSpace

/-- An operation on formulas, as one in planning. -/
def ofFormulas {α : Type} (x : SessionM α) : PlanM α := ExceptT.adapt .formula x

/-- The edges of some actions out of a world. -/
def edges (world : World) : List GroundAction → SessionM (List (Edge World))
  | [] => pure []
  | a :: rest => do
    if ← Session.evaluate a.precondition world then
      let state ← Session.apply world a.effect
      let rest ← edges world rest
      return { state, cost := 1, action := a.id } :: rest
    else edges world rest

/-- The worlds that actions reach, with a goal and an estimate. -/
def space (actions : ActionTable) (goal : Key) (estimate : Estimate) :
    Space PlanningError (StateM Session) World World where
  identity world := world
  isGoal world := ofFormulas (Session.evaluate goal world)
  estimate world := ofFormulas (estimate.value world)
  successors world := ofFormulas (edges world actions.toList)

/-- An upper bound of the number of atoms that an effect adds; `depth` bounds the length of a chain
of arguments. -/
def atomCount (s : Session) : (depth : Nat) → Key → Nat
  | 0, _ => 0
  | depth + 1, key =>
    match s.store.find? key with
    | some (.atom _ _) => 1
    | some (.and parts) => parts.foldr (fun part n => atomCount s depth part + n) 0
    | some (.not part) => atomCount s depth part
    | some (.when _ effect) => atomCount s depth effect
    | some (.universal binder body) =>
      match s.store.find? binder with
      | some (.variable _ group) => (s.members group).length * atomCount s depth body
      | _ => 0
    | _ => 0

/-- An upper bound of the number of atoms that hold in some world reachable from `initial`. -/
def reachableAtomCount (s : Session) (actions : ActionTable) (initial : World) : Nat :=
  let atoms := match s.store.atoms initial with
    | .ok atoms => atoms.size
    | .error _ => 0
  actions.toList.foldr (fun a n => atomCount s (s.size + 1) a.effect + n) atoms

/-- A search takes each edge at most once, and the start, and then finds the frontier empty: with `n`
atoms and `a` actions these are `2 ^ n * a + 2` turns, fewer than `2 ^ (n + a + 2)`. -/
def roundBound (s : Session) (actions : ActionTable) (initial : World) : Nat :=
  reachableAtomCount s actions initial + actions.size + 2

/-- Searches the worlds reachable from `initial` for the goal. -/
def search (actions : ActionTable) (goal : Key) (estimate : Estimate) (limit : Option Nat)
    (initial : World) : PlanM (Path World × Search.Counters) := do
  let rounds := roundBound (← get) actions initial
  match ← ClassicalPlanner.search (space actions goal estimate) limit rounds initial with
  | some result => pure result
  | none => throw .unfinished

end WorldSpace

end ClassicalPlanner
