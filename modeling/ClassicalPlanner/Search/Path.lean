import ClassicalPlanner.Search.Space

/-!
# Paths

A path lists the states from the start to a goal, each with the action that led to it.  The empty
path says that no goal was found.
-/

namespace ClassicalPlanner

/-- A state on a path and the action that led to it; the start has none. -/
structure PathStep (State : Type) where
  action : Option ActionId
  state : State
deriving DecidableEq, Repr

/-- The steps from the start to a goal. -/
structure Path (State : Type) where
  steps : List (PathStep State)
deriving DecidableEq, Repr

namespace Path

variable {State : Type}

/-- The path of a search that found nothing. -/
instance : EmptyCollection (Path State) := ⟨⟨[]⟩⟩

/-- Whether nothing was found. -/
def isEmpty (path : Path State) : Bool := path.steps.isEmpty

/-- Whether a goal was found. -/
def isSolved (path : Path State) : Bool := !path.isEmpty

/-- The actions in the order of execution. -/
def actions (path : Path State) : List ActionId := path.steps.filterMap (·.action)

/-- The number of actions: one less than the number of steps. -/
def length (path : Path State) : Nat := path.steps.length - 1

/-- The state in which the path ends. -/
def final? (path : Path State) : Option State := path.steps.getLast?.map (·.state)

end Path

end ClassicalPlanner
