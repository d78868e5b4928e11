import ClassicalPlanner.Search.AStar

/-!
# Explicit graphs

A finite graph given by lists, as a state space.  The number of its edges bounds the turns of a
search.
-/

namespace ClassicalPlanner

/-- A graph over numbered states.  Some of the questions about it may have no answer. -/
structure Graph where
  goals : List Nat := []
  /-- The edges out of each state; a state beyond the list has none. -/
  edges : Array (List (Edge Nat)) := #[]
  /-- The estimate of each state; a state beyond the list has estimate zero. -/
  estimates : Array UInt32 := #[]
  /-- The identity of each state; a state beyond the list is its own. -/
  identities : Array Int := #[]
  /-- The questions without an answer. -/
  faults : List (Call Nat) := []

namespace Graph

/-- An answer, unless the question has none. -/
def answer {α : Type} (g : Graph) (call : Call Nat) (value : α) : ExceptT (Call Nat) Id α :=
  if call ∈ g.faults then throw call else pure value

/-- The graph as a state space. -/
def space (g : Graph) : Space (Call Nat) Id Nat Int where
  identity state := g.identities.getD state state
  isGoal state := g.answer (.goal state) (g.goals.contains state)
  estimate state := g.answer (.estimate state) (g.estimates.getD state 0)
  successors state := g.answer (.successors state) (g.edges.getD state [])

/-- A search takes each edge at most once, and the start, and then finds the frontier empty; so many
turns are fewer than `2 ^ g.roundBound`. -/
def roundBound (g : Graph) : Nat := g.edges.foldl (fun n edges => n + edges.length) 2

end Graph

end ClassicalPlanner
