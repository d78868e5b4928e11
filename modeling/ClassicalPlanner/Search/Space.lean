/-!
# State spaces

What a best-first search needs to know: when two states are one, which states are goals, how far
the goal may be, and which actions lead where.  The three questions about a state may fail, and may
change a state of their own (`m`): a space may number its states as it meets them.
-/

namespace ClassicalPlanner

/-- The number of an action. -/
structure ActionId where
  index : UInt32
deriving DecidableEq, Repr, Inhabited

namespace ActionId

/-- An action's number as messages show it. -/
def text (id : ActionId) : String := "#" ++ toString id.index.toNat

end ActionId

/-- An action that leads to `state` at a cost. -/
structure Edge (State : Type) where
  state : State
  cost : UInt32
  action : ActionId
deriving DecidableEq, Repr

/-- A state space.  States with equal identity are one state. -/
structure Space (ε : Type) (m : Type → Type) (State Id : Type) where
  identity : State → Id
  isGoal : State → ExceptT ε m Bool
  /-- The cost that may remain; zero if nothing is known. -/
  estimate : State → ExceptT ε m UInt32
  /-- The edges out of a state, in an order that does not change. -/
  successors : State → ExceptT ε m (List (Edge State))

/-- A question put to a space. -/
inductive Call (State : Type) where
  | goal (state : State)
  | estimate (state : State)
  | successors (state : State)
deriving DecidableEq, Repr

namespace Space

variable {ε : Type} {m : Type → Type} [Monad m] {State Id : Type}

/-- The space that also writes down the questions it is asked, in order. -/
def traced (space : Space ε m State Id) : Space ε (StateT (Array (Call State)) m) State Id where
  identity := space.identity
  isGoal state := record (.goal state) (space.isGoal state)
  estimate state := record (.estimate state) (space.estimate state)
  successors state := record (.successors state) (space.successors state)
where
  /-- Writes the question down before it is answered. -/
  record {α : Type} (call : Call State) (answer : ExceptT ε m α) :
      ExceptT ε (StateT (Array (Call State)) m) α :=
    fun calls => do return (← answer, calls.push call)

end Space

end ClassicalPlanner
