import ClassicalPlanner.Formula.Error
import ClassicalPlanner.Search.Space

/-!
# Ground actions

Actions are numbered from 1 in the order in which they are added.  A number is never given twice:
removing actions leaves gaps, and when the 32-bit numbers have run out no action can be added.
-/

namespace ClassicalPlanner

/-- An action without parameters. -/
structure GroundAction where
  id : ActionId
  /-- The name of the schema followed by the objects, with single spaces. -/
  name : String
  precondition : Key
  effect : Key
deriving DecidableEq, Repr

/-- Ground actions in the order of their numbers. -/
structure ActionTable where
  actions : Array GroundAction := #[]
  /-- The last number given. -/
  issued : UInt32 := 0
deriving DecidableEq

namespace ActionTable

instance : EmptyCollection ActionTable := ⟨{}⟩

instance : Inhabited ActionTable := ⟨∅⟩

/-- The actions in order. -/
def toList (t : ActionTable) : List GroundAction := t.actions.toList

/-- The number of actions. -/
def size (t : ActionTable) : Nat := t.actions.size

/-- Whether there are no actions. -/
def isEmpty (t : ActionTable) : Bool := t.actions.isEmpty

/-- Adds an action under the next number. -/
def push (t : ActionTable) (name : String) (precondition effect : Key) :
    Except FormulaError (ActionId × ActionTable) :=
  let id : ActionId := ⟨t.issued + 1⟩
  if id.index = 0 then .error .outOfNumbers
  else .ok (id, { actions := t.actions.push { id, name, precondition, effect }, issued := id.index })

/-- The action with a number. -/
def get? (t : ActionTable) (id : ActionId) : Option GroundAction :=
  t.actions.find? (·.id == id)

/-- The first action with a name. -/
def find? (t : ActionTable) (name : String) : Option GroundAction :=
  t.actions.find? (·.name == name)

end ActionTable

end ClassicalPlanner
