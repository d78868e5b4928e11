import ClassicalPlanner.Model.Problem
import ClassicalPlanner.Session.Parse
import ClassicalPlanner.Session.Substitute
import ClassicalPlanner.Task.ActionTable
import ClassicalPlanner.Task.Binding

/-!
# Grounding

Each schema gives one ground action for each binding of its parameters: the schema's formulas with
the objects put for the parameters, one parameter after the other.
-/

namespace ClassicalPlanner

namespace Schema

/-- The name of the action of a binding. -/
def groundName (a : Schema) (binding : Binding) : String :=
  binding.foldl (fun name (_, object) => name ++ " " ++ object) a.name

/-- Puts objects for parameters in a precondition and an effect. -/
def groundFormulas (binding : Binding) (precondition effect : Key) : SessionM (Key × Key) :=
  binding.foldlM groundParameter (precondition, effect)
where
  /-- Puts an object for one parameter. -/
  groundParameter : Key × Key → String × String → SessionM (Key × Key)
    | (precondition, effect), (name, object) => do
      let old ← Session.intern name
      let new ← Session.intern object
      let precondition ← Session.substitute precondition old new
      let effect ← Session.substitute effect old new
      return (precondition, effect)

/-- Adds the ground actions of a schema to a table. -/
def ground (objects : NameSets) (table : ActionTable) (a : Schema) : SessionM ActionTable := do
  let precondition ← Session.parse a.precondition
  let effect ← Session.parse a.effect
  (bindings objects a.parameters).foldlM (groundBinding precondition effect) table
where
  /-- Adds the ground action of one binding. -/
  groundBinding (precondition effect : Key) (table : ActionTable) (binding : Binding) :
      SessionM ActionTable := do
    let (precondition, effect) ← groundFormulas binding precondition effect
    let (_, table) ← liftM (table.push (a.groundName binding) precondition effect)
    return table

end Schema

/-- The ground actions of a domain over the objects of a problem. -/
def ground (d : Domain) (p : Problem) : SessionM ActionTable :=
  d.actions.foldlM (Schema.ground p.objects) ∅

end ClassicalPlanner
