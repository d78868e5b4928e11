import Std.Data.ExtTreeMap
import Std.Data.ExtTreeSet

/-!
# Domains

A domain has a hierarchy of types, objects of its own, and action schemas.  Formulas are text here.
The ancestors of a type are the types that lie above it; the hierarchy may run in circles.
-/

namespace ClassicalPlanner

/-- A set of names, in the order of their characters. -/
abbrev NameSet := Std.ExtTreeSet String

/-- Named sets of names, in the order of their names. -/
abbrev NameSets := Std.ExtTreeMap String NameSet

namespace NameSets

instance : DecidableEq NameSets :=
  inferInstanceAs (DecidableEq (Std.ExtTreeMap String NameSet))

/-- Adds names to one of the sets, new or not. -/
def extend (sets : NameSets) (name : String) (names : List String) : NameSets :=
  sets.insert name ((sets.getD name ∅).insertMany names)

end NameSets

/-- A parameter of an action; the group is empty if it has no type. -/
structure Parameter where
  name : String
  group : String := ""
deriving DecidableEq, Repr, Inhabited

/-- An action with parameters.  An empty precondition always holds, an empty effect changes
nothing. -/
structure Schema where
  name : String
  parameters : List Parameter := []
  precondition : String := ""
  effect : String := ""
deriving DecidableEq, Repr, Inhabited

/-- What all problems of a domain share. -/
structure Domain where
  name : String := ""
  requirements : List String := []
  /-- The direct parents of each type. -/
  types : NameSets := ∅
  /-- The objects of every problem, by type. -/
  constants : NameSets := ∅
  predicates : List String := []
  actions : List Schema := []
deriving DecidableEq

namespace Domain

instance : Inhabited Domain := ⟨{}⟩

/-- The direct parents of a type. -/
def parents (d : Domain) (type : String) : NameSet := d.types.getD type ∅

/-- The types above `type`, of which `found` are known already.  The parents of those `pending` are
still to be looked at, one type each time. -/
def climb (d : Domain) (type : String) :
    (times : Nat) → (found : NameSet) → (pending : List String) → NameSet
  | 0, found, _ => found
  | _, found, [] => found
  | times + 1, found, current :: pending =>
    let new := (d.parents current).toList.filter fun t => t != type && !found.contains t
    d.climb type times (found.insertMany new) (new ++ pending)

/-- The number of links from a type to a parent. -/
def linkCount (d : Domain) : Nat :=
  d.types.foldl (fun n _ parents => n + parents.size) 0

/-- The types above a type, itself left out.  Each of them is pending once, and some link leads to
it. -/
def ancestors (d : Domain) (type : String) : NameSet := d.climb type (d.linkCount + 1) ∅ [type]

/-- The action schema with a name. -/
def action? (d : Domain) (name : String) : Option Schema := d.actions.find? (·.name == name)

end Domain

end ClassicalPlanner
