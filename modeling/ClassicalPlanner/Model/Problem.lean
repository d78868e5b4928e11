import ClassicalPlanner.Model.Domain

/-!
# Problems

A problem of a domain: its objects by group, the atoms that hold at first, and the goal.  An object
belongs to its type, to every ancestor of its type, and to the unnamed group of all objects.
-/

namespace ClassicalPlanner

/-- A planning problem. -/
structure Problem where
  name : String := ""
  domain : String := ""
  /-- The members of each group; the unnamed group has all objects. -/
  objects : NameSets := ∅
  init : NameSet := ∅
  goal : String := ""
deriving DecidableEq

namespace Problem

instance : Inhabited Problem := ⟨{}⟩

/-- The members of a group, if there is such a group. -/
def members? (p : Problem) (group : String) : Option NameSet := p.objects[group]?

/-- The groups of an object declared with a type. -/
def groupsOf (d : Domain) (type : String) : List String :=
  if type = "" then [""] else "" :: type :: (d.ancestors type).toList

/-- Adds an object declared with a type, which may be empty. -/
def addObject (p : Problem) (d : Domain) (object type : String) : Problem :=
  { p with
    objects := (groupsOf d type).foldl (fun sets group => sets.extend group [object]) p.objects }

end Problem

end ClassicalPlanner
