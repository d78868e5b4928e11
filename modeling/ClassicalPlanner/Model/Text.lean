import ClassicalPlanner.Model.Problem

/-!
# Definitions as text

Domains, action schemas and problems as the text that they can be read from, one item a line.
Names without a type come last in a list, where no later type can claim them.
-/

namespace ClassicalPlanner

/-- A line for each named group with the names in it; the unnamed group is left out. -/
def typedLines (sets : NameSets) : List String :=
  (sets.toList.filter (·.1 != "")).map fun (group, names) =>
    "    " ++ "".intercalate (names.toList.map (· ++ " ")) ++ "- " ++ group

/-- A line of names without a type, if there are any. -/
def untypedLines (names : List String) : List String :=
  if names.isEmpty then [] else ["    " ++ " ".intercalate names]

/-- A line that is written only if its text is not empty. -/
def lineUnlessEmpty (head text : String) : List String :=
  if text.isEmpty then [] else [head ++ text]

namespace Parameter

/-- A parameter with its type, if it has one. -/
def text (p : Parameter) : String :=
  if p.group.isEmpty then p.name else p.name ++ " - " ++ p.group

end Parameter

namespace Schema

/-- The lines of an action schema. -/
def lines (a : Schema) : List String :=
  ["  (:action " ++ a.name,
    "    :parameters (" ++ " ".intercalate (a.parameters.map Parameter.text) ++ ")"]
    ++ lineUnlessEmpty "    :precondition " a.precondition
    ++ lineUnlessEmpty "    :effect " a.effect
    ++ ["  )"]

/-- The text of an action schema. -/
def text (a : Schema) : String := "\n".intercalate a.lines

end Schema

namespace Domain

/-- The children of each type that has some. -/
def children (d : Domain) : NameSets :=
  d.types.foldl (fun sets child parents =>
    parents.foldl (fun sets parent => sets.extend parent [child]) sets) ∅

/-- The types without a parent that are declared by themselves. -/
def roots (d : Domain) : List String :=
  d.types.toList.filterMap fun (type, parents) => if parents.isEmpty then some type else none

/-- The lines of the types section. -/
def typeLines (d : Domain) : List String :=
  d.children.toList.map (fun (parent, children) =>
      "    " ++ " ".intercalate children.toList ++ " - " ++ parent)
    ++ untypedLines d.roots

/-- The lines of a section, which is left out if it holds nothing. -/
def sectionLines (skip : Bool) (head : String) (body : List String) : List String :=
  if skip then [] else ["  (" ++ head] ++ body ++ ["  )"]

/-- A section on one line, which is left out if it holds nothing. -/
def wordsLine (head : String) (words : List String) : List String :=
  if words.isEmpty then [] else ["  (" ++ head ++ " " ++ " ".intercalate words ++ ")"]

/-- The lines of a domain. -/
def lines (d : Domain) : List String :=
  ["(define (domain " ++ d.name ++ ")"]
    ++ wordsLine ":requirements" d.requirements
    ++ sectionLines d.types.isEmpty ":types" d.typeLines
    ++ sectionLines d.constants.isEmpty ":constants" (typedLines d.constants)
    ++ wordsLine ":predicates" d.predicates
    ++ d.actions.flatMap Schema.lines
    ++ [")"]

/-- The text of a domain. -/
def text (d : Domain) : String := "\n".intercalate d.lines

end Domain

namespace Problem

/-- The objects in no named group. -/
def untyped (p : Problem) : List String :=
  ((p.members? "").getD ∅).toList.filter fun object =>
    !(p.objects.toList.any fun (group, names) => group != "" && names.contains object)

/-- The lines of a problem. -/
def lines (p : Problem) : List String :=
  ["(define (problem " ++ p.name ++ ")", "  (:domain " ++ p.domain ++ ")", "  (:objects"]
    ++ typedLines p.objects
    ++ untypedLines p.untyped
    ++ ["  )", "  (:init"]
    ++ p.init.toList.map ("    " ++ ·)
    ++ ["  )", "  (:goal " ++ p.goal ++ ")", ")"]

/-- The text of a problem. -/
def text (p : Problem) : String := "\n".intercalate p.lines

end Problem

end ClassicalPlanner
