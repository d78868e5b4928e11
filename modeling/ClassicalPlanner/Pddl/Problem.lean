import ClassicalPlanner.Model.Problem
import ClassicalPlanner.Pddl.Section

/-!
# Reading problems

A problem is read against its domain, whose constants become objects of the problem.  The domain
and the goal have to be given; sections that are not known are passed over with a warning.
-/

namespace ClassicalPlanner.Pddl

/-- A problem being read. -/
structure ProblemDraft where
  name : String := ""
  domain? : Option String := none
  /-- Objects with their types, in the order of declaration. -/
  declared : List (String × String) := []
  init : NameSet := ∅
  goal? : Option String := none

/-- Reads one section into what has been read so far. -/
def readProblemSection (domain : String) (p : ProblemDraft) (pieces : List Piece) :
    WarnM ProblemDraft := do
  match sectionName? pieces, pieces.tail with
  | some "problem", body => return { p with name := (body.head?.bind Piece.word?).getD "" }
  | some ":domain", .word name :: _ =>
    if name = domain then return { p with domain? := some name }
    else throw (.domainMismatch domain name)
  | some ":domain", _ => throw (.missingSection ":domain")
  | some ":objects", body =>
    return { p with declared := p.declared ++ (← orMalformed (typedList body)) }
  | some ":init", body =>
    return { p with init := p.init.insertMany (body.map fun piece => Text.flatten piece.text) }
  | some ":goal", goal :: _ => return { p with goal? := some (Text.flatten goal.text) }
  | some ":goal", [] => throw (.missingSection ":goal")
  | some other, _ =>
    warn (.problemSection other p.name)
    return p
  | none, _ => return p

/-- The constants of a domain with their types. -/
def constants (d : Domain) : List (String × String) :=
  d.constants.toList.flatMap fun (group, names) => names.toList.map (·, group)

/-- Reads a problem definition of a domain. -/
def readProblem (d : Domain) (text : String) : WarnM Problem := do
  let sections ← liftM (sections (stripComments text))
  let draft ← sections.foldlM (readProblemSection d.name) {}
  let some domain := draft.domain? | throw (.missingSection ":domain")
  let some goal := draft.goal? | throw (.missingSection ":goal")
  let unpopulated : Problem :=
    { name := draft.name, domain, objects := NameSets.extend ∅ "" [], init := draft.init, goal }
  return (constants d ++ draft.declared).foldl
    (fun p (object, type) => p.addObject d object type) unpopulated

end ClassicalPlanner.Pddl
