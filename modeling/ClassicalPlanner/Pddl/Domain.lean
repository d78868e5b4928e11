import ClassicalPlanner.Model.Domain
import ClassicalPlanner.Pddl.Section

/-!
# Reading domains

Sections may come in any order and more than once: a later name, list of requirements or list of
predicates replaces the earlier one, types, constants and actions add up.  Sections and action
fields that are not known are passed over with a warning.
-/

namespace ClassicalPlanner.Pddl

/-- Reads the fields of an action, in pairs of a keyword and a value. -/
def readFields (action : Schema) : List Piece → WarnM Schema
  | [] => pure action
  | .word ":parameters" :: value :: rest => do
    let some inside := value.inside? | throw (.malformed (.parametersNotList action.name))
    let names ← orMalformed (Piece.split inside >>= typedList)
    readFields { action with parameters := names.map fun (name, group) => { name, group } } rest
  | .word ":precondition" :: value :: rest =>
    readFields { action with precondition := Text.flatten value.text } rest
  | .word ":effect" :: value :: rest =>
    readFields { action with effect := Text.flatten value.text } rest
  | [.word keyword] => do
    warn (.actionField action.name keyword)
    return action
  | .word keyword :: _ :: rest => do
    warn (.actionField action.name keyword)
    readFields action rest
  | piece :: _ => throw (.malformed (.notKeyword action.name piece.quoted))

/-- Reads an action, its section's name left out. -/
def readAction : List Piece → WarnM Schema
  | .word name :: fields => readFields { name } fields
  | _ => throw (.malformed .unnamedAction)

/-- The domain with types declared under their parents; a type without a parent is declared too. -/
def declareTypes (d : Domain) (names : List (String × String)) : Domain :=
  { d with
    types := names.foldl
      (fun types (child, parent) => types.extend child (if parent = "" then [] else [parent]))
      d.types }

/-- The domain with constants of given types. -/
def declareConstants (d : Domain) (names : List (String × String)) : Domain :=
  { d with
    constants := names.foldl (fun sets (name, group) => sets.extend group [name]) d.constants }

/-- Reads one section into what has been read so far; the flag says whether there is a name. -/
def readDomainSection (d : Domain) (named : Bool) (pieces : List Piece) :
    WarnM (Domain × Bool) := do
  match sectionName? pieces, pieces.tail with
  | some "domain", .word name :: _ => return ({ d with name }, true)
  | some "domain", _ => throw (.missingSection "domain")
  | some ":requirements", body =>
    return ({ d with requirements := body.filterMap Piece.word? }, named)
  | some ":types", body => return (declareTypes d (← orMalformed (typedList body)), named)
  | some ":constants", body => return (declareConstants d (← orMalformed (typedList body)), named)
  | some ":predicates", body =>
    return ({ d with predicates := body.map fun piece => Text.flatten piece.text }, named)
  | some ":action", body => return ({ d with actions := d.actions ++ [← readAction body] }, named)
  | some other, _ =>
    warn (.domainSection other d.name)
    return (d, named)
  | none, _ => return (d, named)

/-- Reads a domain definition. -/
def readDomain (text : String) : WarnM Domain := do
  let sections ← liftM (sections (stripComments text))
  let (domain, named) ←
    sections.foldlM (fun (d, named) pieces => readDomainSection d named pieces) ({}, false)
  unless named do throw (.missingSection "domain")
  return domain

end ClassicalPlanner.Pddl
