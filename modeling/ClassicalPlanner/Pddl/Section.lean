import ClassicalPlanner.Pddl.Piece

/-!
# Sections of a definition

A definition is one group that starts with the word `define`; its sections are the groups in it.
A section starts with its name.  Typed lists, `name name - type name ...`, give names in front of a
type that type, and the names at the end none.
-/

namespace ClassicalPlanner.Pddl

/-- Fails with the cause if a text is malformed. -/
def orMalformed {m : Type → Type} [Monad m] [MonadExceptOf PlanningError m] {α : Type} :
    Except Malformation α → m α
  | .ok a => pure a
  | .error cause => throw (.malformed cause)

/-- The sections of a definition without comments. -/
def sections (text : String) : Except PlanningError (List (List Piece)) := do
  match ← orMalformed (Piece.split text) with
  | [] => throw (.missingSection "define")
  | [.word _] => throw (.malformed .notDefinition)
  | [.group inside] =>
    match ← orMalformed (Piece.split inside) with
    | .word "define" :: pieces =>
      (pieces.filterMap Piece.inside?).mapM fun inside => orMalformed (Piece.split inside)
    | _ => throw (.missingSection "define")
  | _ => throw (.malformed .severalForms)

/-- The name of a section. -/
def sectionName? (pieces : List Piece) : Option String := pieces.head?.bind Piece.word?

/-- The names of a typed list with their types; `pending` are the names that have none so far. -/
def typedNames (pending : List String) : List Piece → Except Malformation (List (String × String))
  | [] => .ok (pending.map (·, ""))
  | [.word "-"] => .ok (pending.map (·, ""))
  | .word "-" :: .group inside :: _ => .error (.unsupportedType (Piece.group inside).quoted)
  | .word "-" :: .word type :: rest => do
    return pending.map (·, type) ++ (← typedNames [] rest)
  | .group inside :: _ => .error (.notName (Piece.group inside).quoted)
  | .word name :: rest => typedNames (pending ++ [name]) rest

/-- The names of a typed list with their types. -/
def typedList (pieces : List Piece) : Except Malformation (List (String × String)) :=
  typedNames [] pieces

end ClassicalPlanner.Pddl
