import ClassicalPlanner.Config.Basic
import ClassicalPlanner.Yaml.Document

/-!
# Configuration files

A configuration is a YAML mapping with the fields `search` (a mapping with `max_expansions`),
`heuristic` and `prune_unreachable`.  A field that is left out has its default, a field that is not
known is passed over, and a known field may not be given twice.

A value is a plain scalar, whatever its tag, or a literal one with the tag of its kind.
-/

namespace ClassicalPlanner

namespace Yaml

/-! ### Words -/

/-- A word for nothing. -/
def isNullWord (text : String) : Bool := ["null", "Null", "NULL", "~"].contains text

/-- The truth value that a word stands for. -/
def boolOfWord? (text : String) : Option Bool :=
  if ["true", "True", "TRUE"].contains text then some true
  else if ["false", "False", "FALSE"].contains text then some false
  else none

/-- The number that digits of a base stand for; there is one digit at least. -/
def digits? (base : Nat) (cs : List Char) : Option Nat :=
  if cs.isEmpty then none
  else cs.foldlM (fun n c => do
    let d ← hexDigit? c
    if d < base then some (n * base + d) else none) 0

/-- The number that a word stands for, which has no minus sign: decimal without leading zeros, or
hexadecimal, octal or binary after `0x`, `0o` or `0b`. -/
def natOfWord? (text : String) : Option Nat :=
  let cs := match text.toList with
    | '+' :: cs => cs
    | cs => cs
  let number := match cs with
    | '0' :: 'x' :: digits => digits? 16 digits
    | '0' :: 'o' :: digits => digits? 8 digits
    | '0' :: 'b' :: digits => digits? 2 digits
    | ['0'] => some 0
    | '0' :: _ => none
    | digits => digits? 10 digits
  number.filter (· < UInt64.size)

/-! ### Nodes -/

namespace Node

/-- The text of a value of a kind that has a standard tag. -/
def valueText? (kind : String) : Node → Option String
  | scalar text .plain _ => some text
  | scalar text .literal tag => if tag == some (Tag.standard kind) then some text else none
  | _ => none

/-- The text of a scalar. -/
def text? : Node → Option String
  | scalar text _ _ => some text
  | _ => none

/-- The entries of a mapping; nothing at all is a mapping without entries. -/
def entries? : Node → Option (List (Node × Node))
  | mapping entries => some entries
  | scalar "" .plain _ => some []
  | _ => none

/-- A truth value. -/
def bool? (node : Node) : Option Bool := node.valueText? "bool" >>= boolOfWord?

/-- A number. -/
def nat? (node : Node) : Option Nat := node.valueText? "int" >>= natOfWord?

/-- A number that may be left out.  With the tag of nothing it has to be nothing. -/
def optionalNat? : Node → Option (Option Nat)
  | scalar text .plain none =>
    if text.isEmpty || isNullWord text then some none else (natOfWord? text).map some
  | scalar text .plain (some tag) =>
    if tag == Tag.standard "null" then if isNullWord text then some none else none
    else (natOfWord? text).map some
  | node => node.nat?.map some

/-- The name that a scalar gives one of some alternatives: its local tag, if it has one and nothing
else, or else its text. -/
def choice? : Node → Option String
  | scalar text style tag =>
    match tag.bind Tag.localName? with
    | some name =>
      if style == .plain && (text.isEmpty || isNullWord text) then some name else none
    | none => some text
  | _ => none

end Node

namespace Document

/-- The field of a mapping with a name.  It fails if the field is given twice, or if some key of
the mapping is no scalar. -/
def field? (d : Document) (entries : List (Node × Node)) (name : String) :
    Option (Option Node) := do
  let names ← entries.mapM fun (key, _) => (d.resolve key).text?
  match (names.zip (entries.map (·.2))).filter (·.1 == name) with
  | [] => some none
  | [(_, value)] => some (some (d.resolve value))
  | _ => none

end Document

end Yaml

namespace Configuration

open Yaml (Document)

/-- The value of an optional field. -/
def fieldOr {α : Type} (default : α) (read : Yaml.Node → Option α) : Option Yaml.Node → Option α
  | none => some default
  | some value => read value

/-- The search budget in the field `search`. -/
def readSearch (d : Document) (value : Yaml.Node) : Option (Option Nat) := do
  fieldOr none Yaml.Node.optionalNat? (← d.field? (← value.entries?) "max_expansions")

/-- The configuration that a document describes. -/
def ofDocument? (d : Document) : Option Configuration := do
  let entries ← (d.resolve d.root).entries?
  let maxExpansions ← fieldOr none (readSearch d) (← d.field? entries "search")
  let heuristic ← fieldOr .goalCount (·.choice? >>= Heuristic.ofName?)
    (← d.field? entries "heuristic")
  let pruneUnreachable ← fieldOr true Yaml.Node.bool? (← d.field? entries "prune_unreachable")
  return { maxExpansions, heuristic, pruneUnreachable }

/-- The configuration in a file, if the file is a configuration. -/
def ofText? (text : String) : Option Configuration := do
  match ← Document.ofText? text with
  | some document => ofDocument? document
  | none => return {}

end Configuration

end ClassicalPlanner
