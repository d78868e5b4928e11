import ClassicalPlanner.Yaml.Event

/-!
# Documents of YAML

A document is a tree of nodes, in which an alias stands for a node with an anchor.  Anchors have
numbers: a name gets the number of names known before it, also when it is known itself, so that a
later anchor may take over a number (`Document.resolve`).
-/

namespace ClassicalPlanner.Yaml

/-- A node of a document. -/
inductive Node where
  | scalar (text : String) (style : Style) (tag : Option Tag)
  | sequence (items : List Node)
  | mapping (entries : List (Node × Node))
  /-- The node whose anchor has a number. -/
  | alias (number : Nat)
deriving Repr, Inhabited

/-- A collection whose end has not been reached, with its items in reverse.  The items of a mapping
are its keys and values in turn. -/
structure OpenCollection where
  isMapping : Bool
  /-- The place of its anchor among the anchors. -/
  place : Option Nat
  items : List Node := []

/-- How far a document has been put together. -/
structure Assembly where
  /-- The numbers of anchors in the order in which they stand in the document. -/
  anchors : Array Nat := #[]
  /-- The numbers of names. -/
  names : List (String × Nat) := []
  /-- The nodes with an anchor, each with the place of the anchor among the anchors. -/
  named : List (Nat × Node) := []
  /-- The collections around this place, from the inside. -/
  around : List OpenCollection := []
  root : Option Node := none

namespace Assembly

/-- Gives an anchor a number. -/
def addAnchor (a : Assembly) : Option String → Option Nat × Assembly
  | none => (none, a)
  | some name =>
    let number := a.names.length
    (some a.anchors.size, { a with
      anchors := a.anchors.push number
      names := (name, number) :: a.names.filter (·.1 != name) })

/-- Adds a node that is complete. -/
def addNode (a : Assembly) (place : Option Nat) (node : Node) : Assembly :=
  let a := match place with
    | some place => { a with named := (place, node) :: a.named }
    | none => a
  match a.around with
  | [] => { a with root := some node }
  | c :: around => { a with around := { c with items := node :: c.items } :: around }

/-- Starts a collection. -/
def start (a : Assembly) (isMapping : Bool) (anchor : Option String) : Assembly :=
  let (place, a) := a.addAnchor anchor
  { a with around := { isMapping, place } :: a.around }

/-- The entries of a mapping from its keys and values in turn, in reverse. -/
def entries (later : List (Node × Node)) : List Node → List (Node × Node)
  | value :: key :: before => entries ((key, value) :: later) before
  | _ => later

/-- Completes the innermost collection. -/
def close (a : Assembly) : Assembly :=
  match a.around with
  | [] => a
  | c :: around =>
    { a with around }.addNode c.place
      (if c.isMapping then .mapping (entries [] c.items) else .sequence c.items.reverse)

/-- Takes in an event; an alias must have a name that is known. -/
def add (a : Assembly) : Event → Option Assembly
  | .scalar text style tag anchor =>
    let (place, a) := a.addAnchor anchor
    some (a.addNode place (.scalar text style tag))
  | .alias name => do return a.addNode none (.alias (← a.names.lookup name))
  | .sequence anchor => some (a.start false anchor)
  | .mapping anchor => some (a.start true anchor)
  | .sequenceEnd | .mappingEnd => some a.close

end Assembly

/-- A YAML document. -/
structure Document where
  root : Node
  /-- The numbers of anchors in the order in which they stand in the document. -/
  anchors : Array Nat := #[]
  /-- The nodes with an anchor, each with the place of the anchor among the anchors. -/
  named : List (Nat × Node) := []

namespace Document

/-- The document that events walk through, if there is any. -/
def ofEvents? (events : List Event) : Option (Option Document) := do
  let a ← events.foldlM Assembly.add {}
  return a.root.map fun root => { root, anchors := a.anchors, named := a.named }

/-- The only document of a text, if the text is YAML; there may be none. -/
def ofText? (text : String) : Option (Option Document) := do
  ofEvents? (← Event.ofTokens? (← Token.ofChars? text.toList))

/-- The node that an alias stands for: of the anchors with its number the last. -/
def resolve (d : Document) : Node → Node
  | .alias number =>
    let places := (List.range d.anchors.size).filter (d.anchors[·]? == some number)
    (places.getLast?.bind (d.named.lookup ·)).getD (.alias number)
  | node => node

end Document

end ClassicalPlanner.Yaml
