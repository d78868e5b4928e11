import ClassicalPlanner.Formula.Node

/-!
# Canonical nodes

A `NodeStore` keeps each expression once: registering the same structure again gives back the key
it already has.  Constants and ungrouped variables are numbered by their symbol.  Everything else
is numbered by its list of arguments; all those lists share one counter, which starts at 1, and
the kind's tag tells apart nodes over one list.  The counter has 32 bits; when it has run out, a
list that has no number yet cannot be registered.
-/

namespace ClassicalPlanner

/-- Registered nodes, and the numbers of the argument lists seen so far. -/
structure NodeStore where
  nodes : Std.ExtTreeMap Key Node := ∅
  signatures : Std.ExtTreeMap (List Key) UInt32 := ∅
  /-- The last number given to an argument list. -/
  issued : UInt32 := 0
deriving DecidableEq

namespace NodeStore

/-- The store without nodes. -/
instance : EmptyCollection NodeStore := ⟨{}⟩

instance : Inhabited NodeStore := ⟨∅⟩

/-- The number of nodes. -/
def size (s : NodeStore) : Nat := s.nodes.size

/-- Whether no node is registered. -/
def isEmpty (s : NodeStore) : Bool := s.nodes.isEmpty

/-- The node with a key. -/
def find? (s : NodeStore) (key : Key) : Option Node := s.nodes[key]?

/-- Whether a key names a node. -/
def contains (s : NodeStore) (key : Key) : Bool := s.nodes.contains key

/-- The node with a key, which must be registered. -/
def node (s : NodeStore) (key : Key) : Except FormulaError Node :=
  match s.find? key with
  | some node => .ok node
  | none => .error (.unknownExpression key)

/-- The atoms of a world. -/
def atoms (s : NodeStore) (world : World) : Except FormulaError AtomSet := do
  match ← s.node world.key with
  | .world atoms => pure atoms
  | other => throw (.misplaced other.kind .world)

/-- The number of an argument list; a new list gets the next one. -/
def number (s : NodeStore) (signature : List Key) : Except FormulaError (UInt32 × NodeStore) :=
  match s.signatures[signature]? with
  | some index => .ok (index, s)
  | none =>
    let index := s.issued + 1
    if index = 0 then .error .outOfNumbers
    else .ok (index, { s with signatures := s.signatures.insert signature index, issued := index })

/-- Puts a node under a key that has none yet. -/
def insertIfNew (s : NodeStore) (key : Key) (node : Node) : NodeStore :=
  if s.contains key then s else { s with nodes := s.nodes.insert key node }

/-- Registers an object or predicate. -/
def addConstant (s : NodeStore) (symbol : SymbolId) : Key × NodeStore :=
  let key := Key.ofKind .constant symbol.index
  (key, s.insertIfNew key (.constant symbol))

/-- Registers a variable, whose group may be empty. -/
def addVariable (s : NodeStore) (symbol group : SymbolId) :
    Except FormulaError (Key × NodeStore) := do
  if group = .none then
    let key := Key.ofSymbol symbol
    return (key, s.insertIfNew key (.variable symbol group))
  else
    let (index, s) ← s.number [Key.ofSymbol symbol, Key.ofSymbol group]
    let key := Key.ofKind .variable index
    return (key, s.insertIfNew key (.variable symbol group))

/-- What forbids a compound node: an argument that is not registered, or a quantifier that does
not bind a variable. -/
def check (s : NodeStore) (node : Node) : Except FormulaError Unit := do
  match node.args.find? (!s.contains ·) with
  | some missing => throw (.unknownExpression missing)
  | none => pure ()
  match node with
  | .existential binder _ | .universal binder _ =>
    match ← s.node binder with
    | .variable _ _ => pure ()
    | other => throw (.misplaced other.kind .quantifierVariable)
  | _ => pure ()

/-- Registers a compound expression over registered arguments. -/
def addCompound (s : NodeStore) (kind : Kind) (args : List Key) :
    Except FormulaError (Key × NodeStore) := do
  let node ← Node.ofKind kind args
  s.check node
  let (index, s) ← s.number args
  let key := Key.ofKind kind index
  return (key, s.insertIfNew key node)

/-- Registers the world in which exactly `atoms` hold. -/
def addWorld (s : NodeStore) (atoms : AtomSet) : Except FormulaError (World × NodeStore) := do
  let (index, s) ← s.number atoms.toList
  let key := Key.ofKind .world index
  return (⟨key⟩, s.insertIfNew key (.world atoms))

end NodeStore

end ClassicalPlanner
