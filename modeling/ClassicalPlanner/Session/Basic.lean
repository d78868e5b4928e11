import ClassicalPlanner.Formula.Store

/-!
# Sessions

A session holds what one planning run knows: its words, its expressions and its groups of
objects.  Operations that read or register expressions are `SessionM` actions; one that fails
leaves the session as far as it got.
-/

namespace ClassicalPlanner

/-- The members of each group. -/
abbrev Groups := Std.ExtTreeMap SymbolId (Std.ExtTreeSet SymbolId)

/-- Words, expressions and groups of one planning run. -/
structure Session where
  symbols : SymbolTable := ∅
  store : NodeStore := ∅
  groups : Groups := ∅
deriving DecidableEq

/-- An operation on a session that may fail; the session is kept when it does. -/
abbrev SessionM := ExceptT FormulaError (StateM Session)

namespace Session

/-- The session that knows nothing. -/
instance : EmptyCollection Session := ⟨{}⟩

instance : Inhabited Session := ⟨∅⟩

/-! ### Reading -/

/-- The number of registered expressions. -/
def size (s : Session) : Nat := s.store.size

/-- The members of a group; a group that is not known has none. -/
def members (s : Session) (group : SymbolId) : List SymbolId :=
  match s.groups[group]? with
  | some members => members.toList
  | none => []

/-- The word of a symbol. -/
def word (s : Session) (id : SymbolId) : Except FormulaError String :=
  match s.symbols.word? id with
  | some word => .ok word
  | none => .error (.unknownSymbol id)

/-- The expression with a key. -/
def node (key : Key) : SessionM Node := fun s => (s.store.node key, s)

/-- The atoms of a world. -/
def atoms (world : World) : SessionM AtomSet := fun s => (s.store.atoms world, s)

/-- Whether an atom holds in a world. -/
def holds (world : World) (atom : Key) : SessionM Bool := do
  return (← atoms world).contains atom

/-! ### Registering -/

/-- The symbol of a word. -/
def intern (text : String) : StateM Session SymbolId := fun s =>
  let (id, symbols) := s.symbols.intern text
  (id, { s with symbols })

/-- Registers in the store, which stays as it is if that fails. -/
def register {α : Type} (f : NodeStore → Except FormulaError (α × NodeStore)) : SessionM α :=
  fun s =>
    match f s.store with
    | .ok (a, store) => (.ok a, { s with store })
    | .error e => (.error e, s)

/-- Registers the constant of a symbol. -/
def addConstantOf (symbol : SymbolId) : StateM Session Key := fun s =>
  let (key, store) := s.store.addConstant symbol
  (key, { s with store })

/-- Registers a word as a constant. -/
def addConstant (text : String) : StateM Session Key := do
  addConstantOf (← intern text)

/-- Registers a word as a variable over a group; the empty group means any object. -/
def addVariable (text group : String) : SessionM Key := do
  let symbol ← intern text
  let group ← intern group
  register (·.addVariable symbol group)

/-- Registers a compound expression. -/
def addCompound (kind : Kind) (args : List Key) : SessionM Key :=
  register (·.addCompound kind args)

/-- Registers the world of a set of atoms. -/
def addWorld (atoms : AtomSet) : SessionM World := register (·.addWorld atoms)

/-! ### Groups -/

/-- Adds objects to a group, new or not. -/
def addMembers (group : String) (objects : List String) : StateM Session Unit := do
  let group ← intern group
  let members ← objects.mapM intern
  modify fun s =>
    let old := s.groups.getD group ∅
    { s with groups := s.groups.insert group (old.insertMany members) }

/-- Replaces all groups; a group listed twice has the members of both. -/
def setGroups (groups : List (String × List String)) : StateM Session Unit := do
  modify ({ · with groups := ∅ })
  groups.forM fun (group, objects) => addMembers group objects

end Session

end ClassicalPlanner
