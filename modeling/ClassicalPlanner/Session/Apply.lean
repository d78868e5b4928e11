import ClassicalPlanner.Session.Evaluate

/-!
# Effects

An effect does not touch a world: it collects the atoms to add and the atoms to remove, and
`Session.apply` puts both into the successor, where an atom that is both added and removed holds.
Guards are decided in the world before the effect.
-/

namespace ClassicalPlanner

/-- The atoms that an effect adds and removes. -/
structure Changes where
  add : AtomSet := ∅
  remove : AtomSet := ∅
deriving DecidableEq

namespace Changes

instance : EmptyCollection Changes := ⟨{}⟩

/-- Additions and removals exchanged. -/
def swap (c : Changes) : Changes := ⟨c.remove, c.add⟩

/-- The atoms that hold after the changes. -/
def applyTo (c : Changes) (atoms : AtomSet) : AtomSet := (atoms \ c.remove) ∪ c.add

end Changes

/-- An operation that collects changes; what has been collected is kept when it fails. -/
abbrev ChangesM := ExceptT FormulaError (StateT Changes (StateM Session))

namespace Session

/-- Runs an operation on a session while changes are being collected. -/
def collecting {α : Type} (x : SessionM α) : ChangesM α :=
  fun changes s => let (result, s) := x s; ((result, changes), s)

/-- Collects with additions and removals exchanged. -/
def swapped (x : ChangesM Unit) : ChangesM Unit :=
  fun changes s =>
    let ((result, changes), s) := x changes.swap s
    ((result, changes.swap), s)

/-- Adds an atom. -/
def addAtom (atom : Key) : ChangesM Unit :=
  modify fun changes => { changes with add := changes.add.insert atom }

/-- Collects what an effect changes, given which guards hold; `depth` bounds the length of a
chain of arguments. -/
def collectWithin (guardHolds : Key → SessionM Bool) : Nat → Key → ChangesM Unit
  | 0, key => throw (.circular key)
  | depth + 1, key => do
    match ← collecting (node key) with
    | .atom _ _ => addAtom key
    | .and parts => parts.forM (collectWithin guardHolds depth)
    | .not part => swapped (collectWithin guardHolds depth part)
    | .when guard effect =>
      if ← collecting (guardHolds guard) then collectWithin guardHolds depth effect
    | .universal binder body => do
      (← collecting (instances binder body)).forM (collectWithin guardHolds depth)
    | other => throw (.misplaced other.kind .effect)

/-- Collects what an effect changes in a world. -/
def collect (effect : Key) (world : World) : ChangesM Unit := do
  collectWithin (evaluate · world) (← collecting depth) effect

/-- Collects what an effect may change in any world: every guard counts as true. -/
def collectAll (effect : Key) : ChangesM Unit := do
  collectWithin (fun _ => pure true) (← collecting depth) effect

/-- Runs a collection and gives what it has collected, starting from `changes`. -/
def changesFrom (changes : Changes) (x : ChangesM Unit) : SessionM Changes := fun s =>
  match x changes s with
  | ((.ok (), changes), s) => (.ok changes, s)
  | ((.error e, _), s) => (.error e, s)

/-- The world after an effect. -/
def apply (world : World) (effect : Key) : SessionM World := do
  let changes ← changesFrom ∅ (collect effect world)
  addWorld (changes.applyTo (← atoms world))

end Session

end ClassicalPlanner
