import ClassicalPlanner.Search.Frontier
import ClassicalPlanner.Search.Path

/-!
# Best-first search

A* over a `Space`.  The frontier holds states by the cost of the way to them plus the estimate of
the rest; of equal sums the one pushed first comes first.  A state is tested for the goal when it is
taken from the frontier, is expanded once, and is never reopened.  When a cheaper way to a state is
found it is pushed again; the old entry stays behind and is dropped when it comes up.

Costs are 32-bit words and stop at the largest.  Each turn takes one entry from the frontier.  The
turns come in rounds of doubling length, so that a search with a great bound on its turns needs the
logarithm of the bound only.
-/

namespace ClassicalPlanner

/-- Sum of two costs, at most the largest cost. -/
def addCost (a b : UInt32) : UInt32 :=
  if a.toNat + b.toNat < UInt32.size then a + b else UInt32.ofNat (UInt32.size - 1)

namespace Search

/-- What is known of a state. -/
structure Record (State Id : Type) where
  state : State
  estimate : UInt32
  /-- The cost of the cheapest way found. -/
  cost : UInt32
  /-- The state before it on that way. -/
  previous : Option Id
  /-- The action from there. -/
  action : Option ActionId
  /-- Whether the state has been expanded. -/
  visited : Bool

/-- What a search counts. -/
structure Counters where
  /-- States met. -/
  known : Nat := 0
  /-- States expanded. -/
  expanded : Nat := 0
  /-- Edges followed, and the start. -/
  visited : Nat := 0
  /-- Whether the search stopped because it had used up its expansions. -/
  exhausted : Bool := false
deriving DecidableEq, Repr

variable {ε : Type} {m : Type → Type} [Monad m]
variable {State Id : Type} [Ord Id] [Std.TransOrd Id]

/-- A search under way. -/
structure Progress (State Id : Type) [Ord Id] where
  frontier : Frontier Id := ∅
  known : Std.ExtTreeMap Id (Record State Id) := ∅
  /-- The number of entries pushed. -/
  pushed : Nat := 0
  expanded : Nat := 0
  visited : Nat := 1

namespace Progress

/-- Puts a state into the frontier. -/
def push (p : Progress State Id) (total : UInt32) (id : Id) : Progress State Id :=
  { p with frontier := p.frontier.insert ⟨total, p.pushed⟩ id, pushed := p.pushed + 1 }

/-- Notes what is known of a state. -/
def note (p : Progress State Id) (id : Id) (record : Record State Id) : Progress State Id :=
  { p with known := p.known.insert id record }

/-- Follows the links back from a state; each state is used once. -/
def trail (known : Std.ExtTreeMap Id (Record State Id)) :
    Nat → Option Id → List (PathStep State) → List (PathStep State)
  | 0, _, steps => steps
  | _, none, steps => steps
  | bound + 1, some id, steps =>
    match known[id]? with
    | none => steps
    | some record =>
      trail (known.erase id) bound record.previous (⟨record.action, record.state⟩ :: steps)

/-- The path and the counters of a search that ends here, at a goal or without one. -/
def finish (p : Progress State Id) (goal : Option Id) (exhausted : Bool) :
    Path State × Counters :=
  (⟨trail p.known p.known.size goal []⟩,
    { known := p.known.size, expanded := p.expanded, visited := p.visited, exhausted })

end Progress

/-- Follows one edge out of the state `previous`, which is reached at `cost`. -/
def relax (space : Space ε m State Id) (previous : Id) (cost : UInt32)
    (p : Progress State Id) (edge : Edge State) : ExceptT ε m (Progress State Id) := do
  let id := space.identity edge.state
  let cost := addCost cost edge.cost
  match p.known[id]? with
  | none =>
    let estimate ← space.estimate edge.state
    let record : Record State Id :=
      { state := edge.state, estimate, cost, previous := some previous,
        action := some edge.action, visited := false }
    return (p.note id record).push (addCost cost estimate) id
  | some record =>
    if record.visited || record.cost ≤ cost then return p
    else
      let record := { record with cost, previous := some previous, action := some edge.action }
      return (p.note id record).push (addCost cost record.estimate) id

/-- Expands a state that has not been expanded. -/
def expand (space : Space ε m State Id) (p : Progress State Id) (id : Id)
    (record : Record State Id) : ExceptT ε m (Progress State Id) := do
  let p := p.note id { record with visited := true }
  let edges ← space.successors record.state
  let p := { p with expanded := p.expanded + 1, visited := p.visited + edges.length }
  edges.foldlM (relax space id record.cost) p

/-- One turn: takes the first entry from the frontier and ends the search or goes on. -/
def turn (space : Space ε m State Id) (limit : Option Nat) (p : Progress State Id) :
    ExceptT ε m ((Path State × Counters) ⊕ Progress State Id) := do
  match p.frontier.first? with
  | none => return .inl (p.finish none false)
  | some (priority, id) =>
    let p := { p with frontier := p.frontier.erase priority }
    match p.known[id]? with
    | none => return .inr p
    | some record =>
      if ← space.isGoal record.state then return .inl (p.finish (some id) false)
      else if record.visited then return .inr p
      else if limit.any (· ≤ p.expanded) then return .inl (p.finish none true)
      else return .inr (← expand space p id record)

/-- A number of turns, or less if the search ends. -/
def run (space : Space ε m State Id) (limit : Option Nat) :
    (turns : Nat) → Progress State Id → ExceptT ε m ((Path State × Counters) ⊕ Progress State Id)
  | 0, p => return .inr p
  | turns + 1, p => do
    match ← turn space limit p with
    | .inl result => return .inl result
    | .inr p => run space limit turns p

/-- A number of rounds, the first of `turns` turns and each other of twice as many as the one before
it; nothing if the search has not ended by then. -/
def runRounds (space : Space ε m State Id) (limit : Option Nat) :
    (rounds turns : Nat) → Progress State Id → ExceptT ε m (Option (Path State × Counters))
  | 0, _, _ => pure none
  | rounds + 1, turns, p => do
    match ← run space limit turns p with
    | .inl result => return some result
    | .inr p => runRounds space limit rounds (2 * turns) p

/-- The search before its first turn. -/
def start (space : Space ε m State Id) (state : State) : ExceptT ε m (Progress State Id) := do
  let id := space.identity state
  let estimate ← space.estimate state
  let record : Record State Id :=
    { state, estimate, cost := 0, previous := none, action := none, visited := false }
  return (({} : Progress State Id).note id record).push estimate id

end Search

/-- Searches a space from a state, with at most `limit` expansions.  The search ends within
`2 ^ rounds - 1` turns or gives nothing. -/
def search {ε : Type} {m : Type → Type} [Monad m] {State Id : Type} [Ord Id] [Std.TransOrd Id]
    (space : Space ε m State Id) (limit : Option Nat) (rounds : Nat) (state : State) :
    ExceptT ε m (Option (Path State × Search.Counters)) := do
  Search.runRounds space limit rounds 1 (← Search.start space state)

end ClassicalPlanner
