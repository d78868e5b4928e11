import ClassicalPlanner.Formula.Error

/-!
# Nodes

A node is one expression whose direct arguments are given by their keys.  `Node.ofKind` builds a
compound node from an argument list and refuses a wrong number of arguments; every compound node
is built back from its own kind and arguments (`Node.ofKind_kind_args`).
-/

namespace ClassicalPlanner

/-- An expression over registered arguments. -/
inductive Node where
  /-- An object or a predicate. -/
  | constant (symbol : SymbolId)
  /-- A variable that ranges over the members of `group`. -/
  | variable (symbol group : SymbolId)
  | atom (predicate : Key) (terms : List Key)
  | and (parts : List Key)
  | or (parts : List Key)
  | not (part : Key)
  /-- Its two arguments are one expression. -/
  | equals (left right : Key)
  | imply (antecedent consequent : Key)
  /-- An effect under a guard. -/
  | when (guard effect : Key)
  | existential (binder body : Key)
  | universal (binder body : Key)
  /-- The atoms that hold together. -/
  | world (atoms : AtomSet)
deriving DecidableEq

namespace Node

/-- The kind of a node. -/
def kind : Node → Kind
  | .constant _ => .constant
  | .variable _ _ => .variable
  | .atom _ _ => .atom
  | .and _ => .and
  | .or _ => .or
  | .not _ => .not
  | .equals _ _ => .equals
  | .imply _ _ => .imply
  | .when _ _ => .when
  | .existential _ _ => .existential
  | .universal _ _ => .universal
  | .world _ => .world

/-- The arguments of a compound node; leaves and worlds have none. -/
def args : Node → List Key
  | .constant _ | .variable _ _ | .world _ => []
  | .atom predicate terms => predicate :: terms
  | .and parts | .or parts => parts
  | .not part => [part]
  | .equals a b | .imply a b | .when a b | .existential a b | .universal a b => [a, b]

/-- The number of arguments of a compound kind. -/
def arity? : Kind → Option Arity
  | .constant | .variable | .world => none
  | .atom => some .atLeastOne
  | .and | .or => some .any
  | .not => some .one
  | .equals | .imply | .when | .existential | .universal => some .two

/-- The compound node of a kind over an argument list. -/
def ofKind (kind : Kind) (args : List Key) : Except FormulaError Node :=
  let wrongNumber (expected : Arity) : Except FormulaError Node :=
    .error (.arity kind expected args.length)
  match kind, args with
  | .atom, predicate :: terms => .ok (.atom predicate terms)
  | .atom, [] => wrongNumber .atLeastOne
  | .and, parts => .ok (.and parts)
  | .or, parts => .ok (.or parts)
  | .not, [part] => .ok (.not part)
  | .not, _ => wrongNumber .one
  | .equals, [a, b] => .ok (.equals a b)
  | .equals, _ => wrongNumber .two
  | .imply, [a, b] => .ok (.imply a b)
  | .imply, _ => wrongNumber .two
  | .when, [a, b] => .ok (.when a b)
  | .when, _ => wrongNumber .two
  | .existential, [a, b] => .ok (.existential a b)
  | .existential, _ => wrongNumber .two
  | .universal, [a, b] => .ok (.universal a b)
  | .universal, _ => wrongNumber .two
  | .constant, _ | .variable, _ | .world, _ => .error (.misplaced kind .compound)

theorem kind_of_ofKind {kind : Kind} {args : List Key} {node : Node}
    (h : ofKind kind args = .ok node) : node.kind = kind := by
  unfold ofKind at h
  split at h <;> simp at h <;> subst h <;> rfl

theorem args_of_ofKind {kind : Kind} {args : List Key} {node : Node}
    (h : ofKind kind args = .ok node) : node.args = args := by
  unfold ofKind at h
  split at h <;> simp at h <;> subst h <;> rfl

/-- A compound node is determined by its kind and its arguments. -/
theorem ofKind_kind_args {node : Node} (h : (arity? node.kind).isSome) :
    ofKind node.kind node.args = .ok node := by
  cases node <;> simp [kind, args, arity?, ofKind] at h ⊢

end Node

end ClassicalPlanner
