import ClassicalPlanner.Session.Basic

/-!
# Printing expressions

Expressions are printed as the text they can be read from: `(op arg ...)`, an atom without an
operator, a grouped variable as `?v - group`, a binder in parentheses of its own.  A world is the
word `World:` and its atoms.

A chain of arguments meets each registered expression at most once unless it runs in a circle, so
the number of expressions bounds its length.
-/

namespace ClassicalPlanner

namespace Session

/-- Prints an expression; `depth` bounds the length of a chain of arguments. -/
def renderWithin (s : Session) : Nat → Key → Except FormulaError String
  | 0, key => .error (.circular key)
  | depth + 1, key => do
    match ← s.store.node key with
    | .constant symbol => s.word symbol
    | .variable symbol group =>
      let name ← s.word symbol
      if group = .none then pure name else return name ++ " - " ++ (← s.word group)
    | .world atoms =>
      return " ".intercalate ("World:" :: (← atoms.toList.mapM (s.renderWithin depth)))
    | node =>
      let args ← node.args.mapM (s.renderWithin depth)
      let args := if node.kind.isQuantifier then bracketFirst args else args
      return "(" ++ " ".intercalate (node.kind.operator?.toList ++ args) ++ ")"
where
  /-- A binder has parentheses of its own. -/
  bracketFirst : List String → List String
    | binder :: rest => ("(" ++ binder ++ ")") :: rest
    | [] => []

/-- The text of an expression. -/
def render (s : Session) (key : Key) : Except FormulaError String :=
  s.renderWithin (s.size + 1) key

end Session

end ClassicalPlanner
