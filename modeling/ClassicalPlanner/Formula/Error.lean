import ClassicalPlanner.Formula.Key

/-!
# Errors of the formula layer

One constructor per cause; `FormulaError.message` holds all wording.
-/

namespace ClassicalPlanner

/-- What an expression was used as when it was refused. -/
inductive Role where
  | condition
  | effect
  | quantifierVariable
  | world
  | compound
deriving DecidableEq, Repr

namespace Role

/-- The name of a role in messages. -/
def name : Role → String
  | condition => "condition"
  | effect => "effect"
  | quantifierVariable => "quantifier variable"
  | world => "world"
  | compound => "compound expression"

end Role

/-- How parentheses can fail to match. -/
inductive Imbalance where
  | unclosed
  | unopened
deriving DecidableEq, Repr

namespace Imbalance

/-- The reason given in messages. -/
def reason : Imbalance → String
  | unclosed => "unbalanced parentheses"
  | unopened => "unexpected `)`"

end Imbalance

/-- How many arguments a kind takes. -/
inductive Arity where
  | any
  | atLeastOne
  | one
  | two
deriving DecidableEq, Repr

namespace Arity

/-- Whether a number of arguments is allowed. -/
def allows : Arity → Nat → Bool
  | any, _ => true
  | atLeastOne, n => 1 ≤ n
  | one, n => n == 1
  | two, n => n == 2

/-- The number of arguments as messages say it. -/
def text : Arity → String
  | any => "any"
  | atLeastOne => "at least 1"
  | one => "1"
  | two => "2"

end Arity

/-- Why an operation on formulas fails. -/
inductive FormulaError where
  /-- The parentheses of `text` do not match. -/
  | unbalanced (text : String) (imbalance : Imbalance)
  | unknownSymbol (id : SymbolId)
  | unknownExpression (key : Key)
  | arity (kind : Kind) (expected : Arity) (actual : Nat)
  /-- An expression of this kind cannot be used in this role. -/
  | misplaced (kind : Kind) (role : Role)
  /-- The expressions below `key` go round in a circle. -/
  | circular (key : Key)
  /-- A counter of 32 bits has no number left. -/
  | outOfNumbers
deriving DecidableEq, Repr

namespace FormulaError

/-- The wording of an error. -/
def message : FormulaError → String
  | unbalanced text imbalance => "malformed formula `" ++ text ++ "`: " ++ imbalance.reason
  | unknownSymbol id => "unknown symbol id " ++ toString id.index.toNat
  | unknownExpression key => "unknown expression " ++ key.text
  | arity kind expected actual =>
    "`" ++ kind.name ++ "` takes " ++ expected.text ++ " argument(s), got " ++ toString actual
  | misplaced kind role => "`" ++ kind.name ++ "` cannot be used as a " ++ role.name
  | circular key => "circular expression " ++ key.text
  | outOfNumbers => "out of numbers"

end FormulaError

end ClassicalPlanner
