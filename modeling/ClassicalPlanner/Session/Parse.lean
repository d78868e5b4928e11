import ClassicalPlanner.Formula.Fragment
import ClassicalPlanner.Session.Basic

/-!
# Reading formulas

A reserved word in front of the arguments selects the kind of the formula, which otherwise is an
atom.  `?name` is a variable, `?name - group` a variable over a group, any other word a constant.
A formula that comes down to one variable, not under `not`, is that variable: so the binder
`(?v - group)` of a quantifier is read.  A formula without arguments is the empty conjunction.
-/

namespace ClassicalPlanner

namespace Session

/-- The name of a variable, if the fragment is one. -/
def variableWord? : Fragment → Option String
  | .word word => if word.toList.head? = some '?' then some word else none
  | .group _ _ => none

/-- Registers the formula of a kind over its arguments; `sawVariable` says that one of them was
written as a variable. -/
def addFormula (kind : Kind) (args : List Key) (sawVariable : Bool) : SessionM Key :=
  match kind, args with
  | .not, args => addCompound .not args
  | .atom, [] => addCompound .and []
  | kind, [arg] => if sawVariable then pure arg else addCompound kind [arg]
  | kind, args => addCompound kind args

mutual

/-- Registers one fragment: a word is a constant, a group a formula. -/
def addFragment : Fragment → SessionM Key
  | .word word => addConstant word
  | .group _ (.word word :: rest) => do
    match Kind.ofOperator? word with
    | some kind =>
      let (args, sawVariable) ← addArguments rest
      addFormula kind args sawVariable
    | none =>
      let (args, sawVariable) ← addArguments (.word word :: rest)
      addFormula .atom args sawVariable
  | .group _ parts => do
    let (args, sawVariable) ← addArguments parts
    addFormula .atom args sawVariable
termination_by structural fragment => fragment

/-- Registers arguments from left to right, and tells whether one is written as a variable. -/
def addArguments : List Fragment → SessionM (List Key × Bool)
  | [] => pure ([], false)
  | fragment :: rest => do
    match variableWord? fragment, rest with
    | some name, .word "-" :: group :: rest =>
      let arg ← addVariable name group.text
      let (args, _) ← addArguments rest
      return (arg :: args, true)
    | some name, [.word "-"] =>
      let arg ← addVariable name ""
      return ([arg], true)
    | some name, rest =>
      let arg ← addVariable name ""
      let (args, _) ← addArguments rest
      return (arg :: args, true)
    | none, rest =>
      let arg ← addFragment fragment
      let (args, sawVariable) ← addArguments rest
      return (arg :: args, sawVariable)
termination_by structural fragments => fragments

end

/-- Reads a formula. -/
def parse (text : String) : SessionM Key :=
  match Fragment.ofFormula text with
  | .ok fragments => addFragment (.group text fragments)
  | .error imbalance => throw (.unbalanced text imbalance)

/-- Installs groups and registers the world in which the given atoms hold. -/
def makeWorld (atoms : List String) (groups : List (String × List String)) : SessionM World := do
  setGroups groups
  let keys ← atoms.mapM parse
  addWorld (.ofList keys)

end Session

end ClassicalPlanner
