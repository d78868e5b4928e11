import ClassicalPlanner.Session.Substitute

/-!
# Truth of conditions

`evaluate` decides a condition in a world.  `laxEvaluate` decides whether it may hold in some world
between two bounds: an atom is looked up in the upper one, and negation and the antecedent of an
implication swap the two.  Both look at arguments from left to right and stop as soon as the answer
is known.  A quantifier ranges over the members of its binder's group.
-/

namespace ClassicalPlanner

namespace Session

/-- Decides a condition in a world; `depth` bounds the length of a chain of arguments. -/
def evaluateWithin (world : World) : Nat → Key → SessionM Bool
  | 0, key => throw (.circular key)
  | depth + 1, key => do
    match ← node key with
    | .atom _ _ => holds world key
    | .and parts => parts.allM (evaluateWithin world depth)
    | .or parts => parts.anyM (evaluateWithin world depth)
    | .not part => return !(← evaluateWithin world depth part)
    | .equals left right => return left == right
    | .imply antecedent consequent =>
      if ← evaluateWithin world depth antecedent then evaluateWithin world depth consequent
      else pure true
    | .existential binder body => do
      (← instances binder body).anyM (evaluateWithin world depth)
    | .universal binder body => do
      (← instances binder body).allM (evaluateWithin world depth)
    | other => throw (.misplaced other.kind .condition)

/-- Whether a condition holds in a world. -/
def evaluate (key : Key) (world : World) : SessionM Bool := do
  evaluateWithin world (← depth) key

/-- Decides a condition between two worlds; `depth` bounds the length of a chain of arguments. -/
def laxEvaluateWithin : Nat → Key → World → World → SessionM Bool
  | 0, key, _, _ => throw (.circular key)
  | depth + 1, key, upper, lower => do
    match ← node key with
    | .atom _ _ => holds upper key
    | .and parts => parts.allM (laxEvaluateWithin depth · upper lower)
    | .or parts => parts.anyM (laxEvaluateWithin depth · upper lower)
    | .not part => return !(← laxEvaluateWithin depth part lower upper)
    | .equals left right => return left == right
    | .imply antecedent consequent =>
      if ← laxEvaluateWithin depth antecedent lower upper then
        laxEvaluateWithin depth consequent upper lower
      else pure true
    | .existential binder body => do
      (← instances binder body).anyM (laxEvaluateWithin depth · upper lower)
    | .universal binder body => do
      (← instances binder body).allM (laxEvaluateWithin depth · upper lower)
    | other => throw (.misplaced other.kind .condition)

/-- Whether a condition may hold in a world between `lower` and `upper`. -/
def laxEvaluate (key : Key) (upper lower : World) : SessionM Bool := do
  laxEvaluateWithin (← depth) key upper lower

end Session

end ClassicalPlanner
