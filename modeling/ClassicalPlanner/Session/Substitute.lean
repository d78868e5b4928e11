import ClassicalPlanner.Session.Basic

/-!
# Substitution

Replacing a symbol puts a constant for every constant and every ungrouped variable of that name.
Grouped variables, worlds and the binder of a quantifier stay as they are; the body of a quantifier
does not, even when the quantifier binds the same name.  An expression in which nothing changes
keeps its key.
-/

namespace ClassicalPlanner

namespace Session

/-- A bound on the length of a chain of arguments: it meets no registered expression twice. -/
def depth : StateM Session Nat := return (← get).size + 1

/-- Replaces `old` by `new`; `depth` bounds the length of a chain of arguments. -/
def substituteWithin (old new : SymbolId) : Nat → Key → SessionM Key
  | 0, key => throw (.circular key)
  | depth + 1, key => do
    match ← node key with
    | .constant symbol => if symbol = old then addConstantOf new else pure key
    | .variable symbol group =>
      if group = .none ∧ symbol = old then addConstantOf new else pure key
    | .world _ => pure key
    | .existential binder body =>
      rebuild key .existential [binder, body] [binder, ← substituteWithin old new depth body]
    | .universal binder body =>
      rebuild key .universal [binder, body] [binder, ← substituteWithin old new depth body]
    | node =>
      rebuild key node.kind node.args (← node.args.mapM (substituteWithin old new depth))
where
  /-- The compound with new arguments, which is the old one if no argument has changed. -/
  rebuild (key : Key) (kind : Kind) (before after : List Key) : SessionM Key :=
    if after = before then pure key else addCompound kind after

/-- The expression with the constant `new` for `old`. -/
def substitute (key : Key) (old new : SymbolId) : SessionM Key := do
  substituteWithin old new (← depth) key

/-- Replaces several symbols, one after the other. -/
def substituteAll (key : Key) (bindings : List (SymbolId × SymbolId)) : SessionM Key :=
  bindings.foldlM (fun key (old, new) => substitute key old new) key

/-- The bodies that a quantifier stands for: one for each member of its binder's group. -/
def instances (binder body : Key) : SessionM (List Key) := do
  match ← node binder with
  | .variable symbol group =>
    let members := (← get).members group
    members.mapM (substitute body symbol ·)
  | other => throw (.misplaced other.kind .quantifierVariable)

end Session

end ClassicalPlanner
