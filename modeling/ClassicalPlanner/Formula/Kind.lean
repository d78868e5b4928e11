/-!
# Kinds of expressions

Twelve kinds: two leaves, nine compounds (the atom and eight with a reserved leading word), and
the world.
-/

namespace ClassicalPlanner

/-- What an expression is, its arguments left out. -/
inductive Kind where
  | constant
  | variable
  | atom
  | and
  | or
  | not
  | equals
  | imply
  | when
  | existential
  | universal
  | world
deriving DecidableEq, Repr, Inhabited

namespace Kind

/-- The bit that marks a kind in a key. -/
def tag : Kind → UInt32
  | .constant => 0x1
  | .variable => 0x2
  | .atom => 0x4
  | .and => 0x8
  | .or => 0x10
  | .not => 0x20
  | .equals => 0x40
  | .imply => 0x80
  | .when => 0x100
  | .existential => 0x200
  | .universal => 0x400
  | .world => 0x8000

/-- The reserved word that opens a formula of this kind. -/
def operator? : Kind → Option String
  | .and => some "and"
  | .or => some "or"
  | .not => some "not"
  | .equals => some "="
  | .imply => some "imply"
  | .when => some "when"
  | .existential => some "exists"
  | .universal => some "forall"
  | .constant | .variable | .atom | .world => none

/-- The kind that a reserved word opens. -/
def ofOperator? : String → Option Kind
  | "and" => some .and
  | "or" => some .or
  | "not" => some .not
  | "=" => some .equals
  | "imply" => some .imply
  | "when" => some .when
  | "exists" => some .existential
  | "forall" => some .universal
  | _ => none

/-- The name of a kind in messages. -/
def name : Kind → String
  | .constant => "constant"
  | .variable => "variable"
  | .atom => "atom"
  | .and => "and"
  | .or => "or"
  | .not => "not"
  | .equals => "="
  | .imply => "imply"
  | .when => "when"
  | .existential => "exists"
  | .universal => "forall"
  | .world => "world"

/-- Quantifiers bind their first argument. -/
def isQuantifier : Kind → Bool
  | .existential | .universal => true
  | _ => false

theorem ofOperator?_eq_some_iff {word : String} {kind : Kind} :
    ofOperator? word = some kind ↔ kind.operator? = some word := by
  constructor
  · intro h
    unfold ofOperator? at h
    split at h <;> simp_all [operator?]
    all_goals subst h; rfl
  · intro h
    cases kind <;> simp [operator?] at h <;> subst h <;> rfl

end Kind

end ClassicalPlanner
