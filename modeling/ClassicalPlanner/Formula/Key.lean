import Std.Data.ExtTreeSet
import ClassicalPlanner.Symbol
import ClassicalPlanner.Formula.Kind

/-!
# Keys

A key names one registered expression.  It is a 64-bit word: the high half is the tag of the
kind, the low half an index.  Keys are ordered as these words are, and sets of atoms are listed in
that order.
-/

namespace ClassicalPlanner

/-- The name of a registered expression. -/
structure Key where
  tag : UInt32
  index : UInt32
deriving DecidableEq, Repr, Inhabited

namespace Key

instance : Ord Key := ⟨compareLex (compareOn tag) (compareOn index)⟩

instance : Std.TransOrd Key :=
  inferInstanceAs (Std.TransCmp (compareLex (compareOn tag) (compareOn index)))

instance : Std.LawfulEqOrd Key where
  eq_of_compare {a b} h := by
    obtain ⟨ht, hi⟩ := compareLex_eq_eq.mp h
    have ht : a.tag = b.tag := Std.LawfulEqOrd.eq_of_compare ht
    have hi : a.index = b.index := Std.LawfulEqOrd.eq_of_compare hi
    cases a; cases b; simp_all

/-- The key of the expression of a kind with an index. -/
def ofKind (kind : Kind) (index : UInt32) : Key := ⟨kind.tag, index⟩

/-- The key of an ungrouped variable is its symbol, under no tag. -/
def ofSymbol (symbol : SymbolId) : Key := ⟨0, symbol.index⟩

/-- The key as one number. -/
def toNat (key : Key) : Nat := key.tag.toNat * UInt32.size + key.index.toNat

/-- The key with a number, taken modulo `2 ^ 64`. -/
def ofNat (n : Nat) : Key := ⟨UInt32.ofNat (n / UInt32.size), UInt32.ofNat n⟩

/-- A key is shown as `#` and its number in lowercase hexadecimal. -/
def text (key : Key) : String := "#" ++ String.ofList (Nat.toDigits 16 key.toNat)

end Key

/-- A set of atoms, listed in the order of keys. -/
abbrev AtomSet := Std.ExtTreeSet Key

/-- The key of a set of atoms that hold together. -/
structure World where
  key : Key
deriving DecidableEq, Repr, Inhabited

namespace World

instance : Ord World := ⟨compareOn key⟩

instance : Std.TransOrd World := inferInstanceAs (Std.TransCmp (compareOn key))

instance : Std.LawfulEqOrd World where
  eq_of_compare {a b} h := by
    have : a.key = b.key := Std.LawfulEqOrd.eq_of_compare h
    cases a; cases b; simp_all

end World

end ClassicalPlanner
