import Std.Data.ExtTreeMap

/-!
# Symbols

Words of formulas (predicates, objects, variables, group names) are numbered densely in the order
in which they are first seen.  Symbol 0 is the empty word: as a variable's group it says "any
object", as a group it names the set of all objects.
-/

namespace ClassicalPlanner

/-- The number of a word in a `SymbolTable`. -/
structure SymbolId where
  index : UInt32
deriving DecidableEq, Repr, Inhabited

namespace SymbolId

/-- The empty word. -/
def none : SymbolId := ⟨0⟩

instance : Ord SymbolId := ⟨compareOn index⟩

instance : Std.TransOrd SymbolId := inferInstanceAs (Std.TransCmp (compareOn index))

instance : Std.LawfulEqOrd SymbolId where
  eq_of_compare {a b} h := by
    have : a.index = b.index := Std.LawfulEqOrd.eq_of_compare h
    cases a; cases b; simp_all

end SymbolId

/-- Words and their numbers; `words[i]` is the word of symbol `i`. -/
structure SymbolTable where
  words : Array String := #[""]
  ids : Std.ExtTreeMap String SymbolId := (∅ : Std.ExtTreeMap String SymbolId).insert "" .none
deriving DecidableEq

namespace SymbolTable

/-- The table that knows the empty word only. -/
instance : EmptyCollection SymbolTable := ⟨{}⟩

instance : Inhabited SymbolTable := ⟨∅⟩

/-- The number of words, the empty one included. -/
def size (t : SymbolTable) : Nat := t.words.size

/-- Whether only the empty word is known. -/
def isEmpty (t : SymbolTable) : Bool := t.size ≤ 1

/-- The number of a word that has been seen. -/
def find? (t : SymbolTable) (word : String) : Option SymbolId := t.ids[word]?

/-- The word with a number. -/
def word? (t : SymbolTable) (id : SymbolId) : Option String := t.words[id.index.toNat]?

/-- The number of `word`; a word seen for the first time gets the next one. -/
def intern (t : SymbolTable) (word : String) : SymbolId × SymbolTable :=
  match t.find? word with
  | some id => (id, t)
  | none =>
    let id : SymbolId := ⟨UInt32.ofNat t.size⟩
    (id, { words := t.words.push word, ids := t.ids.insert word id })

end SymbolTable

end ClassicalPlanner
