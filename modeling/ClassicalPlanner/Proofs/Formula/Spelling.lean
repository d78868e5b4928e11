import ClassicalPlanner.Proofs.Formula.Fragment
import ClassicalPlanner.Proofs.Tree.Basic
import Mathlib.Order.Basic

/-!
# Words and their numbers

A table of words only grows: a number goes on standing for its word (`SymbolTable.Extends`).  Every
number that is looked up stands for some word.  It stands for the word it was looked up for as long
as there are no more words than numbers (`SymbolTable.Sound`).

Formulas that are read from text are `Spelled`: the words of their variables start with `?`, those
of their constants do not, groups go by what was written for them, and no atom opens with a reserved
word.
-/

namespace ClassicalPlanner

namespace SymbolTable

variable {t t' : SymbolTable} {word : String} {i : SymbolId}

/-! ### Growth -/

/-- The table `t'` has the words of `t`, under the same numbers. -/
structure Extends (t t' : SymbolTable) : Prop where
  words : ∀ {i word}, t.word? i = some word → t'.word? i = some word
  size : t.size ≤ t'.size

instance : LE SymbolTable := ⟨Extends⟩

instance : Preorder SymbolTable where
  le_refl _ := ⟨id, Nat.le_refl _⟩
  le_trans _ _ _ h h' := ⟨fun hw => h'.words (h.words hw), Nat.le_trans h.size h'.size⟩

/-- There is a number for every word. -/
def Enough (t : SymbolTable) : Prop := t.size ≤ UInt32.size

instance (t : SymbolTable) : Decidable t.Enough := inferInstanceAs (Decidable (_ ≤ _))

theorem Enough.of_le (h : t'.Enough) (grow : t ≤ t') : t.Enough :=
  Nat.le_trans grow.size h

/-! ### Soundness -/

/-- Numbers that are looked up stand for words, and for the right ones if there are enough. -/
structure Sound (t : SymbolTable) : Prop where
  numbered : ∀ {word i}, t.find? word = some i → ∃ word', t.word? i = some word'
  faithful : t.Enough → ∀ {word i}, t.find? word = some i → t.word? i = some word
  found : t.Enough → ∀ {word i}, t.word? i = some word → t.find? word = some i
  unnamed : t.word? .none = some ""

theorem find?_empty (word : String) : find? ∅ word = if "" = word then some .none else none := by
  change (Std.ExtTreeMap.insert ∅ "" SymbolId.none)[word]? = _
  rw [Std.ExtTreeMap.getElem?_insert]
  simp only [Std.LawfulEqOrd.compare_eq_iff_eq, Std.ExtTreeMap.getElem?_empty]

theorem sound_empty : Sound ∅ := by
  have only {word : String} {i : SymbolId} (h : find? ∅ word = some i) :
      word? ∅ i = some word := by
    rw [find?_empty] at h
    split at h
    · rename_i same
      cases same
      cases h
      rfl
    · cases h
  refine ⟨fun h => ⟨_, only h⟩, fun _ _ _ h => only h, fun _ word i h => ?_, rfl⟩
  obtain ⟨first, rfl⟩ := Array.getElem?_eq_some_iff.mp h
  have first : i.index.toNat = 0 := Nat.lt_one_iff.mp first
  obtain rfl : i = .none := congrArg SymbolId.mk (UInt32.toNat_inj.mp first)
  exact find?_empty ""

theorem intern_of_find? (h : t.find? word = some i) : t.intern word = (i, t) := by
  unfold intern
  rw [h]

/-- A new word, and the number that it gets. -/
theorem intern_new (h : t.find? word = none) :
    (t.intern word).1 = ⟨UInt32.ofNat t.size⟩ ∧
      (∀ word', (t.intern word).2.find? word' =
        if word = word' then some ⟨UInt32.ofNat t.size⟩ else t.find? word') ∧
      (∀ i : SymbolId, (t.intern word).2.word? i =
        if i.index.toNat = t.size then some word else t.word? i) ∧
      (t.intern word).2.size = t.size + 1 := by
  unfold intern
  rw [h]
  refine ⟨rfl, fun word' => ?_, fun i => ?_, Array.size_push _⟩
  · change (t.ids.insert word _)[word']? = _
    rw [Std.ExtTreeMap.getElem?_insert]
    simp only [Std.LawfulEqOrd.compare_eq_iff_eq]
    rfl
  · exact Array.getElem?_push

theorem le_intern (t : SymbolTable) (word : String) : t ≤ (t.intern word).2 := by
  cases found : t.find? word with
  | some i => rw [intern_of_find? found]
  | none =>
      obtain ⟨-, -, words, size⟩ := intern_new found
      refine ⟨fun {i word'} h => ?_, by omega⟩
      rw [words, if_neg]
      · exact h
      · intro beyond
        have absent : t.word? i = none := by
          unfold word?
          rw [beyond]
          exact Array.getElem?_size
        cases absent.symm.trans h

/-- Looking a word up finds the number that it was given. -/
theorem find?_intern (t : SymbolTable) (word : String) :
    (t.intern word).2.find? word = some (t.intern word).1 := by
  cases found : t.find? word with
  | some i => rw [intern_of_find? found]; exact found
  | none =>
      obtain ⟨number, find, -, -⟩ := intern_new found
      rw [find, if_pos rfl, number]

theorem Sound.intern (h : t.Sound) (word : String) : (t.intern word).2.Sound := by
  have grow := t.le_intern word
  cases found : t.find? word with
  | some i => rw [intern_of_find? found]; exact h
  | none =>
      obtain ⟨-, find, words, size⟩ := intern_new found
      have numbers : (t.intern word).2.Enough → ∀ {word' i},
          (t.intern word).2.word? i = some word' → (t.intern word).2.find? word' = some i := by
        intro enough word' i h'
        rw [words] at h'
        rw [find]
        split at h'
        · rename_i last
          cases h'
          rw [if_pos rfl, ← last, UInt32.ofNat_toNat]
        · have old := h.found (enough.of_le grow) h'
          rw [if_neg]
          · exact old
          · rintro rfl
            cases found.symm.trans old
      refine ⟨fun {word' i} h' => ?_, fun enough word' i h' => ?_, numbers,
        grow.words h.unnamed⟩ <;> rw [find] at h' <;> split at h'
      · cases h'
        -- when the numbers have run out, the number wraps round to that of another word
        have small : (UInt32.ofNat t.size).toNat ≤ t.words.size := by
          rw [UInt32.toNat_ofNat']
          exact Nat.mod_le _ _
        rw [words]
        split
        · exact ⟨word, rfl⟩
        · rename_i other
          exact ⟨_, Array.getElem?_eq_getElem (Nat.lt_of_le_of_ne small other)⟩
      · obtain ⟨word'', h''⟩ := h.numbered h'
        exact ⟨word'', grow.words h''⟩
      · rename_i same
        cases same
        cases h'
        have small : t.size < UInt32.size := by
          rw [Enough, size] at enough
          exact enough
        rw [words, if_pos]
        exact UInt32.toNat_ofNat_of_lt' small
      · exact grow.words (h.faithful (enough.of_le grow) h')

/-- The number of a word that has just been looked up stands for a word. -/
theorem Sound.exists_word (h : t.Sound) (word : String) :
    ∃ word', (t.intern word).2.word? (t.intern word).1 = some word' :=
  (h.intern word).numbered (t.find?_intern word)

theorem Sound.word?_intern (h : t.Sound) (word : String) (enough : (t.intern word).2.Enough) :
    (t.intern word).2.word? (t.intern word).1 = some word :=
  (h.intern word).faithful enough (t.find?_intern word)

/-- A word has one number. -/
theorem Sound.word?_injective {j : SymbolId} (h : t.Sound) (enough : t.Enough)
    (hi : t.word? i = some word) (hj : t.word? j = some word) : i = j :=
  Option.some.inj ((h.found enough hi).symm.trans (h.found enough hj))

end SymbolTable

/-! ### Spelled formulas -/

open Text

/-- Constants and variables are words, and it is the variables that start with `?`.  A group goes by
the text of a fragment, and an atom does not open with a reserved word. -/
inductive Tree.Spelled (words : SymbolTable) : Tree → Prop where
  | constant {c : SymbolId} {word : String} (h : words.word? c = some word)
      (whole : Word word.toList) (plain : word.toList.head? ≠ some '?') :
      Spelled words (.constant c)
  | var {v g : SymbolId} {word : String} (h : words.word? v = some word) (whole : Word word.toList)
      (marked : word.toList.head? = some '?')
      (ranges : g = .none ∨ ∃ f : Fragment, f.Proper ∧ words.word? g = some f.text) :
      Spelled words (.var v g)
  | compound {kind : Kind} {args : List Tree} (h : ∀ t ∈ args, Spelled words t)
      (opens : kind = .atom → ∀ c, args.head? = some (.constant c) →
        ∃ word, words.word? c = some word ∧ Kind.ofOperator? word = none) :
      Spelled words (.compound kind args)

theorem Tree.Spelled.args {words : SymbolTable} {kind : Kind} {args : List Tree}
    (h : (Tree.compound kind args).Spelled words) : ∀ t ∈ args, t.Spelled words := by
  cases h with
  | compound h _ => exact h

theorem Tree.Spelled.mono {t : Tree} {words words' : SymbolTable} (h : t.Spelled words)
    (grow : words ≤ words') : t.Spelled words' := by
  induction h with
  | constant h whole plain => exact .constant (grow.words h) whole plain
  | var h whole marked ranges =>
      exact .var (grow.words h) whole marked
        (ranges.imp_right fun ⟨f, proper, found⟩ => ⟨f, proper, grow.words found⟩)
  | compound _ opens ih =>
      refine .compound ih fun atom c first => ?_
      obtain ⟨word, found, free⟩ := opens atom c first
      exact ⟨word, grow.words found, free⟩

end ClassicalPlanner
