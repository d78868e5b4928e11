import ClassicalPlanner.Proofs.Formula.Spelling
import Mathlib.Data.Finset.Card

/-!
# Tables of words over time

A table is asked for the numbers of words, and reset any number of times in between.
`History.after calls` is the table that such calls leave, and beside it the words asked for since it
was last reset, each with the number given.

The words of the table are those asked for and the empty one, and there are as many as numbers
(`Faithful`).  So as long as there are enough numbers, words and numbers go with each other one to
one, and asking for more words changes nothing for those that are there (`numbers_stand_for_words`).
-/

namespace ClassicalPlanner.SymbolTable

variable {t : SymbolTable} {word word' : String} {i : SymbolId}

/-- A word keeps its number when another one is asked for. -/
theorem find?_intern_of_find? (h : t.find? word = some i) :
    (t.intern word').2.find? word = some i := by
  cases found : t.find? word' with
  | some j =>
      rw [intern_of_find? found]
      exact h
  | none =>
      obtain ⟨-, find, -, -⟩ := intern_new found
      rw [find, if_neg]
      · exact h
      · rintro rfl
        cases found.symm.trans h

/-- The numbers of words are those below their number. -/
theorem exists_word?_iff : (∃ word, t.word? i = some word) ↔ i.index.toNat < t.size := by
  simp only [word?, Array.getElem?_eq_some_iff]
  exact ⟨fun ⟨_, below, _⟩ => below, fun below => ⟨_, below, rfl⟩⟩

/-! ### Histories -/

/-- A word is asked for, or the table is reset. -/
inductive Call where
  | intern (word : String)
  | reset
deriving DecidableEq

/-- A table, and the words asked for since it was last reset, with the numbers given. -/
structure History where
  table : SymbolTable := ∅
  given : List (String × SymbolId) := []

namespace History

variable {h : History}

/-- One call after a history. -/
def step (h : History) : Call → History
  | .reset => {}
  | .intern word =>
    { table := (h.table.intern word).2, given := h.given ++ [(word, (h.table.intern word).1)] }

/-- All calls, from the table that knows the empty word only. -/
def after (calls : List Call) : History := calls.foldl step {}

/-- The words asked for, and the empty one. -/
def words (h : History) : Finset String := insert "" (h.given.map Prod.fst).toFinset

theorem words_intern (h : History) (word : String) :
    (h.step (.intern word)).words = insert word h.words := by
  unfold words step
  rw [List.map_append, List.toFinset_append, Finset.insert_comm]
  simp [Finset.union_comm]

/-- The words asked for are in the table, once and under the numbers given, and no others are. -/
structure Faithful (h : History) : Prop where
  sound : h.table.Sound
  known : ∀ {word}, (∃ i, h.table.find? word = some i) ↔ word ∈ h.words
  given : ∀ {word i}, (word, i) ∈ h.given → h.table.find? word = some i
  size : h.table.size = h.words.card

theorem faithful_empty : Faithful {} where
  sound := sound_empty
  known {word} := by
    change (∃ i, find? ∅ word = some i) ↔ word ∈ ({""} : Finset String)
    rw [find?_empty, Finset.mem_singleton]
    by_cases same : "" = word
    · simp [same]
    · simp [same, Ne.symm same]
  given mem := absurd mem List.not_mem_nil
  size := rfl

theorem Faithful.intern (hh : h.Faithful) (word : String) : (h.step (.intern word)).Faithful where
  sound := hh.sound.intern word
  known {word'} := by
    rw [words_intern, Finset.mem_insert, ← hh.known]
    change (∃ i, (h.table.intern word).2.find? word' = some i) ↔ _
    constructor
    · rintro ⟨i, hi⟩
      cases found : h.table.find? word with
      | some j =>
          rw [intern_of_find? found] at hi
          exact .inr ⟨i, hi⟩
      | none =>
          rw [(intern_new found).2.1] at hi
          split at hi
          · exact .inl (Eq.symm ‹_›)
          · exact .inr ⟨i, hi⟩
    · rintro (rfl | ⟨i, hi⟩)
      · exact ⟨_, find?_intern _ _⟩
      · exact ⟨i, find?_intern_of_find? hi⟩
  given {word' i} mem := by
    rcases List.mem_append.mp mem with old | new
    · exact find?_intern_of_find? (hh.given old)
    · cases List.mem_singleton.mp new
      exact find?_intern _ _
  size := by
    rw [words_intern]
    change (h.table.intern word).2.size = _
    cases found : h.table.find? word with
    | some j => rw [intern_of_find? found, Finset.insert_eq_of_mem (hh.known.mp ⟨j, found⟩), hh.size]
    | none =>
        have new : word ∉ h.words := fun mem => by
          obtain ⟨j, hj⟩ := hh.known.mpr mem
          cases found.symm.trans hj
        rw [(intern_new found).2.2.2, Finset.card_insert_of_notMem new, hh.size]

theorem Faithful.step (hh : h.Faithful) : (call : Call) → (h.step call).Faithful
  | .reset => faithful_empty
  | .intern word => hh.intern word

/-- **Every history is faithful**, by induction on its calls. -/
theorem faithful_after (calls : List Call) : (after calls).Faithful := by
  have run : ∀ {h : History}, h.Faithful → (calls.foldl History.step h).Faithful := by
    induction calls with
    | nil => exact id
    | cons call calls ih => exact fun hh => ih (hh.step call)
  exact run faithful_empty

/-- A new word gets the next number. -/
theorem Faithful.intern_fresh (hh : h.Faithful) (new : word ∉ h.words)
    (room : h.words.card < UInt32.size) :
    (h.table.intern word).1.index.toNat = h.table.size ∧
      (h.table.intern word).2.size = h.table.size + 1 := by
  have absent : h.table.find? word = none := by
    rw [Option.eq_none_iff_forall_ne_some]
    exact fun i hi => new (hh.known.mp ⟨i, hi⟩)
  obtain ⟨number, -, -, size⟩ := intern_new absent
  refine ⟨?_, size⟩
  rw [number]
  exact UInt32.toNat_ofNat_of_lt' (hh.size ▸ room)

/-- **Numbers stand for words**, and words have numbers.  Take any calls after which there are no
more words than numbers of 32 bits: the words asked for since the table was last reset, and the
empty one.  These words and the numbers below their number go with each other one to one, the empty
word with 0, and each word with the number that was given for it, whenever that was.

To ask for a word that is there changes nothing.  A new word gets the next number.  In both cases
the words that are there and their numbers stay. -/
theorem numbers_stand_for_words {calls : List Call} (reached : after calls = h)
    (few : h.words.card ≤ UInt32.size) :
    (∀ word i, h.table.find? word = some i ↔ h.table.word? i = some word) ∧
    (∀ word, (∃ i, h.table.find? word = some i) ↔ word = "" ∨ ∃ i, (word, i) ∈ h.given) ∧
    (∀ i, (∃ word, h.table.word? i = some word) ↔ i.index.toNat < h.table.size) ∧
    h.table.size = h.words.card ∧
    h.table.find? "" = some .none ∧
    (∀ word i, (word, i) ∈ h.given → h.table.find? word = some i) ∧
    ∀ word,
      (word ∈ h.words → (h.table.intern word).2 = h.table ∧
        h.table.find? word = some (h.table.intern word).1) ∧
      (word ∉ h.words → h.words.card < UInt32.size →
        (h.table.intern word).1.index.toNat = h.table.size ∧
        (h.table.intern word).2.size = h.table.size + 1 ∧
        (h.table.intern word).2.find? word = some (h.table.intern word).1) ∧
      ∀ word' i, h.table.find? word' = some i →
        (h.table.intern word).2.find? word' = some i ∧
        (h.table.intern word).2.word? i = some word' := by
  have hh : h.Faithful := reached ▸ faithful_after calls
  have enough : h.table.Enough := hh.size.trans_le few
  refine ⟨fun word i => ⟨hh.sound.faithful enough, hh.sound.found enough⟩, fun word => ?_,
    fun i => exists_word?_iff, hh.size, hh.sound.found enough hh.sound.unnamed,
    fun word i => hh.given, fun word => ⟨fun there => ?_, fun new room => ?_, fun word' i hi => ?_⟩⟩
  · rw [hh.known, words, Finset.mem_insert, List.mem_toFinset, List.mem_map]
    simp
  · obtain ⟨i, hi⟩ := hh.known.mpr there
    rw [intern_of_find? hi]
    exact ⟨rfl, hi⟩
  · obtain ⟨number, size⟩ := hh.intern_fresh new room
    exact ⟨number, size, find?_intern _ _⟩
  · exact ⟨find?_intern_of_find? hi,
      (h.table.le_intern word).words (hh.sound.faithful enough hi)⟩

/-- Three words are asked for after a reset, one of them twice, and one of them is empty. -/
def moves : List Call :=
  [.intern "on", .intern "clear", .reset, .intern "a", .intern "", .intern "on", .intern "a"]

theorem numbers_stand_for_words_moves :
    (after moves).given = [("a", ⟨1⟩), ("", ⟨0⟩), ("on", ⟨2⟩), ("a", ⟨1⟩)] ∧
    (after moves).table.word? ⟨2⟩ = some "on" ∧
    (∀ i, (after moves).table.find? "clear" ≠ some i) ∧
    (∃ word, (after moves).table.word? ⟨2⟩ = some word) ∧
    ((after moves).table.intern "clear").1.index.toNat = 3 ∧
    ((after moves).table.intern "clear").2.find? "on" = some ⟨2⟩ := by
  have given : (after moves).given = [("a", ⟨1⟩), ("", ⟨0⟩), ("on", ⟨2⟩), ("a", ⟨1⟩)] := by
    decide
  have words : (after moves).words.card = 3 := by decide
  obtain ⟨pairs, known, numbers, size, -, kept, next⟩ :=
    numbers_stand_for_words (h := after moves) rfl (words.trans_le (by decide))
  have on : (after moves).table.find? "on" = some ⟨2⟩ := kept "on" ⟨2⟩ (by rw [given]; decide)
  obtain ⟨-, new, stays⟩ := next "clear"
  refine ⟨given, (pairs "on" ⟨2⟩).mp on, fun i hi => ?_, (numbers ⟨2⟩).mpr ?_, ?_,
    (stays "on" ⟨2⟩ on).1⟩
  · rcases (known "clear").mp ⟨i, hi⟩ with empty | ⟨j, mem⟩
    · exact absurd empty (by decide)
    · rw [given] at mem
      simp at mem
  · rw [size, words]
    decide
  · have first := (new (by decide) (words.trans_lt (by decide))).1
    rw [first, size, words]

end History

end ClassicalPlanner.SymbolTable
