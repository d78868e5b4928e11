import ClassicalPlanner.Proofs.Formula.Spelling
import ClassicalPlanner.Proofs.Text.Flatten

/-!
# Printed formulas

`Tree.fragments words t` are the fragments that the expression `t` is printed as, the words of its
symbols being those in the table: one for a constant or a compound, one or three for a variable.
The fragments of a spelled tree are such that some text has them (`Tree.Spelled.proper_fragments`),
and their text, with a space between each two, is made of just these fragments
(`Fragment.written_joined`).
-/

namespace ClassicalPlanner

open Text

namespace Fragment

variable {f : Fragment} {fs gs : List Fragment}

/-! ### Fragments on one line -/

/-- The text of fragments, with a space between each two. -/
def joined (fs : List Fragment) : String := " ".intercalate (fs.map text)

/-- The group of fragments. -/
def ofParts (parts : List Fragment) : Fragment := .group (joined parts) parts

@[simp] theorem joined_singleton (f : Fragment) : joined [f] = f.text :=
  String.intercalate_singleton

theorem joined_append (hf : fs ≠ []) (hg : gs ≠ []) :
    joined (fs ++ gs) = joined fs ++ " " ++ joined gs := by
  have cons (f : Fragment) {gs : List Fragment} (hg : gs ≠ []) :
      joined (f :: gs) = f.text ++ " " ++ joined gs := by
    obtain ⟨g, gs, rfl⟩ := List.exists_cons_of_ne_nil hg
    exact String.intercalate_cons_cons
  induction fs with
  | nil => exact absurd rfl hf
  | cons f fs ih =>
      cases fs with
      | nil => rw [List.singleton_append, cons f hg, joined_singleton]
      | cons f' fs =>
          rw [List.cons_append, cons f (by simp), ih (by simp), cons f (by simp)]
          simp only [String.append_assoc]

theorem joined_grouped (word : String) (f : Fragment) :
    joined [.word word, .word "-", f] = word ++ " - " ++ f.text := by
  have dash : " - " = " " ++ ("-" ++ " ") := rfl
  rw [← List.singleton_append, joined_append (by simp) (by simp),
    ← List.singleton_append (x := Fragment.word "-"), joined_append (by simp) (by simp), dash]
  simp only [joined_singleton, text, String.append_assoc]

/-- The text of lists of fragments, one after the other. -/
theorem joined_flatten {units : List (List Fragment)} (h : ∀ unit ∈ units, unit ≠ []) :
    joined units.flatten = " ".intercalate (units.map joined) := by
  induction units with
  | nil => rfl
  | cons unit units ih =>
      obtain ⟨some, h⟩ := List.forall_mem_cons.mp h
      cases units with
      | nil => simp
      | cons unit' units =>
          have more : (unit' :: units).flatten ≠ [] := by
            simp [h unit' List.mem_cons_self]
          rw [List.flatten_cons, joined_append some more, ih h, List.map_cons, List.map_cons]
          exact String.intercalate_cons_cons.symm

/-- **The text of fragments** is made of these fragments. -/
theorem written_joined (h : ∀ f ∈ fs, f.Proper) : Written (joined fs).toList fs := by
  induction fs with
  | nil => exact .nil
  | cons f fs ih =>
      obtain ⟨hf, h⟩ := List.forall_mem_cons.mp h
      cases fs with
      | nil =>
          rw [joined_singleton]
          exact hf.written
      | cons f' fs =>
          have whole : (joined (f :: f' :: fs)).toList =
              f.text.toList ++ ' ' :: (joined (f' :: fs)).toList := by
            rw [← List.singleton_append (x := f), joined_append (by simp) (by simp)]
            simp
          rw [whole]
          exact hf.written.append (.blank (by decide) (ih h))
            (stops_cons (not_wordChar_of_isSeparator (by decide)))

theorem proper_ofParts (h : ∀ f ∈ fs, f.Proper) : (ofParts fs).Proper := written_joined h

/-- A group is read as the formula that its parts are. -/
theorem ofFormula_ofParts {parts : List Fragment} (h : (ofParts parts).Proper) :
    ofFormula (ofParts parts).text = .ok parts := ofFormula_group h

/-- The fragment with a text. -/
def ofText (text : String) : Fragment :=
  match ofChars text.toList with
  | .ok [f] => f
  | _ => .word text

theorem ofText_text (h : f.Proper) : ofText f.text = f := by
  rw [ofText, h.written.ofChars]

/-- The binder of a quantifier has parentheses of its own. -/
def bracketFirst : List (List Fragment) → List (List Fragment)
  | binder :: rest => [ofParts binder] :: rest
  | [] => []

end Fragment

/-! ### Fragments of expressions -/

/-- The fragments of an argument list, as a formula of the kind has them. -/
def Kind.units (kind : Kind) (args : List (List Fragment)) : List (List Fragment) :=
  if kind.isQuantifier then Fragment.bracketFirst args else args

/-- The fragments in the parentheses of a formula. -/
def Kind.parts (kind : Kind) (args : List (List Fragment)) : List Fragment :=
  kind.operator?.toList.map .word ++ (kind.units args).flatten

/-- The word of a symbol that has one. -/
def SymbolTable.name (words : SymbolTable) (i : SymbolId) : String := (words.word? i).getD ""

theorem SymbolTable.name_of_word? {words : SymbolTable} {i : SymbolId} {word : String}
    (h : words.word? i = some word) : words.name i = word := by
  rw [name, h, Option.getD_some]

namespace Tree

/-- The fragments that an expression is printed as. -/
def fragments (words : SymbolTable) : Tree → List Fragment
  | .constant c => [.word (words.name c)]
  | .var v g =>
      if g = .none then [.word (words.name v)]
      else [.word (words.name v), .word "-", .ofText (words.name g)]
  | .world _ => []
  | .compound kind args => [.ofParts (kind.parts (args.map (fragments words)))]

variable {words : SymbolTable} {t : Tree}

theorem fragments_constant {c : SymbolId} {word : String} (h : words.word? c = some word) :
    (constant c).fragments words = [.word word] := by
  rw [fragments, SymbolTable.name_of_word? h]

theorem fragments_free {v : SymbolId} {word : String} (h : words.word? v = some word) :
    (var v .none).fragments words = [.word word] := by
  rw [fragments, if_pos rfl, SymbolTable.name_of_word? h]

theorem fragments_grouped {v g : SymbolId} {word : String} {f : Fragment} (hg : g ≠ .none)
    (h : words.word? v = some word) (hf : f.Proper) (ranges : words.word? g = some f.text) :
    (var v g).fragments words = [.word word, .word "-", f] := by
  rw [fragments, if_neg hg, SymbolTable.name_of_word? h, SymbolTable.name_of_word? ranges,
    Fragment.ofText_text hf]

/-- The group of a spelled variable. -/
theorem Spelled.cases_group {v g : SymbolId} (h : (Tree.var v g).Spelled words) :
    g = .none ∨ g ≠ .none ∧ ∃ f : Fragment, f.Proper ∧ words.word? g = some f.text := by
  cases h with
  | var _ _ _ ranges =>
      by_cases hg : g = .none
      · exact .inl hg
      · exact .inr ⟨hg, ranges.resolve_left hg⟩

/-- A word in front is that of a constant or the name of a variable. -/
theorem Spelled.head?_fragments (h : t.Spelled words) {word : String}
    (first : (t.fragments words).head? = some (.word word)) :
    (∃ c, t = .constant c ∧ words.word? c = some word ∧ word.toList.head? ≠ some '?') ∨
      ∃ v g, t = .var v g ∧ word.toList.head? = some '?' := by
  cases h with
  | @constant c _ found _ plain =>
      rw [fragments_constant found] at first
      cases first
      exact .inl ⟨c, rfl, found, plain⟩
  | @var v g _ found _ marked _ =>
      rw [fragments, SymbolTable.name_of_word? found] at first
      split at first <;> cases first <;> exact .inr ⟨v, g, rfl, marked⟩
  | compound _ _ =>
      rw [fragments] at first
      cases first

/-- The name of a variable is in front. -/
theorem Spelled.exists_head?_var {v g : SymbolId} (h : (Tree.var v g).Spelled words) :
    ∃ word, ((Tree.var v g).fragments words).head? = some (.word word) ∧
      word.toList.head? = some '?' := by
  cases h with
  | @var _ _ word found _ marked _ =>
      refine ⟨word, ?_, marked⟩
      rw [fragments, SymbolTable.name_of_word? found]
      split <;> rfl

theorem Spelled.fragments_ne_nil (h : t.Spelled words) : t.fragments words ≠ [] := by
  cases h with
  | constant _ _ _ => rw [fragments]; simp
  | var _ _ _ _ => rw [fragments]; split <;> simp
  | compound _ _ => rw [fragments]; simp

end Tree

theorem Kind.word_of_operator? {kind : Kind} {op : String} (h : kind.operator? = some op) :
    Word op.toList := by
  cases kind <;> cases h <;> decide

theorem Kind.proper_parts {kind : Kind} {args : List (List Fragment)}
    (h : ∀ unit ∈ args, ∀ f ∈ unit, f.Proper) : ∀ f ∈ kind.parts args, f.Proper := by
  have units : ∀ unit ∈ kind.units args, ∀ f ∈ unit, f.Proper := by
    unfold Kind.units
    split
    · cases args with
      | nil => exact h
      | cons binder args =>
          obtain ⟨hb, h⟩ := List.forall_mem_cons.mp h
          exact List.forall_mem_cons.mpr
            ⟨List.forall_mem_singleton.mpr (Fragment.proper_ofParts hb), h⟩
    · exact h
  intro f hf
  rcases List.mem_append.mp hf with hf | hf
  · obtain ⟨op, hop, rfl⟩ := List.mem_map.mp hf
    exact Kind.word_of_operator? (Option.mem_toList.mp hop)
  · obtain ⟨unit, hu, hf⟩ := List.mem_flatten.mp hf
    exact units unit hu f hf

/-- **What is printed is some text's fragments.** -/
theorem Tree.Spelled.proper_fragments {words : SymbolTable} {t : Tree} (h : t.Spelled words) :
    ∀ f ∈ t.fragments words, f.Proper := by
  induction h with
  | constant found whole _ =>
      rw [fragments_constant found]
      exact List.forall_mem_singleton.mpr whole
  | @var v g word found whole marked ranges =>
      rcases (Spelled.var found whole marked ranges).cases_group with rfl | ⟨hg, f, hf, named⟩
      · rw [fragments_free found]
        exact List.forall_mem_singleton.mpr whole
      · rw [fragments_grouped hg found hf named]
        have dash : (Fragment.word "-").Proper :=
          show Word _ by decide
        exact List.forall_mem_cons.mpr
          ⟨whole, List.forall_mem_cons.mpr ⟨dash, List.forall_mem_singleton.mpr hf⟩⟩
  | compound _ _ ih =>
      rw [fragments]
      refine List.forall_mem_singleton.mpr (Fragment.proper_ofParts (Kind.proper_parts ?_))
      exact List.forall_mem_map.mpr ih

end ClassicalPlanner
