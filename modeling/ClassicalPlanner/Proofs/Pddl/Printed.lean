import ClassicalPlanner.Proofs.Pddl.Printable

/-!
# Printed definitions hold no comments

Neither names nor formulas of a printable definition hold a semicolon or a carriage return, nor does
anything that is printed around them.  So the text of a printable definition, which ends in a
parenthesis, is read as it was printed (`stripComments_intercalate`).
-/

namespace ClassicalPlanner

namespace Pddl

open Text

variable {a b : String} {texts lines more names : List String}

instance (text : String) : Decidable (Clean text) :=
  List.decidableBAll (fun c => c ≠ ';' ∧ c ≠ '\r') text.toList

/-! ### Clean texts -/

theorem clean_append (h : Clean a) (h' : Clean b) : Clean (a ++ b) := by
  intro c mem
  rw [String.toList_append] at mem
  exact (List.mem_append.mp mem).elim (h c) (h' c)

theorem clean_empty : Clean "" := by decide

/-- Nothing is hidden in any of the texts. -/
def AllClean (texts : List String) : Prop := ∀ text ∈ texts, Clean text

theorem clean_intercalate (hs : Clean a) (h : AllClean texts) : Clean (a.intercalate texts) := by
  induction texts with
  | nil => rw [String.intercalate_nil]; exact fun _ h => absurd h List.not_mem_nil
  | cons text texts ih =>
      obtain ⟨first, rest⟩ := List.forall_mem_cons.mp h
      cases texts with
      | nil => rwa [String.intercalate_singleton]
      | cons next texts =>
          rw [String.intercalate_cons_cons]
          exact clean_append (clean_append first hs) (ih rest)

theorem AllClean.append (h : AllClean lines) (h' : AllClean more) : AllClean (lines ++ more) :=
  List.forall_mem_append.mpr ⟨h, h'⟩

theorem allClean_nil : AllClean [] := fun _ h => absurd h List.not_mem_nil

theorem allClean_singleton (h : Clean a) : AllClean [a] := List.forall_mem_singleton.mpr h

theorem AllClean.map {α : Type} {l : List α} {f : α → String} (h : ∀ a ∈ l, Clean (f a)) :
    AllClean (l.map f) :=
  List.forall_mem_map.mpr h

theorem Token.clean (h : Token a) : Clean a := by
  refine fun c mem => ⟨fun same => h.bare (same ▸ mem), ?_⟩
  rintro rfl
  cases (h.word.chars _ mem).1

theorem Flat.clean (h : Flat a) : Clean a := by
  refine fun c mem => ⟨fun same => h.bare (same ▸ mem), ?_⟩
  rintro rfl
  rw [← h.flat] at mem
  rcases mem_flatten mem with h | ⟨-, ink⟩
  · cases h
  · cases ink

/-- Texts that may be missing. -/
theorem clean_of_empty_or {P : String → Prop} (hP : ∀ {a}, P a → Clean a) (h : a = "" ∨ P a) :
    Clean a := by
  rcases h with rfl | h
  · exact clean_empty
  · exact hP h

/-- **A text of clean lines** that ends in a parenthesis is read as it is. -/
theorem stripComments_intercalate (h : AllClean lines) :
    stripComments ("\n".intercalate (lines ++ [")"])) = "\n".intercalate (lines ++ [")"]) := by
  refine stripComments_of_clean (clean_intercalate (by decide) (h.append ?_)) ?_
  · exact allClean_singleton (by decide)
  · by_cases some : lines = []
    · rw [some, List.nil_append, String.intercalate_singleton]
      decide
    · rw [String.intercalate_append_of_ne_nil some (List.cons_ne_nil _ _),
        String.intercalate_singleton, String.toList_append, List.getLast?_append]
      exact fun h => nomatch h

/-! ### Lines -/

theorem allClean_lineUnlessEmpty (ha : Clean a) (hb : Clean b) :
    AllClean (lineUnlessEmpty a b) := by
  unfold lineUnlessEmpty
  split
  · exact allClean_nil
  · exact allClean_singleton (clean_append ha hb)

theorem allClean_untypedLines (h : AllClean names) : AllClean (untypedLines names) := by
  unfold untypedLines
  split
  · exact allClean_nil
  · exact allClean_singleton (clean_append (by decide) (clean_intercalate (by decide) h))

theorem allClean_typedLines {sets : NameSets} (h : sets.Printable) :
    AllClean (typedLines sets) := by
  refine .map fun entry kept => ?_
  obtain ⟨known, other⟩ := List.mem_filter.mp kept
  have found := NameSets.mem_toList.mp known
  have group := h.group (NameSets.mem_iff_getElem?.mpr ⟨_, found⟩) (by simpa using other)
  refine clean_append (clean_append (clean_append (by decide) ?_) (by decide)) group.clean
  refine clean_intercalate (by decide) (.map fun name mem => ?_)
  have mem := Std.ExtTreeSet.mem_toList.mp mem
  exact clean_append (h.name (NameSets.mem_getD_iff.mpr ⟨_, found, mem⟩)).1.clean (by decide)

end Pddl

open Pddl

/-! ### Domains -/

theorem Parameter.clean_text {p : Parameter} (hn : Clean p.name) (hg : Clean p.group) :
    Clean p.text := by
  unfold text
  split
  · exact hn
  · exact clean_append (clean_append hn (by decide)) hg

theorem Schema.Printable.allClean {a : Schema} (h : a.Printable) : AllClean a.lines := by
  obtain ⟨typed, untyped, same, ok⟩ := h.parameters
  have parameters : ∀ p ∈ a.parameters, Clean p.text := by
    rw [same]
    refine List.forall_mem_map.mpr fun pair mem => ?_
    rcases List.mem_append.mp mem with mem | mem
    · exact Parameter.clean_text (ok.name pair mem).1.clean (ok.type pair mem).clean
    · obtain ⟨name, listed, rfl⟩ := List.mem_map.mp mem
      exact Parameter.clean_text (ok.last name listed).1.clean clean_empty
  have heads : AllClean ["  (:action " ++ a.name,
      "    :parameters (" ++ " ".intercalate (a.parameters.map Parameter.text) ++ ")"] :=
    List.forall_mem_cons.mpr ⟨clean_append (by decide) h.name.clean, allClean_singleton
      (clean_append (clean_append (by decide) (clean_intercalate (by decide) (.map parameters)))
        (by decide))⟩
  have before := allClean_lineUnlessEmpty (a := "    :precondition ") (by decide)
    (clean_of_empty_or Flat.clean h.precondition)
  have after := allClean_lineUnlessEmpty (a := "    :effect ") (by decide)
    (clean_of_empty_or Flat.clean h.effect)
  exact ((heads.append before).append after).append (allClean_singleton (by decide))

namespace Domain

variable {d : Domain}

theorem allClean_wordsLine (head : String) {words : List String} (hh : Clean head)
    (hw : AllClean words) : AllClean (wordsLine head words) := by
  unfold wordsLine
  split
  · exact allClean_nil
  · exact allClean_singleton (clean_append (clean_append (clean_append (clean_append (by decide) hh)
      (by decide)) (clean_intercalate (by decide) hw)) (by decide))

theorem allClean_sectionLines (skip : Bool) (head : String) {body : List String}
    (hh : Clean head) (hb : AllClean body) : AllClean (sectionLines skip head body) := by
  unfold sectionLines
  split
  · exact allClean_nil
  · exact ((allClean_singleton (clean_append (by decide) hh)).append hb).append
      (allClean_singleton (by decide))

end Domain

end ClassicalPlanner
