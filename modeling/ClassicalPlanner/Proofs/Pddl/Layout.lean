import ClassicalPlanner.Model.Text
import ClassicalPlanner.Proofs.Pddl.Section

/-!
# Reading what is laid out in lines

Definitions are printed line by line, each section as an opening line, the lines of its body and a
closing line.  `below lines` is the text of lines that follow other text.  It is read by itself, as
a line feed ends a word (`split_below_append`); so the sections of a printed definition are those of
its parts (`Sections.append`), and all of them are read (`sections_definition`).
-/

namespace ClassicalPlanner.Pddl

open Text

variable {a b head inside : String} {ps qs pieces : List Piece} {lines more : List String}

namespace Piece

/-! ### Texts put together -/

theorem split_append (h : split a = .ok ps) (h' : split b = .ok qs) (stops : Stops b.toList) :
    split (a ++ b) = .ok (ps ++ qs) := by
  obtain ⟨fragments, written, rfl⟩ := split_eq_ok_iff.mp h
  obtain ⟨fragments', written', rfl⟩ := split_eq_ok_iff.mp h'
  rw [split_eq_ok_iff, String.toList_append]
  exact ⟨_, written.append written' stops, List.map_append⟩

theorem split_word (h : Word a.toList) : split a = .ok [word a] := by
  have proper : (word a).Proper := h
  exact proper.split_text

theorem split_group (h : split inside = .ok ps) :
    split ("(" ++ inside ++ ")") = .ok [group inside] := by
  have proper : (group inside).Proper := ⟨ps, h⟩
  exact proper.split_text

/-- A text of separators only. -/
def Blank (text : String) : Prop := ∀ c ∈ text.toList, isSeparator c

instance (text : String) : Decidable (Blank text) :=
  List.decidableBAll (fun c => isSeparator c) text.toList

/-- Separators in front of a text do not count. -/
theorem split_blanks (blank : Blank a) (h : split b = .ok ps) :
    split (a ++ b) = .ok ps := by
  obtain ⟨fragments, written, rfl⟩ := split_eq_ok_iff.mp h
  rw [split_eq_ok_iff, String.toList_append]
  refine ⟨fragments, ?_, rfl⟩
  unfold Blank at blank
  generalize a.toList = cs at blank
  induction cs with
  | nil => exact written
  | cons c cs ih =>
      obtain ⟨hc, blank⟩ := List.forall_mem_cons.mp blank
      exact .blank hc (ih blank)

/-- Separators after a text do not count. -/
theorem split_append_blanks (h : split a = .ok ps) (blank : Blank b) :
    split (a ++ b) = .ok ps := by
  have nothing : split b = .ok [] := by
    have := split_blanks blank (b := "") rfl
    rwa [String.append_empty] at this
  have stops : Stops b.toList := fun c mem =>
    not_wordChar_of_isSeparator (blank c (List.mem_of_mem_head? mem))
  have := split_append h nothing stops
  rwa [List.append_nil] at this

theorem split_spaced (h : split a = .ok ps) (h' : split b = .ok qs) :
    split (a ++ " " ++ b) = .ok (ps ++ qs) := by
  have stops : Stops (" " ++ b).toList := by
    rw [String.toList_append]
    exact stops_cons (by decide)
  rw [String.append_assoc]
  exact split_append h (split_blanks (by decide) h') stops

/-- Texts with a space between them. -/
theorem split_intercalate {α : Type} {l : List α} {f : α → String} {g : α → List Piece}
    (h : ∀ a ∈ l, split (f a) = .ok (g a)) :
    split (" ".intercalate (l.map f)) = .ok (l.flatMap g) := by
  induction l with
  | nil =>
      rw [List.map_nil, String.intercalate_nil]
      rfl
  | cons a l ih =>
      obtain ⟨first, rest⟩ := List.forall_mem_cons.mp h
      cases l with
      | nil => simpa using first
      | cons a' l =>
          rw [List.map_cons, List.map_cons, String.intercalate_cons_cons, List.flatMap_cons]
          exact split_spaced first (ih rest)

theorem split_words {names : List String} (h : ∀ name ∈ names, Word name.toList) :
    split (" ".intercalate names) = .ok (names.map word) := by
  have := split_intercalate fun name mem => split_word (h name mem)
  rwa [List.map_id'', ← List.map_eq_flatMap] at this
  exact fun _ => rfl

end Piece

open Piece

/-! ### Lines -/

/-- The text of lines that follow other text. -/
def below (lines : List String) : String := String.join (lines.map ("\n" ++ ·))

theorem below_nil : below [] = "" := String.join_nil

theorem below_cons (line : String) (lines : List String) :
    below (line :: lines) = "\n" ++ line ++ below lines := by
  rw [below, List.map_cons, String.join_cons]
  rfl

theorem below_append (lines more : List String) :
    below (lines ++ more) = below lines ++ below more := by
  rw [below, List.map_append, String.join_append]
  rfl

theorem intercalate_cons (line : String) (lines : List String) :
    "\n".intercalate (line :: lines) = line ++ below lines := by
  induction lines generalizing line with
  | nil => rw [String.intercalate_singleton, below_nil, String.append_empty]
  | cons next lines ih =>
      rw [String.intercalate_cons_cons, ih, below_cons]
      simp only [String.append_assoc]

theorem stops_below (lines : List String) : Stops (below lines).toList := by
  cases lines with
  | nil => rw [below_nil]; exact stops_nil
  | cons line lines =>
      rw [below_cons, String.append_assoc, String.toList_append]
      exact stops_cons (by decide)

/-- **Lines are read by themselves.** -/
theorem split_below_append (h : split (below lines) = .ok ps) (h' : split (below more) = .ok qs) :
    split (below (lines ++ more)) = .ok (ps ++ qs) := by
  rw [below_append]
  exact split_append h h' (stops_below more)

theorem split_below_line {line : String} (h : split line = .ok ps) :
    split (below [line]) = .ok ps := by
  rw [below_cons, below_nil, String.append_empty]
  exact split_blanks (by decide) h

theorem split_below_flatMap {α : Type} {l : List α} {f : α → List String} {g : α → List Piece}
    (h : ∀ a ∈ l, split (below (f a)) = .ok (g a)) :
    split (below (l.flatMap f)) = .ok (l.flatMap g) := by
  induction l with
  | nil => rfl
  | cons a l ih =>
      obtain ⟨first, rest⟩ := List.forall_mem_cons.mp h
      rw [List.flatMap_cons, List.flatMap_cons]
      exact split_below_append first (ih rest)

/-- Lines that are one piece each. -/
theorem split_below_map {α : Type} {l : List α} {f : α → String} {g : α → Piece}
    (h : ∀ a ∈ l, split (f a) = .ok [g a]) : split (below (l.map f)) = .ok (l.map g) := by
  rw [List.map_eq_flatMap, List.map_eq_flatMap]
  exact split_below_flatMap fun a mem => split_below_line (h a mem)

/-! ### Sections -/

/-- The lines are those of the sections given by their pieces. -/
def Sections (lines : List String) (all : List (List Piece)) : Prop :=
  ∃ insides : List String, split (below lines) = .ok (insides.map .group) ∧
    List.Forall₂ (fun inside pieces => split inside = .ok pieces) insides all

variable {all others : List (List Piece)}

theorem Sections.nil : Sections [] [] := ⟨[], rfl, .nil⟩

theorem Sections.append (h : Sections lines all) (h' : Sections more others) :
    Sections (lines ++ more) (all ++ others) := by
  obtain ⟨insides, found, each⟩ := h
  obtain ⟨insides', found', each'⟩ := h'
  refine ⟨insides ++ insides', ?_, List.rel_append each each'⟩
  rw [List.map_append]
  exact split_below_append found found'

/-- A section on one line. -/
theorem Sections.line (h : split inside = .ok pieces) :
    Sections ["  (" ++ inside ++ ")"] [pieces] := by
  refine ⟨[inside], ?_, .cons h .nil⟩
  have indented : "  (" ++ inside ++ ")" = "  " ++ ("(" ++ inside ++ ")") := by
    have opened : "  (" = "  " ++ "(" := rfl
    simp only [opened, String.append_assoc]
  rw [indented]
  exact split_below_line (split_blanks (by decide) (split_group h))

/-- A section with a body on lines of its own. -/
theorem Sections.block (hh : split head = .ok ps) (hb : split (below lines) = .ok qs) :
    Sections (["  (" ++ head] ++ lines ++ ["  )"]) [ps ++ qs] := by
  have inside : split (head ++ below lines ++ "\n  ") = .ok (ps ++ qs) :=
    split_append_blanks (split_append hh hb (stops_below lines)) (by decide)
  have opened : "  (" = "  " ++ "(" := rfl
  have closed : "  )" = "  " ++ ")" := rfl
  have feed : "\n  " = "\n" ++ "  " := rfl
  have same : below (["  (" ++ head] ++ lines ++ ["  )"]) =
      "\n  " ++ ("(" ++ (head ++ below lines ++ "\n  ") ++ ")") := by
    simp only [below_append, below_cons, below_nil, String.append_empty, opened, closed, feed,
      String.append_assoc]
  refine ⟨[head ++ below lines ++ "\n  "], ?_, .cons inside .nil⟩
  rw [same]
  exact split_blanks (by decide) (split_group inside)

/-- **A printed definition** is read as its sections. -/
theorem sections_definition (hh : split head = .ok ps) (h : Sections lines all) :
    sections ("\n".intercalate (["(define (" ++ head ++ ")"] ++ lines ++ [")"])) =
      .ok (ps :: all) := by
  obtain ⟨insides, found, each⟩ := h
  have parts : split ("define " ++ ("(" ++ head ++ ")") ++ below lines ++ "\n") =
      .ok (.word "define" :: (head :: insides).map .group) := by
    have spaced : "define " = "define" ++ " " := rfl
    have first : split ("define " ++ ("(" ++ head ++ ")")) = .ok [.word "define", .group head] := by
      rw [spaced]
      exact split_spaced (split_word (by decide)) (split_group hh)
    exact split_append_blanks (split_append first found (stops_below lines)) (by decide)
  have opened : "(define (" = "(" ++ ("define " ++ "(") := rfl
  have whole : "\n".intercalate (["(define (" ++ head ++ ")"] ++ lines ++ [")"]) =
      "(" ++ ("define " ++ ("(" ++ head ++ ")") ++ below lines ++ "\n") ++ ")" := by
    rw [List.singleton_append, List.cons_append, intercalate_cons, below_append, below_cons,
      below_nil, String.append_empty, opened]
    simp only [String.append_assoc]
  have groups : ((head :: insides).map Piece.group).filterMap Piece.inside? = head :: insides := by
    rw [List.filterMap_map]
    exact List.filterMap_some
  rw [whole]
  refine sections_eq_ok_iff.mpr ⟨_, _, split_group parts, parts, ?_⟩
  rw [groups]
  exact .cons hh each

/-! ### What lines are read as -/

/-- Reading the sections of the lines one after the other leads from one state to another, without
a warning. -/
def Reads {σ : Type} (read : σ → List Piece → WarnM σ) (lines : List String) (s s' : σ) : Prop :=
  ∃ all, Sections lines all ∧ ∀ ws, all.foldlM read s ws = (.ok s', ws)

namespace Reads

variable {σ : Type} {read : σ → List Piece → WarnM σ} {s s' s'' : σ}

theorem nil (s : σ) : Reads read [] s s := ⟨[], .nil, fun _ => rfl⟩

theorem append (h : Reads read lines s s') (h' : Reads read more s' s'') :
    Reads read (lines ++ more) s s'' := by
  obtain ⟨all, sections, run⟩ := h
  obtain ⟨others, sections', run'⟩ := h'
  refine ⟨all ++ others, sections.append sections', fun ws => ?_⟩
  rw [List.foldlM_append, Session.run_bind, run]
  exact run' ws

theorem single (h : Sections lines [pieces]) (run : ∀ ws, read s pieces ws = (.ok s', ws)) :
    Reads read lines s s' := by
  refine ⟨[pieces], h, fun ws => ?_⟩
  rw [List.foldlM_cons, Session.run_bind, run]
  rfl

end Reads

end ClassicalPlanner.Pddl
