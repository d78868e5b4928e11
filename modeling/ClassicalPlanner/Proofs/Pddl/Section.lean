import ClassicalPlanner.Pddl.Section
import ClassicalPlanner.Proofs.Pddl.Piece
import ClassicalPlanner.Proofs.Session.Growth

/-!
# The sections of a definition

The sections of a definition are cut out of it in three steps: the definition itself, its sections,
and the pieces of each section (`sections_eq_ok_iff`).  What holds of the pieces of every text, and
goes on to hold of the text inside them, holds of the pieces of the sections (`forall_sections`).
-/

namespace ClassicalPlanner.Pddl

variable {α : Type} {text : String} {all : List (List Piece)} {ws ws' : List Warning}

theorem orMalformed_eq_ok {x : Except Malformation α} {a : α}
    (h : orMalformed x = (.ok a : Except PlanningError α)) : x = .ok a := by
  cases x with
  | ok b => cases h; rfl
  | error cause => cases h

theorem run_orMalformed_eq_ok {x : Except Malformation α} {a : α}
    (h : (orMalformed x : WarnM α) ws = (.ok a, ws')) : x = .ok a ∧ ws' = ws := by
  cases x with
  | ok b => cases h; exact ⟨rfl, rfl⟩
  | error cause => cases h

/-- Texts that all have pieces. -/
theorem mapM_split_eq_ok_iff {insides : List String} :
    insides.mapM (fun inside => orMalformed (Piece.split inside)) =
        (.ok all : Except PlanningError _) ↔
      List.Forall₂ (fun inside pieces => Piece.split inside = .ok pieces) insides all := by
  induction insides generalizing all with
  | nil =>
      constructor
      · intro h
        cases h
        exact .nil
      · intro h
        cases h
        rfl
  | cons inside insides ih =>
      rw [List.mapM_cons]
      constructor
      · intro h
        obtain ⟨pieces, hpieces, h⟩ := bind_eq_ok.mp h
        obtain ⟨rest, hrest, same⟩ := bind_eq_ok.mp h
        cases same
        exact .cons (orMalformed_eq_ok hpieces) (ih.mp hrest)
      · intro h
        cases h with
        | cons first rest => rw [first, ih.mpr rest]; rfl

/-- **The sections of a definition** are cut out of it in three steps. -/
theorem sections_eq_ok_iff : sections text = .ok all ↔
    ∃ inside pieces, Piece.split text = .ok [.group inside] ∧
      Piece.split inside = .ok (.word "define" :: pieces) ∧
      List.Forall₂ (fun inside pieces => Piece.split inside = .ok pieces)
        (pieces.filterMap Piece.inside?) all := by
  constructor
  · intro h
    obtain ⟨forms, hforms, h⟩ := bind_eq_ok.mp h
    split at h
    · cases h
    · cases h
    · obtain ⟨parts, hparts, h⟩ := bind_eq_ok.mp h
      split at h
      · exact ⟨_, _, orMalformed_eq_ok hforms, orMalformed_eq_ok hparts, mapM_split_eq_ok_iff.mp h⟩
      · cases h
    · cases h
  · rintro ⟨inside, pieces, hform, hparts, each⟩
    refine bind_eq_ok.mpr ⟨_, congrArg orMalformed hform, ?_⟩
    exact bind_eq_ok.mpr ⟨_, congrArg orMalformed hparts, mapM_split_eq_ok_iff.mpr each⟩

/-- The pieces of a definition that is given by its characters, without its comments. -/
theorem split_stripComments (cs : List Char) : Piece.split (stripComments (String.ofList cs)) =
    Piece.scan .between (['\n'].intercalate ((lines cs).map (·.takeWhile (· != ';')))) := by
  rw [stripComments, Piece.split_ofList, String.toList_ofList]

/-- The sections of a definition that is given by its characters, as a literal is: they are found
without going through texts. -/
theorem sections_ofList {cs inside : List Char} {pieces : List Piece}
    (form : Piece.scan .between (['\n'].intercalate ((lines cs).map (·.takeWhile (· != ';')))) =
      .ok [.group (.ofList inside)])
    (parts : Piece.scan .between inside = .ok (.word "define" :: pieces))
    (each : List.Forall₂ (fun inside pieces => Piece.split inside = .ok pieces)
      (pieces.filterMap Piece.inside?) all) : sections (stripComments (.ofList cs)) = .ok all :=
  sections_eq_ok_iff.mpr ⟨_, pieces, (split_stripComments cs).trans form,
    (Piece.split_ofList inside).trans parts, each⟩

/-- **The sections of a definition**, in which all pieces are such as the texts are made of. -/
theorem forall_sections {T : String → Prop} {P : Piece → Prop}
    (pieces : ∀ {text ps}, T text → Piece.split text = .ok ps → ∀ p ∈ ps, P p)
    (inside : ∀ {inside}, P (.group inside) → T inside) (ht : T text)
    (h : sections text = .ok all) : ∀ ps ∈ all, ∀ p ∈ ps, P p := by
  obtain ⟨form, parts, hform, hparts, cut⟩ := sections_eq_ok_iff.mp h
  have each := pieces (inside (pieces ht hform _ List.mem_cons_self)) hparts
  intro ps mem
  obtain ⟨within, mem, found⟩ := NodeStore.forall₂_exists_right cut.flip mem
  obtain ⟨p, hp, same⟩ := List.mem_filterMap.mp mem
  cases p with
  | word text => cases same
  | group text =>
      cases same
      exact pieces (inside (each _ (List.mem_cons_of_mem _ hp))) found

end ClassicalPlanner.Pddl
