import ClassicalPlanner.Proofs.Pddl.Reading
import ClassicalPlanner.Proofs.Pddl.TypedList

/-!
# Names

A text is solid if it holds no separator.  The words of a definition are solid, as a separator ends
a word (`solid_split`).  So the names of the actions and of the constants of a domain that has been
read are solid (`solid_readDomain`), and then those of the objects of a problem that has been read
for it (`solid_readProblem`).
-/

namespace ClassicalPlanner

open Session

/-- No character of the text separates words. -/
def Text.Solid (text : String) : Prop := ∀ c ∈ text.toList, isSeparator c = false

theorem Text.Solid.no_space {text : String} (h : Text.Solid text) : ' ' ∉ text.toList := by
  intro mem
  cases h ' ' mem

/-- All names in the sets are solid. -/
def NameSets.Solid (sets : NameSets) : Prop :=
  ∀ group, ∀ name ∈ sets.getD group ∅, Text.Solid name

namespace Pddl

/-! ### Words -/

/-- A piece that is solid if it is a word. -/
def Piece.Solid : Piece → Prop
  | .word text => Text.Solid text
  | .group _   => True

/-- **The words of a text** are solid. -/
theorem Piece.solid_split {text : String} {pieces : List Piece} (h : split text = .ok pieces) :
    ∀ p ∈ pieces, p.Solid := by
  intro p mem
  cases p with
  | word text => exact fun c hc => ((proper_split h _ mem).1.chars c hc).1
  | group inside => trivial

variable {pieces : List Piece} {ws ws' : List Warning} {d d' : Domain}

/-- The words in the sections of a definition are solid. -/
theorem solid_sections {text : String} {all : List (List Piece)} (h : sections text = .ok all) :
    ∀ pieces ∈ all, ∀ p ∈ pieces, p.Solid :=
  forall_sections (T := fun _ => True) (fun _ => Piece.solid_split) (fun _ => trivial) trivial h

/-- The names of a typed list are solid. -/
theorem solid_typedList {names : List (String × String)} (hp : ∀ p ∈ pieces, p.Solid)
    (h : typedList pieces = .ok names) : ∀ pair ∈ names, Text.Solid pair.1 := by
  obtain ⟨typed, untyped, rfl, ok⟩ := typedList_eq_ok (fun w mem => hp (.word w) mem) h
  exact List.forall_mem_append.mpr ⟨fun pair mem => (ok.name pair mem).1,
    List.forall_mem_map.mpr fun name mem => (ok.last name mem).1⟩

/-! ### Domains -/

/-- Reading the fields of an action keeps its name. -/
theorem readFields_name {a b : Schema} (h : readFields a pieces ws = (.ok b, ws')) :
    b.name = a.name :=
  readFields_keeps (I := fun b => b.name = a.name) (P := fun _ => True) (fun _ _ => trivial)
    (fun ha _ _ _ => ha) (fun ha _ => ha) (fun ha _ => ha) rfl h

theorem solid_readAction {a : Schema} (hp : ∀ p ∈ pieces, p.Solid)
    (h : readAction pieces ws = (.ok a, ws')) : Text.Solid a.name := by
  obtain ⟨name, fields, rfl, h⟩ := readAction_eq_ok h
  rw [readFields_name h]
  exact hp (.word name) List.mem_cons_self

/-- The names of the actions of a domain and of its constants are solid. -/
structure SolidNames (d : Domain) : Prop where
  actions : ∀ a ∈ d.actions, Text.Solid a.name
  constants : d.constants.Solid

theorem solid_declares {named named' : Bool} (hd : SolidNames d) (hp : ∀ p ∈ pieces, p.Solid)
    (h : Declares d named pieces d' named') : SolidNames d' := by
  cases h with
  | constants found =>
      refine ⟨hd.actions, fun group name mem => ?_⟩
      rcases mem_getD_declareConstants.mp mem with mem | mem
      · exact hd.constants group name mem
      · exact solid_typedList (List.forall_mem_of_forall_mem_cons hp) found _ mem
  | action found =>
      have solid := solid_readAction (List.forall_mem_of_forall_mem_cons hp) found
      exact ⟨List.forall_mem_append.mpr ⟨hd.actions, List.forall_mem_singleton.mpr solid⟩,
        hd.constants⟩
  | _ => exact ⟨hd.actions, hd.constants⟩

/-- **The names of a domain** that has been read are solid. -/
theorem solid_readDomain {text : String} (h : readDomain text ws = (.ok d, ws')) :
    SolidNames d :=
  readDomain_keeps (I := fun d _ => SolidNames d) solid_sections
    ⟨fun _ h => absurd h List.not_mem_nil, fun _ _ h => absurd h NameSets.not_mem_getD_empty⟩
    solid_declares h

/-! ### Problems -/

theorem solid_describes {domain : String} {draft draft' : ProblemDraft}
    (hd : ∀ pair ∈ draft.declared, Text.Solid pair.1) (hp : ∀ p ∈ pieces, p.Solid)
    (h : Describes domain draft pieces draft') : ∀ pair ∈ draft'.declared, Text.Solid pair.1 := by
  cases h with
  | objects found =>
      exact List.forall_mem_append.mpr
        ⟨hd, solid_typedList (List.forall_mem_of_forall_mem_cons hp) found⟩
  | _ => exact hd

/-- **The objects of a problem** that has been read for a domain with solid names are solid. -/
theorem solid_readProblem {text : String} {p : Problem} (hd : d.constants.Solid)
    (h : readProblem d text ws = (.ok p, ws')) : p.objects.Solid := by
  obtain ⟨draft, domain, goal, solid, -, -, rfl⟩ := readProblem_keeps
    (I := fun draft => ∀ pair ∈ draft.declared, Text.Solid pair.1) solid_sections
    (fun _ h => absurd h List.not_mem_nil) solid_describes h
  intro group object mem
  obtain ⟨type, mem, -⟩ := Problem.mem_getD_populate.mp mem
  rcases List.mem_append.mp mem with mem | mem
  · exact hd type object (mem_constants.mp mem)
  · exact solid _ mem

end Pddl

end ClassicalPlanner
