import ClassicalPlanner.Proofs.Pddl.DomainText

/-!
# Problems read back from their text

A problem that has been read from a plain text is printable (`printable_readProblem`).  Its text
lists what its groups are made of (`lists_listed`), so a problem whose groups are made up for the
domain is read back from it (`readProblem_text_of_printable`).
-/

namespace ClassicalPlanner

open Text Pddl Piece Session

variable {d : Domain} {p : Problem} {pieces : List Piece} {ws ws' : List Warning}

/-- The names of the problem are words, and its formulas are single pieces. -/
structure Problem.Printable (p : Problem) : Prop where
  name : p.name = "" ∨ Token p.name
  objects : p.objects.Printable
  init : ∀ atom ∈ p.init, Flat atom
  goal : Flat p.goal

namespace Pddl

/-! ### Reading a problem -/

variable {domain : String} {draft draft' : ProblemDraft}

/-- What has been read of a problem is printable. -/
structure ProblemDraft.Printable (draft : ProblemDraft) (domain : String) : Prop where
  name : draft.name = "" ∨ Token draft.name
  domain : ∀ name, draft.domain? = some name → name = domain
  declared : ∀ pair ∈ draft.declared,
    (Token pair.1 ∧ pair.1 ≠ "-") ∧ (pair.2 = "" ∨ Token pair.2)
  init : ∀ atom ∈ draft.init, Flat atom
  goal : ∀ goal, draft.goal? = some goal → Flat goal

theorem printable_describes (hd : draft.Printable domain) (hp : ∀ p ∈ pieces, p.Legible)
    (h : Describes domain draft pieces draft') : draft'.Printable domain := by
  cases h with
  | @name body =>
      refine ⟨?_, hd.domain, hd.declared, hd.init, hd.goal⟩
      cases body with
      | nil => exact .inl rfl
      | cons p body =>
          cases p with
          | word text => exact .inr (hp _ (List.mem_cons_of_mem _ List.mem_cons_self)).token
          | group inside => exact .inl rfl
  | domain =>
      refine ⟨hd.name, fun name same => ?_, hd.declared, hd.init, hd.goal⟩
      cases same
      rfl
  | objects found =>
      refine ⟨hd.name, hd.domain, ?_, hd.init, hd.goal⟩
      exact List.forall_mem_append.mpr
        ⟨hd.declared, typedList_legible (List.forall_mem_of_forall_mem_cons hp) found⟩
  | @init body =>
      refine ⟨hd.name, hd.domain, hd.declared, fun atom mem => ?_, hd.goal⟩
      rcases Std.ExtTreeSet.mem_insertMany_list.mp mem with mem | mem
      · exact hd.init atom mem
      · obtain ⟨p, listed, rfl⟩ := List.mem_map.mp (List.contains_iff_mem.mp mem)
        exact (hp p (List.mem_cons_of_mem _ listed)).flat
  | goal =>
      refine ⟨hd.name, hd.domain, hd.declared, hd.init, fun goal same => ?_⟩
      cases same
      exact (hp _ (List.mem_cons_of_mem _ List.mem_cons_self)).flat
  | other => exact hd

theorem printable_populate {declared : List (String × String)}
    (parents : ∀ {type parent}, parent ∈ d.parents type → Token parent)
    (h : ∀ pair ∈ declared, (Token pair.1 ∧ pair.1 ≠ "-") ∧ (pair.2 = "" ∨ Token pair.2)) :
    (Problem.populate d declared).Printable where
  group known some := by
    obtain ⟨object, type, mem, hg⟩ := (Problem.mem_populate.mp known).resolve_left some
    obtain ⟨typed, rfl | above⟩ := (Problem.mem_groupsOf.mp hg).resolve_left some
    · exact (h _ mem).2.resolve_left typed
    · obtain ⟨child, link⟩ := Domain.exists_link_of_mem_ancestors above
      exact parents link
  name mem := by
    obtain ⟨type, mem, -⟩ := Problem.mem_getD_populate.mp mem
    exact (h _ mem).1
  filled known some := by
    obtain ⟨object, type, mem, hg⟩ := (Problem.mem_populate.mp known).resolve_left some
    exact ⟨object, Problem.mem_getD_populate.mpr ⟨type, mem, hg⟩⟩

/-- **A problem that has been read** from a plain text is printable. -/
theorem printable_readProblem {text : String} (hd : d.Printable) (plain : Plain text.toList)
    (h : readProblem d text ws = (.ok p, ws')) : p.Printable ∧ p.domain = d.name := by
  obtain ⟨draft, domain, goal, printable, hdomain, hgoal, rfl⟩ := readProblem_keeps
    (I := fun draft => draft.Printable d.name)
    (fun found => legible_sections (legible_stripComments plain) found)
    ⟨.inl rfl, nofun, fun _ h => absurd h List.not_mem_nil,
      fun _ h => absurd h Std.ExtTreeSet.not_mem_empty, nofun⟩
    (fun keeps hp described => printable_describes keeps hp described) h
  refine ⟨⟨printable.name, printable_populate hd.parent ?_, printable.init, printable.goal _ hgoal⟩,
    printable.domain _ hdomain⟩
  refine List.forall_mem_append.mpr ⟨fun pair mem => ?_, printable.declared⟩
  have known := mem_constants.mp mem
  refine ⟨hd.constants.name known, ?_⟩
  by_cases none : pair.2 = ""
  · exact .inl none
  · exact .inr (hd.constants.group (NameSets.mem_of_mem_getD known) none)

end Pddl

namespace Problem

variable {draft : ProblemDraft}

/-! ### Printing a problem -/

/-- The lines of a problem are read by its sections. -/
abbrev Reads (p : Problem) (lines : List String) (draft draft' : ProblemDraft) : Prop :=
  Pddl.Reads (readProblemSection p.domain) lines draft draft'

/-- The objects as they are printed: the members of each type, and the objects of no type. -/
def listed (p : Problem) : List (String × String) :=
  p.objects.groups.flatMap (fun group => group.2.map (·, group.1)) ++ p.untyped.map (·, "")

theorem mem_untyped {object : String} : object ∈ p.untyped ↔
    object ∈ p.objects.getD "" ∅ ∧ ∀ type, type ≠ "" → object ∉ p.objects.getD type ∅ := by
  rw [untyped, List.mem_filter, Std.ExtTreeSet.mem_toList, members?,
    ← Std.ExtTreeMap.getD_eq_getD_getElem?]
  refine and_congr_right fun _ => ?_
  rw [Bool.not_eq_true', ← Bool.not_eq_true, List.any_eq_true]
  constructor
  · intro none type some mem
    obtain ⟨set, found, mem⟩ := NameSets.mem_getD_iff.mp mem
    refine none ⟨(type, set), NameSets.mem_toList.mpr found, ?_⟩
    simpa using ⟨some, mem⟩
  · rintro none ⟨⟨type, set⟩, found, both⟩
    obtain ⟨some, mem⟩ : type ≠ "" ∧ object ∈ set := by simpa using both
    exact none type some (NameSets.mem_getD_iff.mpr ⟨set, NameSets.mem_toList.mp found, mem⟩)

theorem mem_listed {object type : String} : (object, type) ∈ p.listed ↔
    (type ≠ "" ∧ object ∈ p.objects.getD type ∅) ∨ (type = "" ∧ object ∈ p.untyped) := by
  rw [listed, List.mem_append, NameSets.mem_groups, List.mem_map]
  refine or_congr Iff.rfl ⟨?_, ?_⟩
  · rintro ⟨object', mem, same⟩
    cases same
    exact ⟨rfl, mem⟩
  · rintro ⟨rfl, mem⟩
    exact ⟨object, mem, rfl⟩

/-- **What is printed** lists what the groups are made of. -/
theorem lists_listed (p : Problem) : Lists p.objects p.listed where
  typed some := by
    rw [mem_listed]
    exact ⟨fun h => (h.resolve_right fun h => some h.1).2, fun mem => .inl ⟨some, mem⟩⟩
  untyped {object} := by
    rw [mem_listed, ← mem_untyped]
    exact ⟨fun h => (h.resolve_left fun h => h.1 rfl).2, fun mem => .inr ⟨rfl, mem⟩⟩

theorem reads_domain (h : Token p.domain) :
    p.Reads ["  (:domain " ++ p.domain ++ ")"] draft { draft with domain? := some p.domain } := by
  have line : "  (:domain " ++ p.domain ++ ")" =
      "  (" ++ (":domain" ++ " " ++ p.domain) ++ ")" := by
    have opened : "  (:domain " = "  (" ++ (":domain" ++ " ") := rfl
    rw [opened]
    simp only [String.append_assoc]
  rw [line]
  refine .single (.line (split_spaced (split_word (by decide)) (split_word h.word))) fun ws => ?_
  change (if p.domain = p.domain then pure { draft with domain? := some p.domain }
    else throw _ : WarnM ProblemDraft) ws = _
  rw [if_pos rfl]
  rfl

theorem reads_goal (h : Flat p.goal) :
    p.Reads ["  (:goal " ++ p.goal ++ ")"] draft { draft with goal? := some p.goal } := by
  have line : "  (:goal " ++ p.goal ++ ")" = "  (" ++ (":goal" ++ " " ++ p.goal) ++ ")" := by
    have opened : "  (:goal " = "  (" ++ (":goal" ++ " ") := rfl
    rw [opened]
    simp only [String.append_assoc]
  obtain ⟨goal, proper, same⟩ := h.piece
  have one := proper.split_text
  rw [same] at one
  rw [line]
  refine .single (.line (split_spaced (split_word (by decide)) one)) fun ws => ?_
  change (Except.ok { draft with goal? := some (flatten goal.text) }, ws) = _
  rw [same, h.flat]

theorem untyped_printable (h : p.objects.Printable) :
    ∀ object ∈ p.untyped, Token object ∧ object ≠ "-" := fun _ mem =>
  h.name (mem_untyped.mp mem).1

theorem reads_objects (h : p.objects.Printable) :
    p.Reads (["  (" ++ ":objects"] ++ (typedLines p.objects ++ untypedLines p.untyped) ++ ["  )"])
      draft { draft with declared := draft.declared ++ p.listed } := by
  have untyped := untyped_printable h
  have body := split_below_append h.split_typedLines
    (split_untypedLines fun object mem => (untyped object mem).1.word)
  refine .single (.block (split_word (a := ":objects") (by decide)) body) fun ws => ?_
  have found := typedList_typedPieces h.name_of_mem_groups fun object mem => (untyped object mem).2
  change (do
    let names ← orMalformed (typedList (typedPieces p.objects.groups ++ p.untyped.map .word))
    return { draft with declared := draft.declared ++ names } : WarnM ProblemDraft) ws = _
  rw [found]
  rfl

theorem reads_init (h : ∀ atom ∈ p.init, Flat atom) (none : draft.init = ∅) :
    p.Reads (["  (" ++ ":init"] ++ p.init.toList.map ("    " ++ ·) ++ ["  )"]) draft
      { draft with init := p.init } := by
  have flat : ∀ atom ∈ p.init.toList, Flat atom := fun atom mem =>
    h atom (Std.ExtTreeSet.mem_toList.mp mem)
  obtain ⟨pieces, same, proper⟩ := Flat.exists_pieces flat
  have lines : split (below (p.init.toList.map ("    " ++ ·))) = .ok pieces := by
    rw [← same, List.map_map]
    have each := split_below_map fun p mem =>
      split_blanks (a := "    ") (by decide) (proper p mem).split_text
    rwa [List.map_id'] at each
  refine .single (.block (split_word (a := ":init") (by decide)) lines) fun ws => ?_
  have kept : pieces.map (fun p => flatten p.text) = p.init.toList := by
    rw [← same]
    exact List.map_congr_left fun p mem => (flat _ (same ▸ List.mem_map_of_mem mem)).flat
  have all : draft.init.insertMany (pieces.map fun p => flatten p.text) = p.init := by
    refine Std.ExtTreeSet.ext_mem fun atom => ?_
    rw [kept, none, Std.ExtTreeSet.mem_insertMany_list, List.contains_iff_mem,
      Std.ExtTreeSet.mem_toList]
    exact or_iff_right Std.ExtTreeSet.not_mem_empty
  change (Except.ok { draft with
    init := draft.init.insertMany (pieces.map fun p : Piece => flatten p.text) }, ws) = _
  rw [all]

/-- The lines between the first and the last. -/
def body (p : Problem) : List String :=
  ["  (:domain " ++ p.domain ++ ")"]
    ++ (["  (" ++ ":objects"] ++ (typedLines p.objects ++ untypedLines p.untyped) ++ ["  )"])
    ++ (["  (" ++ ":init"] ++ p.init.toList.map ("    " ++ ·) ++ ["  )"])
    ++ ["  (:goal " ++ p.goal ++ ")"]

theorem lines_eq (p : Problem) :
    p.lines = ["(define (" ++ ("problem" ++ " " ++ p.name) ++ ")"] ++ p.body ++ [")"] := by
  have opened : "(define (problem " = "(define (" ++ ("problem" ++ " ") := rfl
  have objects : "  (:objects" = "  (" ++ ":objects" := rfl
  have init : "  (:init" = "  (" ++ ":init" := rfl
  rw [lines, body, opened, objects, init]
  simp only [String.append_assoc, List.append_assoc, List.cons_append, List.nil_append]

theorem allClean_body (h : p.Printable) (hd : Token p.domain) : AllClean p.body := by
  have domain : Clean ("  (:domain " ++ p.domain ++ ")") :=
    clean_append (clean_append (by decide) hd.clean) (by decide)
  have goal : Clean ("  (:goal " ++ p.goal ++ ")") :=
    clean_append (clean_append (by decide) h.goal.clean) (by decide)
  have objects : AllClean (typedLines p.objects ++ untypedLines p.untyped) :=
    (allClean_typedLines h.objects).append (allClean_untypedLines fun object mem =>
      (untyped_printable h.objects object mem).1.clean)
  have init : AllClean (p.init.toList.map ("    " ++ ·)) := .map fun atom mem =>
    clean_append (by decide) (h.init atom (Std.ExtTreeSet.mem_toList.mp mem)).clean
  have block {head : String} {lines : List String} (hh : Clean ("  (" ++ head))
      (hl : AllClean lines) : AllClean (["  (" ++ head] ++ lines ++ ["  )"]) :=
    ((allClean_singleton hh).append hl).append (allClean_singleton (by decide))
  exact (((allClean_singleton domain).append (block (by decide) objects)).append
    (block (by decide) init)).append (allClean_singleton goal)

/-- The draft that the text of a problem is read as. -/
theorem reads_body (h : p.Printable) (hd : Token p.domain) : p.Reads p.body { name := p.name }
    { name := p.name, domain? := some p.domain, declared := p.listed, init := p.init,
      goal? := some p.goal } :=
  (((reads_domain hd).append (reads_objects h.objects)).append (reads_init h.init rfl)).append
    (reads_goal h.goal)

/-- **A printable problem is read back** from its text, if its groups are made up for the domain. -/
theorem readProblem_text_of_printable (h : p.Printable) (hd : Token d.name)
    (same : p.domain = d.name)
    (closed : p.objects = populate d (constants d ++ p.listed)) (ws : List Warning) :
    readProblem d p.text ws = (.ok p, ws) := by
  have token : Token p.domain := same ▸ hd
  obtain ⟨name, head, read⟩ : ∃ name,
      split ("problem" ++ " " ++ p.name) = .ok (.word "problem" :: name) ∧
        (name.head?.bind Piece.word?).getD "" = p.name := by
    rcases h.name with none | some
    · rw [none]
      exact ⟨[], split_word (a := "problem") (by decide), rfl⟩
    · exact ⟨[.word p.name], split_spaced (split_word (by decide)) (split_word some.word), rfl⟩
  have first : Clean ("(define (" ++ ("problem" ++ " " ++ p.name) ++ ")") :=
    clean_append (clean_append (by decide) (clean_append (by decide)
      (clean_of_empty_or Token.clean h.name))) (by decide)
  obtain ⟨all, sections, run⟩ := reads_body h token
  have found := sections_definition head sections
  rw [← lines_eq] at found
  have stripped := stripComments_intercalate
    ((allClean_singleton first).append (allClean_body h token))
  rw [← lines_eq] at stripped
  let draft : ProblemDraft :=
    { name := p.name, domain? := some p.domain, declared := p.listed, init := p.init,
      goal? := some p.goal }
  refine readProblem_eq_ok_iff.mpr
    ⟨(.word "problem" :: name) :: all, draft, p.domain, p.goal, ?_, ?_, rfl, rfl, ?_⟩
  · rw [text, stripped, found]
  · rw [List.foldlM_cons, ← same]
    refine Session.run_bind_eq_ok.mpr ⟨{ name := p.name }, ws, ?_, run ws⟩
    have named : { name := (name.head?.bind Piece.word?).getD "" } =
        ({ name := p.name } : ProblemDraft) := by rw [read]
    exact congrArg (fun draft => (Except.ok draft, ws)) named
  · rw [ProblemDraft.finish, ← closed]

end Problem

end ClassicalPlanner
