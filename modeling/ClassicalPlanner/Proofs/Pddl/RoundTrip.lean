import ClassicalPlanner.Proofs.Pddl.ProblemText

/-!
# Definitions read back

A problem that has been read from a plain text is read back from its own text as it is, since its
groups are closed (`readProblem_text`).  A domain is read back but for its constants without a type,
which its text leaves out; problems of the domain that is read back lack just these objects, and
only in the unnamed group (`readDomain_text`).  All else of a domain is as it was
(`survives_printing`).
-/

namespace ClassicalPlanner.Pddl

open Text Problem Piece

variable {d : Domain} {p : Problem} {domain problem : String} {ws ws' us us' : List Warning}

/-! ### Problems -/

/-- **A problem is read back** from its own text. -/
theorem readProblem_text (plain : Plain domain.toList) (plain' : Plain problem.toList)
    (read : readDomain domain ws = (.ok d, ws')) (read' : readProblem d problem us = (.ok p, us'))
    (vs : List Warning) : readProblem d p.text vs = (.ok p, vs) := by
  obtain ⟨hd, name⟩ := printable_readDomain plain read
  obtain ⟨hp, same⟩ := printable_readProblem hd plain' read'
  refine readProblem_text_of_printable hp name same ?_ vs
  obtain ⟨all, draft, domain, goal, -, -, -, -, rfl⟩ := readProblem_eq_ok_iff.mp read'
  have listed := lists_listed (draft.finish d domain goal)
  exact (populate_eq_of_listed (List.subset_append_left _ _) listed).symm

/-- A domain of two types, one above the other, with a constant in one and one without a type. -/
def depot : Domain where
  name := "d"
  types := NameSets.extend ∅ "a" ["b"]
  constants := (NameSets.extend ∅ "a" ["x"]).extend "" ["y"]

theorem readDomain_depot :
    readDomain "(define (domain d) (:types a - b) (:constants x - a y))" [] = (.ok depot, []) :=
  readDomain_eq_ok_iff.mpr ⟨_, sections_ofList rfl rfl <|
    .cons (split_ofList _) (.cons (split_ofList _) (.cons (split_ofList _) .nil)), rfl⟩

/-- A problem of this domain, with one more object of the lower type. -/
def delivery : Problem where
  name := "p"
  domain := "d"
  objects := populate depot [("x", "a"), ("y", ""), ("z", "a")]
  goal := "(on z)"

theorem readProblem_text_delivery : readProblem depot delivery.text [] = (.ok delivery, []) := by
  have read : readProblem depot
      "(define (problem p) (:domain d) (:objects z - a) (:goal (on	z)))" [] = (.ok delivery, []) :=
    readProblem_eq_ok_iff.mpr ⟨_, _, _, _, sections_ofList rfl rfl <| .cons (split_ofList _) <|
      .cons (split_ofList _) (.cons (split_ofList _) (.cons (split_ofList _) .nil)),
      by rfl, by rfl, by rfl, by decide⟩
  exact readProblem_text (plain_of_ascii (all_ofList (by decide)))
    (plain_of_ascii (all_ofList (by decide))) readDomain_depot read []

/-! ### Domains -/

theorem mem_groupsOf_printed {group type : String} :
    group ∈ groupsOf d.printed type ↔ group ∈ groupsOf d type := by
  rw [mem_groupsOf, mem_groupsOf, Domain.mem_ancestors_iff, Domain.mem_ancestors_iff]
  rfl

theorem mem_constants_printed {group name : String} :
    (name, group) ∈ constants d.printed ↔ group ≠ "" ∧ (name, group) ∈ constants d := by
  rw [mem_constants, mem_constants]
  exact NameSets.mem_getD_erase

variable {declared : List (String × String)} {group object : String}

/-- An object that is a constant without a type belongs to the unnamed group only. -/
theorem mem_populate_printed : object ∈ (populate d (constants d ++ declared)).getD group ∅ ↔
    object ∈ (populate d.printed (constants d.printed ++ declared)).getD group ∅ ∨
      group = "" ∧ (object, "") ∈ constants d := by
  rw [mem_getD_populate, mem_getD_populate]
  simp only [List.mem_append, mem_constants_printed, mem_groupsOf_printed]
  constructor
  · rintro ⟨type, known | known, hg⟩
    · by_cases none : type = ""
      · subst none
        exact .inr ⟨(mem_groupsOf.mp hg).resolve_right fun h => h.1 rfl, known⟩
      · exact .inl ⟨type, .inl ⟨none, known⟩, hg⟩
    · exact .inl ⟨type, .inr known, hg⟩
  · rintro (⟨type, ⟨-, known⟩ | known, hg⟩ | ⟨rfl, known⟩)
    · exact ⟨type, .inl known, hg⟩
    · exact ⟨type, .inr known, hg⟩
    · exact ⟨"", .inl known, mem_groupsOf_self ""⟩

theorem getElem?_populate_printed (some : group ≠ "") :
    (populate d.printed (constants d.printed ++ declared))[group]? =
      (populate d (constants d ++ declared))[group]? := by
  have members (object : String) :
      object ∈ (populate d.printed (constants d.printed ++ declared)).getD group ∅ ↔
        object ∈ (populate d (constants d ++ declared)).getD group ∅ :=
    (mem_populate_printed.trans (or_iff_left fun h => some h.1)).symm
  refine NameSets.getElem?_congr ?_ members
  rw [mem_populate_iff_exists, mem_populate_iff_exists]
  simp only [members]

/-- **A domain is read back** from its own text but for its constants without a type.  So all
constants survive if and only if all have a type, and a problem that is read for the domain is also
read for the one that is read back, with the same members in each named group; what it lacks are the
constants without a type among all objects. -/
theorem readDomain_text (plain : Plain domain.toList)
    (read : readDomain domain ws = (.ok d, ws')) :
    (∀ vs, readDomain d.text vs = (.ok { d with constants := d.constants.erase "" }, vs)) ∧
    (d.constants.erase "" = d.constants ↔ "" ∉ d.constants) ∧
    ∀ {problem us p us'}, readProblem d problem us = (.ok p, us') →
      ∃ p', readProblem { d with constants := d.constants.erase "" } problem us = (.ok p', us') ∧
        p' = { p with objects := p'.objects } ∧
        (∀ group, group ≠ "" → p'.objects[group]? = p.objects[group]?) ∧
        ∀ object, object ∈ p.objects.getD "" ∅ ↔
          object ∈ p'.objects.getD "" ∅ ∨ object ∈ d.constants.getD "" ∅ := by
  obtain ⟨hd, name⟩ := printable_readDomain plain read
  refine ⟨Domain.readDomain_text_of_printable hd name, ?_, fun {problem us p us'} h => ?_⟩
  · constructor
    · intro same known
      rw [← same, NameSets.mem_erase] at known
      exact known.1 rfl
    · intro typed
      refine NameSets.ext_members (fun group => ?_) fun group name => ?_
      · rw [NameSets.mem_erase]
        exact and_iff_right_of_imp fun known none => typed (none ▸ known)
      · rw [NameSets.mem_getD_erase]
        exact and_iff_right_of_imp fun mem none => typed (none ▸ NameSets.mem_of_mem_getD mem)
  · obtain ⟨all, draft, domain, goal, found, fold, hdomain, hgoal, rfl⟩ :=
      readProblem_eq_ok_iff.mp h
    refine ⟨draft.finish d.printed domain goal,
      readProblem_eq_ok_iff.mpr ⟨all, draft, domain, goal, found, fold, hdomain, hgoal, rfl⟩, rfl,
      fun group some => getElem?_populate_printed some, fun object => ?_⟩
    refine mem_populate_printed.trans (or_congr Iff.rfl ?_)
    rw [mem_constants]
    exact and_iff_right rfl

/-- The depot is read back without its constant `y`. -/
theorem readDomain_text_depot :
    readDomain depot.text [] = (.ok { depot with constants := depot.constants.erase "" }, []) :=
  (readDomain_text (plain_of_ascii (all_ofList (by decide))) readDomain_depot).1 []

/-- A constant without a type does not survive, nor does a problem that has it. -/
theorem constant_lost : ∃ d d' p p',
    (readDomain "(define (domain d) (:constants a))" []).1 = .ok d ∧
    (readDomain d.text []).1 = .ok d' ∧ d'.constants ≠ d.constants ∧
    (readProblem d "(define (problem p) (:domain d) (:goal (on a)))" []).1 = .ok p ∧
    (readProblem d' "(define (problem p) (:domain d) (:goal (on a)))" []).1 = .ok p' ∧ p' ≠ p := by
  let d : Domain := { name := "d", constants := NameSets.extend ∅ "" ["a"] }
  let d' : Domain := { name := "d" }
  have first : readDomain "(define (domain d) (:constants a))" [] = (.ok d, []) :=
    readDomain_eq_ok_iff.mpr ⟨_, sections_ofList rfl rfl <|
      .cons (split_ofList _) (.cons (split_ofList _) .nil), rfl⟩
  have second : readDomain d.text [] = (.ok d', []) := by
    obtain ⟨printable, name⟩ := printable_readDomain (plain_of_ascii (all_ofList (by decide))) first
    exact Domain.readDomain_text_of_printable printable name []
  have sections : sections (stripComments "(define (problem p) (:domain d) (:goal (on a)))") =
      .ok [[.word "problem", .word "p"], [.word ":domain", .word "d"],
        [.word ":goal", .group "on a"]] :=
    sections_ofList rfl rfl <|
      .cons (split_ofList _) (.cons (split_ofList _) (.cons (split_ofList _) .nil))
  let p (objects : List String) : Problem :=
    { name := "p", domain := "d", objects := NameSets.extend ∅ "" objects, goal := "(on a)" }
  have third : readProblem d "(define (problem p) (:domain d) (:goal (on a)))" [] =
      (.ok (p ["a"]), []) :=
    readProblem_eq_ok_iff.mpr ⟨_, _, _, _, sections, by rfl, by rfl, by rfl, by rfl⟩
  have fourth : readProblem d' "(define (problem p) (:domain d) (:goal (on a)))" [] =
      (.ok (p []), []) :=
    readProblem_eq_ok_iff.mpr ⟨_, _, _, _, sections, by rfl, by rfl, by rfl, by rfl⟩
  exact ⟨d, d', p ["a"], p [], congrArg Prod.fst first, congrArg Prod.fst second, by decide,
    congrArg Prod.fst third, congrArg Prod.fst fourth, by decide⟩

/-- **All of a domain but its constants survives printing.**  The text of a domain that has been
read from an ASCII text without vertical tabs is read, without a warning, as a domain with the same
name, requirements, types with their parents, predicates and actions. -/
theorem survives_printing (ascii : domain.toList.all fun c => c.toNat < 128 && c != '\x0b')
    (read : readDomain domain ws = (.ok d, ws')) (vs : List Warning) :
    ∃ d', readDomain d.text vs = (.ok d', vs) ∧ d'.name = d.name ∧
      d'.requirements = d.requirements ∧ d'.types = d.types ∧ d'.predicates = d.predicates ∧
      d'.actions = d.actions := by
  obtain ⟨hd, name⟩ := printable_readDomain (plain_of_ascii ascii) read
  exact ⟨d.printed, Domain.readDomain_text_of_printable hd name vs, rfl, rfl, rfl, rfl, rfl⟩

namespace Warehouse

/-- The sections are out of order, a type has two parents and another none, and a parameter without
a type comes last. -/
def text : String := "(define (domain w) (:action a :parameters (?c - b ?d) :effect (p
  ?c)) (:predicates (p ?c - b)) (:types b - e b - f g))"

def reading : Domain where
  name := "w"
  types := (NameSets.extend ∅ "b" ["e", "f"]).extend "g" []
  predicates := ["(p ?c - b)"]
  actions := [{ name := "a", parameters := [⟨"?c", "b"⟩, ⟨"?d", ""⟩], effect := "(p ?c)" }]

end Warehouse

theorem readDomain_warehouse : readDomain Warehouse.text [] = (.ok Warehouse.reading, []) :=
  readDomain_eq_ok_iff.mpr ⟨_, sections_ofList rfl rfl <| .cons (split_ofList _) <|
    .cons (split_ofList _) (.cons (split_ofList _) (.cons (split_ofList _) .nil)),
    Prod.ext (by decide) (by rfl)⟩

theorem survives_printing_warehouse :
    readDomain Warehouse.text [] = (.ok Warehouse.reading, []) ∧
    ∃ d', readDomain Warehouse.reading.text [] = (.ok d', []) ∧ d'.types = Warehouse.reading.types ∧
      d'.actions = Warehouse.reading.actions := by
  obtain ⟨d', again, -, -, types, -, actions⟩ :=
    survives_printing (all_ofList (by decide)) readDomain_warehouse []
  exact ⟨readDomain_warehouse, d', again, types, actions⟩

end ClassicalPlanner.Pddl
