import ClassicalPlanner.Proofs.Pddl.Failure
import ClassicalPlanner.Proofs.Pddl.TypedList

/-!
# What the texts declare

The sections of a definition list names with types.  `Listed text keyword name type` says that some
section of the text with that keyword lists the name with the type, where a name without one is
listed with the empty type.

What has been read of the texts is just what they list: the constants of a domain and the links
between its types (`mem_constants_iff`, `link_iff`), and the objects of a problem with their types
(`mem_objects_iff`).  So an object belongs to the unnamed group, to the type that it is listed with,
and to each type that is reached from there over the links that are listed
(`mem_objects_iff_reached`).
-/

namespace ClassicalPlanner.Pddl

open Session

variable {pieces body : List Piece} {pairs : List (String × String)} {d d' : Domain} {p : Problem}
variable {draft draft' : ProblemDraft} {ws ws' us us' : List Warning} {named named' : Bool}
variable {text domainText problemText keyword name type child parent object group : String}

/-- The section has the keyword, and lists the name with the type. -/
def Lists (keyword name type : String) (pieces : List Piece) : Prop :=
  ∃ body pairs, pieces = .word keyword :: body ∧ TypedAs body pairs ∧ (name, type) ∈ pairs

/-- Some section of the definition with the keyword lists the name with the type. -/
def Listed (text keyword name type : String) : Prop :=
  ∃ all, sections (stripComments text) = .ok all ∧ ∃ pieces ∈ all, Lists keyword name type pieces

theorem lists_iff (h : typedList body = .ok pairs) :
    Lists keyword name type (.word keyword :: body) ↔ (name, type) ∈ pairs := by
  constructor
  · rintro ⟨body', pairs', same, typed, mem⟩
    cases same
    cases h.symm.trans (typedList_eq_ok_iff.mpr typed)
    exact mem
  · exact fun mem => ⟨body, pairs, rfl, typedList_eq_ok_iff.mp h, mem⟩

/-- Only a section with the keyword lists anything under it. -/
theorem not_lists (other : sectionName? pieces ≠ some keyword) :
    ¬ Lists keyword name type pieces := by
  rintro ⟨body, pairs, rfl, -, -⟩
  exact other rfl

theorem not_lists_word {word : String} (other : word ≠ keyword) :
    ¬ Lists keyword name type (.word word :: body) :=
  not_lists fun same => other (Option.some.inj same)

theorem listed_iff {all : List (List Piece)} (h : sections (stripComments text) = .ok all) :
    Listed text keyword name type ↔ ∃ pieces ∈ all, Lists keyword name type pieces := by
  constructor
  · rintro ⟨all', h', listed⟩
    cases h.symm.trans h'
    exact listed
  · exact fun listed => ⟨all, h, listed⟩

/-- Names that are listed are not empty. -/
theorem Listed.ne_empty (h : Listed text keyword name type) : name ≠ "" := by
  obtain ⟨all, found, _, mem, body, pairs, rfl, typed, listed⟩ := h
  have words : Words (· ≠ "") body := by
    rintro w hw rfl
    have proper := proper_sections found _ mem _ (List.mem_cons_of_mem _ hw)
    exact proper.ne_nil rfl
  obtain ⟨typed, untyped, rfl, ok⟩ := typedList_eq_ok words (typedList_eq_ok_iff.mpr typed)
  rcases List.mem_append.mp listed with mem | mem
  · exact (ok.name _ mem).1
  · obtain ⟨_, mem', same⟩ := List.mem_map.mp mem
    cases same
    exact (ok.last _ mem').1

/-! ### Domains -/

/-- What a section adds to the constants. -/
theorem Declares.mem_constants (h : Declares d named pieces d' named') :
    name ∈ d'.constants.getD type ∅ ↔
      name ∈ d.constants.getD type ∅ ∨ Lists ":constants" name type pieces := by
  cases h with
  | constants found => rw [mem_getD_declareConstants, lists_iff found]
  | other _ constants => exact (or_iff_left (not_lists constants)).symm
  | _ => exact (or_iff_left (not_lists_word (by decide))).symm

/-- What a section adds to the links between types. -/
theorem Declares.link (h : Declares d named pieces d' named') : d'.Link child parent ↔
    d.Link child parent ∨ Lists ":types" child parent pieces ∧ parent ≠ "" := by
  cases h with
  | types found =>
      rw [lists_iff found]
      refine mem_parents_declareTypes.trans (or_congr Iff.rfl ?_)
      exact ⟨fun ⟨_, mem, same, typed⟩ => ⟨same ▸ mem, typed⟩,
        fun ⟨mem, typed⟩ => ⟨_, mem, rfl, typed⟩⟩
  | other types _ => exact (or_iff_left fun h => not_lists types h.1).symm
  | _ => exact (or_iff_left fun h => not_lists_word (by decide) h.1).symm

/-- What each section of a domain adds, the whole text adds. -/
theorem readDomain_iff {I : Domain → Prop} {Q : List Piece → Prop} (start : ¬ I {})
    (step : ∀ {d named pieces d' named'}, Declares d named pieces d' named' →
      (I d' ↔ I d ∨ Q pieces))
    (h : readDomain text ws = (.ok d, ws')) :
    ∃ all, sections (stripComments text) = .ok all ∧ (I d ↔ ∃ pieces ∈ all, Q pieces) := by
  obtain ⟨all, found, read⟩ := readDomain_eq_ok_iff.mp h
  have whole := foldlM_iff (P := fun both : Domain × Bool => I both.1)
    (fun _ h => step (declares_of_readDomainSection h)) read
  exact ⟨all, found, whole.trans (or_iff_right start)⟩

/-- **The constants of a domain** are those that its text lists. -/
theorem mem_constants_iff (h : readDomain text ws = (.ok d, ws')) :
    name ∈ d.constants.getD type ∅ ↔ Listed text ":constants" name type := by
  obtain ⟨all, found, whole⟩ := readDomain_iff NameSets.not_mem_getD_empty Declares.mem_constants h
  exact whole.trans (listed_iff found).symm

/-- The text lists the type under a parent. -/
def Linked (text child parent : String) : Prop := Listed text ":types" child parent ∧ parent ≠ ""

/-- **The links of a domain** are those that its text lists. -/
theorem link_iff (h : readDomain text ws = (.ok d, ws')) :
    d.Link child parent ↔ Linked text child parent := by
  obtain ⟨all, found, whole⟩ := readDomain_iff NameSets.not_mem_getD_empty Declares.link h
  rw [whole, Linked, listed_iff found]
  exact ⟨fun ⟨pieces, mem, listed, typed⟩ => ⟨⟨pieces, mem, listed⟩, typed⟩,
    fun ⟨⟨pieces, mem, listed⟩, typed⟩ => ⟨pieces, mem, listed, typed⟩⟩

/-! ### Problems -/

/-- What a section adds to the objects. -/
theorem Describes.mem_declared {domain : String} (h : Describes domain draft pieces draft') :
    (object, type) ∈ draft'.declared ↔
      (object, type) ∈ draft.declared ∨ Lists ":objects" object type pieces := by
  cases h with
  | objects found => rw [List.mem_append, lists_iff found]
  | other objects => exact (or_iff_left (not_lists objects)).symm
  | _ => exact (or_iff_left (not_lists_word (by decide))).symm

/-- The texts list the object with the type: the problem as an object, or the domain as a
constant. -/
def Declared (domainText problemText object type : String) : Prop :=
  Listed problemText ":objects" object type ∨ Listed domainText ":constants" object type

/-- **The objects of a problem** are those that the texts list, in all groups of their types. -/
theorem mem_objects_iff (hd : readDomain domainText ws = (.ok d, ws'))
    (hp : readProblem d problemText us = (.ok p, us')) :
    object ∈ p.objects.getD group ∅ ↔ ∃ type, Declared domainText problemText object type ∧
      group ∈ Problem.groupsOf d type := by
  obtain ⟨all, draft, domain, goal, found, hread, -, -, rfl⟩ := readProblem_eq_ok_iff.mp hp
  have listed (type : String) :
      (object, type) ∈ draft.declared ↔ Listed problemText ":objects" object type := by
    have step {draft draft' : ProblemDraft} {pieces : List Piece} {us us' : List Warning}
        (h : readProblemSection d.name draft pieces us = (.ok draft', us')) :
        (object, type) ∈ draft'.declared ↔
          (object, type) ∈ draft.declared ∨ Lists ":objects" object type pieces :=
      (describes_of_readProblemSection h).mem_declared
    have whole := foldlM_iff (P := fun draft : ProblemDraft => (object, type) ∈ draft.declared)
      (fun _ h => step h) hread
    exact (whole.trans (or_iff_right List.not_mem_nil)).trans (listed_iff found).symm
  refine Problem.mem_getD_populate.trans (exists_congr fun type => and_congr_left fun _ => ?_)
  rw [List.mem_append, mem_constants, mem_constants_iff hd, listed, Declared, or_comm]

/-- **The groups of an object** are the unnamed one, the type that it is listed with, and the types
reached from there over links.  There may be cycles among the links. -/
theorem mem_objects_iff_reached (hd : readDomain domainText ws = (.ok d, ws'))
    (hp : readProblem d problemText us = (.ok p, us')) :
    object ∈ p.objects.getD group ∅ ↔ ∃ type, Declared domainText problemText object type ∧
      (group = "" ∨ group = type ∧ type ≠ "" ∨
        Relation.TransGen (Linked domainText) type group) := by
  have links : d.Link = Linked domainText :=
    funext fun child => funext fun parent => propext (link_iff hd)
  refine (mem_objects_iff hd hp).trans (exists_congr fun type => and_congr_right fun _ => ?_)
  rw [Problem.mem_groupsOf, Domain.mem_ancestors_iff, Domain.Above, links]
  refine or_congr Iff.rfl ⟨?_, ?_⟩
  · rintro ⟨typed, rfl | ⟨-, above⟩⟩
    · exact .inl ⟨rfl, typed⟩
    · exact .inr above
  · rintro (⟨rfl, typed⟩ | above)
    · exact ⟨typed, .inl rfl⟩
    · have typed : type ≠ "" := by
        -- no link leads out of the empty type
        obtain ⟨_, link, -⟩ := Relation.TransGen.head'_iff.mp above
        exact link.1.ne_empty
      by_cases same : group = type
      · exact ⟨typed, .inl same⟩
      · exact ⟨typed, .inr ⟨same, above⟩⟩

end ClassicalPlanner.Pddl
