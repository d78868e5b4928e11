import ClassicalPlanner.Pddl.Problem
import ClassicalPlanner.Proofs.Pddl.Ancestors

/-!
# The objects of a problem

Objects are declared with a type.  `populate d declared` is the groups that they make up: each
object belongs to its type, to the types above it, and to the unnamed group.  The groups are closed:
a member of a type is one of every type above it (`mem_populate_of_mem_ancestors`).  So declaring
each member of each type with that type, and the other objects without one, makes up the same groups
again (`populate_eq_of_listed`).
-/

namespace ClassicalPlanner

open Pddl

variable {d : Domain} {type group object : String} {declared listed : List (String × String)}

namespace Problem

theorem mem_groupsOf : group ∈ groupsOf d type ↔
    group = "" ∨ type ≠ "" ∧ (group = type ∨ group ∈ d.ancestors type) := by
  unfold groupsOf
  split
  · rename_i none
    simp [none]
  · rename_i some
    simp [some, Std.ExtTreeSet.mem_toList]

theorem mem_groupsOf_self (type : String) : type ∈ groupsOf d type := by
  rw [mem_groupsOf]
  by_cases none : type = ""
  · exact .inl none
  · exact .inr ⟨none, .inl rfl⟩

/-- Each object with each of its groups. -/
def memberships (d : Domain) (declared : List (String × String)) : List (String × String) :=
  declared.flatMap fun pair => (groupsOf d pair.2).map (pair.1, ·)

theorem mem_memberships : (object, group) ∈ memberships d declared ↔
    ∃ type, (object, type) ∈ declared ∧ group ∈ groupsOf d type := by
  rw [memberships, List.mem_flatMap]
  constructor
  · rintro ⟨⟨o, type⟩, mem, pair⟩
    obtain ⟨g, hg, same⟩ := List.mem_map.mp pair
    cases same
    exact ⟨type, mem, hg⟩
  · rintro ⟨type, mem, hg⟩
    exact ⟨(object, type), mem, List.mem_map_of_mem hg⟩

/-- The groups that declared objects make up. -/
def populate (d : Domain) (declared : List (String × String)) : NameSets :=
  (memberships d declared).foldl (fun sets pair => sets.extend pair.2 [pair.1])
    (NameSets.extend ∅ "" [])

theorem mem_populate : group ∈ populate d declared ↔
    group = "" ∨ ∃ object type, (object, type) ∈ declared ∧ group ∈ groupsOf d type := by
  rw [populate, NameSets.mem_foldl_extend, NameSets.mem_extend,
    or_iff_left NameSets.not_mem_empty]
  refine or_congr Iff.rfl ⟨?_, ?_⟩
  · rintro ⟨⟨object, _⟩, mem, rfl⟩
    exact ⟨object, mem_memberships.mp mem⟩
  · rintro ⟨object, found⟩
    exact ⟨(object, group), mem_memberships.mpr found, rfl⟩

theorem mem_getD_populate : object ∈ (populate d declared).getD group ∅ ↔
    ∃ type, (object, type) ∈ declared ∧ group ∈ groupsOf d type := by
  rw [populate, NameSets.mem_getD_foldl_extend, NameSets.mem_getD_extend_iff, ← mem_memberships]
  constructor
  · rintro ((h | ⟨-, h⟩) | ⟨⟨o, g⟩, mem, rfl, same⟩)
    · exact absurd h NameSets.not_mem_getD_empty
    · exact absurd h List.not_mem_nil
    · rwa [List.mem_singleton.mp same]
  · exact fun mem => .inr ⟨_, mem, rfl, List.mem_singleton_self _⟩

/-- All groups have members but for the unnamed one, which there always is. -/
theorem mem_populate_iff_exists : group ∈ populate d declared ↔
    group = "" ∨ ∃ object, object ∈ (populate d declared).getD group ∅ := by
  simp only [mem_populate, mem_getD_populate]

theorem foldl_addObject (p : Problem) :
    declared.foldl (fun p (object, type) => p.addObject d object type) p =
      { p with
        objects := (memberships d declared).foldl (fun sets pair => sets.extend pair.2 [pair.1])
          p.objects } := by
  induction declared generalizing p with
  | nil => rfl
  | cons pair declared ih =>
      have whole : memberships d (pair :: declared) =
          (groupsOf d pair.2).map (pair.1, ·) ++ memberships d declared := rfl
      rw [List.foldl_cons, ih, whole, List.foldl_append, List.foldl_map]
      rfl

/-! ### Closed groups -/

/-- **A member of a type** is a member of every type above it. -/
theorem mem_populate_of_mem_ancestors (some : type ≠ "")
    (h : object ∈ (populate d declared).getD type ∅) (above : group ∈ d.ancestors type) :
    object ∈ (populate d declared).getD group ∅ := by
  obtain ⟨own, mem, hown⟩ := mem_getD_populate.mp h
  refine mem_getD_populate.mpr ⟨own, mem, mem_groupsOf.mpr (.inr ?_)⟩
  obtain ⟨typed, hown⟩ := (mem_groupsOf.mp hown).resolve_left some
  refine ⟨typed, ?_⟩
  rcases hown with rfl | hown
  · exact .inr above
  · exact Domain.mem_ancestors_trans hown above

/-- A member of some group is an object. -/
theorem mem_unnamed_of_mem (h : object ∈ (populate d declared).getD group ∅) :
    object ∈ (populate d declared).getD "" ∅ := by
  obtain ⟨type, mem, -⟩ := mem_getD_populate.mp h
  exact mem_getD_populate.mpr ⟨type, mem, mem_groupsOf.mpr (.inl rfl)⟩

/-- A member of a type belongs to all groups of that type. -/
theorem mem_populate_of_mem_groupsOf (h : object ∈ (populate d declared).getD type ∅)
    (hg : group ∈ groupsOf d type) : object ∈ (populate d declared).getD group ∅ := by
  rcases mem_groupsOf.mp hg with rfl | ⟨some, rfl | above⟩
  · exact mem_unnamed_of_mem h
  · exact h
  · exact mem_populate_of_mem_ancestors some h above

/-- What is listed of some groups: each member of each type, and the objects of no type. -/
structure Lists (sets : NameSets) (listed : List (String × String)) : Prop where
  typed : ∀ {object type}, type ≠ "" →
    ((object, type) ∈ listed ↔ object ∈ sets.getD type ∅)
  untyped : ∀ {object}, (object, "") ∈ listed ↔
    object ∈ sets.getD "" ∅ ∧ ∀ type, type ≠ "" → object ∉ sets.getD type ∅

theorem Lists.mem (h : Lists (populate d declared) listed) (mem : (object, type) ∈ listed) :
    object ∈ (populate d declared).getD type ∅ := by
  by_cases none : type = ""
  · subst none
    exact (h.untyped.mp mem).1
  · exact (h.typed none).mp mem

/-- **The groups are made up again** from what is listed of them, also if some of the objects that
were declared are declared again. -/
theorem populate_eq_of_listed {again : List (String × String)} (sub : again ⊆ declared)
    (h : Lists (populate d declared) listed) :
    populate d (again ++ listed) = populate d declared := by
  have members {group object : String} : object ∈ (populate d (again ++ listed)).getD group ∅ ↔
      object ∈ (populate d declared).getD group ∅ := by
    constructor
    · intro mem
      obtain ⟨type, mem, hg⟩ := mem_getD_populate.mp mem
      rcases List.mem_append.mp mem with mem | mem
      · exact mem_getD_populate.mpr ⟨type, sub mem, hg⟩
      · exact mem_populate_of_mem_groupsOf (h.mem mem) hg
    · intro mem
      have listed_as {type : String} (mem : (object, type) ∈ listed)
          (hg : group ∈ groupsOf d type) :
          object ∈ (populate d (again ++ listed)).getD group ∅ :=
        mem_getD_populate.mpr ⟨type, List.mem_append_right _ mem, hg⟩
      by_cases none : group = ""
      · by_cases typed : ∃ type, type ≠ "" ∧ object ∈ (populate d declared).getD type ∅
        · obtain ⟨type, some, mem⟩ := typed
          exact listed_as ((h.typed some).mpr mem) (mem_groupsOf.mpr (.inl none))
        · subst none
          refine listed_as (h.untyped.mpr ⟨mem, fun type some mem => ?_⟩) (mem_groupsOf_self _)
          exact typed ⟨type, some, mem⟩
      · exact listed_as ((h.typed none).mpr mem) (mem_groupsOf_self _)
  refine NameSets.ext_members (fun group => ?_) fun group object => members
  rw [mem_populate_iff_exists, mem_populate_iff_exists]
  simp only [members]

end Problem

/-! ### Constants -/

theorem Pddl.mem_constants {name : String} :
    (name, group) ∈ constants d ↔ name ∈ d.constants.getD group ∅ := by
  rw [constants, NameSets.mem_getD_iff_entry, List.mem_flatMap]
  exact exists_congr fun entry => and_congr_right fun _ => by simp [and_comm]

end ClassicalPlanner
