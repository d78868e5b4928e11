import ClassicalPlanner.Model.Problem
import ClassicalPlanner.Proofs.Pddl.NameSets
import Mathlib.Data.List.Perm.Subperm
import Mathlib.Data.Multiset.AddSub
import Mathlib.Logic.Relation

/-!
# The types above a type

`Domain.Above d type t` says that a chain of links to parents leads from `type` to `t`.  The
ancestors of a type are the types above it but for itself (`mem_ancestors_iff`), also where the
hierarchy runs in circles.

A climb from a type takes one pending type each turn, and it does not matter which (`Climbs`).  All
that is found lies above the type (`Climbs.above`), and where a link leads to what has not been
found, its type is pending (`Climbs.followed`).  Each type is pending once, and some link leads to
it, so the number of links bounds the turns (`Climbs.turns_le`).

So an ancestor of an ancestor is one too, unless it is the type itself (`mem_ancestors_trans`).
-/

namespace ClassicalPlanner.Domain

variable {d : Domain} {type t t' : String} {turns times : Nat} {found : NameSet}
variable {pending : Multiset String}

/-- There is a link from a type to a parent. -/
def Link (d : Domain) (t parent : String) : Prop := parent ∈ d.parents t

/-- A chain of links leads from a type to another. -/
def Above (d : Domain) (type t : String) : Prop := Relation.TransGen d.Link type t

/-- The parents of a type that have not been found. -/
def fresh (d : Domain) (type : String) (found : NameSet) (current : String) : List String :=
  (d.parents current).toList.filter fun t => t != type && !found.contains t

theorem not_contains_iff : (!found.contains t) = true ↔ t ∉ found := by
  rw [Bool.not_eq_true', ← Bool.not_eq_true, Std.ExtTreeSet.contains_iff_mem]

theorem mem_fresh {current : String} :
    t ∈ d.fresh type found current ↔ d.Link current t ∧ t ≠ type ∧ t ∉ found := by
  rw [fresh, List.mem_filter, Std.ExtTreeSet.mem_toList, Bool.and_eq_true, bne_iff_ne,
    not_contains_iff]
  rfl

theorem nodup_fresh {current : String} : (d.fresh type found current).Nodup := by
  refine List.Pairwise.filter _ ?_
  have := Std.ExtTreeSet.distinct_toList (t := d.parents current)
  exact this.imp fun different same => different (Std.LawfulEqCmp.compare_eq_iff_eq.mpr same)

theorem mem_insertMany {new : List String} : t ∈ found.insertMany new ↔ t ∈ found ∨ t ∈ new := by
  rw [Std.ExtTreeSet.mem_insertMany_list, List.contains_iff_mem]

/-! ### Turns of a climb -/

/-- What has been found and what is pending after some turns of a climb.  A turn takes any type that
is pending; its parents that are new have been found then, and are pending. -/
inductive Climbs (d : Domain) (type : String) : Nat → NameSet → Multiset String → Prop where
  | start : Climbs d type 0 ∅ {type}
  | turn {turns : Nat} {found : NameSet} {current : String} {pending : Multiset String}
      (h : Climbs d type turns found (current ::ₘ pending)) :
      Climbs d type (turns + 1) (found.insertMany (d.fresh type found current))
        (d.fresh type found current + pending)

/-- **All that is found lies above the type.** -/
theorem Climbs.above (h : d.Climbs type turns found pending) :
    (∀ t ∈ found, t ≠ type ∧ d.Above type t) ∧ ∀ t ∈ pending, t = type ∨ d.Above type t := by
  induction h with
  | start =>
      refine ⟨fun t mem => absurd mem Std.ExtTreeSet.not_mem_empty, fun t mem => ?_⟩
      exact .inl (Multiset.mem_singleton.mp mem)
  | @turn _ found current _ _ ih =>
      obtain ⟨known, waiting⟩ := ih
      obtain ⟨first, rest⟩ := Multiset.forall_mem_cons.mp waiting
      have fresh : ∀ t ∈ d.fresh type found current, t ≠ type ∧ d.Above type t := by
        intro t mem
        obtain ⟨link, other, -⟩ := mem_fresh.mp mem
        refine ⟨other, ?_⟩
        rcases first with rfl | above
        · exact .single link
        · exact .tail above link
      refine ⟨fun t mem => (mem_insertMany.mp mem).elim (known t) (fresh t), fun t mem => ?_⟩
      rcases Multiset.mem_add.mp mem with new | old
      · exact .inr (fresh t new).2
      · exact rest t old

/-- **All links have been followed**, but for those of pending types. -/
theorem Climbs.followed (h : d.Climbs type turns found pending) (known : t = type ∨ t ∈ found) :
    t ∈ pending ∨ ∀ t', d.Link t t' → t' = type ∨ t' ∈ found := by
  induction h with
  | start =>
      rcases known with rfl | known
      · exact .inl (Multiset.mem_singleton_self _)
      · exact absurd known Std.ExtTreeSet.not_mem_empty
  | @turn _ found current _ _ ih =>
      simp only [mem_insertMany, Multiset.mem_add, Multiset.mem_coe] at known ⊢
      rcases or_assoc.mpr known with old | new
      · rcases ih old with mem | links
        · rcases Multiset.mem_cons.mp mem with rfl | mem
          -- the links of the type that was pending have just been followed
          · refine .inr fun t' link => ?_
            by_cases other : t' = type
            · exact .inl other
            · by_cases seen : t' ∈ found
              · exact .inr (.inl seen)
              · exact .inr (.inr (mem_fresh.mpr ⟨link, other, seen⟩))
          · exact .inl (.inr mem)
        · exact .inr fun t' link => (links t' link).imp id .inl
      · exact .inl (.inl new)

/-! ### The number of turns -/

/-- The types that some link leads to, once for each link. -/
def targets (d : Domain) : List String := d.types.toList.flatMap fun entry => entry.2.toList

theorem length_targets (d : Domain) : d.targets.length = d.linkCount := by
  have count (l : List (String × NameSet)) (n : Nat) :
      l.foldl (fun n entry => n + entry.2.size) n =
        n + (l.flatMap fun entry => entry.2.toList).length := by
    induction l generalizing n with
    | nil => rfl
    | cons entry l ih =>
        rw [List.foldl_cons, ih, List.flatMap_cons, List.length_append,
          Std.ExtTreeSet.length_toList, Nat.add_assoc]
  rw [linkCount, Std.ExtTreeMap.foldl_eq_foldl_toList, count, Nat.zero_add]
  rfl

theorem mem_targets (h : d.Link t t') : t' ∈ d.targets := by
  obtain ⟨entry, known, -, mem⟩ := NameSets.mem_getD_iff_entry.mp h
  exact List.mem_flatMap.mpr ⟨entry, known, mem⟩

/-- The targets that have not been found. -/
def missing (d : Domain) (found : NameSet) : List String :=
  d.targets.filter (!found.contains ·)

/-- What is newly found is no longer missing. -/
theorem length_missing_insertMany (d : Domain) (type : String) (found : NameSet)
    (current : String) :
    (d.missing (found.insertMany (d.fresh type found current))).length +
      (d.fresh type found current).length ≤ (d.missing found).length := by
  have rest : d.missing (found.insertMany (d.fresh type found current)) =
      (d.missing found).filter (· ∉ d.fresh type found current) := by
    rw [missing, missing, List.filter_filter]
    refine List.filter_congr fun t _ => ?_
    rw [Bool.eq_iff_iff, Bool.and_eq_true, not_contains_iff, not_contains_iff, decide_eq_true_eq,
      mem_insertMany, not_or, and_comm]
  have enough : (d.fresh type found current).length ≤
      ((d.missing found).filter (· ∈ d.fresh type found current)).length := by
    refine (List.Nodup.subperm nodup_fresh fun t mem => ?_).length_le
    obtain ⟨link, -, absent⟩ := mem_fresh.mp mem
    exact List.mem_filter.mpr ⟨List.mem_filter.mpr ⟨mem_targets link, not_contains_iff.mpr absent⟩,
      decide_eq_true mem⟩
  have parts := List.length_eq_length_filter_add (l := d.missing found)
    (decide <| · ∈ d.fresh type found current)
  simp only [decide_not] at rest
  rw [rest]
  omega

/-- **A climb takes no more turns** than there are links, and one for the type itself: what is
pending or missing is still to come. -/
theorem Climbs.turns_le (h : d.Climbs type turns found pending) :
    turns + pending.card + (d.missing found).length ≤ d.linkCount + 1 := by
  induction h with
  | start =>
      have few : (d.missing ∅).length ≤ d.linkCount :=
        d.length_targets ▸ List.length_filter_le _ _
      rw [Multiset.card_singleton]
      omega
  | @turn _ found current _ _ ih =>
      have fewer := length_missing_insertMany d type found current
      rw [Multiset.card_cons] at ih
      rw [Multiset.card_add, Multiset.coe_card]
      omega

/-! ### The end of a climb -/

/-- **Once nothing is pending**, the types above have been found, and no others. -/
theorem Climbs.mem_iff (h : d.Climbs type turns found 0) :
    t ∈ found ↔ t ≠ type ∧ d.Above type t := by
  have closed {t t' : String} (known : t = type ∨ t ∈ found) (link : d.Link t t') :
      t' = type ∨ t' ∈ found :=
    (h.followed known).resolve_left (Multiset.notMem_zero t) t' link
  have reach {t : String} (above : d.Above type t) : t = type ∨ t ∈ found := by
    induction above with
    | single link => exact closed (.inl rfl) link
    | tail _ link ih => exact closed ih link
  exact ⟨h.above.1 t, fun ⟨other, above⟩ => (reach above).resolve_left other⟩

/-- A bounded climb takes turns until nothing is pending or the bound is reached. -/
theorem Climbs.climb {pending : List String} (h : d.Climbs type turns found pending) :
    ∃ turns' rest, d.Climbs type turns' (d.climb type times found pending) rest ∧
      (rest = 0 ∨ turns' = turns + times) := by
  induction times generalizing turns found pending with
  | zero => exact ⟨turns, pending, h, .inr rfl⟩
  | succ times ih =>
      cases pending with
      | nil => exact ⟨turns, 0, h, .inl rfl⟩
      | cons current pending =>
          have next : d.Climbs type (turns + 1) (found.insertMany (d.fresh type found current))
              (d.fresh type found current + pending) := .turn h
          rw [Multiset.coe_add] at next
          obtain ⟨turns', rest, climbs, ends⟩ := ih next
          exact ⟨turns', rest, climbs, ends.imp_right (by omega)⟩

/-- The bound on the climb to the ancestors is never what ends it. -/
theorem climbs_ancestors (d : Domain) (type : String) :
    ∃ turns, d.Climbs type turns (d.ancestors type) 0 := by
  obtain ⟨turns, rest, climbs, ends⟩ := Climbs.climb (.start (d := d))
  rcases ends with rfl | all
  · exact ⟨turns, climbs⟩
  · have few := climbs.turns_le
    obtain rfl : rest = 0 := Multiset.card_eq_zero.mp (by omega)
    exact ⟨turns, climbs⟩

/-- **The ancestors of a type** are the types above it, itself left out. -/
theorem mem_ancestors_iff : t ∈ d.ancestors type ↔ t ≠ type ∧ d.Above type t :=
  have ⟨_, climbs⟩ := d.climbs_ancestors type
  climbs.mem_iff

/-- **The ancestors are found in the end**, whatever the hierarchy, and whether the type is declared
or not.  A climb from the type ends after no more turns than there are links and one more, in
whatever order it takes what is pending, and it has found the ancestors then.  They are the types
that a chain of one or more links from child to parent leads to, but for the type itself. -/
theorem ancestors_closure (d : Domain) (type : String) :
    (∀ turns found pending, d.Climbs type turns found pending → turns ≤ d.linkCount + 1 ∧
      (pending = 0 → found = d.ancestors type)) ∧
    (∃ turns, d.Climbs type turns (d.ancestors type) 0) ∧
    ∀ t, t ∈ d.ancestors type ↔
      t ≠ type ∧ Relation.TransGen (fun child parent => parent ∈ d.parents child) type t := by
  refine ⟨fun turns found pending climbs => ⟨?_, ?_⟩, d.climbs_ancestors type,
    fun t => mem_ancestors_iff⟩
  · have few := climbs.turns_le
    omega
  · rintro rfl
    exact Std.ExtTreeSet.ext_mem fun t => climbs.mem_iff.trans mem_ancestors_iff.symm

/-- Trucks, vehicles and objects in a circle, with trucks above themselves as well; a crate is
below two of them. -/
def circle : Domain where
  types := (((NameSets.extend ∅ "truck" ["vehicle", "truck"]).extend "vehicle" ["object"]).extend
    "object" ["truck"]).extend "crate" ["object", "truck"]

/-- Everything in the circle is above everything in it, and nothing is above what is not
declared. -/
theorem ancestors_closure_circle :
    (circle.ancestors "crate").toList = ["object", "truck", "vehicle"] ∧
    (circle.ancestors "truck").toList = ["object", "vehicle"] ∧
    circle.Above "crate" "vehicle" ∧ ¬circle.Above "ghost" "truck" ∧
    (∃ turns, circle.Climbs "truck" turns (circle.ancestors "truck") 0) ∧
    ∀ turns found pending, circle.Climbs "truck" turns found pending → turns ≤ 7 := by
  obtain ⟨-, -, crate⟩ := ancestors_closure circle "crate"
  obtain ⟨-, -, ghost⟩ := ancestors_closure circle "ghost"
  obtain ⟨few, ends, -⟩ := ancestors_closure circle "truck"
  have links : circle.linkCount = 6 := by decide
  refine ⟨by decide, by decide, ((crate "vehicle").mp (by decide)).2,
    fun above => ?_, ends, fun turns found pending climbs => ?_⟩
  · have absent : "truck" ∉ circle.ancestors "ghost" := by decide
    exact absent ((ghost "truck").mpr ⟨by decide, above⟩)
  · have few := (few turns found pending climbs).1
    rwa [links] at few

/-- An ancestor of an ancestor is an ancestor, or the type itself. -/
theorem mem_ancestors_trans (h : t ∈ d.ancestors type) (h' : t' ∈ d.ancestors t) :
    t' = type ∨ t' ∈ d.ancestors type := by
  by_cases same : t' = type
  · exact .inl same
  · exact .inr (mem_ancestors_iff.mpr
      ⟨same, (mem_ancestors_iff.mp h).2.trans (mem_ancestors_iff.mp h').2⟩)

/-- Some link leads to an ancestor. -/
theorem exists_link_of_mem_ancestors (h : t ∈ d.ancestors type) : ∃ child, d.Link child t := by
  cases (mem_ancestors_iff.mp h).2 with
  | single link => exact ⟨_, link⟩
  | tail _ link => exact ⟨_, link⟩

end ClassicalPlanner.Domain
