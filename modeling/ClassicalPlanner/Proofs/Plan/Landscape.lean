import ClassicalPlanner.Proofs.Search.Solution
import ClassicalPlanner.Proofs.Search.Termination
import ClassicalPlanner.Proofs.Tree.Effect
import Mathlib.Data.Finset.Powerset
import Mathlib.Order.Std
import Mathlib.SetTheory.Cardinal.Order

/-!
# Landscapes

A planning problem as such, without the session in which it is stated: worlds are sets of trees, and
actions, goal and estimate are told by trees.  No question about a landscape is without an answer:
an action whose precondition or effect has none does not run.

In a landscape all that is known of searches holds without condition.  A search ends within a bound
that depends on the atoms that effects add (`search_ne_none`), and if it does not look ahead it
finds a shortest plan (`shortest`).
-/

namespace ClassicalPlanner

open Search

/-- A ground action, its formulas unfolded. -/
structure TreeAction where
  id : ActionId
  precondition : Tree
  effect : Tree

/-- A planning problem, its formulas unfolded. -/
structure Landscape where
  members : SymbolId → List SymbolId
  actions : List TreeAction
  goal : Tree
  estimate : Finset Tree → UInt32

theorem exists_ord (α : Type) : ∃ _ : Ord α, Std.TransOrd α ∧ Std.LawfulEqOrd α := by
  classical
  let _ : LinearOrder α := linearOrderOfSTO WellOrderingRel
  exact ⟨inferInstance, inferInstance, inferInstance⟩

namespace Landscape

/-- Some order of the worlds, in which a search may keep them. -/
noncomputable instance : Ord (Finset Tree) := (exists_ord (Finset Tree)).choose

instance : Std.TransOrd (Finset Tree) := (exists_ord (Finset Tree)).choose_spec.1

instance : Std.LawfulEqOrd (Finset Tree) := (exists_ord (Finset Tree)).choose_spec.2

variable {l : Landscape} {a : TreeAction} {e : Edge (Finset Tree)} {V W U : Finset Tree}
variable {steps : List (PathStep (Finset Tree))} {n : Nat} {limit : Option Nat}

/-- The edge of an action out of a world, if it runs there. -/
def edge? (l : Landscape) (W : Finset Tree) (a : TreeAction) : Option (Edge (Finset Tree)) :=
  match Tree.truth l.members W a.precondition, Tree.change l.members W a.effect with
  | .ok true, .ok d => some { state := d.applyTo W, cost := 1, action := a.id }
  | _, _ => none

theorem edge?_eq_some : l.edge? W a = some e ↔ ∃ d : Tree.Delta,
    Tree.truth l.members W a.precondition = .ok true ∧ Tree.change l.members W a.effect = .ok d ∧
      e = { state := d.applyTo W, cost := 1, action := a.id } := by
  unfold edge?
  split
  · rename_i d htruth hchange
    rw [htruth, hchange]
    exact ⟨fun h => by cases h; exact ⟨d, rfl, rfl, rfl⟩,
      fun ⟨_, _, h, h'⟩ => by cases h; rw [h']⟩
  · rename_i none
    exact iff_of_false (fun h => by cases h) fun ⟨d, h, h', _⟩ => none d h h'

/-- The worlds of the landscape as a state space. -/
def space (l : Landscape) : Space Empty Id (Finset Tree) (Finset Tree) where
  identity := id
  isGoal W := pure (Tree.truth l.members W l.goal = .ok true)
  estimate W := pure (l.estimate W)
  successors W := pure (l.actions.filterMap (l.edge? W))

theorem isGoal_eq_true : l.space.isGoal W = Except.ok true ↔
    Tree.truth l.members W l.goal = .ok true := by
  refine Iff.trans ⟨Except.ok.inj, congrArg Except.ok⟩ ?_
  exact decide_eq_true_iff

theorem isGoal_eq_false : l.space.isGoal W = Except.ok false ↔
    Tree.truth l.members W l.goal ≠ .ok true := by
  refine Iff.trans ⟨Except.ok.inj, congrArg Except.ok⟩ ?_
  exact decide_eq_false_iff_not

/-! ### Plans -/

/-- The actions with these numbers lead from a world to another, one after the other. -/
inductive Leads (l : Landscape) : Finset Tree → List ActionId → Finset Tree → Prop where
  | nil (W : Finset Tree) : Leads l W [] W
  | cons {V W : Finset Tree} {a : TreeAction} {e : Edge (Finset Tree)} {ids : List ActionId}
      (mem : a ∈ l.actions) (edge : l.edge? V a = some e) (rest : Leads l e.state ids W) :
      Leads l V (a.id :: ids) W

theorem Leads.snoc {ids : List ActionId} (h : l.Leads V ids W) (mem : a ∈ l.actions)
    (edge : l.edge? W a = some e) : l.Leads V (ids ++ [a.id]) e.state := by
  induction h with
  | nil W => exact .cons mem edge (.nil _)
  | cons mem' edge' _ ih => exact .cons mem' edge' (ih edge)

/-- The actions of a route lead to where it goes, and its cost is their number. -/
theorem leads_of_route (route : Route l.space V steps W n) :
    l.Leads V (Path.mk steps).actions W ∧ (Path.mk steps).actions.length = n := by
  induction route with
  | start => exact ⟨.nil V, rfl⟩
  | @step steps W n edges e _ successors mem ih =>
      cases successors
      obtain ⟨a, ha, he⟩ := List.mem_filterMap.mp mem
      obtain ⟨d, -, -, rfl⟩ := edge?_eq_some.mp he
      have actions : (Path.mk (steps ++ [⟨some a.id, d.applyTo W⟩])).actions =
          (Path.mk steps).actions ++ [a.id] := List.filterMap_append
      rw [actions, List.length_append, ih.2]
      exact ⟨ih.1.snoc ha he, rfl⟩

theorem Leads.route {ids : List ActionId} {U : Finset Tree} (h : l.Leads W ids U)
    (route : Route l.space V steps W n) :
    ∃ steps', Route l.space V steps' U (n + ids.length) := by
  induction h generalizing steps n with
  | nil => exact ⟨steps, route⟩
  | @cons W U a e ids mem edge _ ih =>
      obtain ⟨d, -, -, rfl⟩ := edge?_eq_some.mp edge
      obtain ⟨steps', route'⟩ := ih (route.step rfl (List.mem_filterMap.mpr ⟨a, mem, edge⟩))
      refine ⟨steps', ?_⟩
      rw [List.length_cons, Nat.add_comm ids.length, ← Nat.add_assoc]
      exact route'

/-- Some atoms include all that actions of the landscape add. -/
def Adds (l : Landscape) (U : Finset Tree) : Prop :=
  ∀ a ∈ l.actions, ∀ W d, Tree.change l.members W a.effect = .ok d → d.add ⊆ U

theorem Adds.subset (h : l.Adds U) (route : Route l.space V steps W n) : W ⊆ V ∪ U := by
  induction route with
  | start => exact Finset.subset_union_left
  | step _ successors mem ih =>
      cases successors
      obtain ⟨a, ha, he⟩ := List.mem_filterMap.mp mem
      obtain ⟨d, -, changes, rfl⟩ := edge?_eq_some.mp he
      refine Tree.Delta.applyTo_subset.trans (Finset.union_subset ih ?_)
      exact (h a ha _ d changes).trans Finset.subset_union_right

/-! ### Searches -/

theorem injective : Function.Injective l.space.identity := fun _ _ h => h

/-- **A search ends**: it follows each edge once, and worlds are sets of the atoms that hold at
first or are added. -/
theorem search_ne_none {rounds : Nat} (h : l.Adds U)
    (bound : 1 + l.actions.length * 2 ^ (V ∪ U).card < 2 ^ rounds - 1) :
    search l.space limit rounds V ≠ Except.ok none := by
  refine Search.search_ne_none (V := (V ∪ U).powerset) injective
    (fun {W edges} successors => ?_) (fun route => Finset.mem_powerset.mpr (h.subset route))
    (Finset.card_powerset _ ▸ bound)
  cases successors
  exact List.length_filterMap_le _ _

/-- The answer of a search does not depend on the bound of its turns. -/
theorem search_unique {rounds rounds' : Nat} {result result' : Path (Finset Tree) × Counters}
    (h : search l.space limit rounds V = Except.ok (some result))
    (h' : search l.space limit rounds' V = Except.ok (some result')) : result = result' := by
  obtain ⟨p, hp, ends⟩ := search_eq_some h
  obtain ⟨p', hp', ends'⟩ := search_eq_some h'
  obtain rfl := Except.ok.inj (hp.symm.trans hp')
  exact ends.unique ends'

/-- A plan that is found leads to the goal. -/
theorem leads_of_isSolved {rounds : Nat} {result : Path (Finset Tree) × Counters}
    (h : search l.space limit rounds V = Except.ok (some result))
    (found : result.1.isSolved = true) :
    ∃ W, l.Leads V result.1.actions W ∧ Tree.truth l.members W l.goal = .ok true := by
  obtain ⟨p, hp, ends⟩ := search_eq_some h
  obtain ⟨W, n, route, goal⟩ :=
    solved injective (sound_start hp) ends (isSolved_eq_true.mp found)
  exact ⟨W, (leads_of_route route).1, isGoal_eq_true.mp goal⟩

/-- A search that finds no plan has looked at the start. -/
theorem start_of_not_isSolved {rounds : Nat} {result : Path (Finset Tree) × Counters}
    (h : search l.space limit rounds V = Except.ok (some result))
    (none : result.1.isSolved = false) : Tree.truth l.members V l.goal ≠ .ok true := by
  obtain ⟨p, hp, ends⟩ := search_eq_some h
  refine isGoal_eq_false.mp (start_not_goal hp ends ?_)
  by_contra path
  rw [isSolved_eq_true.mpr path] at none
  cases none

/-- **A search without a bound** on its expansions finds a plan if there is one. -/
theorem isSolved_iff {rounds : Nat} {result : Path (Finset Tree) × Counters}
    (h : search l.space none rounds V = Except.ok (some result)) : result.1.isSolved = true ↔
      ∃ ids W, l.Leads V ids W ∧ Tree.truth l.members W l.goal = .ok true := by
  constructor
  · intro found
    obtain ⟨W, leads, goal⟩ := leads_of_isSolved h found
    exact ⟨_, W, leads, goal⟩
  · rintro ⟨ids, W, leads, goal⟩
    obtain ⟨p, hp, ends⟩ := search_eq_some h
    obtain ⟨steps, route⟩ := leads.route .start
    refine isSolved_eq_true.mpr fun path => ?_
    have refuted := unsolved injective (sound_start hp) ends path (not_exhausted ends) route
    cases refuted.symm.trans (isGoal_eq_true.mpr goal)

/-- **A search that does not look ahead** finds a plan that is no longer than any other, as long as
lengths are not cut off. -/
theorem shortest {rounds : Nat} {result : Path (Finset Tree) × Counters} {ids : List ActionId}
    (blind : ∀ W, l.estimate W = 0) (h : search l.space limit rounds V = Except.ok (some result))
    (found : result.1.isSolved = true) (leads : l.Leads V ids W)
    (goal : Tree.truth l.members W l.goal = .ok true) (small : ids.length < maxCost) :
    result.1.actions.length ≤ ids.length := by
  obtain ⟨p, hp, ends⟩ := search_eq_some h
  obtain ⟨steps, route⟩ := leads.route .start
  rw [Nat.zero_add] at route
  have consistent : Consistent l.space fun _ => 0 :=
    ⟨fun W => congrArg Except.ok (blind W), fun _ _ _ => Nat.zero_le _, fun _ => rfl⟩
  obtain ⟨W', m, route', le⟩ := optimal injective (sound_start hp) (cheapest_start hp) consistent
    ends (isSolved_eq_true.mp found) route (isGoal_eq_true.mpr goal) small
  rw [← (leads_of_route route').2] at le
  exact le

end Landscape

end ClassicalPlanner
