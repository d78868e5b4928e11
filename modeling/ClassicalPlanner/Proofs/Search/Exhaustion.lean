import ClassicalPlanner.Proofs.Search.Calls
import ClassicalPlanner.Proofs.Search.Path
import Mathlib.Data.Set.Card

/-!
# Searches without a path

A search that gives no path and has not used up its expansions has taken all there was from the
frontier.  Then it has met the states that can be reached, and no others, and has expanded each of
them once; none of them is a goal (`empty_path_exhausts`).
-/

namespace ClassicalPlanner

open Search

variable {ε State ι : Type}

/-- The states to which edges lead from the start, one after the other. -/
inductive Space.Reaches (space : Space ε Id State ι) (start : State) : State → Prop where
  | start : Reaches space start start
  | step {s : State} {edges : List (Edge State)} {e : Edge State} (before : Reaches space start s)
      (successors : space.successors s = Except.ok edges) (mem : e ∈ edges) :
      Reaches space start e.state

namespace Search

variable {space : Space ε Id State ι} {start x : State}

theorem reaches_iff_route : space.Reaches start x ↔ ∃ steps n, Route space start steps x n := by
  constructor
  · intro reaches
    induction reaches with
    | start => exact ⟨_, _, .start⟩
    | step _ successors mem ih =>
        obtain ⟨steps, n, route⟩ := ih
        exact ⟨_, _, route.step successors mem⟩
  · rintro ⟨steps, n, route⟩
    induction route with
    | start => exact .start
    | step _ successors mem ih => exact .step ih successors mem

variable [Ord ι] [Std.TransOrd ι] [Std.LawfulEqOrd ι] {limit : Option Nat} {p : Progress State ι}
variable {result : Path State × Counters} {calls : Array (Call State)}

/-- The search has met the state. -/
def Progress.Met (p : Progress State ι) (x : State) : Prop :=
  ∃ (i : ι) (r : Record State ι), p.known[i]? = some r ∧ r.state = x

/-- Every state that is known can be reached. -/
theorem Sound.reaches {i : ι} {r : Record State ι} (h : Sound space start p)
    (hr : p.known[i]? = some r) : space.Reaches start r.state := by
  obtain ⟨steps, n, route, -, -⟩ := h.valid.route hr
  exact reaches_iff_route.mpr ⟨steps, n, route⟩

/-- A search that ends without a path and with expansions to spare has emptied its frontier. -/
theorem EndsIn.emptied (inj : Function.Injective space.identity)
    (h : EndsIn space limit start p result) (path : result.1.steps = [])
    (unspent : result.2.exhausted = false) :
    p.frontier.first? = none ∧ result = p.finish none false := by
  have sound := h.sound inj
  obtain ⟨p₀, n, -, -, last⟩ := h
  cases turns_of_turn last with
  | empties first => exact ⟨first, rfl⟩
  | exhausts => cases unspent
  | solves first known goal => exact absurd path (sound.valid.trail_ne_nil known)

/-- With an empty frontier the states met are those that can be reached. -/
theorem Sound.met_iff (inj : Function.Injective space.identity) (h : Sound space start p)
    (first : p.frontier.first? = none) : p.Met x ↔ space.Reaches start x := by
  constructor
  · rintro ⟨i, r, hr, rfl⟩
    exact h.reaches hr
  · intro reaches
    obtain ⟨steps, n, route⟩ := reaches_iff_route.mp reaches
    obtain ⟨r, hr, state, -⟩ := h.all_visited inj first route
    exact ⟨_, r, hr, state⟩

/-- With an empty frontier the states expanded are those that can be reached. -/
theorem Logs.expansions_iff (inj : Function.Injective space.identity) (logs : Logs space p calls)
    (h : Sound space start p) (first : p.frontier.first? = none) :
    x ∈ Call.expansions calls ↔ space.Reaches start x := by
  rw [logs.visited]
  constructor
  · rintro ⟨r, hr, -⟩
    rw [← inj (h.valid.identity hr)]
    exact h.reaches hr
  · intro reaches
    obtain ⟨steps, n, route⟩ := reaches_iff_route.mp reaches
    obtain ⟨r, hr, -, visited⟩ := h.all_visited inj first route
    exact ⟨r, hr, visited⟩

/-- With an empty frontier as many states are known as are expanded. -/
theorem Logs.size_known (inj : Function.Injective space.identity) (logs : Logs space p calls)
    (h : Sound space start p) (first : p.frontier.first? = none) :
    p.known.size = (Call.expansions calls).length := by
  have same (i : ι) : i ∈ p.known.keys ↔ i ∈ (Call.expansions calls).map space.identity := by
    rw [Std.ExtTreeMap.mem_keys, Std.ExtTreeMap.mem_iff_isSome_getElem?, Option.isSome_iff_exists,
      List.mem_map]
    constructor
    · rintro ⟨r, hr⟩
      exact ⟨r.state, (logs.expansions_iff inj h first).mpr (h.reaches hr), h.valid.identity hr⟩
    · rintro ⟨x, mem, rfl⟩
      obtain ⟨r, hr, -⟩ := logs.visited.mp mem
      exact ⟨r, hr⟩
  -- neither list repeats an identity, so with the same members they are as long
  have perm := (List.perm_ext_iff_of_nodup Std.ExtTreeMap.nodup_keys (logs.nodup.map inj)).mpr same
  rw [← Std.ExtTreeMap.length_keys, perm.length_eq, List.length_map]

/-- With an empty frontier as many states can be reached as are expanded. -/
theorem Logs.ncard_reaches (inj : Function.Injective space.identity) (logs : Logs space p calls)
    (h : Sound space start p) (first : p.frontier.first? = none) :
    {x | space.Reaches start x}.Finite ∧
      {x | space.Reaches start x}.ncard = (Call.expansions calls).length := by
  classical
  have all : {x | space.Reaches start x} = ((Call.expansions calls).toFinset : Set State) := by
    ext x
    rw [List.coe_toFinset]
    exact (logs.expansions_iff inj h first).symm
  rw [all, Set.ncard_coe_finset, List.toFinset_card_of_nodup logs.nodup]
  exact ⟨Finset.finite_toSet _, rfl⟩

/-- **Without a path there is nothing to find**, unless the expansions are used up.  No state that
can be reached is a goal.  The states met in the end are those that can be reached; the search has
asked for the successors of each of them once, and of no other, and has counted them. -/
theorem empty_path_exhausts {σ : Type} {space : Space ε (StateM σ) State ι} {keeps : σ → Prop}
    {answers : Space ε Id State ι} (steady : space.Steady keeps answers)
    (inj : Function.Injective space.identity) {w : σ} (hw : keeps w) {rounds : Nat}
    {path : Path State} {counters : Counters}
    (found : (search space limit rounds start w).1 = .ok (some (path, counters)))
    (unsolved : path.isEmpty = true) (unspent : counters.exhausted = false) :
    (∀ x, answers.Reaches start x → answers.isGoal x = Except.ok false) ∧
    (∃ p, EndsIn answers limit start p (path, counters) ∧
      ∀ x, p.Met x ↔ answers.Reaches start x) ∧
    (∃ calls, (search space.traced limit rounds start #[] w).1 =
        (.ok (some (path, counters)), calls) ∧ (Call.expansions calls).Nodup ∧
      ∀ x, x ∈ Call.expansions calls ↔ answers.Reaches start x) ∧
    {x | answers.Reaches start x}.Finite ∧
    counters.known = {x | answers.Reaches start x}.ncard ∧
    counters.expanded = {x | answers.Reaches start x}.ncard := by
  rw [steady.search_eq hw] at found
  rw [steady.search_traced_eq hw]
  rw [← steady.identity] at inj
  obtain ⟨calls, run⟩ : ∃ calls, search answers.traced limit rounds start #[] =
      (.ok (some (path, counters)), calls) :=
    ⟨_, Session.run_eq_of_result ((answers.steady_traced.search_eq trivial).trans found)⟩
  obtain ⟨p, ends, logs⟩ := search_logs inj run
  have sound := ends.sound inj
  obtain ⟨first, result⟩ := ends.emptied inj (List.isEmpty_iff.mp unsolved) unspent
  have expanded {x : State} := logs.expansions_iff (x := x) inj sound first
  obtain ⟨finite, card⟩ := logs.ncard_reaches inj sound first
  have counted := congrArg Prod.snd result
  refine ⟨fun x reaches => ?_, ⟨p, ends, fun x => sound.met_iff inj first⟩,
    ⟨calls, run, logs.nodup, fun x => expanded⟩, finite, ?_, ?_⟩
  -- a state is tested before it is expanded
  · obtain ⟨r, hr, visited⟩ := logs.visited.mp (expanded.mpr reaches)
    rw [← inj (sound.valid.identity hr)]
    exact sound.explored.refuted hr visited
  · rw [card, ← logs.size_known inj sound first]
    exact congrArg Counters.known counted
  · rw [card, logs.length]
    exact congrArg Counters.expanded counted

end Search

/-- A graph whose goal has an edge from a state that cannot be reached.  A state is met twice, the
second time at a lower cost, and edges lead back to the start and from a state to itself. -/
def Graph.walled : Graph where
  goals := [4]
  edges := #[[⟨1, 3, ⟨1⟩⟩, ⟨2, 1, ⟨2⟩⟩], [⟨0, 0, ⟨3⟩⟩], [⟨1, 1, ⟨4⟩⟩, ⟨2, 0, ⟨5⟩⟩], [⟨4, 1, ⟨6⟩⟩]]
  estimates := #[0, 5]

open ClassicalPlanner.Graph in
/-- Three states can be reached, and the goal is not among them. -/
theorem Search.empty_path_exhausts_walled :
    (search walled.space.traced none 6 0 #[]).1 =
      .ok (some (∅, { known := 3, expanded := 3, visited := 6 })) ∧
    (∅ : Path Nat).isEmpty = true ∧ {x | walled.space.Reaches 0 x}.ncard = 3 ∧
    ¬ walled.space.Reaches 0 4 := by
  have found : (search walled.space.traced none 6 0 #[]).1 =
      .ok (some (∅, { known := 3, expanded := 3, visited := 6 })) := by decide
  have unsolved : (∅ : Path Nat).isEmpty = true := rfl
  obtain ⟨refuted, -, -, -, known, -⟩ := Search.empty_path_exhausts
    (Space.steady_traced walled.space) (injective_identity (g := walled) rfl) trivial found unsolved
    rfl
  exact ⟨found, unsolved, known.symm, fun reaches => by cases refuted 4 reaches⟩

end ClassicalPlanner
