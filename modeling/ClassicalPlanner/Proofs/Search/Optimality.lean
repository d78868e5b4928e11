import ClassicalPlanner.Proofs.Search.Path
import ClassicalPlanner.Proofs.Search.Simulation
import Mathlib.Order.Bounds.Basic
import Mathlib.Order.WellFounded

/-!
# Cheapest paths

If estimates are consistent, a path that a search gives costs as little as any way to a goal, unless
that is as much as the largest cost or more (`path_costs_least`).  Costs that are cut off elsewhere
do no harm.

Estimates may be missing away from edges and goals.  A search that ends has asked for none of those,
so it is also a search of the space with zero in their place (`Space.search_filled`), and there
optimality is known (`optimal`).
-/

namespace ClassicalPlanner

open Search

variable {ε State ι : Type}

namespace Space

/-- The costs of the ways from the start to a goal, not cut off. -/
def goalCosts (space : Space ε Id State ι) (start : State) : Set Nat :=
  {n | ∃ steps x, Route space start steps x n ∧ space.isGoal x = Except.ok true}

/-- Estimates fall by no more than an edge costs, and are zero at goals. -/
structure Consistent (space : Space ε Id State ι) : Prop where
  edge : ∀ {s edges}, space.successors s = Except.ok edges → ∀ e ∈ edges, ∃ a b,
    space.estimate s = Except.ok a ∧ space.estimate e.state = Except.ok b ∧
      a.toNat ≤ e.cost.toNat + b.toNat
  goal : ∀ {s}, space.isGoal s = Except.ok true → space.estimate s = Except.ok 0

/-- Where nothing is known of what remains, estimates are consistent. -/
theorem consistent_of_zero {space : Space ε Id State ι}
    (zero : ∀ s, space.estimate s = Except.ok 0) : space.Consistent where
  edge _ _ _ := ⟨0, 0, zero _, zero _, Nat.zero_le _⟩
  goal _ := zero _

/-! ### Missing estimates -/

/-- The estimate of a state, or zero if it has none. -/
def estimateOrZero (space : Space ε Id State ι) (s : State) : UInt32 :=
  match space.estimate s with
  | .ok h => h
  | .error _ => 0

theorem estimateOrZero_eq {space : Space ε Id State ι} {s : State} {h : UInt32}
    (hs : space.estimate s = Except.ok h) : space.estimateOrZero s = h := by
  unfold estimateOrZero
  rw [hs]

/-- The space with zero where an estimate is missing. -/
def filled (space : Space ε Id State ι) : Space ε Id State ι :=
  { space with estimate := fun s => pure (space.estimateOrZero s) }

theorem Consistent.filled {space : Space ε Id State ι} (h : space.Consistent) :
    Search.Consistent space.filled space.estimateOrZero where
  estimate _ := rfl
  edge {s edges} successors e mem := by
    obtain ⟨a, b, ha, hb, le⟩ := h.edge successors e mem
    rwa [estimateOrZero_eq ha, estimateOrZero_eq hb]
  goal goal := estimateOrZero_eq (h.goal goal)

end Space

theorem Search.Follows.composes {ε' : Type} :
    Composes fun _ (x : ExceptT ε Id _) (x' : ExceptT ε' Id _) => Follows Eq x x' where
  pure _ := Follows.lifts.pure rfl
  bind hx hf := Follows.lifts.bind hx fun {a _} same => same ▸ hf a

/-- A search that ends has met no missing estimate. -/
theorem Space.search_filled [Ord ι] [Std.TransOrd ι] {space : Space ε Id State ι}
    {limit : Option Nat} {rounds : Nat} {s : State} {result : Option (Path State × Counters)}
    (h : search space limit rounds s = Except.ok result) :
    search space.filled limit rounds s = Except.ok result := by
  have answers : Related (fun _ (x : ExceptT ε Id _) (x' : ExceptT ε Id _) => Follows Eq x x')
      space space.filled := by
    refine ⟨rfl, fun s a ha => ⟨a, ha, rfl⟩, fun s a ha => ⟨a, ?_, rfl⟩,
      fun s a ha => ⟨a, ha, rfl⟩⟩
    exact congrArg Except.ok (estimateOrZero_eq ha)
  obtain ⟨_, h', rfl⟩ := Follows.composes.search answers rounds s _ h
  exact h'

/-! ### Optimality -/

namespace Search

variable {space : Space ε Id State ι} {start x y : State} {steps : List (PathStep State)}
variable {n m : Nat}

theorem route_filled : Route space.filled start steps x n ↔ Route space start steps x n := by
  constructor <;> intro route <;> induction route with
  | start => exact .start
  | step _ successors mem ih => exact .step ih successors mem

/-- The steps of a route tell where it leads. -/
theorem Route.final_unique (route : Route space start steps x n)
    (route' : Route space start steps y m) : x = y :=
  Option.some.inj (route.final?.symm.trans route'.final?)

variable [Ord ι] [Std.TransOrd ι] [Std.LawfulEqOrd ι]

/-- **A path costs as little as any way to a goal**, if estimates are consistent, as they are where
nothing is known of what remains.  Its edges can be chosen so that they cost the least there is,
as long as that is less than the largest cost. -/
theorem path_costs_least {σ : Type} {space : Space ε (StateM σ) State ι} {keeps : σ → Prop}
    {answers : Space ε Id State ι} (steady : space.Steady keeps answers)
    (inj : Function.Injective space.identity) :
    ((∀ s, answers.estimate s = Except.ok 0) → answers.Consistent) ∧
    (answers.Consistent → ∀ {w : σ}, keeps w → ∀ {limit rounds path counters},
      (search space limit rounds start w).1 = .ok (some (path, counters)) → path.isEmpty = false →
      ∃ n, IsLeast (answers.goalCosts start) n ∧ (n < 2 ^ 32 - 1 →
        ∃ x, Route answers start path.steps x n ∧ answers.isGoal x = Except.ok true)) := by
  refine ⟨Space.consistent_of_zero, ?_⟩
  intro consistent w hw limit rounds path counters found solved
  rw [steady.search_eq hw] at found
  rw [← steady.identity] at inj
  obtain ⟨p, hp, ends⟩ := search_eq_some found
  obtain ⟨x, n₀, route₀, goal⟩ := Search.solved inj (sound_start hp) ends (steps_ne_nil solved)
  -- the path found is one way to a goal, so one of them costs the least
  obtain ⟨n, ⟨steps, y, route, goal'⟩, lower⟩ :=
    Nat.lt_wfRel.wf.has_min (answers.goalCosts start) ⟨n₀, _, x, route₀, goal⟩
  have lower {m : Nat} (hm : m ∈ answers.goalCosts start) : n ≤ m := Nat.not_lt.mp (lower m hm)
  refine ⟨n, ⟨⟨steps, y, route, goal'⟩, fun m hm => lower hm⟩, fun small => ?_⟩
  obtain ⟨p', hp', ends'⟩ := search_eq_some (Space.search_filled found)
  have injFilled : Function.Injective answers.filled.identity := inj
  obtain ⟨z, m, route', le⟩ := optimal injFilled (sound_start hp') (cheapest_start hp')
    consistent.filled ends' (steps_ne_nil solved) (route_filled.mpr route) goal' small
  -- the edges of least cost lead where the path leads, as they have its steps
  rw [route_filled] at route'
  obtain rfl := route₀.final_unique route'
  obtain rfl : m = n := Nat.le_antisymm le (lower ⟨_, x, route', goal⟩)
  exact ⟨x, route', goal⟩

end Search

/-! ### A graph whose costs are cut off -/

namespace Graph

theorem answer_eq {g : Graph} (faults : g.faults = []) {α : Type} (call : Call Nat) (value : α) :
    g.answer call value = Except.ok value := by
  unfold answer
  rw [faults, if_neg List.not_mem_nil]
  rfl

/-- In a graph without faults it is enough to look at the edges and goals that are listed. -/
theorem consistent {g : Graph} (faults : g.faults = [])
    (edge : ∀ s < g.edges.size, ∀ e ∈ g.edges.getD s [],
      (g.estimates.getD s 0).toNat ≤ e.cost.toNat + (g.estimates.getD e.state 0).toNat)
    (goal : ∀ s ∈ g.goals, g.estimates.getD s 0 = 0) : g.space.Consistent where
  edge {s edges} successors e mem := by
    obtain rfl := Except.ok.inj ((answer_eq faults _ _).symm.trans successors)
    have listed : s < g.edges.size := by
      by_contra beyond
      rw [Array.getD_eq_getD_getElem?, Array.getElem?_eq_none (Nat.not_lt.mp beyond)] at mem
      exact List.not_mem_nil mem
    exact ⟨_, _, answer_eq faults _ _, answer_eq faults _ _, edge s listed e mem⟩
  goal {s} reached := by
    have listed := Except.ok.inj ((answer_eq faults _ _).symm.trans reached)
    rw [← goal s (List.contains_iff_mem.mp listed)]
    exact answer_eq faults _ _

/-- A graph in which the cheapest way costs two less than the largest cost.  Another state is
expanded before the goal is found, and costs are cut off on both edges out of it. -/
def steep : Graph where
  goals := [3]
  edges := #[[⟨1, 0xFFFFFFFD, ⟨1⟩⟩, ⟨2, 0xFFFFFFFC, ⟨2⟩⟩], [⟨2, 5, ⟨3⟩⟩, ⟨4, 5, ⟨4⟩⟩],
    [⟨3, 2, ⟨5⟩⟩]]
  estimates := #[2, 0, 2, 0, 7]

/-- The path that a search of it finds. -/
def steepPath : Path Nat := ⟨[⟨none, 0⟩, ⟨some ⟨2⟩, 2⟩, ⟨some ⟨5⟩, 3⟩]⟩

end Graph

open ClassicalPlanner.Graph in
/-- The path costs the least there is, although costs are cut off on the way to it. -/
theorem Search.path_costs_least_steep :
    steep.space.Consistent ∧
    (search steep.space.traced none 6 0 #[]).1 =
      .ok (some (steepPath, { known := 5, expanded := 3, visited := 6 })) ∧
    steepPath.isEmpty = false ∧
    ∃ n x, IsLeast (steep.space.goalCosts 0) n ∧ n < 2 ^ 32 - 1 ∧
      Route steep.space 0 steepPath.steps x n := by
  have consistent : steep.space.Consistent := Graph.consistent rfl (by decide) (by decide)
  have found : (search steep.space.traced none 6 0 #[]).1 =
      .ok (some (steepPath, { known := 5, expanded := 3, visited := 6 })) := by decide
  have solved : steepPath.isEmpty = false := rfl
  obtain ⟨-, cheapest⟩ := Search.path_costs_least (Space.steady_traced steep.space)
    (injective_identity (g := steep) rfl)
  obtain ⟨n, least, attained⟩ := cheapest consistent trivial found solved
  have before : Route steep.space 0 [⟨none, 0⟩, ⟨some ⟨2⟩, 2⟩] 2 0xFFFFFFFC :=
    Route.step (e := ⟨2, 0xFFFFFFFC, ⟨2⟩⟩) .start rfl (by decide)
  have way : Route steep.space 0 steepPath.steps 3 0xFFFFFFFE :=
    before.step (e := ⟨3, 2, ⟨5⟩⟩) rfl (by decide)
  have small : n < 2 ^ 32 - 1 := Nat.lt_of_le_of_lt (least.2 ⟨_, 3, way, rfl⟩) (by decide)
  obtain ⟨x, route, -⟩ := attained small
  exact ⟨consistent, found, solved, n, x, least, small, route⟩

end ClassicalPlanner
