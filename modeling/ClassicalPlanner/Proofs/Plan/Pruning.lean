import ClassicalPlanner.Proofs.Plan.Planner

/-!
# Pruning is invisible

A planner that prunes and one that does not search the same landscape, although their sessions
number worlds differently and one table lacks some actions.  So they find the same plan after the
same search (`solve_pruned_eq`).
-/

namespace ClassicalPlanner

open Session Search

variable {s s' F F' : Session} {ws ws' ws₁ ws₁' : List Warning} {sol sol' : Solution}
variable {task : Task} {l : Landscape} {W : Finset Tree} {limit : Option Nat}

/-- **One search explains one solution**, apart from the number of actions retained. -/
theorem Solution.Explained.unique (h : sol.Explained F task l W limit)
    (h' : sol'.Explained F' task l W limit) (rises : task.actions.Rises) :
    sol.actions = sol'.actions ∧ sol.ids = sol'.ids ∧ sol.solved = sol'.solved ∧
      sol.grounded = sol'.grounded ∧ sol.counters = sol'.counters := by
  obtain ⟨_, result, landscape, ids, solved, counters⟩ := h.landscape
  obtain ⟨_, result', landscape', ids', solved', counters'⟩ := h'.landscape
  obtain rfl := Landscape.search_unique landscape landscape'
  have same := ids.trans ids'.symm
  exact ⟨rises.names_unique h.names (same ▸ h'.names), same, solved.trans solved'.symm,
    h.grounded.trans h'.grounded.symm, counters.trans counters'.symm⟩

namespace Planner

/-- **Pruning is invisible.**  If a problem is solved with pruning and without it, the solutions
have the same actions, numbers and counters, and both or neither have a plan. -/
theorem solve_pruned_eq {d : Domain} {c : Configuration} {problem : Problem}
    (h : solve { domain := d, configuration := { c with pruneUnreachable := true } } problem s ws =
      ((.ok sol, F), ws'))
    (h' : solve { domain := d, configuration := { c with pruneUnreachable := false } } problem s' ws₁
      = ((.ok sol', F'), ws₁')) :
    sol.actions = sol'.actions ∧ sol.ids = sol'.ids ∧ sol.solved = sol'.solved ∧
      sol.grounded = sol'.grounded ∧ sol.counters = sol'.counters := by
  obtain ⟨_, _, _, _, _, _, _, hground, -⟩ := solve_eq_ok h
  obtain ⟨task, s₀, whole⟩ := exists_whole hground
  obtain ⟨l, W, states, measures⟩ := Task.exists_states canonical_empty whole c.heuristic
  obtain ⟨-, explained⟩ := solve_explained h whole states measures
  obtain ⟨-, explained'⟩ := solve_explained h' whole states measures
  obtain ⟨-, -, -, -, -, ordered, -⟩ := Task.ofProblem_eq_ok canonical_empty whole
  exact explained.unique explained' ordered.rises

end Planner

namespace Crossing

/-- One action leads to the other bank, and one needs a bridge that is not there. -/
def domain : Domain where
  name := "crossing"
  actions := [{ name := "swim", precondition := "(at left)", effect := "(at right)" },
    { name := "walk", precondition := "(bridge)", effect := "(at right)" }]

def problem : Problem where
  name := "river"
  init := .ofList ["(at left)"]
  goal := "(at right)"

/-- The planner, with pruning or without. -/
def planner (prune : Bool) : Planner :=
  { domain, configuration := { ({} : Configuration) with pruneUnreachable := prune } }

/-- Its solution, in which one action or both are retained. -/
def solution (retained : Nat) : Solution where
  actions := ["swim"]
  ids := [⟨1⟩]
  solved := true
  grounded := 2
  retained
  counters := { known := 2, expanded := 1, visited := 2 }

end Crossing

open Crossing in
/-- Where pruning drops an action that cannot run, the plan is the same. -/
theorem Planner.solve_pruned_eq_crossing :
    ((planner true).solve problem ∅ []).1.1 = .ok (solution 1) ∧
    ((planner false).solve problem ∅ []).1.1 = .ok (solution 2) ∧
    (solution 1).actions = (solution 2).actions := by
  have pruned : ((planner true).solve problem ∅ []).1.1 = .ok (solution 1) := by decide +kernel
  have whole : ((planner false).solve problem ∅ []).1.1 = .ok (solution 2) := by decide +kernel
  have pruned' := run_eq_of_result pruned
  have whole' := run_eq_of_result whole
  have same := Planner.solve_pruned_eq (d := Crossing.domain) (c := {}) pruned' whole'
  exact ⟨pruned, whole, same.1⟩

end ClassicalPlanner
