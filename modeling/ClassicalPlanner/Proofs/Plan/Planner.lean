import ClassicalPlanner.Plan.Planner
import ClassicalPlanner.Proofs.Plan.Task

/-!
# Solving

Whatever its settings, a planner that solves a problem searches the landscape of the problem as it
is grounded without pruning (`estimate_sees`).  What it answers can thus be read off one search, in
which no session occurs.
-/

namespace ClassicalPlanner

open Session Search

/-- The number and the name are those of an action of the table. -/
def ActionTable.Named (t : ActionTable) (id : ActionId) (name : String) : Prop :=
  ∃ a ∈ t.toList, a.id = id ∧ a.name = name

theorem ActionTable.Named.mono {t t' : ActionTable} {id : ActionId} {name : String}
    (h : t.Named id name) (subset : t.toList ⊆ t'.toList) : t'.Named id name := by
  obtain ⟨a, mem, hid, hname⟩ := h
  exact ⟨a, subset mem, hid, hname⟩

/-- The names of actions follow from their numbers. -/
theorem ActionTable.Rises.names_unique {t : ActionTable} (h : t.Rises) {ids : List ActionId}
    {names names' : List String} (hn : List.Forall₂ t.Named ids names)
    (hn' : List.Forall₂ t.Named ids names') : names = names' := by
  induction hn generalizing names' with
  | nil => cases hn'; rfl
  | cons named _ ih =>
      cases hn' with
      | cons named' rest =>
          obtain ⟨a, ha, hid, rfl⟩ := named
          obtain ⟨b, hb, hid', rfl⟩ := named'
          rw [h.id_unique ha hb (hid.trans hid'.symm), ih rest]

/-- A solution is what a search of the landscape of a task answers, and what a search of worlds in
the session answers whose questions are settled there. -/
structure Solution.Explained (F : Session) (task : Task) (l : Landscape) (W : Finset Tree)
    (limit : Option Nat) (sol : Solution) : Prop where
  canonical : F.Canonical
  landscape : ∃ rounds result, search l.space limit rounds W = Except.ok (some result) ∧
    sol.ids = result.1.actions ∧ sol.solved = result.1.isSolved ∧ sol.counters = result.2
  worlds : ∃ (t : ActionTable) (estimate : Estimate) (rounds : Nat) (path : Path World),
    t.toList.Sublist task.actions.toList ∧
    search ((WorldSpace.space t task.goal estimate).settled F) limit rounds task.initial =
      Except.ok (some (path, sol.counters)) ∧
    sol.ids = path.actions ∧ sol.solved = path.isSolved
  names : List.Forall₂ task.actions.Named sol.ids sol.actions
  grounded : sol.grounded = task.grounded

namespace Planner

variable {p : Planner} {problem : Problem} {s s' F : Session} {ws ws' : List Warning}
variable {sol : Solution} {goal : Key} {g : Tree} {estimate : Estimate} {α : Type}

/-! ### Operations that may warn -/

/-- A composed operation succeeds if both parts do, one after the other. -/
theorem run_bind_eq_ok {β : Type} {x : PlannerM α} {f : α → PlannerM β} {b : β} :
    (x >>= f) s ws = ((.ok b, s'), ws') ↔
      ∃ a s₁ ws₁, x s ws = ((.ok a, s₁), ws₁) ∧ f a s₁ ws₁ = ((.ok b, s'), ws') := by
  rw [run_bind_carrying]
  rcases x s ws with ⟨⟨e | a, s₁⟩, ws₁⟩
  · exact iff_of_false (fun h => by cases h) fun ⟨a, s₁, ws₁, h, _⟩ => by cases h
  · exact ⟨fun h => ⟨a, s₁, ws₁, rfl, h⟩, fun ⟨_, _, _, h, h'⟩ => by cases h; exact h'⟩

theorem run_bind_of_ok {β : Type} {x : PlannerM α} {a : α} (h : x s ws = ((.ok a, s'), ws'))
    (f : α → PlannerM β) : (x >>= f) s ws = f a s' ws' := by
  rw [run_bind_carrying, h]

theorem run_eq_of_result {x : PlannerM α} {result : Except PlanningError α}
    (h : (x s ws).1.1 = result) : x s ws = ((result, (x s ws).1.2), (x s ws).2) :=
  Prod.ext (Prod.ext h rfl) rfl

theorem ofSession_eq_ok {x : PlanM α} {a : α} :
    PlannerM.ofSession x s ws = ((.ok a, s'), ws') ↔ x s = (.ok a, s') ∧ ws' = ws :=
  ⟨fun h => ⟨(Prod.mk.inj h).1, (Prod.mk.inj h).2.symm⟩, fun ⟨h, h'⟩ => Prod.ext h h'.symm⟩

theorem liftExcept_eq_ok {x : Except PlanningError α} {a : α} :
    solve.liftExcept x s ws = ((.ok a, s'), ws') ↔ x = .ok a ∧ s' = s ∧ ws' = ws := by
  refine ⟨fun h => ?_, fun ⟨h, h', h''⟩ => ?_⟩
  · have both := Prod.mk.inj h
    exact ⟨(Prod.mk.inj both.1).1, (Prod.mk.inj both.1).2.symm, both.2.symm⟩
  · rw [h, h', h'']
    rfl

/-! ### Grounding and estimates -/

theorem ground_eq_ok {task : Task} {prune : Bool}
    (h : p.ground problem prune s ws = ((.ok task, s'), ws')) :
    Task.ofProblem p.domain problem prune ∅ = (.ok task, s') := by
  obtain ⟨_, s₁, ws₁, hset, h⟩ := run_bind_eq_ok.mp h
  obtain rfl : ∅ = s₁ := (Prod.mk.inj (Prod.mk.inj hset).1).2
  exact WorldSpace.ofFormulas_eq_ok.mp (ofSession_eq_ok.mp h).1

theorem run_tryCatch (x : PlannerM α) (handle : PlanningError → PlannerM α) (s : Session)
    (ws : List Warning) : tryCatch x handle s ws =
      match x s ws with
      | ((.ok a, s'), ws') => ((.ok a, s'), ws')
      | ((.error e, s'), ws') => handle e s' ws' := by
  show ExceptT.tryCatch x handle s ws = _
  unfold ExceptT.tryCatch ExceptT.mk
  simp only [bind, StateT.bind]
  rcases x s ws with ⟨⟨_ | _, _⟩, _⟩ <;> rfl

theorem run_estimate_blind (h : p.configuration.heuristic = .blind) (goal : Key) (s : Session)
    (ws : List Warning) : p.estimate goal s ws = ((.ok .blind, s), ws) := by
  unfold Planner.estimate
  rw [h]
  rfl

/-- The goal count of a goal, or none. -/
theorem run_estimate (h : p.configuration.heuristic = .goalCount) (goal : Key) (s : Session)
    (ws : List Warning) : p.estimate goal s ws =
      match Estimate.ofGoal goal s with
      | (.ok estimate, s') => ((.ok estimate, s'), ws)
      | (.error (.misplaced kind _), s') => ((.ok .blind, s'), ws ++ [.blindSearch kind])
      | (.error e, s') => ((.error (.formula e), s'), ws) := by
  unfold Planner.estimate
  rw [h]
  refine (run_tryCatch _ _ s ws).trans ?_
  unfold PlannerM.ofSession
  rw [WorldSpace.run_ofFormulas]
  rcases Estimate.ofGoal goal s with ⟨e | estimate, s₁⟩
  · cases e <;> rfl
  · rfl

/-- The estimate is the one of the goal's tree. -/
theorem estimate_eq_ok (hs : s.Canonical) (hg : s.store.Denotes goal g)
    (h : p.estimate goal s ws = ((.ok estimate, s'), ws')) :
    s ≤ s' ∧ s'.Canonical ∧
      s'.Measures (Tree.estimate s.members g p.configuration.heuristic) estimate := by
  cases heuristic : p.configuration.heuristic with
  | blind =>
      rw [run_estimate_blind heuristic] at h
      cases h
      exact ⟨le_refl s, hs, rfl⟩
  | goalCount =>
      rw [run_estimate heuristic] at h
      have additive := (settles_ofGoal goal).additive s hs
      split at h
      · rename_i found
        cases h
        rw [found] at additive
        exact ⟨additive.1, additive.2, ofGoal_eq_ok hs hg found⟩
      · rename_i found
        cases h
        rw [found] at additive
        exact ⟨additive.1, additive.2, ofGoal_eq_misplaced hs hg found⟩
      · cases h

/-! ### Solving -/

theorem solve_eq_ok (h : p.solve problem s ws = ((.ok sol, F), ws')) :
    ∃ task s₁ estimate s₂ ws₁ ws₂ path,
      Task.ofProblem p.domain problem p.configuration.pruneUnreachable ∅ = (.ok task, s₁) ∧
      p.estimate task.goal s₁ ws₁ = ((.ok estimate, s₂), ws₂) ∧
      WorldSpace.search task.actions task.goal estimate p.configuration.maxExpansions
        task.initial s₂ = (.ok (path, sol.counters), F) ∧
      actionNames task.actions path.actions = .ok sol.actions ∧ sol.ids = path.actions ∧
      sol.solved = path.isSolved ∧ sol.grounded = task.grounded := by
  obtain ⟨task, s₁, ws₁, hground, h⟩ := run_bind_eq_ok.mp h
  obtain ⟨estimate, s₂, ws₂, hestimate, h⟩ := run_bind_eq_ok.mp h
  obtain ⟨⟨path, counters⟩, s₃, ws₃, hsearch, h⟩ := run_bind_eq_ok.mp h
  obtain ⟨actions, s₄, ws₄, hnames, hsol⟩ := run_bind_eq_ok.mp h
  obtain ⟨names, rfl, -⟩ := liftExcept_eq_ok.mp hnames
  cases hsol
  exact ⟨task, s₁, estimate, s₂, ws₁, ws₂, path, ground_eq_ok hground, hestimate,
    (ofSession_eq_ok.mp hsearch).1, names, rfl, rfl, rfl⟩

theorem actionNames_eq_ok {t : ActionTable} {ids : List ActionId} {names : List String}
    (h : actionNames t ids = .ok names) : List.Forall₂ t.Named ids names := by
  induction ids generalizing names with
  | nil => cases h; exact .nil
  | cons id ids ih =>
      unfold actionNames at h
      split at h
      · rename_i a found
        cases rest : actionNames t ids with
        | error e => rw [rest] at h; cases h
        | ok names =>
            rw [rest] at h
            cases h
            obtain ⟨mem, same⟩ := ActionTable.mem_of_get? found
            exact .cons ⟨a, mem, same, rfl⟩ (ih rest)
      · cases h

/-- Grounding, with pruning or without, starts as grounding without it. -/
theorem exists_whole {d : Domain} {prune : Bool} {task : Task}
    (h : Task.ofProblem d problem prune ∅ = (.ok task, s)) :
    ∃ whole s₀, Task.ofProblem d problem false ∅ = (.ok whole, s₀) := by
  cases prune with
  | false => exact ⟨task, s, h⟩
  | true =>
      obtain ⟨whole, s₀, n, hwhole, -, -⟩ := Task.ofProblem_pruned h
      exact ⟨whole, s₀, hwhole⟩

/-- **What is searched**, pruned or not, sees the landscape of the whole problem. -/
theorem estimate_sees {task task' : Task} {s₀ : Session} {l : Landscape} {W : Finset Tree}
    {prune : Bool} (whole : Task.ofProblem p.domain problem false ∅ = (.ok task, s₀))
    (states : task.States s₀ l W)
    (measures : l.estimate = Tree.estimate s₀.members l.goal p.configuration.heuristic)
    (ground : Task.ofProblem p.domain problem prune ∅ = (.ok task', s))
    (estimated : p.estimate task'.goal s ws = ((.ok estimate, s'), ws')) :
    s₀ ≤ s' ∧ s'.Canonical ∧ task'.actions.toList.Sublist task.actions.toList ∧
      task' = { task with actions := task'.actions } ∧ s'.Measures l.estimate estimate ∧
      ∃ inside : Finset Tree → Prop, inside W ∧
        WorldSpace.Sees s' inside task'.actions task.goal estimate l := by
  obtain ⟨grow, fits, sublist, rest, inside, start, sees⟩ :=
    Task.ofProblem_sees whole states ground
  rw [rest] at estimated
  obtain ⟨grow', fits', measured⟩ := estimate_eq_ok fits (states.goal.mono grow.store) estimated
  rw [funext grow.members, ← measures] at measured
  exact ⟨grow.trans grow', fits', sublist, rest, measured, inside, start, sees grow' measured⟩

/-- **What a planner answers**, it reads off the landscape of the problem. -/
theorem solve_explained {task : Task} {s₀ : Session} {l : Landscape} {W : Finset Tree}
    (h : p.solve problem s ws = ((.ok sol, F), ws'))
    (whole : Task.ofProblem p.domain problem false ∅ = (.ok task, s₀))
    (states : task.States s₀ l W)
    (measures : l.estimate = Tree.estimate s₀.members l.goal p.configuration.heuristic) :
    s₀ ≤ F ∧ sol.Explained F task l W p.configuration.maxExpansions := by
  obtain ⟨task', s₁, estimate, s₂, ws₁, ws₂, path, hground, hestimate, hsearch, hnames, ids, solved,
    grounded⟩ := solve_eq_ok h
  obtain ⟨grow, fits, sublist, rest, -, inside, start, sees⟩ :=
    estimate_sees whole states measures hground hestimate
  rw [rest] at hsearch grounded
  obtain ⟨grow', fits', ⟨rounds', settled⟩, rounds, result, landscape, rel⟩ :=
    WorldSpace.search_eq_ok fits sees (states.initial.mono grow) start hsearch
  refine ⟨grow.trans grow', fits', ⟨rounds, result, landscape, ?_, ?_, ?_⟩,
    ⟨task'.actions, estimate, rounds', path, sublist, settled, ids, solved⟩, ?_, grounded⟩
  · exact ids.trans rel.actions
  · exact solved.trans rel.isSolved
  · exact rel.counters.symm
  · rw [ids]
    exact (actionNames_eq_ok hnames).imp fun _ _ named => named.mono sublist.subset

end Planner

end ClassicalPlanner
