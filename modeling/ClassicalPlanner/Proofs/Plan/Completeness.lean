import ClassicalPlanner.Proofs.Plan.Pruning
import ClassicalPlanner.Proofs.Plan.Termination

/-!
# Planners are complete

Without a bound on its expansions, a planner finds a plan if and only if some ground actions can be
executed one after the other from the initial world and lead to one in which the goal holds; a
planner that goes blind finds a shortest such plan (`solve_complete`).

Execution and landscape tell the same story.  What runs in a session leads on in the landscape that
the session states (`leads_of_executes`); what a search has found runs again in the session that the
search leaves, where every question that was asked on the way is settled (`executes_of_route`).
-/

namespace ClassicalPlanner

open Session Search

variable {s s' F s₀ : Session} {task : Task} {l : Landscape} {W V : Finset Tree} {w w' : World}
variable {a : GroundAction} {acts : List GroundAction} {estimate : Estimate} {goal : Key}

/-! ### From execution to the landscape -/

theorem Session.Executes.snoc {s₁ s₂ : Session} {w₁ : World} (h : Executes s w acts s₁ w₁)
    (holds : evaluate a.precondition w₁ s₁ = (.ok true, s₂))
    (next : apply w₁ a.effect s₂ = (.ok w', s')) : Executes s w (acts ++ [a]) s' w' := by
  induction h with
  | nil => exact .cons holds next (.nil _ _)
  | cons holds' next' _ ih => exact .cons holds' next' (ih holds next)

/-- **What runs in a session** leads on in the landscape. -/
theorem Task.States.leads_of_executes (h : task.States s₀ l W)
    (subset : acts ⊆ task.actions.toList) (hs : s.Canonical) (grow : s₀ ≤ s) (hw : s.Shows w V)
    (run : Executes s w acts s' w') :
    ∃ V', l.Leads V (acts.map (·.id)) V' ∧ s'.Shows w' V' := by
  induction run generalizing V with
  | nil => exact ⟨V, .nil V, hw⟩
  | @cons s s₁ s₂ s' w w₁ w' a acts holds next rest ih =>
      obtain ⟨mem, subset⟩ := List.cons_subset.mp subset
      obtain ⟨b, hb, unfolds⟩ := h.exists_tree mem
      obtain ⟨grow₁, fits₁⟩ := (settles_evaluate _ _).additive.of_run hs holds
      obtain ⟨grow₂, fits₂⟩ := (settles_apply _ _).additive.of_run fits₁ next
      have most := grow.trans grow₁
      have decided := evaluate_eq_ok hs (unfolds.means.precondition.mono grow.store) holds
        (le_refl s₁) (hw.reads fits₁ grow₁)
      obtain ⟨d, changes, hw₁⟩ :=
        apply_eq_ok fits₁ (unfolds.means.effect.mono most.store) (hw.mono grow₁) next
      rw [funext grow.members, ← h.members] at decided
      rw [funext most.members, ← h.members] at changes
      obtain ⟨V', leads, shows⟩ := ih subset fits₂ (most.trans grow₂) hw₁
      refine ⟨V', ?_, shows⟩
      rw [List.map_cons, ← unfolds.id]
      exact .cons hb (Landscape.edge?_eq_some.mpr ⟨d, decided, changes, rfl⟩) leads

/-! ### From a search to execution -/

namespace WorldSpace

/-- The edges out of a world can be followed again, where they are settled. -/
theorem edges_settled {kept : List GroundAction} {es : List (Edge World)} (hs : s.Canonical)
    (h : edges w kept s = (.ok es, s')) (hF : F.Canonical) (grow : s' ≤ F) :
    ∀ e ∈ es, ∃ a ∈ kept, e.action = a.id ∧ evaluate a.precondition w F = (.ok true, F) ∧
      apply w a.effect F = (.ok e.state, F) := by
  induction kept generalizing s es with
  | nil => cases h; exact fun _ h => absurd h List.not_mem_nil
  | cons a kept ih =>
      have later {e : Edge World} (found : ∃ a ∈ kept, e.action = a.id ∧
          evaluate a.precondition w F = (.ok true, F) ∧ apply w a.effect F = (.ok e.state, F)) :
          ∃ b ∈ a :: kept, e.action = b.id ∧ evaluate b.precondition w F = (.ok true, F) ∧
            apply w b.effect F = (.ok e.state, F) := by
        obtain ⟨b, hb, edge⟩ := found
        exact ⟨b, List.mem_cons_of_mem a hb, edge⟩
      obtain ⟨holds, s₁, h₁, h⟩ := run_bind_eq_ok.mp h
      obtain ⟨-, fits₁⟩ := (settles_evaluate a.precondition w).additive.of_run hs h₁
      cases holds with
      | false => exact fun e he => later (ih fits₁ h e he)
      | true =>
          obtain ⟨w', s₂, h₂, h⟩ := run_bind_eq_ok.mp h
          obtain ⟨es', s₃, h₃, h⟩ := run_bind_eq_ok.mp h
          cases h
          obtain ⟨grow₂, fits₂⟩ := (settles_apply w a.effect).additive.of_run fits₁ h₂
          obtain ⟨grow₃, -⟩ := (settles_edges w kept).additive.of_run fits₂ h₃
          have most := grow₃.trans grow
          refine List.forall_mem_cons.mpr ⟨⟨a, List.mem_cons_self, rfl, ?_, ?_⟩,
            fun e he => later (ih fits₂ h₃ e he)⟩
          · exact (settles_evaluate a.precondition w).again hs h₁ hF (grow₂.trans most)
          · exact (settles_apply w a.effect).again fits₁ h₂ hF most

/-- **What a search has found** runs in the session that the search leaves. -/
theorem executes_of_route {t : ActionTable} {steps : List (PathStep World)} {n : Nat}
    (hF : F.Canonical) (route : Route ((space t goal estimate).settled F) w steps w' n) :
    ∃ acts ⊆ t.toList, acts.map (·.id) = (Path.mk steps).actions ∧ Executes F w acts F w' := by
  induction route with
  | start => exact ⟨[], List.nil_subset _, rfl, .nil F w⟩
  | @step steps w' n edges e _ successors mem ih =>
      obtain ⟨acts, subset, ids, run⟩ := ih
      have found := ofFormulas_eq_ok.mp (settled_eq_ok.mp successors)
      obtain ⟨a, ha, action, holds, next⟩ := edges_settled hF found hF (le_refl F) e mem
      refine ⟨acts ++ [a], ?_, ?_, run.snoc holds next⟩
      · exact List.append_subset.mpr ⟨subset, List.cons_subset.mpr ⟨ha, List.nil_subset _⟩⟩
      · have actions : (Path.mk (steps ++ [⟨some e.action, e.state⟩])).actions =
            (Path.mk steps).actions ++ [e.action] := List.filterMap_append
        rw [actions, List.map_append, ids, action]
        rfl

/-- The numbers that a search answers are those of some actions of its table; if it has found a
plan, the actions run and lead to the goal. -/
theorem executes_of_search {t : ActionTable} {limit : Option Nat} {rounds : Nat}
    {result : Path World × Counters} (hF : F.Canonical)
    (h : ClassicalPlanner.search ((space t goal estimate).settled F) limit rounds w =
      Except.ok (some result)) :
    ∃ acts ⊆ t.toList, acts.map (·.id) = result.1.actions ∧ (result.1.isSolved = true →
      ∃ w', Executes F w acts F w' ∧ evaluate goal w' F = (.ok true, F)) := by
  obtain ⟨p, hp, ends⟩ := search_eq_some h
  by_cases path : result.1.steps = []
  · have none : result.1.actions = [] := by
      unfold Path.actions
      rw [path]
      rfl
    exact ⟨[], List.nil_subset _, none.symm, fun found => absurd path (isSolved_eq_true.mp found)⟩
  · obtain ⟨w', n, route, goal⟩ := Search.solved (fun _ _ h => h) (sound_start hp) ends path
    obtain ⟨acts, subset, ids, run⟩ := executes_of_route hF route
    exact ⟨acts, subset, ids, fun _ =>
      ⟨w', run, ofFormulas_eq_ok.mp (settled_eq_ok.mp goal)⟩⟩

end WorldSpace

/-! ### Plans -/

namespace Task

/-- In the session, the actions can be executed one after the other from the initial world, and the
goal holds in the world they lead to. -/
structure Attains (task : Task) (s : Session) (acts : List GroundAction) : Prop where
  subset : acts ⊆ task.actions.toList
  reaches : ∃ s₁ w s₂, Executes s task.initial acts s₁ w ∧
    evaluate task.goal w s₁ = (.ok true, s₂)

/-- The actions attain the goal in some session that has all that `s` has. -/
def Attainable (task : Task) (s : Session) (acts : List GroundAction) : Prop :=
  ∃ r, s ≤ r ∧ r.Canonical ∧ task.Attains r acts

theorem States.leads_of_attainable (h : task.States s₀ l W) (attains : task.Attainable s₀ acts) :
    ∃ V, l.Leads W (acts.map (·.id)) V ∧ Tree.truth l.members V l.goal = .ok true := by
  obtain ⟨r, grow, fits, subset, s₁, w, s₂, run, holds⟩ := attains
  obtain ⟨V, leads, shows⟩ := h.leads_of_executes subset fits grow (h.initial.mono grow) run
  obtain ⟨grow₁, fits₁⟩ := run.additive fits
  obtain ⟨grow₂, fits₂⟩ := (settles_evaluate _ _).additive.of_run fits₁ holds
  have most := grow.trans grow₁
  have decided := evaluate_eq_ok fits₁ (h.goal.mono most.store) holds (le_refl s₂)
    (shows.reads fits₂ grow₂)
  rw [funext most.members, ← h.members] at decided
  exact ⟨V, leads, decided⟩

end Task

namespace Solution.Explained

variable {sol : Solution} {limit : Option Nat}

/-- A plan that has been found attains the goal in the session that the search leaves. -/
theorem attains (h : sol.Explained F task l W limit) (rises : task.actions.Rises)
    (found : sol.solved = true) : ∃ acts, task.Attains F acts ∧ acts.map (·.id) = sol.ids ∧
      acts.map (·.name) = sol.actions := by
  obtain ⟨t, estimate, rounds, path, sublist, search, ids, solved⟩ := h.worlds
  obtain ⟨acts, subset, same, run⟩ := WorldSpace.executes_of_search h.canonical search
  obtain ⟨w, run, goal⟩ := run (solved ▸ found)
  have subset := List.Subset.trans subset sublist.subset
  refine ⟨acts, ⟨subset, F, w, F, run, goal⟩, same.trans ids.symm, ?_⟩
  have named : List.Forall₂ task.actions.Named (acts.map (·.id)) (acts.map (·.name)) := by
    rw [List.forall₂_map_left_iff, List.forall₂_map_right_iff, List.forall₂_same]
    exact fun a ha => ⟨a, subset ha, rfl, rfl⟩
  rw [same.trans ids.symm] at named
  exact rises.names_unique named h.names

end Solution.Explained

namespace Planner

variable {p : Planner} {problem : Problem} {ws : List Warning}

/-- **Planners are complete.**  A search without a bound on its expansions ends.  The planner has a
solution with a plan if and only if some actions of the whole table attain the goal; the plan does,
and if the planner goes blind and there are plans whose length is not cut off, then it is one with
the fewest actions. -/
theorem solve_complete (unbounded : p.configuration.maxExpansions = none) :
    (p.solve problem s ws).1.1 ≠ .error .unfinished ∧
    ∀ {sol F ws'}, p.solve problem s ws = ((.ok sol, F), ws') →
      ∃ task s₀, Task.ofProblem p.domain problem false ∅ = (.ok task, s₀) ∧
        (sol.solved = true ↔ ∃ acts, task.Attainable s₀ acts) ∧
        (sol.solved = true → s₀ ≤ F ∧ F.Canonical ∧ ∃ acts, task.Attains F acts ∧
          acts.map (·.id) = sol.ids ∧ acts.map (·.name) = sol.actions) ∧
        (p.configuration.heuristic = .blind →
          (∃ least, task.Attainable s₀ least ∧ least.length < 2 ^ 32 - 1) →
          ∀ acts, task.Attainable s₀ acts → sol.actions.length ≤ acts.length) := by
  refine ⟨solve_ends, fun {sol F ws'} hsol => ?_⟩
  obtain ⟨_, _, _, _, _, _, _, hground, -⟩ := solve_eq_ok hsol
  obtain ⟨task, s₀, whole⟩ := exists_whole hground
  obtain ⟨l, W, states, measures⟩ :=
    Task.exists_states canonical_empty whole p.configuration.heuristic
  obtain ⟨grow, explained⟩ := solve_explained hsol whole states measures
  obtain ⟨-, -, -, -, -, ordered, -⟩ := Task.ofProblem_eq_ok canonical_empty whole
  obtain ⟨rounds, result, landscape, ids, solved, -⟩ := explained.landscape
  rw [unbounded] at landscape
  refine ⟨task, s₀, whole, ⟨fun found => ?_, ?_⟩, fun found => ?_, fun blind => ?_⟩
  · obtain ⟨acts, attains, -⟩ := explained.attains ordered.rises found
    exact ⟨acts, F, grow, explained.canonical, attains⟩
  · rintro ⟨acts, attains⟩
    obtain ⟨V, leads, goal⟩ := states.leads_of_attainable attains
    rw [solved]
    exact (Landscape.isSolved_iff landscape).mpr ⟨_, V, leads, goal⟩
  · exact ⟨grow, explained.canonical, explained.attains ordered.rises found⟩
  · have flat : ∀ W, l.estimate W = 0 := fun W => by rw [measures, blind]; rfl
    have length : sol.actions.length = result.1.actions.length := by
      rw [← ids, explained.names.length_eq]
    have shortest {acts : List GroundAction} (attains : task.Attainable s₀ acts)
        (small : acts.length < 2 ^ 32 - 1) : sol.actions.length ≤ acts.length := by
      obtain ⟨V, leads, goal⟩ := states.leads_of_attainable attains
      have found := (Landscape.isSolved_iff landscape).mpr ⟨_, V, leads, goal⟩
      have le := Landscape.shortest flat landscape found leads goal (by rwa [List.length_map])
      rw [List.length_map] at le
      rwa [length]
    rintro ⟨least, attains, small⟩ acts attains'
    by_cases small' : acts.length < 2 ^ 32 - 1
    · exact shortest attains' small'
    · exact (shortest attains small).trans (Nat.le_of_lt (Nat.lt_of_lt_of_le small
        (Nat.not_lt.mp small')))

end Planner

/-- A planner that prunes finds the way across, which the whole table has too. -/
theorem Planner.solve_complete_crossing :
    (Crossing.planner true).configuration.maxExpansions = none ∧
    ((Crossing.planner true).solve Crossing.problem ∅ []).1.1 = .ok (Crossing.solution 1) ∧
    ∃ task s₀, Task.ofProblem Crossing.domain Crossing.problem false ∅ = (.ok task, s₀) ∧
      ∃ acts, task.Attainable s₀ acts ∧ acts.map (·.name) = ["swim"] := by
  have solved : ((Crossing.planner true).solve Crossing.problem ∅ []).1.1 =
      .ok (Crossing.solution 1) := by decide +kernel
  have solved' := run_eq_of_result solved
  have unbounded : (Crossing.planner true).configuration.maxExpansions = none := rfl
  obtain ⟨task, s₀, whole, -, found, -⟩ := (Planner.solve_complete unbounded).2 solved'
  obtain ⟨grow, fits, acts, attains, -, names⟩ := found rfl
  exact ⟨unbounded, solved, task, s₀, whole, acts, ⟨_, grow, fits, attains⟩, names⟩

end ClassicalPlanner
