import ClassicalPlanner.Proofs.Plan.Planner
import ClassicalPlanner.Proofs.Plan.Replay
import ClassicalPlanner.Proofs.Task.Name

/-!
# Plans verify

A plan that leads somewhere in the landscape of a problem can be replayed by its names, in whatever
session the problem has been grounded in, if no two ground actions have one name: all preconditions
hold, and the worlds are those that the plan passes through (`replaySteps_leads`).

So a planner that replays its own plan finds that it reaches the goal (`report_of_distinct`).  In
definitions that have been read, the ground actions have different names if the schemata have
(`report_verifies`).
-/

namespace ClassicalPlanner

open Session Search

variable {s s' F s₀ : Session} {task : Task} {l : Landscape} {W W' : Finset Tree} {w w' : World}
variable {a : GroundAction} {b : TreeAction} {e : Edge (Finset Tree)} {n : Nat}

/-! ### Replaying -/

namespace Task.States

/-- In a later session, an action that runs in the landscape is found to do so. -/
theorem held_of_edge {V : Finset Tree} {held : Bool} (h : task.States s₀ l W) (hs : s.Canonical)
    (grow : s₀ ≤ s) (hw : s.Shows w V) (unfolds : a.Unfolds s₀ b) (edge : l.edge? V b = some e)
    (run : evaluate a.precondition w s = (.ok held, s')) : held = true := by
  obtain ⟨grow', fits'⟩ := (settles_evaluate a.precondition w).additive.of_run hs run
  obtain ⟨d, holds, -, -⟩ := Landscape.edge?_eq_some.mp edge
  have decided := evaluate_eq_ok hs (unfolds.means.precondition.mono grow.store) run (le_refl s')
    (hw.reads fits' grow')
  rw [funext grow.members, ← h.members, holds] at decided
  exact (Except.ok.inj decided).symm

/-- And its effect leads to the world that the landscape says. -/
theorem shows_of_edge {V : Finset Tree} (h : task.States s₀ l W) (hs : s.Canonical)
    (grow : s₀ ≤ s) (hw : s.Shows w V) (unfolds : a.Unfolds s₀ b) (edge : l.edge? V b = some e)
    (run : apply w a.effect s = (.ok w', s')) : s'.Shows w' e.state := by
  obtain ⟨d, -, changes, rfl⟩ := Landscape.edge?_eq_some.mp edge
  obtain ⟨d', changes', shows⟩ := apply_eq_ok hs (unfolds.means.effect.mono grow.store) hw run
  rw [funext grow.members, ← h.members, changes] at changes'
  rwa [Except.ok.inj changes']

end Task.States

/-- The session and the world after a replay, and its steps. -/
structure Replays (s s' : Session) (names : List String) (W : Finset Tree)
    (out : List ReportStep × World × Bool) : Prop where
  grow : s ≤ s'
  canonical : s'.Canonical
  world : s'.Shows out.2.1 W
  applicable : out.2.2 = true
  actions : out.1.map (·.action) = names
  held : ∀ step ∈ out.1, step.preconditionHeld = true

/-- **A plan that leads somewhere** can be replayed by the names of its actions. -/
theorem replaySteps_leads {ids : List ActionId} {names : List String}
    {out : List ReportStep × World × Bool} (h : task.States s₀ l W)
    (rises : task.actions.Rises) (distinct : (task.actions.toList.map (·.name)).Nodup)
    {V : Finset Tree} (leads : l.Leads V ids W') (hs : s.Canonical) (grow : s₀ ≤ s)
    (hw : s.Shows w V) (named : List.Forall₂ task.actions.Named ids names)
    (run : Task.replaySteps task.actions n w names s = (.ok out, s')) :
    Replays s s' names W' out := by
  induction leads generalizing s w names n out with
  | nil V =>
      cases named
      cases run
      exact ⟨le_refl _, hs, hw, rfl, rfl, fun _ h => absurd h List.not_mem_nil⟩
  | @cons V W' b e ids mem edge rest ih =>
      cases named with
      | @cons _ name _ names named nameds =>
          obtain ⟨a, ha, unfolds⟩ := h.exists_action mem
          obtain ⟨a', ha', hid, rfl⟩ := named
          obtain rfl := rises.id_unique ha' ha (hid.trans unfolds.id)
          rw [Task.replaySteps_cons (ActionTable.find?_name distinct ha')] at run
          obtain ⟨⟨entry, w₁⟩, s₂, tried, hrest⟩ := run_bind_eq_ok.mp run
          cases Task.attempt_eq_ok.mp tried with
          | stopped fails _ => cases h.held_of_edge hs grow hw unfolds edge fails
          | ran holds next record =>
              obtain ⟨grow₁, fits₁⟩ := (settles_evaluate _ _).additive.of_run hs holds
              obtain ⟨grow₂, fits₂⟩ := (settles_apply _ _).additive.of_run fits₁ next
              have shows := h.shows_of_edge fits₁ (grow.trans grow₁) (hw.mono grow₁) unfolds edge
                next
              simp only [record.held, if_true] at hrest
              obtain ⟨out₁, hout, rfl⟩ := run_map_eq_ok.mp hrest
              have later := ih fits₂ (grow.trans (grow₁.trans grow₂)) shows nameds hout
              exact ⟨grow₁.trans (grow₂.trans later.grow), later.canonical, later.world,
                later.applicable, congrArg₂ List.cons record.action later.actions,
                List.forall_mem_cons.mpr ⟨record.held, later.held⟩⟩

/-- The report on a plan that leads somewhere. -/
theorem replay_leads {ids : List ActionId} {domain problem : String} {plan : List String}
    {report : Report} (h : task.States s l W) (rises : task.actions.Rises)
    (distinct : (task.actions.toList.map (·.name)).Nodup) (leads : l.Leads W ids W')
    (named : List.Forall₂ task.actions.Named ids plan)
    (run : task.replay domain problem plan s = (.ok report, s')) :
    report.actions = plan ∧ report.steps.map (·.action) = plan ∧
      (∀ step ∈ report.steps, step.preconditionHeld = true) ∧ report.valid = report.goalReached ∧
      Tree.truth l.members W' l.goal = .ok report.goalReached := by
  obtain ⟨initial, s₁, hinitial, run⟩ := run_bind_eq_ok.mp run
  obtain ⟨goal, s₂, hgoal, run⟩ := run_bind_eq_ok.mp run
  obtain ⟨out, s₃, hsteps, run⟩ := run_bind_eq_ok.mp run
  obtain ⟨-, rfl⟩ := Task.render_eq_ok.mp hinitial
  obtain ⟨-, rfl⟩ := Task.render_eq_ok.mp hgoal
  have replays := replaySteps_leads h rises distinct leads h.canonical (le_refl _) h.initial named
    hsteps
  obtain ⟨steps, w', applicable⟩ := out
  obtain rfl : applicable = true := replays.applicable
  obtain ⟨reached, s₄, hreached, hreport⟩ := run_bind_eq_ok.mp run
  have hreached := WorldSpace.ofFormulas_eq_ok.mp hreached
  simp only [run_pure] at hreport
  obtain ⟨same, rfl⟩ := Prod.mk.inj hreport
  obtain rfl := Except.ok.inj same
  obtain ⟨grow, fits⟩ := (settles_evaluate task.goal w').additive.of_run replays.canonical hreached
  have decided := evaluate_eq_ok replays.canonical (h.goal.mono replays.grow.store) hreached
    (le_refl _) (replays.world.reads fits grow)
  rw [funext replays.grow.members, ← h.members] at decided
  exact ⟨rfl, replays.actions, replays.held, rfl, decided⟩

/-! ### Planners -/

namespace Planner

variable {p : Planner} {problem : Problem} {ws ws' : List Warning} {report : Report}

/-- A report is a search, and then a replay in a session of its own. -/
theorem report_eq_ok (h : p.report problem s ws = ((.ok report, s'), ws')) :
    ∃ sol F ws₁ task s₀ replayed, p.solve problem s ws = ((.ok sol, F), ws₁) ∧
      Task.ofProblem p.domain problem false ∅ = (.ok task, s₀) ∧
      task.replay p.domain.name problem.name sol.actions s₀ = (.ok replayed, s') ∧
      report = { replayed with counters := some sol.counters } := by
  obtain ⟨sol, F, ws₁, hsol, h⟩ := run_bind_eq_ok.mp h
  obtain ⟨replayed, s₁, ws₂, hreplayed, hreport⟩ := run_bind_eq_ok.mp h
  cases hreport
  obtain ⟨task, s₂, ws₃, hground, hreplay⟩ := run_bind_eq_ok.mp hreplayed
  exact ⟨sol, F, ws₁, task, s₂, replayed, hsol, ground_eq_ok hground,
    (ofSession_eq_ok.mp hreplay).1, rfl⟩

/-- **A planner's own plan** verifies, if no two ground actions have one name. -/
theorem report_of_distinct (distinct : (groundNames p.domain problem).Nodup)
    (h : p.report problem s ws = ((.ok report, s'), ws')) :
    ∃ sol F ws₁, p.solve problem s ws = ((.ok sol, F), ws₁) ∧ report.actions = sol.actions ∧
      report.valid = sol.solved ∧ report.goalReached = sol.solved ∧
      report.counters = some sol.counters ∧ (sol.solved = true →
        report.steps.map (·.action) = sol.actions ∧
        ∀ step ∈ report.steps, step.preconditionHeld = true) := by
  obtain ⟨sol, F, ws₁, task, s₀, replayed, hsol, whole, hreplay, rfl⟩ := report_eq_ok h
  obtain ⟨l, W, states, measures⟩ :=
    Task.exists_states canonical_empty whole p.configuration.heuristic
  obtain ⟨-, explained⟩ := solve_explained hsol whole states measures
  obtain ⟨-, -, -, -, names, ordered, -⟩ := Task.ofProblem_eq_ok canonical_empty whole
  obtain ⟨rounds, result, landscape, ids, solved, counters⟩ := explained.landscape
  -- the plan found leads to the goal; without one the empty plan leads to the start
  have ⟨W', leads, goal⟩ : ∃ W', l.Leads W sol.ids W' ∧
      (sol.solved = true ↔ Tree.truth l.members W' l.goal = .ok true) := by
    rw [ids, solved]
    cases found : result.1.isSolved with
    | true =>
        obtain ⟨W', leads, goal⟩ := Landscape.leads_of_isSolved landscape found
        exact ⟨W', leads, iff_of_true rfl goal⟩
    | false =>
        have empty : result.1.steps = [] := by
          by_contra path
          rw [isSolved_eq_true.mpr path] at found
          cases found
        refine ⟨W, ?_, iff_of_false Bool.false_ne_true
          (Landscape.start_of_not_isSolved landscape found)⟩
        unfold Path.actions
        rw [empty]
        exact .nil W
  obtain ⟨actions, steps, held, valid, decided⟩ :=
    replay_leads states ordered.rises (names ▸ distinct) leads explained.names hreplay
  have reached : replayed.goalReached = sol.solved := by
    rw [decided] at goal
    exact Bool.eq_iff_iff.mpr ⟨fun h => goal.mpr (congrArg Except.ok h),
      fun h => Except.ok.inj (goal.mp h)⟩
  exact ⟨sol, F, ws₁, hsol, actions, valid.trans reached, reached, rfl, fun _ => ⟨steps, held⟩⟩

/-- **A planner's own plan** verifies, for definitions that have been read and in which no two
actions have one name. -/
theorem report_verifies {text problemText : String} {d : Domain} {c : Configuration}
    {ws₁ ws₁' ws₂ ws₂' : List Warning} (hd : Pddl.readDomain text ws₁ = (.ok d, ws₁'))
    (distinct : (d.actions.map (·.name)).Nodup)
    (hp : Pddl.readProblem d problemText ws₂ = (.ok problem, ws₂'))
    (h : Planner.report { domain := d, configuration := c } problem s ws =
      ((.ok report, s'), ws')) :
    ∃ sol F ws₃, solve { domain := d, configuration := c } problem s ws = ((.ok sol, F), ws₃) ∧
      report.actions = sol.actions ∧ report.valid = sol.solved ∧
      report.goalReached = sol.solved ∧ report.counters = some sol.counters ∧
      (sol.solved = true → report.steps.length = report.actions.length ∧
        report.steps.map (·.action) = report.actions ∧
        ∀ step ∈ report.steps, step.preconditionHeld = true) := by
  have names := Pddl.solid_readDomain hd
  have objects := Pddl.solid_readProblem names.constants hp
  obtain ⟨sol, F, ws₃, hsol, actions, valid, reached, counters, replayed⟩ :=
    report_of_distinct (nodup_groundNames names objects distinct) h
  refine ⟨sol, F, ws₃, hsol, actions, valid, reached, counters, fun solved => ?_⟩
  obtain ⟨steps, held⟩ := replayed solved
  have steps := steps.trans actions.symm
  exact ⟨by rw [← steps, List.length_map], steps, held⟩

end Planner

namespace Ferry

/-- The ferry sails to any place. -/
def domainText : String :=
  "(define (domain ferry) (:action sail :parameters (?to) :effect (at ?to)))"

def problemText : String :=
  "(define (problem river) (:domain ferry) (:objects left) (:goal (at left)))"

def domain : Domain where
  name := "ferry"
  actions := [{ name := "sail", parameters := [{ name := "?to" }], effect := "(at ?to)" }]

def problem : Problem where
  name := "river"
  domain := "ferry"
  objects := NameSets.extend ∅ "" ["left"]
  goal := "(at left)"

/-- The one way across. -/
def solution : Solution where
  actions := ["sail left"]
  ids := [⟨1⟩]
  solved := true
  grounded := 1
  retained := 1
  counters := { known := 2, expanded := 1, visited := 2 }

end Ferry

open Pddl Piece in
/-- A crossing of one step verifies. -/
theorem Planner.report_verifies_ferry :
    (Pddl.readDomain Ferry.domainText []).1 = .ok Ferry.domain ∧
    (Ferry.domain.actions.map (·.name)).Nodup ∧
    (Pddl.readProblem Ferry.domain Ferry.problemText []).1 = .ok Ferry.problem ∧
    ∃ report, (Planner.report { domain := Ferry.domain } Ferry.problem ∅ []).1.1 = .ok report ∧
      report.actions = ["sail left"] ∧ report.valid = true ∧ report.steps.length = 1 := by
  have hd : Pddl.readDomain Ferry.domainText [] = (.ok Ferry.domain, []) :=
    readDomain_eq_ok_iff.mpr ⟨_, sections_ofList rfl rfl <|
      .cons (split_ofList _) (.cons (split_ofList _) .nil), Prod.ext (by decide) (by rfl)⟩
  have hp : Pddl.readProblem Ferry.domain Ferry.problemText [] = (.ok Ferry.problem, []) :=
    readProblem_eq_ok_iff.mpr ⟨_, _, _, _, sections_ofList rfl rfl <| .cons (split_ofList _) <|
      .cons (split_ofList _) (.cons (split_ofList _) (.cons (split_ofList _) .nil)),
      by rfl, by rfl, by rfl, by rfl⟩
  have distinct : (Ferry.domain.actions.map (·.name)).Nodup := by decide
  obtain ⟨crossing, reported⟩ :
      (solve { domain := Ferry.domain } Ferry.problem ∅ []).1.1 = .ok Ferry.solution ∧
      (Planner.report { domain := Ferry.domain } Ferry.problem ∅ []).1.1.isOk := by decide +kernel
  cases result : (Planner.report { domain := Ferry.domain } Ferry.problem ∅ []).1.1 with
  | error e => rw [result] at reported; cases reported
  | ok report =>
      have verifies := report_verifies (c := {}) hd distinct hp (run_eq_of_result result)
      obtain ⟨sol, F, ws, hsol, actions, valid, -, -, steps⟩ := verifies
      obtain rfl : Ferry.solution = sol := by
        rw [hsol] at crossing
        exact (Except.ok.inj crossing).symm
      exact ⟨congrArg Prod.fst hd, distinct, congrArg Prod.fst hp, report, rfl, actions, valid,
        (steps rfl).1.trans (by rw [actions]; rfl)⟩

end ClassicalPlanner
