import ClassicalPlanner.Plan.Report
import ClassicalPlanner.Proofs.Plan.WorldSpace
import ClassicalPlanner.Proofs.Session.Reachable

/-!
# Replays

`Replayed s w n acts entries s' w'` says that the actions run one after the other, as `Executes`
does, and that `entries` are the records of the steps, numbered from `n`.

There are four ways in which a replay ends: all actions have run, a precondition is false, a name is
unknown, or something about formulas fails (`replaySteps_ends`).  So a replay finds a plan valid
exactly if its actions run and lead to the goal, and it complains of an unknown name exactly if it
comes so far (`replay_accepts`).
-/

namespace ClassicalPlanner

open Session

variable {s s₁ s' s'' : Session} {w w₁ w' w'' : World} {a : GroundAction} {n : Nat}
variable {acts acts' : List GroundAction} {entry : ReportStep} {entries : List ReportStep}
variable {t : ActionTable} {name : String} {names done later : List String}

/-! ### Executions -/

namespace Session

/-- There is one way at most for actions to run. -/
theorem Executes.unique (h : Executes s w acts s' w') (h' : Executes s w acts s'' w'') :
    s' = s'' ∧ w' = w'' := by
  induction h with
  | nil => cases h'; exact ⟨rfl, rfl⟩
  | cons holds next _ ih =>
      cases h' with
      | cons holds' next' rest' =>
          cases holds.symm.trans holds'
          cases next.symm.trans next'
          exact ih rest'

/-- Actions run one after the other if the first ones do and then the others. -/
theorem executes_append : Executes s w (acts ++ acts') s' w' ↔
    ∃ s₁ w₁, Executes s w acts s₁ w₁ ∧ Executes s₁ w₁ acts' s' w' := by
  induction acts generalizing s w with
  | nil =>
      refine ⟨fun h => ⟨s, w, .nil s w, h⟩, ?_⟩
      rintro ⟨s₁, w₁, h, h'⟩
      cases h
      exact h'
  | cons a acts ih =>
      constructor
      · intro h
        cases h with
        | cons holds next rest =>
            obtain ⟨s₁, w₁, first, second⟩ := ih.mp rest
            exact ⟨s₁, w₁, .cons holds next first, second⟩
      · rintro ⟨s₁, w₁, first, second⟩
        cases first with
        | cons holds next rest => exact .cons holds next (ih.mpr ⟨s₁, w₁, rest, second⟩)

/-- The record of a step, in the session that the step has left. -/
structure Records (s : Session) (n : Nat) (a : GroundAction) (held : Bool) (w : World)
    (entry : ReportStep) : Prop where
  step : entry.step = n
  action : entry.action = a.name
  precondition : s.render a.precondition = .ok entry.precondition
  effect : s.render a.effect = .ok entry.effect
  held : entry.preconditionHeld = held
  state : s.render w.key = .ok entry.state

/-- The actions run one after the other, and these are the records of the steps. -/
inductive Replayed : Session → World → Nat → List GroundAction → List ReportStep → Session →
    World → Prop where
  | nil (s : Session) (w : World) (n : Nat) : Replayed s w n [] [] s w
  | cons {s s₁ s₂ s' : Session} {w w₁ w' : World} {n : Nat} {a : GroundAction}
      {acts : List GroundAction} {entry : ReportStep} {entries : List ReportStep}
      (holds : evaluate a.precondition w s = (.ok true, s₁))
      (next : apply w a.effect s₁ = (.ok w₁, s₂)) (record : s₂.Records n a true w₁ entry)
      (rest : Replayed s₂ w₁ (n + 1) acts entries s' w') :
      Replayed s w n (a :: acts) (entry :: entries) s' w'

namespace Replayed

theorem executes (h : Replayed s w n acts entries s' w') : Executes s w acts s' w' := by
  induction h with
  | nil => exact .nil _ _
  | cons holds next _ _ ih => exact .cons holds next ih

theorem length_eq (h : Replayed s w n acts entries s' w') : entries.length = acts.length := by
  induction h with
  | nil => rfl
  | cons _ _ _ _ ih => exact congrArg (· + 1) ih

theorem held (h : Replayed s w n acts entries s' w') :
    ∀ entry ∈ entries, entry.preconditionHeld = true := by
  induction h with
  | nil => exact fun _ h => absurd h List.not_mem_nil
  | cons _ _ record _ ih => exact List.forall_mem_cons.mpr ⟨record.held, ih⟩

end Replayed

end Session

/-! ### Plans -/

/-- These are the actions that are found by the names. -/
def ActionTable.Finds (t : ActionTable) : List String → List GroundAction → Prop :=
  List.Forall₂ fun name a => t.find? name = some a

namespace ActionTable

theorem name_of_find? (h : t.find? name = some a) : a.name = name := by
  unfold ActionTable.find? at h
  have same := Array.find?_some h
  exact beq_iff_eq.mp same

theorem Finds.unique (h : t.Finds names acts) (h' : t.Finds names acts') : acts = acts' := by
  induction h generalizing acts' with
  | nil => cases h'; rfl
  | cons found _ ih =>
      cases h' with
      | cons found' rest' => rw [Option.some.inj (found.symm.trans found'), ih rest']

/-- The actions found by more names, up to one of these. -/
theorem Finds.split (h : t.Finds (done ++ name :: later) acts) :
    ∃ first a rest, acts = first ++ a :: rest ∧ t.Finds done first ∧ t.find? name = some a := by
  induction done generalizing acts with
  | nil =>
      cases h with
      | cons found rest => exact ⟨[], _, _, rfl, .nil, found⟩
  | cons _ done ih =>
      cases h with
      | cons found others =>
          obtain ⟨first, a, rest, rfl, finds, found'⟩ := ih others
          exact ⟨_ :: first, a, rest, rfl, .cons found finds, found'⟩

end ActionTable

namespace Task

/-! ### Single steps -/

/-- Makes the record of a step. -/
def record (n : Nat) (a : GroundAction) (held : Bool) (w : World) : PlanM ReportStep := do
  let precondition ← render a.precondition
  let effect ← render a.effect
  let state ← render w.key
  return { step := n, action := a.name, precondition, effect, preconditionHeld := held, state }

/-- One step of a replay: its record, and the world after it. -/
def attempt (n : Nat) (a : GroundAction) (w : World) : PlanM (ReportStep × World) := do
  let held ← WorldSpace.ofFormulas (evaluate a.precondition w)
  if held then
    let w ← WorldSpace.ofFormulas (apply w a.effect)
    return (← record n a true w, w)
  else return (← record n a false w, w)

theorem render_eq_ok {k : Key} {text : String} :
    render k s = (.ok text, s') ↔ s.render k = .ok text ∧ s' = s := by
  unfold render
  rcases s.render k with e | text'
  · exact iff_of_false (fun h => by cases h) fun h => by cases h.1
  · exact ⟨fun h => by cases h; exact ⟨rfl, rfl⟩, fun ⟨h, h'⟩ => by cases h; rw [h']⟩

theorem render_eq_error {k : Key} {e : PlanningError} (h : render k s = (.error e, s')) :
    ∃ e', e = .formula e' := by
  unfold render at h
  split at h <;> cases h
  exact ⟨_, rfl⟩

theorem record_eq_ok {held : Bool} :
    record n a held w s = (.ok entry, s') ↔ s.Records n a held w entry ∧ s' = s := by
  constructor
  · intro h
    obtain ⟨precondition, s₁, hprecondition, h⟩ := run_bind_eq_ok.mp h
    obtain ⟨effect, s₂, heffect, h⟩ := run_bind_eq_ok.mp h
    obtain ⟨state, s₃, hstate, hentry⟩ := run_bind_eq_ok.mp h
    obtain ⟨hprecondition, rfl⟩ := render_eq_ok.mp hprecondition
    obtain ⟨heffect, rfl⟩ := render_eq_ok.mp heffect
    obtain ⟨hstate, rfl⟩ := render_eq_ok.mp hstate
    cases hentry
    exact ⟨⟨rfl, rfl, hprecondition, heffect, rfl, hstate⟩, rfl⟩
  · rintro ⟨⟨rfl, action, precondition, effect, rfl, state⟩, rfl⟩
    refine run_bind_eq_ok.mpr ⟨_, _, render_eq_ok.mpr ⟨precondition, rfl⟩, ?_⟩
    refine run_bind_eq_ok.mpr ⟨_, _, render_eq_ok.mpr ⟨effect, rfl⟩, ?_⟩
    refine run_bind_eq_ok.mpr ⟨_, _, render_eq_ok.mpr ⟨state, rfl⟩, ?_⟩
    rw [← action]
    rfl

theorem record_eq_error {held : Bool} {e : PlanningError}
    (h : record n a held w s = (.error e, s')) : ∃ e', e = .formula e' := by
  rcases run_bind_eq_error.mp h with h | ⟨_, _, -, h⟩
  · exact render_eq_error h
  rcases run_bind_eq_error.mp h with h | ⟨_, _, -, h⟩
  · exact render_eq_error h
  rcases run_bind_eq_error.mp h with h | ⟨_, _, -, h⟩
  · exact render_eq_error h
  · cases h

/-- What comes of a step: the action runs, or its precondition is false and the world stays. -/
inductive Tried (s : Session) (n : Nat) (a : GroundAction) (w : World) :
    ReportStep → World → Session → Prop where
  | ran {entry : ReportStep} {w₁ : World} {s₁ s₂ : Session}
      (holds : evaluate a.precondition w s = (.ok true, s₁))
      (next : apply w a.effect s₁ = (.ok w₁, s₂)) (record : s₂.Records n a true w₁ entry) :
      Tried s n a w entry w₁ s₂
  | stopped {entry : ReportStep} {s₁ : Session}
      (fails : evaluate a.precondition w s = (.ok false, s₁))
      (record : s₁.Records n a false w entry) : Tried s n a w entry w s₁

theorem attempt_eq_ok :
    attempt n a w s = (.ok (entry, w'), s') ↔ Tried s n a w entry w' s' := by
  constructor
  · intro h
    obtain ⟨held, s₁, hheld, h⟩ := run_bind_eq_ok.mp h
    have hheld := WorldSpace.ofFormulas_eq_ok.mp hheld
    cases held with
    | true =>
        obtain ⟨w₁, s₂, hw₁, h⟩ := run_bind_eq_ok.mp h
        obtain ⟨entry, s₃, hentry, h⟩ := run_bind_eq_ok.mp h
        cases h
        obtain ⟨records, rfl⟩ := record_eq_ok.mp hentry
        exact .ran hheld (WorldSpace.ofFormulas_eq_ok.mp hw₁) records
    | false =>
        obtain ⟨entry, s₃, hentry, h⟩ := run_bind_eq_ok.mp h
        cases h
        obtain ⟨records, rfl⟩ := record_eq_ok.mp hentry
        exact .stopped hheld records
  · intro h
    cases h with
    | ran holds next records =>
        refine run_bind_eq_ok.mpr ⟨true, _, WorldSpace.ofFormulas_eq_ok.mpr holds, ?_⟩
        refine run_bind_eq_ok.mpr ⟨_, _, WorldSpace.ofFormulas_eq_ok.mpr next, ?_⟩
        exact run_bind_eq_ok.mpr ⟨_, _, record_eq_ok.mpr ⟨records, rfl⟩, rfl⟩
    | stopped fails records =>
        refine run_bind_eq_ok.mpr ⟨false, _, WorldSpace.ofFormulas_eq_ok.mpr fails, ?_⟩
        exact run_bind_eq_ok.mpr ⟨_, _, record_eq_ok.mpr ⟨records, rfl⟩, rfl⟩

/-- Only formulas can make a step fail. -/
theorem attempt_eq_error {e : PlanningError} (h : attempt n a w s = (.error e, s')) :
    ∃ e', e = .formula e' := by
  have recorded {held : Bool} {w : World} {s : Session}
      (h : (do return (← record n a held w, w)) s = (.error e, s')) : ∃ e', e = .formula e' := by
    rcases run_bind_eq_error.mp h with h | ⟨_, _, -, h⟩
    · exact record_eq_error h
    · cases h
  rcases run_bind_eq_error.mp h with h | ⟨held, s₁, -, h⟩
  · exact (WorldSpace.ofFormulas_eq_error.mp h).imp fun _ h => h.1
  cases held with
  | true =>
      rcases run_bind_eq_error.mp h with h | ⟨_, _, -, h⟩
      · exact (WorldSpace.ofFormulas_eq_error.mp h).imp fun _ h => h.1
      · exact recorded h
  | false => exact recorded h

/-- A plan is replayed step by step. -/
theorem replaySteps_cons (found : t.find? name = some a) :
    replaySteps t n w (name :: names) = attempt n a w >>= fun (entry, w) =>
      if entry.preconditionHeld then
        (fun out => (entry :: out.1, out.2)) <$> replaySteps t (n + 1) w names
      else return ([entry], w, false) := by
  rw [replaySteps, found]
  obtain rfl := ActionTable.name_of_find? found
  unfold attempt record
  simp only [bind_assoc, pure_bind]
  congr 1
  funext held
  cases held <;> simp

/-! ### Whole plans -/

/-- How a replay ends. -/
inductive Ends (t : ActionTable) (s : Session) (w : World) (n : Nat) :
    List String → Except PlanningError (List ReportStep × World × Bool) × Session → Prop where
  /-- All actions have run. -/
  | finished {names : List String} {acts : List GroundAction} {entries : List ReportStep}
      {s' : Session} {w' : World} (finds : t.Finds names acts)
      (run : s.Replayed w n acts entries s' w') : Ends t s w n names (.ok (entries, w', true), s')
  /-- A precondition is false. -/
  | stopped {done later : List String} {name : String} {acts : List GroundAction}
      {a : GroundAction} {entries : List ReportStep} {entry : ReportStep} {s₁ s' : Session}
      {w' : World} (finds : t.Finds done acts) (run : s.Replayed w n acts entries s₁ w')
      (found : t.find? name = some a) (fails : evaluate a.precondition w' s₁ = (.ok false, s'))
      (record : s'.Records (n + acts.length) a false w' entry) :
      Ends t s w n (done ++ name :: later) (.ok (entries ++ [entry], w', false), s')
  /-- A name is unknown. -/
  | unknown {done later : List String} {name : String} {acts : List GroundAction}
      {entries : List ReportStep} {s' : Session} {w' : World} (finds : t.Finds done acts)
      (run : s.Replayed w n acts entries s' w') (missing : t.find? name = none) :
      Ends t s w n (done ++ name :: later) (.error (.unknownAction name), s')
  /-- Something about formulas fails. -/
  | broken {names : List String} {s' : Session} (e : FormulaError) :
      Ends t s w n names (.error (.formula e), s')

/-- A step that runs, before the others. -/
theorem Ends.cons {s₂ : Session}
    {result : Except PlanningError (List ReportStep × World × Bool)}
    (found : t.find? name = some a) (holds : evaluate a.precondition w s = (.ok true, s₁))
    (next : apply w a.effect s₁ = (.ok w₁, s₂)) (record : s₂.Records n a true w₁ entry)
    (h : Ends t s₂ w₁ (n + 1) names (result, s')) :
    Ends t s w n (name :: names) (result.map fun out => (entry :: out.1, out.2), s') := by
  cases h with
  | finished finds run => exact .finished (.cons found finds) (.cons holds next record run)
  | stopped finds run found' fails record' =>
      refine .stopped (.cons found finds) (.cons holds next record run) found' fails ?_
      rwa [List.length_cons, Nat.add_comm _ 1, ← Nat.add_assoc]
  | unknown finds run missing =>
      exact .unknown (.cons found finds) (.cons holds next record run) missing
  | broken e => exact .broken e

/-- **There are four ways in which a replay ends.** -/
theorem replaySteps_ends (t : ActionTable) (n : Nat) (w : World) (names : List String)
    (s : Session) : Ends t s w n names (replaySteps t n w names s) := by
  induction names generalizing n w s with
  | nil => exact .finished .nil (.nil s w n)
  | cons name names ih =>
      cases found : t.find? name with
      | none =>
          rw [replaySteps, found]
          exact .unknown .nil (.nil s w n) found
      | some a =>
          rw [replaySteps_cons found, run_bind]
          rcases tried : attempt n a w s with ⟨e | ⟨entry, w₁⟩, s₁⟩
          · obtain ⟨e, rfl⟩ := attempt_eq_error tried
            exact .broken e
          · cases attempt_eq_ok.mp tried with
            | ran holds next record =>
                have rest := (ih (n + 1) w₁ s₁).cons found holds next record
                simpa only [record.held, if_true, run_map] using rest
            | stopped fails record =>
                have ends : Ends t s w n ([] ++ name :: names) _ :=
                  .stopped .nil (.nil s w n) found fails record
                simpa [record.held] using ends

/-- Names whose actions run only add their records. -/
theorem replaySteps_append (finds : t.Finds done acts)
    (run : s.Replayed w n acts entries s₁ w₁) (names : List String) :
    replaySteps t n w (done ++ names) s =
      ((replaySteps t (n + acts.length) w₁ names s₁).1.map fun out => (entries ++ out.1, out.2),
        (replaySteps t (n + acts.length) w₁ names s₁).2) := by
  induction run generalizing done with
  | nil s w n =>
      cases finds
      change replaySteps t n w names s = _
      rcases replaySteps t n w names s with ⟨_ | _, _⟩ <;> rfl
  | cons holds next record _ ih =>
      cases finds with
      | cons found finds =>
          rw [List.cons_append, replaySteps_cons found, run_bind,
            attempt_eq_ok.mpr (.ran holds next record)]
          simp only [record.held, if_true, run_map]
          rw [ih finds, Nat.add_right_comm, List.length_cons, ← Nat.add_assoc]
          rcases replaySteps t _ _ names _ with ⟨_ | _, _⟩ <;> rfl

theorem replaySteps_unknown_iff :
    replaySteps t n w names s = (.error (.unknownAction name), s') ↔
      ∃ done later acts entries w', names = done ++ name :: later ∧ t.find? name = none ∧
        t.Finds done acts ∧ s.Replayed w n acts entries s' w' := by
  constructor
  · intro h
    have ends := replaySteps_ends t n w names s
    rw [h] at ends
    cases ends with
    | unknown finds run missing => exact ⟨_, _, _, _, _, rfl, missing, finds, run⟩
  · rintro ⟨done, later, acts, entries, w', rfl, missing, finds, run⟩
    rw [replaySteps_append finds run, replaySteps, missing]
    rfl

variable {task : Task} {domain problem : String} {plan : List String} {report : Report}

/-- A replay that succeeds has the steps of the plan, and has then asked for the goal if all of them
ran. -/
theorem replay_eq_ok (h : task.replay domain problem plan s = (.ok report, s')) :
    ∃ w applicable s₁,
      replaySteps task.actions 0 task.initial plan s = (.ok (report.steps, w, applicable), s₁) ∧
      report.goalReached = report.valid ∧
      (applicable = true → evaluate task.goal w s₁ = (.ok report.valid, s')) ∧
      (applicable = false → report.valid = false) := by
  obtain ⟨initial, s₁, hinitial, h₁⟩ := run_bind_eq_ok.mp h
  obtain ⟨goal, s₂, hgoal, h₂⟩ := run_bind_eq_ok.mp h₁
  obtain ⟨-, rfl⟩ := render_eq_ok.mp hinitial
  obtain ⟨-, rfl⟩ := render_eq_ok.mp hgoal
  obtain ⟨⟨steps, w, applicable⟩, s₃, hsteps, h₃⟩ := run_bind_eq_ok.mp h₂
  cases applicable with
  | true =>
      obtain ⟨reached, s₄, hreached, hreport⟩ := run_bind_eq_ok.mp h₃
      obtain ⟨same, rfl⟩ := Prod.mk.inj hreport
      obtain rfl := Except.ok.inj same
      exact ⟨w, true, s₃, hsteps, rfl, fun _ => WorldSpace.ofFormulas_eq_ok.mp hreached,
        fun h => by cases h⟩
  | false =>
      obtain ⟨same, rfl⟩ := Prod.mk.inj h₃
      obtain rfl := Except.ok.inj same
      exact ⟨w, false, _, hsteps, rfl, (fun h => by cases h), fun _ => rfl⟩

/-- A replay complains of a name exactly if it can print the task and its steps do so. -/
theorem replay_unknown_iff :
    task.replay domain problem plan s = (.error (.unknownAction name), s') ↔
      (∃ text, s.render task.initial.key = .ok text) ∧ (∃ text, s.render task.goal = .ok text) ∧
        replaySteps task.actions 0 task.initial plan s = (.error (.unknownAction name), s') := by
  constructor
  · intro h
    rcases run_bind_eq_error.mp h with h₁ | ⟨initial, s₁, hinitial, h₁⟩
    · obtain ⟨e, h⟩ := render_eq_error h₁
      cases h
    rcases run_bind_eq_error.mp h₁ with h₂ | ⟨goal, s₂, hgoal, h₂⟩
    · obtain ⟨e, h⟩ := render_eq_error h₂
      cases h
    obtain ⟨hinitial, rfl⟩ := render_eq_ok.mp hinitial
    obtain ⟨hgoal, rfl⟩ := render_eq_ok.mp hgoal
    refine ⟨⟨initial, hinitial⟩, ⟨goal, hgoal⟩, ?_⟩
    rcases run_bind_eq_error.mp h₂ with h₃ | ⟨⟨steps, w, applicable⟩, s₃, -, h₃⟩
    · exact h₃
    cases applicable with
    | true =>
        rcases run_bind_eq_error.mp h₃ with h₄ | ⟨reached, s₄, -, h₄⟩
        · obtain ⟨e, h, -⟩ := WorldSpace.ofFormulas_eq_error.mp h₄
          cases h
        · cases h₄
    | false => cases h₃
  · rintro ⟨⟨initial, hinitial⟩, ⟨goal, hgoal⟩, h⟩
    refine run_bind_eq_error.mpr (.inr ⟨initial, s, render_eq_ok.mpr ⟨hinitial, rfl⟩, ?_⟩)
    refine run_bind_eq_error.mpr (.inr ⟨goal, s, render_eq_ok.mpr ⟨hgoal, rfl⟩, ?_⟩)
    exact run_bind_eq_error.mpr (.inl h)

/-- A plan is valid exactly if its actions run and lead to the goal. -/
theorem valid_iff (h : task.replay domain problem plan s = (.ok report, s')) :
    report.valid = true ↔ ∃ acts s₁ w s₂, task.actions.Finds plan acts ∧
      s.Executes task.initial acts s₁ w ∧ evaluate task.goal w s₁ = (.ok true, s₂) := by
  obtain ⟨w, applicable, s₁, run, -, goal, failed⟩ := replay_eq_ok h
  have ends := replaySteps_ends task.actions 0 task.initial plan s
  rw [run] at ends
  generalize report.steps = steps at ends
  cases ends with
  | @finished _ acts _ _ _ finds replayed =>
      have goal := goal rfl
      constructor
      · intro valid
        rw [valid] at goal
        exact ⟨acts, s₁, w, s', finds, replayed.executes, goal⟩
      · rintro ⟨acts', s₁', w', s₂, finds', executes, goal'⟩
        obtain rfl := finds.unique finds'
        obtain ⟨rfl, rfl⟩ := replayed.executes.unique executes
        exact Except.ok.inj (Prod.mk.inj (goal.symm.trans goal')).1
  | stopped finds replayed found fails record =>
      rw [failed rfl]
      refine iff_of_false Bool.false_ne_true ?_
      rintro ⟨acts', s₁', w', s₂, finds', executes, -⟩
      -- the actions would run, so that the precondition found false were true
      obtain ⟨first, a, rest, rfl, finds'', found'⟩ := finds'.split
      obtain rfl := finds.unique finds''
      obtain rfl := Option.some.inj (found.symm.trans found')
      obtain ⟨s₂, w₂, before, after⟩ := executes_append.mp executes
      obtain ⟨rfl, rfl⟩ := replayed.executes.unique before
      cases after with
      | cons holds _ _ => cases fails.symm.trans holds

/-- The first failed step of a report, if it is the last one. -/
theorem failedStep?_eq {last : Option ReportStep} (steps : report.steps = entries ++ last.toList)
    (held : ∀ entry ∈ entries, entry.preconditionHeld = true)
    (failed : ∀ entry ∈ last, entry.preconditionHeld = false) : report.failedStep? = last := by
  have passed : entries.find? (!·.preconditionHeld) = none :=
    List.find?_eq_none.mpr fun entry mem => by simp [held entry mem]
  unfold Report.failedStep?
  rw [steps, List.find?_append, passed, Option.none_or]
  cases last with
  | none => rfl
  | some entry => simp [failed entry rfl]

/-- The steps of a report are the records of the actions that run, and of the one after them. -/
theorem exists_steps (h : task.replay domain problem plan s = (.ok report, s')) :
    ∃ k acts entries s₁ w, task.actions.Finds (plan.take k) acts ∧ acts.length = k ∧
      s.Replayed task.initial 0 acts entries s₁ w ∧
      report.steps = entries ++ report.failedStep?.toList ∧
      report.steps.length = min (k + 1) plan.length ∧ report.failedStep? = report.steps[k]? ∧
      ∀ entry, report.failedStep? = some entry → ∃ name a s₂, plan[k]? = some name ∧
        task.actions.find? name = some a ∧ evaluate a.precondition w s₁ = (.ok false, s₂) ∧
        s₂.Records k a false w entry := by
  obtain ⟨w, applicable, s₁, run, -⟩ := replay_eq_ok h
  have ends := replaySteps_ends task.actions 0 task.initial plan s
  rw [run] at ends
  generalize hsteps : report.steps = steps at ends
  cases ends with
  | @finished _ acts _ _ _ finds replayed =>
      have whole : acts.length = plan.length := finds.length_eq.symm
      have failed : report.failedStep? = none :=
        failedStep?_eq (by simpa using hsteps) replayed.held (by simp)
      refine ⟨acts.length, acts, _, _, _, ?_, rfl, replayed, ?_, ?_, ?_, ?_⟩
      · rwa [whole, List.take_length]
      · simp [failed]
      · rw [replayed.length_eq, whole]
        omega
      · rw [failed, ← replayed.length_eq, List.getElem?_length]
      · simp [failed]
  | @stopped done later name acts a entries entry _ _ _ finds replayed found fails record =>
      have first : done.length = acts.length := finds.length_eq
      rw [Nat.zero_add] at record
      have failed : report.failedStep? = some entry :=
        failedStep?_eq (by simpa using hsteps) replayed.held (by simpa using record.held)
      refine ⟨acts.length, acts, entries, _, _, ?_, rfl, replayed, ?_, ?_, ?_, ?_⟩
      · rwa [← first, List.take_left']
        rfl
      · rw [failed]
        rfl
      · rw [List.length_append, replayed.length_eq, List.length_append, first]
        simp
      · rw [failed, ← replayed.length_eq, List.getElem?_concat_length]
      · intro entry' last
        obtain rfl := Option.some.inj (failed.symm.trans last)
        refine ⟨name, a, _, ?_, found, fails, record⟩
        rw [← first]
        simp

/-- **A replay accepts exactly the plans that can be executed and reach the goal.**  If it gives a
report at all, the plan is valid if and only if every name is found, the actions so found run one
after the other from the initial world, and the goal is found true at the end.  The steps are the
records of the first actions, as many as run, and of the one after these, whose precondition is
false, if there is one.  That record is the failed step.

A replay complains of an unknown name exactly if the table has no action of this name, and has one
for each name before, and all that is done and printed until then succeeds with all preconditions
true. -/
theorem replay_accepts (task : Task) (domain problem : String) (plan : List String) (s : Session) :
    (∀ report s', task.replay domain problem plan s = (.ok report, s') →
      (report.valid = true ↔ ∃ acts s₁ w s₂, task.actions.Finds plan acts ∧
        s.Executes task.initial acts s₁ w ∧ evaluate task.goal w s₁ = (.ok true, s₂)) ∧
      report.goalReached = report.valid ∧
      ∃ k acts entries s₁ w, task.actions.Finds (plan.take k) acts ∧ acts.length = k ∧
        s.Replayed task.initial 0 acts entries s₁ w ∧
        report.steps = entries ++ report.failedStep?.toList ∧
        report.steps.length = min (k + 1) plan.length ∧ report.failedStep? = report.steps[k]? ∧
        ∀ entry, report.failedStep? = some entry → ∃ name a s₂, plan[k]? = some name ∧
          task.actions.find? name = some a ∧ evaluate a.precondition w s₁ = (.ok false, s₂) ∧
          s₂.Records k a false w entry) ∧
    ∀ name s', task.replay domain problem plan s = (.error (.unknownAction name), s') ↔
      (∃ text, s.render task.initial.key = .ok text) ∧ (∃ text, s.render task.goal = .ok text) ∧
      ∃ done later acts entries w, plan = done ++ name :: later ∧
        task.actions.find? name = none ∧ task.actions.Finds done acts ∧
        s.Replayed task.initial 0 acts entries s' w := by
  refine ⟨fun report s' h => ⟨valid_iff h, ?_, exists_steps h⟩, fun name s' => ?_⟩
  · obtain ⟨_, _, _, -, reached, -⟩ := replay_eq_ok h
    exact reached
  · rw [replay_unknown_iff, replaySteps_unknown_iff]

end Task

namespace Morning

/-- A session with three atoms, and the world of the first. -/
def session : Session :=
  runAll [.parse "awake", .parse "up", .parse "asleep", .addWorld (.ofList [Key.ofKind .atom 1])] ∅

def rise : GroundAction := ⟨⟨1⟩, "rise", .ofKind .atom 1, .ofKind .atom 2⟩

/-- It needs the third atom, which does not hold. -/
def dream : GroundAction := ⟨⟨2⟩, "dream", .ofKind .atom 3, .ofKind .atom 2⟩

def task : Task where
  initial := ⟨.ofKind .world 4⟩
  goal := .ofKind .atom 2
  actions := { actions := #[rise, dream], issued := 2 }
  grounded := 2

end Morning

open Morning in
/-- An unknown name does not matter after a step that fails, but after one that runs. -/
theorem Task.replay_accepts_morning :
    (∃ report s' step, task.replay "" "" ["rise", "dream", "fly"] session = (.ok report, s') ∧
      report.failedStep? = some step ∧ step.action = "dream" ∧ report.steps[1]? = some step) ∧
    ∃ s' acts entries w, task.replay "" "" ["rise", "fly"] session =
        (.error (.unknownAction "fly"), s') ∧
      task.actions.Finds ["rise"] acts ∧ session.Replayed task.initial 0 acts entries s' w := by
  constructor
  · have run : (task.replay "" "" ["rise", "dream", "fly"] session).1.map (·.steps.length) =
        .ok 2 := by decide +kernel
    rcases result : task.replay "" "" ["rise", "dream", "fly"] session with ⟨e | report, s'⟩
    · rw [result] at run
      cases run
    rw [result] at run
    have two : report.steps.length = 2 := Except.ok.inj run
    obtain ⟨-, -, k, acts, entries, s₁, w, -, -, -, -, count, failed, record⟩ :=
      (replay_accepts task "" "" ["rise", "dream", "fly"] session).1 report s' result
    obtain rfl : k = 1 := by
      rw [two, List.length_cons, List.length_cons, List.length_singleton] at count
      omega
    have there : report.steps[1]? = some report.steps[1] := List.getElem?_eq_getElem _
    obtain ⟨name, a, s₂, second, found, -, records⟩ := record _ (failed.trans there)
    cases second
    refine ⟨report, s', _, rfl, failed.trans there, ?_, there⟩
    exact records.action.trans (ActionTable.name_of_find? found)
  · have run : (task.replay "" "" ["rise", "fly"] session).1 = .error (.unknownAction "fly") := by
      decide +kernel
    have run := run_eq_of_result run
    obtain ⟨-, -, done, later, acts, entries, w, split, missing, finds, replayed⟩ :=
      ((replay_accepts task "" "" ["rise", "fly"] session).2 _ _).mp run
    obtain rfl : done = ["rise"] := by
      rcases done with _ | ⟨first, _ | ⟨second, done⟩⟩
      · simp at split
      · rw [(List.cons.inj split).1]
      · simp at split
    exact ⟨_, acts, entries, w, run, finds, replayed⟩

end ClassicalPlanner
