import ClassicalPlanner.Proofs.Plan.Completeness
import ClassicalPlanner.Proofs.Search.Failure
import ClassicalPlanner.Proofs.Task.Failure

/-!
# How planners fail

A planner searches worlds, and asks the session that holds them about each.  The session knows the
goal and the formulas of the actions from the start, and a world from the time when an edge leads to
it.  So it answers each question of the search, or refuses a formula (`reliable_space`).

The numbers that the search ends with are those of actions of its table (`get?_of_search`), and the
search does end (`solve_ends`).  Hence solving a problem that has been read, and reporting on it,
fail only because a formula is refused; and reading fails only in errors of reading
(`fails_as_documented`).
-/

namespace ClassicalPlanner

open Session Search

variable {s s' F : Session} {w : World} {other : Prop} {α : Type}
variable {goal : Key} {estimate : Estimate} {actions : ActionTable} {l : List GroundAction}
variable {e : PlanningError} {limit : Option Nat}

/-- The error is that a formula is rejected, or that there is really no number left. -/
def PlanningError.Refuses (other : Prop) (s : Session) (e : PlanningError) : Prop :=
  ∃ cause, e = .formula cause ∧ s.Refused other cause

/-! ### Questions about worlds -/

/-- The session can be asked about a goal and about the actions of a table. -/
structure Session.Ready (s : Session) (goal : Key) (actions : ActionTable) : Prop where
  sound : s.Sound
  closed : s.Closed
  goal : s.store.contains goal
  keys : s.Knows actions.keys

theorem Session.Ready.keeps (h : s.Ready goal actions) (sound : s'.Sound) (closed : s'.Closed)
    (keeps : Keeps s s') : s'.Ready goal actions :=
  ⟨sound, closed, keeps.store.contains h.goal, h.keys.keeps keeps⟩

theorem Session.Ready.contains (h : s.Ready goal actions) {a : GroundAction}
    (ha : a ∈ actions.toList) : s.store.contains a.precondition ∧ s.store.contains a.effect :=
  ⟨h.keys _ (ActionTable.mem_keys.mpr ⟨a, ha, .inl rfl⟩),
    h.keys _ (ActionTable.mem_keys.mpr ⟨a, ha, .inr rfl⟩)⟩

namespace WorldSpace

/-- A session that is ready is asked about its worlds, and refuses only formulas. -/
def terms (goal : Key) (actions : ActionTable) (other : Prop) :
    Terms PlanningError Session World where
  holds s := s.Ready goal actions
  knows s w := s.HasWorld w
  fails s e := e.Refuses other s

/-- Operations on formulas keep to the terms. -/
theorem keeps_ofFormulas {x : SessionM α} {good : Session → α → Prop}
    (hs : s.Ready goal actions) (served : Serves x s (Session.Gives good FormulaError.Refusal))
    (spends : Spends other x) : (terms goal actions other).Keeps (ofFormulas x) s good := by
  refine ⟨hs.keeps served.sound (served.closed hs.closed) served.keeps,
    fun w hw => hw.keeps served.keeps, fun {a} same => ?_, fun {e} same => ?_⟩
  · have given := served.result
    rw [show (x s).1 = .ok a from
      congrArg Prod.fst (ofFormulas_eq_ok.mp (Session.run_eq_of_result same))] at given
    exact given
  · obtain ⟨cause, rfl, run⟩ := ofFormulas_eq_error.mp (Session.run_eq_of_result same)
    have refusal := served.result
    rw [run] at refusal
    exact ⟨cause, rfl, spends.refused run refusal⟩

theorem serves_value (hs : s.Sound) (hw : s.HasWorld w) :
    Serves (estimate.value w) s (Session.Gives (fun _ _ => True) FormulaError.Refusal) := by
  cases estimate with
  | blind => exact .pure hs trivial
  | goalCount atoms =>
      exact .bind (serves_atoms_known hs hw) fun _ sound _ _ => .pure sound trivial

theorem serves_edges (hs : s.Sound) (hc : s.Closed) (hw : s.HasWorld w)
    (known : ∀ a ∈ l, s.store.contains a.precondition ∧ s.store.contains a.effect) :
    Serves (edges w l) s
      (Session.Gives (fun s es => ∀ e ∈ es, s.HasWorld e.state) FormulaError.Refusal) := by
  induction l generalizing s with
  | nil => exact .pure hs fun _ h => absurd h List.not_mem_nil
  | cons a l ih =>
      obtain ⟨⟨hp, he⟩, known⟩ := List.forall_mem_cons.mp known
      have later {s' : Session} (keeps : Keeps s s') :
          ∀ a ∈ l, s'.store.contains a.precondition ∧ s'.store.contains a.effect :=
        fun a ha => ⟨keeps.store.contains (known a ha).1, keeps.store.contains (known a ha).2⟩
      refine .bind (serves_evaluate_known hs hc hp hw) fun {holds _} keeps sound closed _ => ?_
      cases holds with
      | false => exact ih sound (closed hc) (hw.keeps keeps) (later keeps)
      | true =>
          refine .bind (serves_apply_known sound (closed hc) (keeps.store.contains he)
            (hw.keeps keeps)) fun keeps₁ sound₁ closed₁ hw' => ?_
          have most := keeps.trans keeps₁
          refine .bind (ih sound₁ (closed₁ (closed hc)) (hw.keeps most) (later most))
            fun keeps₂ sound₂ _ rest => .pure sound₂ ?_
          exact List.forall_mem_cons.mpr ⟨hw'.keeps keeps₂, rest⟩

/-- **The worlds of a session** that knows the goal and the formulas of the actions can be
searched. -/
theorem reliable_space :
    (space actions goal estimate).Reliable (terms goal actions other) where
  isGoal {_ w} hs hw :=
    keeps_ofFormulas hs (serves_evaluate_known hs.sound hs.closed hs.goal hw)
      (repeats_evaluate goal w).spends
  estimate {_ w} hs hw :=
    keeps_ofFormulas hs (serves_value hs.sound hw) (repeats_value estimate w).spends
  successors {_ w} hs hw :=
    keeps_ofFormulas hs (serves_edges hs.sound hs.closed hw fun _ ha => hs.contains ha)
      (repeats_edges w actions.toList).spends

/-- A search is cut off, or a formula is refused. -/
theorem search_eq_error (hs : s.Ready goal actions) (hw : s.HasWorld w)
    (h : search actions goal estimate limit w s = (.error e, s')) :
    e = .unfinished ∨ e.Refuses other s' := by
  rcases run_bind_eq_error.mp h with h | ⟨_, _, ⟨⟩, h⟩
  · cases h
  have reliable : (space actions goal estimate).Reliable (terms goal actions other) :=
    reliable_space
  have keeps : (terms goal actions other).Keeps (ClassicalPlanner.search
      (space actions goal estimate) limit (roundBound s actions w) w) s fun _ _ => True :=
    reliable.search _ hs hw
  rcases run_bind_eq_error.mp h with h | ⟨out, s₁, -, h⟩
  · exact .inr (keeps.of_error h)
  · cases out with
    | none => cases h; exact .inl rfl
    | some result => cases h

end WorldSpace

/-! ### Replaying -/

namespace Task

open WorldSpace

variable {k : Key} {t : ActionTable} {names : List String} {task : Task}

theorem keeps_render (hs : s.Ready goal t) (known : s.store.contains k) :
    (terms goal t other).Keeps (render k) s fun _ _ => True := by
  obtain ⟨text, found⟩ := hs.closed.exists_render known
  have run : render k s = (.ok text, s) := by unfold render; rw [found]
  refine ⟨by rwa [run], ?_, fun _ => trivial, ?_⟩ <;> rw [run]
  · exact fun _ => id
  · exact fun same => by cases same

/-- What an entry of a report says can be printed. -/
theorem keeps_entry {a : GroundAction} {f : String → String → String → PlanM α}
    {P : Session → α → Prop} (ha : a ∈ t.toList) (hs : s.Ready goal t)
    (hw : s.HasWorld w) (hf : ∀ {precondition effect state s'},
      s'.Ready goal t → s'.HasWorld w →
        (terms goal t other).Keeps (f precondition effect state) s' P) :
    (terms goal t other).Keeps (do
      let precondition ← render a.precondition
      let effect ← render a.effect
      let state ← render w.key
      f precondition effect state) s P := by
  refine .bind (keeps_render hs (hs.contains ha).1) fun hs₁ grows₁ _ => ?_
  refine .bind (keeps_render hs₁ (hs₁.contains ha).2) fun hs₂ grows₂ _ => ?_
  have hw := grows₂ w (grows₁ w hw)
  exact .bind (keeps_render hs₂ hw.contains) fun hs₃ grows₃ _ => hf hs₃ (grows₃ w hw)

/-- A plan of known actions can be replayed from a world, or a formula is refused. -/
theorem keeps_replaySteps {n : Nat} (named : ∀ name ∈ names, ∃ a ∈ t.toList, a.name = name)
    (hs : s.Ready goal t) (hw : s.HasWorld w) :
    (terms goal t other).Keeps (replaySteps t n w names) s
      fun s out => s.HasWorld out.2.1 := by
  induction names generalizing s w n with
  | nil => exact .pure hs hw
  | cons name names ih =>
      obtain ⟨⟨a, ha, rfl⟩, rest⟩ := List.forall_mem_cons.mp named
      obtain ⟨b, hb, found⟩ := ActionTable.exists_find? ha
      unfold replaySteps
      rw [found]
      refine .bind (keeps_ofFormulas hs (serves_evaluate_known hs.sound hs.closed
        (hs.contains hb).1 hw) (repeats_evaluate _ _).spends) fun {held _} hs₁ grows₁ _ => ?_
      have hw := grows₁ w hw
      cases held with
      | false =>
          refine .bind (.pure hs₁ hw) fun hs₂ _ hw₂ => keeps_entry hb hs₂ hw₂ fun hs₃ hw₃ => ?_
          exact .pure hs₃ hw₃
      | true =>
          refine .bind (keeps_ofFormulas hs₁ (serves_apply_known hs₁.sound hs₁.closed
            (hs₁.contains hb).2 hw) (repeats_apply _ _).spends) fun hs₂ _ hw₂ =>
              keeps_entry hb hs₂ hw₂ fun hs₃ hw₃ => ?_
          exact .bind (ih rest hs₃ hw₃) fun hs₄ _ hw₄ => .pure hs₄ hw₄

/-- Replaying a plan of known actions fails only because a formula is refused. -/
theorem replay_eq_error {domain problem : String}
    (named : ∀ name ∈ names, ∃ a ∈ task.actions.toList, a.name = name)
    (hs : s.Ready task.goal task.actions) (hw : s.HasWorld task.initial)
    (h : task.replay domain problem names s = (.error e, s')) : e.Refuses other s' := by
  have keeps : (terms task.goal task.actions other).Keeps (task.replay domain problem names) s
      fun _ _ => True := by
    refine .bind (keeps_render hs hw.contains) fun hs₁ grows₁ _ => ?_
    refine .bind (keeps_render hs₁ hs₁.goal) fun hs₂ grows₂ _ => ?_
    refine .bind (keeps_replaySteps named hs₂ (grows₂ _ (grows₁ _ hw)))
      fun {out _} hs₃ _ hw₃ => ?_
    obtain ⟨steps, w', applicable⟩ := out
    cases applicable with
    | false => exact .pure hs₃ trivial
    | true =>
        refine .bind (keeps_ofFormulas hs₃ (serves_evaluate_known hs₃.sound hs₃.closed hs₃.goal hw₃)
          (repeats_evaluate _ _).spends) fun hs₄ _ _ => ?_
        exact .pure hs₄ trivial
  exact keeps.of_error h

/-- A session in which a problem has been grounded is ready to be asked about it. -/
theorem ready_ofProblem {d : Domain} {problem : Problem} {prune : Bool}
    (readable : ∀ a ∈ d.actions, a.Readable) (readable' : problem.Readable)
    (h : ofProblem d problem prune ∅ = (.ok task, s)) :
    s.Ready task.goal task.actions ∧ s.HasWorld task.initial := by
  have served := serves_ofProblem sound_empty closed_empty readable readable' prune
  obtain ⟨sound, -, closed, holds⟩ := served
  rw [h] at sound closed holds
  exact ⟨⟨sound, closed closed_empty, holds.goal, holds.keys⟩, holds.initial⟩

end Task

/-! ### Planners -/

theorem Session.serves_ofGoal (hs : s.Ready goal actions) : Serves (Estimate.ofGoal goal) s
    (Session.Gives (fun _ _ => True) FormulaError.Refusal) :=
  .bind (serves_collectAll_known hs.sound hs.closed hs.goal knows_empty) fun _ sound _ _ =>
    .pure sound trivial

theorem Session.spends_ofGoal (goal : Key) : Spends other (Estimate.ofGoal goal) :=
  .bind (repeats_collectAll ∅ goal).spends fun _ => .pure _

namespace Planner

variable {p : Planner} {problem : Problem} {ws ws' : List Warning} {task : Task}

/-- Only the goal count of the goal touches the session. -/
theorem session_estimate (h : p.estimate goal s ws = ((.ok estimate, s'), ws')) :
    s' = s ∨ s' = (Estimate.ofGoal goal s).2 := by
  cases heuristic : p.configuration.heuristic with
  | blind =>
      rw [run_estimate_blind heuristic] at h
      cases h
      exact .inl rfl
  | goalCount =>
      rw [run_estimate heuristic] at h
      split at h <;> cases h <;> exact .inr (congrArg Prod.snd ‹_›).symm

theorem ready_estimate (hs : s.Ready goal actions) (hw : s.HasWorld w)
    (h : p.estimate goal s ws = ((.ok estimate, s'), ws')) :
    s'.Ready goal actions ∧ s'.HasWorld w := by
  rcases session_estimate h with rfl | rfl
  · exact ⟨hs, hw⟩
  · obtain ⟨sound, keeps, closed, -⟩ := serves_ofGoal hs
    exact ⟨hs.keeps sound (closed hs.closed) keeps, hw.keeps keeps⟩

/-- The numbers that a search answers are those of actions of its table. -/
theorem get?_of_search {path : Path World} {counters : Counters} {id : ActionId}
    (ground : Task.ofProblem p.domain problem p.configuration.pruneUnreachable ∅ = (.ok task, s))
    (estimated : p.estimate task.goal s ws = ((.ok estimate, s'), ws'))
    (searched : WorldSpace.search task.actions task.goal estimate limit task.initial s' =
      (.ok (path, counters), F))
    (mem : id ∈ path.actions) : ∃ a, task.actions.get? id = some a := by
  obtain ⟨whole, s₀, hwhole⟩ := exists_whole ground
  obtain ⟨l, W, states, measures⟩ :=
    Task.exists_states canonical_empty hwhole p.configuration.heuristic
  obtain ⟨grow, fits, sublist, rest, -, inside, start, sees⟩ :=
    estimate_sees hwhole states measures ground estimated
  rw [rest] at searched
  obtain ⟨-, fits', ⟨_, settled⟩, -⟩ :=
    WorldSpace.search_eq_ok fits sees (states.initial.mono grow) start searched
  obtain ⟨acts, subset, ids, -⟩ := WorldSpace.executes_of_search fits' settled
  obtain ⟨a, ha, rfl⟩ := List.mem_map.mp (ids.symm ▸ mem)
  obtain ⟨-, -, -, -, -, ordered, -⟩ := Task.ofProblem_eq_ok canonical_empty hwhole
  have rises : task.actions.Rises := ordered.rises.sublist sublist
  exact ⟨a, rises.get? (subset ha)⟩

/-- The error is that a formula of the problem is rejected, or that really no list or no action can
get a number. -/
def Refuses (p : Planner) (problem : Problem) (s : Session) (e : PlanningError) : Prop :=
  e.Refuses (UInt32.size ≤ (groundNames p.domain problem).length) s

section Readable

variable (readable : ∀ a ∈ p.domain.actions, a.Readable) (readable' : problem.Readable)

include readable readable'

/-- **Solving a problem** that is readable fails only because a formula is refused. -/
theorem solve_refuses (h : p.solve problem s ws = ((.error e, F), ws')) :
    p.Refuses problem F e := by
  cases solve_eq_error h with
  | ground run => exact ⟨_, rfl, Task.ofProblem_eq_error readable readable' run⟩
  | estimate ground run =>
      obtain ⟨hs, -⟩ := Task.ready_ofProblem readable readable' ground
      have refusal := (serves_ofGoal hs).result
      rw [run] at refusal
      exact ⟨_, rfl, (spends_ofGoal _).refused run refusal⟩
  | search ground estimated run =>
      obtain ⟨hs, hw⟩ := Task.ready_ofProblem readable readable' ground
      obtain ⟨hs, hw⟩ := ready_estimate hs hw estimated
      rcases WorldSpace.search_eq_error hs hw run with rfl | refuses
      · exact absurd (congrArg (·.1.1) h) solve_ends
      · exact refuses
  | names ground estimated searched mem unknown =>
      obtain ⟨a, found⟩ := get?_of_search ground estimated searched mem
      cases unknown.symm.trans found

/-- **Reporting on a problem** that is readable fails only because a formula is refused. -/
theorem report_refuses (h : p.report problem s ws = ((.error e, F), ws')) :
    p.Refuses problem F e := by
  rcases run_bind_eq_error h with failed | ⟨sol, s₁, ws₁, solved, h⟩
  · exact solve_refuses readable readable' failed
  rcases run_bind_eq_error h with failed | ⟨_, _, _, -, h⟩
  · rcases run_bind_eq_error failed with failed | ⟨task, s₂, ws₂, grounded, run⟩
    · obtain ⟨cause, rfl, run⟩ := ground_eq_error failed
      exact ⟨cause, rfl, Task.ofProblem_eq_error readable readable' run⟩
    · have grounded := ground_eq_ok grounded
      obtain ⟨hs, hw⟩ := Task.ready_ofProblem readable readable' grounded
      obtain ⟨l, W, states, measures⟩ :=
        Task.exists_states canonical_empty grounded p.configuration.heuristic
      obtain ⟨-, explained⟩ := solve_explained solved grounded states measures
      refine Task.replay_eq_error (fun name mem => ?_) hs hw (Prod.mk.inj run).1
      obtain ⟨id, -, a, ha, -, named⟩ := NodeStore.forall₂_exists_right explained.names.flip mem
      exact ⟨a, ha, named⟩
  · cases h

end Readable

theorem ofText_eq_ok {text : String} (h : ofText text ws = (.ok p, ws')) :
    Pddl.readDomain text ws = (.ok p.domain, ws') := by
  obtain ⟨d, ws₁, hd, h⟩ := Session.run_bind_eq_ok.mp h
  cases h
  exact hd

theorem ofReading_eq {x : WarnM α} {result : Except PlanningError α}
    (h : PlannerM.ofReading x s ws = ((result, s'), ws')) : x ws = (result, ws') ∧ s' = s := by
  obtain ⟨both, rfl⟩ := Prod.mk.inj h
  obtain ⟨rfl, rfl⟩ := Prod.mk.inj both
  exact ⟨rfl, rfl⟩

/-- **Planners fail as documented.**  What defines no domain, or no problem of the domain, fails in
an error of reading.  What defines a problem can be solved and reported on, unless a formula of it
is rejected or the numbers run out; whatever the settings, and whatever session is there before. -/
theorem fails_as_documented (text : String) (c : Configuration) :
    (∀ {ws e ws'}, ofText text ws = (.error e, ws') → e.OfReading) ∧
    ∀ {p ws₀ ws₀'}, ofText text ws₀ = (.ok p, ws₀') → ∀ problemText,
      let p : Planner := { p with configuration := c }
      (∀ {ws e ws'}, p.readProblem problemText ws = (.error e, ws') → e.OfReading) ∧
      (∀ {s ws e s' ws'}, p.plan problemText s ws = ((.error e, s'), ws') →
        e.OfReading ∨ ∃ problem ws₁, p.readProblem problemText ws = (.ok problem, ws₁) ∧
          p.Refuses problem s' e) ∧
      ∀ {problem ws₁ ws₁'}, p.readProblem problemText ws₁ = (.ok problem, ws₁') →
        (∀ {s ws e s' ws'}, p.solve problem s ws = ((.error e, s'), ws') →
          p.Refuses problem s' e) ∧
        ∀ {s ws e s' ws'}, p.report problem s ws = ((.error e, s'), ws') →
          p.Refuses problem s' e := by
  refine ⟨fun {ws e ws'} failed => ?_, fun {p ws₀ ws₀'} defined problemText => ?_⟩
  · have complains : Pddl.Complains (ofText text) :=
      .bind (Pddl.complains_readDomain text) fun d => .pure _
    exact complains ws e (congrArg Prod.fst failed)
  have readable := Pddl.readable_readDomain (ofText_eq_ok defined)
  intro p
  have reading {ws ws' : List Warning} {e : PlanningError}
      (failed : p.readProblem problemText ws = (.error e, ws')) : e.OfReading :=
    Pddl.complains_readProblem p.domain problemText ws e (congrArg Prod.fst failed)
  refine ⟨reading, fun {s ws e s' ws'} failed => ?_, fun {problem ws₁ ws₁'} read =>
    ⟨solve_refuses readable (Pddl.readable_readProblem read),
      report_refuses readable (Pddl.readable_readProblem read)⟩⟩
  rcases run_bind_eq_error failed with failed | ⟨problem, s₁, ws₁, read, run⟩
  · exact .inl (reading (ofReading_eq failed).1)
  · obtain ⟨read, -⟩ := ofReading_eq read
    exact .inr ⟨problem, ws₁, read,
      solve_refuses readable (Pddl.readable_readProblem read) run⟩

end Planner

namespace Denial

/-- Nothing can be done. -/
def domainText : String := "(define (domain d))"

/-- The goal denies nothing. -/
def problemText : String := "(define (problem p) (:domain d) (:goal (not)))"

def planner : Planner := { domain := { name := "d" } }

def problem : Problem :=
  { name := "p", domain := "d", objects := NameSets.extend ∅ "" [], goal := "(not)" }

/-- What is wrong with the goal. -/
def error : PlanningError := .formula (.arity .not .one 0)

/-- The text of a domain, cut off. -/
def tornText : String := "(define (domain d"

end Denial

open Pddl Piece in
/-- A goal that is no formula is refused, and a text that is cut off is malformed. -/
theorem Planner.fails_as_documented_denial :
    (∃ e, (ofText Denial.tornText []).1 = .error e ∧ e.OfReading) ∧
    (ofText Denial.domainText []).1 = .ok Denial.planner ∧
    (Denial.planner.readProblem Denial.problemText []).1 = .ok Denial.problem ∧
    (Denial.planner.solve Denial.problem ∅ []).1.1 = .error Denial.error ∧
    (Denial.planner.report Denial.problem ∅ []).1.1 = .error Denial.error ∧
    (Denial.planner.plan Denial.problemText ∅ []).1.1 = .error Denial.error ∧
    ∃ s s', Denial.planner.Refuses Denial.problem s Denial.error ∧
      Denial.planner.Refuses Denial.problem s' Denial.error := by
  have torn : (Pddl.readDomain Denial.tornText []).1 =
      .error (.malformed (.unclosed Denial.tornText)) := by decide +kernel
  have named : Pddl.readDomain Denial.domainText [] = (.ok Denial.planner.domain, []) :=
    readDomain_eq_ok_iff.mpr ⟨_, sections_ofList rfl rfl <| .cons (split_ofList _) .nil, rfl⟩
  have read : Denial.planner.readProblem Denial.problemText [] = (.ok Denial.problem, []) :=
    readProblem_eq_ok_iff.mpr ⟨_, _, _, _, sections_ofList rfl rfl <|
      .cons (split_ofList _) (.cons (split_ofList _) (.cons (split_ofList _) .nil)),
      by rfl, by rfl, by rfl, by rfl⟩
  have solved : (Denial.planner.solve Denial.problem ∅ []).1.1 = .error Denial.error := by
    decide +kernel
  have reported : (Denial.planner.report Denial.problem ∅ []).1.1 = .error Denial.error := by
    decide +kernel
  have planned : (Denial.planner.plan Denial.problemText ∅ []).1.1 = .error Denial.error := by
    have given : PlannerM.ofReading (Denial.planner.readProblem Denial.problemText) ∅ [] =
        ((.ok Denial.problem, ∅), []) := by rw [PlannerM.ofReading, read]
    rw [Planner.plan, run_bind_of_ok given]
    exact solved
  have fails : (ofText Denial.tornText []).1 = .error (.malformed (.unclosed Denial.tornText)) := by
    unfold ofText
    rw [Session.run_bind, Session.run_eq_of_result torn]
  have defined : ofText Denial.domainText [] = (.ok Denial.planner, []) :=
    Session.run_bind_eq_ok.mpr ⟨_, _, named, rfl⟩
  obtain ⟨reading, -⟩ := fails_as_documented Denial.tornText {}
  obtain ⟨-, defines⟩ := fails_as_documented Denial.domainText {}
  obtain ⟨-, -, refuses⟩ := defines defined Denial.problemText
  obtain ⟨solving, reporting⟩ := refuses read
  exact ⟨⟨_, fails, reading (Session.run_eq_of_result fails)⟩, congrArg Prod.fst defined,
    congrArg Prod.fst read, solved, reported, planned, _, _, solving (run_eq_of_result solved),
    reporting (run_eq_of_result reported)⟩

end ClassicalPlanner
