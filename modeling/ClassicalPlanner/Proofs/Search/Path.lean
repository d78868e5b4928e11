import ClassicalPlanner.Proofs.Search.Solution
import ClassicalPlanner.Proofs.Search.Steady
import ClassicalPlanner.Search.Graph
import Mathlib.Data.List.Chain
import Mathlib.Data.List.Nodup

/-!
# Paths are ways to a goal

A path that a search gives goes from the start to a goal over edges of the space and comes to no
state twice (`path_reaches_goal`).  Nothing is asked of the estimates.

Its steps are the states on a trace in reverse (`Traces.identities_trail`), and a trace comes to
each state once (`Traces.nodup`).
-/

namespace ClassicalPlanner

variable {ε State ι : Type}

/-- The second step follows an edge out of the state of the first. -/
def Space.Joins (space : Space ε Id State ι) (a b : PathStep State) : Prop :=
  ∃ edges, space.successors a.state = Except.ok edges ∧
    ∃ e ∈ edges, b = ⟨some e.action, e.state⟩

namespace Search

variable {space : Space ε Id State ι} {start x : State} {steps : List (PathStep State)} {n : Nat}

/-! ### Routes as lists of steps -/

theorem Route.head? (route : Route space start steps x n) : steps.head? = some ⟨none, start⟩ := by
  induction route with
  | start => rfl
  | step _ _ _ ih => rw [List.head?_append, ih]; rfl

theorem Route.final? (route : Route space start steps x n) : (Path.mk steps).final? = some x := by
  unfold Path.final?
  cases route with
  | start => rfl
  | step => rw [List.getLast?_concat]; rfl

theorem Route.isChain (route : Route space start steps x n) : steps.IsChain space.Joins := by
  induction route with
  | start => exact .singleton _
  | @step steps s n edges e route successors mem ih =>
      -- the last step so far stands at the state that the edge leaves
      refine ih.append (.singleton _) fun a ha b hb => ?_
      obtain rfl := Option.some.inj hb
      have state : a.state = s := by
        have final := route.final?
        rw [Path.final?, ha] at final
        exact Option.some.inj final
      exact ⟨edges, state ▸ successors, e, mem, rfl⟩

/-! ### Traces -/

variable [Ord ι] [Std.TransOrd ι] [Std.LawfulEqOrd ι] {i : ι} {ids : List ι}
variable {m : Std.ExtTreeMap ι (Record State ι)} {p : Progress State ι} {limit : Option Nat}
variable {result : Path State × Counters}

omit [Std.LawfulEqOrd ι] in
theorem Traces.nodup (h : Traces space start m i ids) : (i :: ids).Nodup := by
  induction h with
  | start => exact List.nodup_singleton _
  | step _ _ _ fresh _ _ _ _ _ _ _ ih => exact List.nodup_cons.mpr ⟨fresh, ih⟩

/-- The steps of a trail are those of the trace, the start first. -/
theorem Traces.identities_trail (h : Traces space start m i ids)
    (identity : ∀ {j : ι} {r : Record State ι}, m[j]? = some r → space.identity r.state = j)
    {bound : Nat} (hb : ids.length < bound) (acc : List (PathStep State)) :
    (Progress.trail m bound (some i) acc).map (space.identity ·.state) =
      (i :: ids).reverse ++ acc.map (space.identity ·.state) := by
  induction ids generalizing m i bound acc with
  | nil =>
      cases h with
      | start found state cost previous action =>
          obtain ⟨bound, rfl⟩ := Nat.exists_eq_add_one.mpr hb
          rw [Progress.trail, found]
          simp only [previous]
          cases bound <;> simp [Progress.trail, identity found]
  | cons j ids ih =>
      cases h with
      | step found before visited fresh successors mem state cost previous action rest =>
          obtain ⟨bound, rfl⟩ := Nat.exists_eq_add_one.mpr (Nat.zero_lt_of_lt hb)
          -- a trail forgets each record it has used, and the rest of the trace needs none of them
          have erased {k : ι} {r : Record State ι} (hr : (m.erase i)[k]? = some r) :
              space.identity r.state = k := by
            rw [Std.ExtTreeMap.getElem?_erase] at hr
            split at hr
            · cases hr
            · exact identity hr
          rw [Progress.trail, found]
          simp only [previous]
          rw [ih (rest.erase fresh) erased (Nat.lt_of_succ_lt_succ hb)]
          simp [identity found]

/-- A path comes to no state twice. -/
theorem nodup_path (inj : Function.Injective space.identity) (hp : Sound space start p)
    (ends : Ends space limit p result) : (result.1.steps.map (·.state)).Nodup := by
  obtain ⟨p', sound, last⟩ := ends.last inj hp
  cases last with
  | empties => rw [finish_none]; exact .nil
  | exhausts => rw [finish_none]; exact .nil
  | @solves q i r first known goal =>
      obtain ⟨ids, trace⟩ := sound.valid.traced known
      have identities := trace.identities_trail sound.valid.identity trace.length_lt []
      -- already their identities differ: they are the trace in reverse
      refine List.Nodup.of_map space.identity ?_
      rw [List.map_map]
      show ((Progress.trail p'.known p'.known.size (some i) []).map (space.identity ·.state)).Nodup
      rw [identities, List.map_nil, List.append_nil]
      exact List.nodup_reverse.mpr trace.nodup

/-! ### Paths -/

omit [Ord ι] [Std.TransOrd ι] [Std.LawfulEqOrd ι] in
theorem steps_ne_nil {path : Path State} (solved : path.isEmpty = false) : path.steps ≠ [] :=
  List.isEmpty_eq_false_iff.mp solved

/-- **A path is a way to a goal.**  It begins at the start, each step after that follows an edge out
of the state before it, it ends at a goal, and it comes to no state twice. -/
theorem path_reaches_goal {σ : Type} {space : Space ε (StateM σ) State ι} {keeps : σ → Prop}
    {answers : Space ε Id State ι} (steady : space.Steady keeps answers)
    (inj : Function.Injective space.identity) {w : σ} (hw : keeps w) {rounds : Nat}
    {path : Path State} {counters : Counters}
    (found : (search space limit rounds start w).1 = .ok (some (path, counters)))
    (solved : path.isEmpty = false) :
    path.steps.head? = some ⟨none, start⟩ ∧ path.steps.IsChain answers.Joins ∧
      (∃ x, path.final? = some x ∧ answers.isGoal x = Except.ok true) ∧
      (path.steps.map (·.state)).Nodup := by
  rw [steady.search_eq hw] at found
  rw [← steady.identity] at inj
  obtain ⟨p, hp, ends⟩ := search_eq_some found
  have sound := sound_start hp
  obtain ⟨x, n, route, goal⟩ := Search.solved inj sound ends (steps_ne_nil solved)
  exact ⟨route.head?, route.isChain, ⟨x, route.final?, goal⟩, nodup_path inj sound ends⟩

end Search

namespace Graph

/-- Without other identities each state is its own. -/
theorem injective_identity {g : Graph} (h : g.identities = #[]) :
    Function.Injective g.space.identity := by
  have own (s : Nat) : g.space.identity s = (s : Int) := by
    show g.identities.getD s s = _
    rw [h]
    rfl
  intro a b same
  rw [own, own] at same
  exact Int.ofNat.inj same

/-- A graph in which the first way to a state is overtaken by a cheaper one.  The estimate of that
state falls by more than the free edge out of it, and another free edge leads back to the start. -/
def overtaken : Graph where
  goals := [3]
  edges := #[[⟨1, 4, ⟨1⟩⟩, ⟨2, 1, ⟨2⟩⟩], [⟨3, 0, ⟨4⟩⟩, ⟨0, 0, ⟨5⟩⟩], [⟨1, 1, ⟨3⟩⟩]]
  estimates := #[0, 9]

/-- The path that a search of it finds with three expansions. -/
def overtakenPath : Path Nat := ⟨[⟨none, 0⟩, ⟨some ⟨2⟩, 2⟩, ⟨some ⟨3⟩, 1⟩, ⟨some ⟨4⟩, 3⟩]⟩

/-- The questions that the search asks. -/
def overtakenCalls : Array (Call Nat) :=
  #[.estimate 0, .goal 0, .successors 0, .estimate 1, .estimate 2, .goal 2, .successors 2, .goal 1,
    .successors 1, .estimate 3, .goal 3]

end Graph

open ClassicalPlanner.Graph in
/-- The path goes over the state that overtook, and comes back to no state. -/
theorem Search.path_reaches_goal_overtaken :
    (search overtaken.space.traced (some 3) 6 0 #[]).1 =
      .ok (some (overtakenPath, { known := 4, expanded := 3, visited := 6 })) ∧
    overtakenPath.isEmpty = false ∧ overtakenPath.steps.IsChain overtaken.space.Joins ∧
    (overtakenPath.steps.map (·.state)).Nodup := by
  have found : (search overtaken.space.traced (some 3) 6 0 #[]).1 =
      .ok (some (overtakenPath, { known := 4, expanded := 3, visited := 6 })) := by decide
  have solved : overtakenPath.isEmpty = false := rfl
  obtain ⟨-, chain, -, nodup⟩ := Search.path_reaches_goal (Space.steady_traced overtaken.space)
    (injective_identity (g := overtaken) rfl) trivial found solved
  exact ⟨found, solved, chain, nodup⟩

end ClassicalPlanner
