import ClassicalPlanner.Proofs.Plan.WorldSpace
import ClassicalPlanner.Proofs.Task.Grounding

/-!
# Tasks and landscapes

A grounded problem has a landscape: `Task.States s task l W` says that in the session `s` the task
is the problem of `l` from the world of `W`.  The whole table sees this landscape, and so does the
pruned one: the worlds between the bounds are not left, and the actions dropped run in none of them
(`States.pruned_sees`).
-/

namespace ClassicalPlanner

open Session

variable {s s' F : Session} {kept whole : List GroundAction} {all : List TreeAction}
variable {inside : Finset Tree → Prop} {l : Landscape} {W : Finset Tree} {d : Domain} {p : Problem}

/-- The tree action is the ground action, its formulas unfolded. -/
structure GroundAction.Unfolds (s : Session) (a : GroundAction) (b : TreeAction) : Prop where
  id : b.id = a.id
  means : s.Means a b.precondition b.effect

/-- In the session, the task is the problem of the landscape from the world of some trees. -/
structure Task.States (s : Session) (task : Task) (l : Landscape) (W : Finset Tree) : Prop where
  canonical : s.Canonical
  members : l.members = s.members
  initial : s.Shows task.initial W
  goal : s.store.Denotes task.goal l.goal
  actions : List.Forall₂ (GroundAction.Unfolds s) task.actions.toList l.actions

namespace Task

variable {task : Task}

theorem exists_unfolds (hs : s.Canonical)
    (h : ∀ a ∈ whole, s.store.contains a.precondition ∧ s.store.contains a.effect) :
    ∃ all, List.Forall₂ (GroundAction.Unfolds s) whole all := by
  induction whole with
  | nil => exact ⟨[], .nil⟩
  | cons a whole ih =>
      obtain ⟨⟨hp, he⟩, h⟩ := List.forall_mem_cons.mp h
      obtain ⟨p, hp, -⟩ := hs.exists_denotes hp
      obtain ⟨e, he, -⟩ := hs.exists_denotes he
      obtain ⟨all, unfolds⟩ := ih h
      exact ⟨⟨a.id, p, e⟩ :: all, .cons ⟨rfl, hp, he⟩ unfolds⟩

/-- **A grounded problem** has a landscape. -/
theorem exists_states (hs : s.Canonical) (h : ofProblem d p false s = (.ok task, s'))
    (heuristic : Heuristic) : ∃ l W, task.States s' l W ∧
      l.estimate = Tree.estimate s'.members l.goal heuristic := by
  obtain ⟨fits, ⟨W, shows⟩, goal, keys, -⟩ := ofProblem_eq_ok hs h
  obtain ⟨g, hg, -⟩ := fits.exists_denotes goal
  have known : ∀ a ∈ task.actions.toList,
      s'.store.contains a.precondition ∧ s'.store.contains a.effect := fun a ha =>
    ⟨keys _ (ActionTable.mem_keys.mpr ⟨a, ha, .inl rfl⟩),
      keys _ (ActionTable.mem_keys.mpr ⟨a, ha, .inr rfl⟩)⟩
  obtain ⟨all, unfolds⟩ := exists_unfolds fits known
  exact ⟨⟨s'.members, all, g, Tree.estimate s'.members g heuristic⟩, W,
    ⟨fits, rfl, shows, hg, unfolds⟩, rfl⟩

end Task

namespace WorldSpace

/-! ### Covers -/

theorem covers_of_unfolds (h : List.Forall₂ (GroundAction.Unfolds s) whole all) :
    Covers s inside whole all := by
  induction h with
  | nil => exact .nil
  | cons unfolds _ ih => exact .cons unfolds.id unfolds.means ih

/-- Actions that run in no world of the kind may be left out. -/
theorem covers_of_sublist (sublist : kept.Sublist whole)
    (h : List.Forall₂ (GroundAction.Unfolds s) whole all) (nodup : whole.Nodup)
    (dropped : ∀ a ∈ whole, a ∉ kept → ∀ {p V}, s.store.Denotes a.precondition p → inside V →
      Tree.truth s.members V p ≠ .ok true) : Covers s inside kept all := by
  induction sublist generalizing all with
  | slnil => cases h; exact .nil
  | @cons kept whole a sublist ih =>
      cases h with
      | cons unfolds rest =>
          obtain ⟨fresh, nodup⟩ := List.nodup_cons.mp nodup
          obtain ⟨here, dropped⟩ := List.forall_mem_cons.mp dropped
          exact .drop (fun V hV => here (fun h => fresh (sublist.subset h))
            unfolds.means.precondition hV) (ih rest nodup dropped)
  | @cons_cons kept whole a sublist ih =>
      cases h with
      | cons unfolds rest =>
          obtain ⟨fresh, nodup⟩ := List.nodup_cons.mp nodup
          refine .cons unfolds.id unfolds.means (ih rest nodup fun b hb hk => ?_)
          refine dropped b (List.mem_cons_of_mem a hb) fun h => ?_
          rcases List.mem_cons.mp h with rfl | h
          · exact fresh hb
          · exact hk h

end WorldSpace

namespace Task.States

variable {task : Task} {estimate : Estimate}

/-- An action of the landscape has one of the table behind it. -/
theorem exists_action (h : task.States s l W) {b : TreeAction} (hb : b ∈ l.actions) :
    ∃ a ∈ task.actions.toList, a.Unfolds s b :=
  have ⟨a, ha, hab⟩ := NodeStore.forall₂_exists_right h.actions.flip hb
  ⟨a, ha, hab⟩

/-- An action of the table has one of the landscape for it. -/
theorem exists_tree (h : task.States s l W) {a : GroundAction} (ha : a ∈ task.actions.toList) :
    ∃ b ∈ l.actions, a.Unfolds s b :=
  NodeStore.forall₂_exists_right h.actions ha

theorem sees (h : task.States s l W) (grow : s ≤ F) (measures : F.Measures l.estimate estimate) :
    WorldSpace.Sees F (fun _ => True) task.actions task.goal estimate l where
  members := h.members.trans (funext grow.members).symm
  actions := (WorldSpace.covers_of_unfolds h.actions).mono grow
  goal := h.goal.mono grow.store
  estimate := measures
  stays _ _ _ := trivial

/-- **A pruned table** sees the landscape of the whole table, among the worlds between the bounds. -/
theorem pruned_sees {t : ActionTable} {n : Nat} (h : task.States s l W)
    (rises : task.actions.Rises) (pruned : task.actions.prune task.initial s = ((.ok n, t), s')) :
    ∃ inside : Finset Tree → Prop, inside W ∧ t.toList.Sublist task.actions.toList ∧
      ∀ {F estimate}, s' ≤ F → F.Measures l.estimate estimate →
        WorldSpace.Sees F inside t task.goal estimate l := by
  obtain ⟨grow, fits⟩ := (ActionTable.additive_prune task.initial task.actions).of_run
    h.canonical pruned
  obtain ⟨U, L, bounds, sublist, each⟩ := ActionTable.prune_eq_ok h.canonical fits
    (h.initial.reads fits grow) pruned (le_refl s')
  have unfolds : List.Forall₂ (GroundAction.Unfolds s') task.actions.toList l.actions :=
    h.actions.imp fun a b hab => ⟨hab.id, hab.means.mono grow⟩
  have members : l.members = s'.members := h.members.trans (funext grow.members).symm
  refine ⟨fun V => V ⊆ U ∧ L ⊆ V, ⟨bounds.upper, bounds.lower⟩, sublist, fun {F estimate} grow'
    measures => ⟨?_, ?_, h.goal.mono (grow.trans grow').store, measures, ?_⟩⟩
  · exact members.trans (funext grow'.members).symm
  · refine (WorldSpace.covers_of_sublist sublist unfolds rises.nodup ?_).mono grow'
    intro a ha hk p V hp hV holds
    obtain ⟨p', b, hp', hb, kept⟩ := each a ha
    obtain rfl := hp.unique hp'
    exact hk (kept (Tree.lax_of_truth hV.1 hV.2 holds hb))
  · intro V b e hb hV he
    obtain ⟨a, ha, hab⟩ := NodeStore.forall₂_exists_right unfolds.flip hb
    obtain ⟨d, -, changes, rfl⟩ := Landscape.edge?_eq_some.mp he
    rw [members] at changes
    exact bounds.applyTo ha hab.means.effect changes hV

end Task.States

namespace Task

variable {task task' : Task} {s₀ : Session}

/-- **A grounded problem, pruned or not,** sees the landscape of the whole problem. -/
theorem ofProblem_sees {prune : Bool} (whole : ofProblem d p false ∅ = (.ok task, s₀))
    (states : task.States s₀ l W) (h : ofProblem d p prune ∅ = (.ok task', s)) :
    s₀ ≤ s ∧ s.Canonical ∧ task'.actions.toList.Sublist task.actions.toList ∧
      task' = { task with actions := task'.actions } ∧
      ∃ inside : Finset Tree → Prop, inside W ∧ ∀ {F estimate}, s ≤ F →
        F.Measures l.estimate estimate →
          WorldSpace.Sees F inside task'.actions task.goal estimate l := by
  cases prune with
  | false =>
      rw [whole] at h
      cases h
      exact ⟨le_refl _, states.canonical, .refl _, rfl, fun _ => True, trivial,
        fun grow measures => states.sees grow measures⟩
  | true =>
      obtain ⟨task₁, s₁, n, whole', pruned, rest⟩ := ofProblem_pruned h
      rw [whole] at whole'
      cases whole'
      obtain ⟨-, -, -, -, -, ordered, -⟩ := ofProblem_eq_ok canonical_empty whole
      obtain ⟨grow, fits⟩ := (ActionTable.additive_prune _ _).of_run states.canonical pruned
      obtain ⟨inside, start, sublist, sees⟩ := states.pruned_sees ordered.rises pruned
      exact ⟨grow, fits, sublist, rest, inside, start, sees⟩

/-- A task with fewer actions is a problem of its own. -/
theorem States.restrict {t : ActionTable} (h : task.States s l W) (grow : s ≤ s')
    (fits : s'.Canonical) (subset : t.toList ⊆ task.actions.toList) :
    ∃ l' : Landscape, { task with actions := t }.States s' l' W ∧ l'.goal = l.goal ∧
      l'.estimate = l.estimate := by
  have known : ∀ a ∈ t.toList,
      s'.store.contains a.precondition ∧ s'.store.contains a.effect := fun a ha => by
    obtain ⟨b, -, unfolds⟩ := h.exists_tree (subset ha)
    exact ⟨(unfolds.means.precondition.mono grow.store).contains,
      (unfolds.means.effect.mono grow.store).contains⟩
  obtain ⟨all, unfolds⟩ := exists_unfolds fits known
  exact ⟨{ l with actions := all }, ⟨fits, h.members.trans (funext grow.members).symm,
    h.initial.mono grow, h.goal.mono grow.store, unfolds⟩, rfl, rfl⟩

end Task

end ClassicalPlanner
