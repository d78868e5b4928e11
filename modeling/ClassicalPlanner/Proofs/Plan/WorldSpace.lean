import ClassicalPlanner.Plan.WorldSpace
import ClassicalPlanner.Proofs.Plan.Estimate
import ClassicalPlanner.Proofs.Plan.Landscape
import ClassicalPlanner.Proofs.Search.Settled
import ClassicalPlanner.Proofs.Search.Simulation
import ClassicalPlanner.Proofs.Task.Execution

/-!
# Worlds and landscapes

A search of the worlds of a session sees a landscape: it takes the same actions through worlds that
show the sets of trees through which a search of the landscape passes, and counts the same
(`search_eq_ok`).

The landscape may have more actions than the table (`Covers`): those that run in no world of a kind
which actions do not leave.  So a search with a pruned table sees the landscape of the whole table.
-/

namespace ClassicalPlanner

open Session Search

namespace WorldSpace

variable {s s' F : Session} {w : World} {W : Finset Tree} {α : Type} {goal : Key}
variable {estimate : Estimate} {actions : ActionTable} {kept : List GroundAction}
variable {all : List TreeAction} {inside : Finset Tree → Prop} {l : Landscape}
variable {es : List (Edge World)}

/-! ### Answers settle -/

theorem run_ofFormulas (x : SessionM α) (s : Session) :
    ofFormulas x s = ((x s).1.mapError .formula, (x s).2) := rfl

theorem ofFormulas_eq_ok {x : SessionM α} {a : α} :
    ofFormulas x s = (.ok a, s') ↔ x s = (.ok a, s') := by
  rw [run_ofFormulas]
  rcases x s with ⟨e | b, s₁⟩
  · exact iff_of_false (fun h => by cases h) fun h => by cases h
  · exact ⟨fun h => by cases h; rfl, fun h => by cases h; rfl⟩

theorem ofFormulas_eq_error {x : SessionM α} {e : PlanningError} :
    ofFormulas x s = (.error e, s') ↔ ∃ e', e = .formula e' ∧ x s = (.error e', s') := by
  rw [run_ofFormulas]
  rcases x s with ⟨e' | b, s₁⟩
  · exact ⟨fun h => by cases h; exact ⟨e', rfl, rfl⟩, fun ⟨_, h, h'⟩ => by cases h'; rw [h]; rfl⟩
  · exact iff_of_false (fun h => by cases h) fun ⟨_, _, h⟩ => by cases h

theorem additive_ofFormulas {x : SessionM α} (h : Additive x) : Additive (ofFormulas x) := h

theorem settles_ofFormulas {x : SessionM α} (h : Settles x x) :
    Settles (ofFormulas x) (ofFormulas x) :=
  ⟨additive_ofFormulas h.additive, fun hs hx hF grow =>
    ofFormulas_eq_ok.mpr (h.again hs (ofFormulas_eq_ok.mp hx) hF grow)⟩

theorem repeats_edges (w : World) (l : List GroundAction) : Repeats (edges w l) (edges w l) := by
  induction l with
  | nil => exact .pure []
  | cons a l ih =>
      refine .bind (repeats_evaluate a.precondition w) fun holds => ?_
      cases holds with
      | true => exact .bind (repeats_apply w a.effect) fun _ => .bind ih fun _ => .pure _
      | false => exact ih

theorem settles_edges (w : World) (l : List GroundAction) : Settles (edges w l) (edges w l) :=
  (repeats_edges w l).toSettles

theorem settles_space (actions : ActionTable) (goal : Key) (estimate : Estimate) :
    (space actions goal estimate).Settles where
  isGoal w := settles_ofFormulas (settles_evaluate goal w)
  estimate w := settles_ofFormulas (settles_value estimate w)
  successors w := settles_ofFormulas (settles_edges w actions.toList)

/-! ### Edges -/

/-- The landscape actions are the ground actions, and some that run in no world of a kind. -/
inductive Covers (F : Session) (inside : Finset Tree → Prop) :
    List GroundAction → List TreeAction → Prop
  | nil : Covers F inside [] []
  | cons {a : GroundAction} {b : TreeAction} {kept : List GroundAction} {all : List TreeAction}
      (id : b.id = a.id) (means : F.Means a b.precondition b.effect)
      (rest : Covers F inside kept all) : Covers F inside (a :: kept) (b :: all)
  | drop {b : TreeAction} {kept : List GroundAction} {all : List TreeAction}
      (never : ∀ W, inside W → Tree.truth F.members W b.precondition ≠ .ok true)
      (rest : Covers F inside kept all) : Covers F inside kept (b :: all)

theorem Covers.mono (h : Covers s inside kept all) (grow : s ≤ F) : Covers F inside kept all := by
  induction h with
  | nil => exact .nil
  | cons id means _ ih => exact .cons id (means.mono grow) ih
  | drop never _ ih =>
      refine .drop (fun W hW => ?_) ih
      rw [funext grow.members]
      exact never W hW

/-- The edges out of a world are those out of its trees. -/
theorem edges_eq_ok (hs : s.Canonical) (members : l.members = F.members)
    (covers : Covers F inside kept all) (hw : s.Shows w W) (hW : inside W)
    (h : edges w kept s = (.ok es, s')) (grow : s' ≤ F) :
    List.Forall₂ (EdgeRel F.Shows) es (all.filterMap (l.edge? W)) := by
  induction covers generalizing s es with
  | nil =>
      cases h
      exact .nil
  | @drop b kept all never _ ih =>
      have none : l.edge? W b = none := by
        refine Option.eq_none_iff_forall_ne_some.mpr fun e he => ?_
        obtain ⟨d, holds, -, -⟩ := Landscape.edge?_eq_some.mp he
        exact never W hW (members ▸ holds)
      rw [List.filterMap_cons_none none]
      exact ih hs hw h
  | @cons a b kept all id means _ ih =>
      obtain ⟨holds, s₁, h₁, h⟩ := run_bind_eq_ok.mp h
      obtain ⟨grow₁, fits₁⟩ := (settles_evaluate a.precondition w).additive.of_run hs h₁
      obtain ⟨p, hp, -⟩ := hs.exists_denotes (contains_of_evaluate h₁)
      have hp' (most : s₁ ≤ F) : Tree.truth l.members W b.precondition = .ok holds := by
        rw [means.precondition.unique (hp.mono (grow₁.trans most).store), members,
          funext (grow₁.trans most).members]
        exact evaluate_eq_ok hs hp h₁ (le_refl s₁) (hw.reads fits₁ grow₁)
      cases holds with
      | false =>
          obtain ⟨grow₂, -⟩ := (settles_edges w kept).additive.of_run fits₁ h
          have none : l.edge? W b = none := by
            refine Option.eq_none_iff_forall_ne_some.mpr fun e he => ?_
            obtain ⟨d, holds, -, -⟩ := Landscape.edge?_eq_some.mp he
            cases holds.symm.trans (hp' (grow₂.trans grow))
          rw [List.filterMap_cons_none none]
          exact ih fits₁ (hw.mono grow₁) h
      | true =>
          obtain ⟨w', s₂, h₂, h⟩ := run_bind_eq_ok.mp h
          obtain ⟨es', s₃, h₃, h⟩ := run_bind_eq_ok.mp h
          cases h
          obtain ⟨grow₂, fits₂⟩ := (settles_apply w a.effect).additive.of_run fits₁ h₂
          obtain ⟨grow₃, -⟩ := (settles_edges w kept).additive.of_run fits₂ h₃
          have most := grow₂.trans (grow₃.trans grow)
          obtain ⟨e, he, -⟩ := fits₁.exists_denotes (contains_of_apply h₂)
          obtain ⟨d, hd, hw'⟩ := apply_eq_ok fits₁ he (hw.mono grow₁) h₂
          have some : l.edge? W b =
              some { state := d.applyTo W, cost := 1, action := b.id } := by
            refine Landscape.edge?_eq_some.mpr ⟨d, hp' most, ?_, rfl⟩
            rw [means.effect.unique (he.mono most.store), members, funext most.members]
            exact hd
          rw [List.filterMap_cons_some some]
          exact .cons ⟨hw'.mono (grow₃.trans grow), rfl, id⟩
            (ih fits₂ (hw.mono (grow₁.trans grow₂)) h₃)

/-! ### Searches -/

/-- What a session, a table and an estimate have in common with a landscape. -/
structure Sees (F : Session) (inside : Finset Tree → Prop) (actions : ActionTable) (goal : Key)
    (estimate : Estimate) (l : Landscape) : Prop where
  members : l.members = F.members
  actions : Covers F inside actions.toList l.actions
  goal : F.store.Denotes goal l.goal
  estimate : F.Measures l.estimate estimate
  /-- Actions do not leave the worlds of the kind. -/
  stays : ∀ {W a e}, a ∈ l.actions → inside W → l.edge? W a = some e → inside e.state

theorem Sees.mono (h : Sees s inside actions goal estimate l) (grow : s ≤ F) :
    Sees F inside actions goal estimate l where
  members := h.members.trans (funext grow.members).symm
  actions := h.actions.mono grow
  goal := h.goal.mono grow.store
  estimate := h.estimate.mono grow
  stays := h.stays

/-- The worlds are related to the sets of trees that they show. -/
theorem Sees.simulates (hF : F.Canonical) (h : Sees F inside actions goal estimate l) :
    Simulates ((space actions goal estimate).settled F) l.space
      fun w W => F.Shows w W ∧ inside W where
  identity {w W w' W'} hw hw' := by
    constructor
    · rintro (rfl : w = w')
      exact hw.1.trees_unique hF hw'.1
    · rintro (rfl : W = W')
      exact hw.1.unique hF hw'.1
  isGoal {w W} hw b hb := by
    have decided := evaluate_eq_ok hF h.goal (ofFormulas_eq_ok.mp (settled_eq_ok.mp hb)) (le_refl F)
      (hw.1.reads hF (le_refl F))
    rw [← h.members] at decided
    refine ⟨b, ?_, rfl⟩
    cases b with
    | true => exact Landscape.isGoal_eq_true.mpr decided
    | false => exact Landscape.isGoal_eq_false.mpr fun h => by cases decided.symm.trans h
  estimate {w W} hw v hv := by
    have value := value_eq_ok hF h.estimate hw.1 (ofFormulas_eq_ok.mp (settled_eq_ok.mp hv))
    exact ⟨_, rfl, value⟩
  successors {w W} hw es hes := by
    have alike := edges_eq_ok hF h.members h.actions hw.1 hw.2
      (ofFormulas_eq_ok.mp (settled_eq_ok.mp hes)) (le_refl F)
    refine ⟨_, rfl, NodeStore.forall₂_imp_mem alike fun e e' he' rel => ?_⟩
    obtain ⟨a, ha, hedge⟩ := List.mem_filterMap.mp he'
    exact ⟨⟨rel.state, h.stays ha hw.2 hedge⟩, rel.cost, rel.action⟩

theorem additive_search (limit : Option Nat) (rounds : Nat) (w : World) :
    Additive (ClassicalPlanner.search (space actions goal estimate) limit rounds w) :=
  (echoes_search (F := ∅) (settles_space actions goal estimate) canonical_empty limit rounds
    w).additive

/-- A search of the worlds, before it is known to have ended. -/
theorem search_worlds {limit : Option Nat} {rounds : Nat} {out : Option (Path World × Counters)}
    (hs : s.Canonical) (sees : Sees s inside actions goal estimate l) (hw : s.Shows w W)
    (hW : inside W)
    (h : ClassicalPlanner.search (space actions goal estimate) limit rounds w s = (.ok out, F)) :
    s ≤ F ∧ F.Canonical ∧
      ClassicalPlanner.search ((space actions goal estimate).settled F) limit rounds w =
        Except.ok out ∧
      ∃ out', ClassicalPlanner.search l.space limit rounds W = Except.ok out' ∧
        Option.Rel (ResultRel fun w W => F.Shows w W ∧ inside W) out out' := by
  obtain ⟨grow, fits⟩ := (additive_search limit rounds w).of_run hs h
  have settled := (echoes_search (settles_space actions goal estimate) fits limit rounds w).echo
    hs h (le_refl F)
  exact ⟨grow, fits, settled,
    ((sees.mono grow).simulates fits).search rounds ⟨hw.mono grow, hW⟩ out settled⟩

/-- No answer is that the search has not ended. -/
theorem search_ne_unfinished {limit : Option Nat} {rounds : Nat} {e : PlanningError}
    (h : ClassicalPlanner.search (space actions goal estimate) limit rounds w s = (.error e, s')) :
    e ≠ .unfinished := by
  let Fails : Relation PlanningError PlanningError (StateM Session) (StateM Session) :=
    fun _ x _ => ∀ s e s', x s = (.error e, s') → e ≠ .unfinished
  have composes : Composes Fails := by
    refine ⟨fun a s e s' h => (by cases h), fun {α β x x' f f'} hx hf s e s' h => ?_⟩
    rw [run_bind] at h
    rcases hxs : x s with ⟨e' | a, s₁⟩ <;> rw [hxs] at h
    · cases h
      exact hx s e s' hxs
    · exact hf a s₁ e s' h
  have formulas {α : Type} (x : SessionM α) : Fails α (ofFormulas x) (ofFormulas x) := by
    intro s e s' h
    obtain ⟨e', rfl, -⟩ := ofFormulas_eq_error.mp h
    exact fun h => by cases h
  have related : Related Fails (space actions goal estimate) (space actions goal estimate) :=
    ⟨rfl, fun _ => formulas _, fun _ => formulas _, fun _ => formulas _⟩
  exact composes.search related rounds w s e s' h

/-- **A search of the worlds** of a session is one of the landscape that they show. -/
theorem search_eq_ok {limit : Option Nat} {result : Path World × Counters} (hs : s.Canonical)
    (sees : Sees s inside actions goal estimate l) (hw : s.Shows w W) (hW : inside W)
    (h : search actions goal estimate limit w s = (.ok result, F)) :
    s ≤ F ∧ F.Canonical ∧
      (∃ rounds, ClassicalPlanner.search ((space actions goal estimate).settled F) limit rounds w =
        Except.ok (some result)) ∧
      ∃ rounds result', ClassicalPlanner.search l.space limit rounds W = Except.ok (some result') ∧
        ResultRel (fun w W => F.Shows w W ∧ inside W) result result' := by
  obtain ⟨_, _, ⟨⟩, h⟩ := run_bind_eq_ok.mp h
  obtain ⟨out, s₁, h, h'⟩ := run_bind_eq_ok.mp h
  cases out with
  | none => cases h'
  | some result =>
      cases h'
      obtain ⟨grow, fits, settled, _, landscape, rel⟩ := search_worlds hs sees hw hW h
      cases rel with
      | some rel => exact ⟨grow, fits, ⟨_, settled⟩, _, _, landscape, rel⟩

/-- A search that has not ended is one of the landscape that has not ended. -/
theorem search_eq_unfinished {limit : Option Nat} (hs : s.Canonical)
    (sees : Sees s inside actions goal estimate l) (hw : s.Shows w W) (hW : inside W)
    (h : search actions goal estimate limit w s = (.error .unfinished, F)) :
    ClassicalPlanner.search l.space limit (roundBound s actions w) W = Except.ok none := by
  unfold search at h
  rw [run_bind] at h
  change ((ClassicalPlanner.search (space actions goal estimate) limit (roundBound s actions w) w >>=
    _) : PlanM _) s = _ at h
  rw [run_bind] at h
  rcases found : ClassicalPlanner.search (space actions goal estimate) limit
    (roundBound s actions w) w s with ⟨e | _ | result, s₁⟩ <;> rw [found] at h
  · cases h
    exact absurd rfl (search_ne_unfinished found)
  · obtain ⟨-, -, -, _, landscape, rel⟩ := search_worlds hs sees hw hW found
    cases rel with
    | none => exact landscape
  · cases h

end WorldSpace

end ClassicalPlanner
