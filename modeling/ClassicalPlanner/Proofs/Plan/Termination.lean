import ClassicalPlanner.Proofs.Plan.Planner
import ClassicalPlanner.Proofs.Tree.Touch

/-!
# Solving ends

The bound of the rounds of a search counts the atoms that effects touch, quantified effects without
looking at their instances (`atomCount_eq`).  The worlds of a search are sets of these atoms and of
those that hold at first, so the bound is never met: no planner answers that its search has not
finished (`solve_ends`).
-/

namespace ClassicalPlanner

open Session Search

variable {s s' F : Session} {task : Task} {l : Landscape} {W : Finset Tree} {k : Key}
variable {t : Tree} {n : Nat} {estimate : Estimate}

/-! ### Counting atoms -/

/-- Numbers added up are the length of what they count. -/
theorem foldr_add_eq {α β γ : Type} {R : α → β → Prop} {f : α → Nat} {g : β → List γ} {l : List α}
    {m : List β} (h : List.Forall₂ R l m) (hR : ∀ {a b}, R a b → f a = (g b).length) (n : Nat) :
    l.foldr (fun a n => f a + n) n = n + (m.flatMap g).length := by
  induction h with
  | nil => rfl
  | cons hab _ ih =>
      rw [List.foldr_cons, List.flatMap_cons, List.length_append, ih, hR hab]
      omega

namespace WorldSpace

/-- **The atoms of an effect** that are counted are those that it touches. -/
theorem atomCount_eq (hs : s.Canonical) (ht : s.store.Denotes k t) :
    atomCount s n k = (Tree.touchedWithin s.members n t).length := by
  induction n generalizing k t with
  | zero => rfl
  | succ n ih =>
      unfold atomCount
      cases ht with
      | constant found => rw [found]; rfl
      | var found => rw [found]; rfl
      | world found => rw [found]; rfl
      | @compound _ node ts found _ hts =>
          rw [found]
          cases node with
          | atom p terms => rfl
          | and parts =>
              exact (foldr_add_eq hts ih 0).trans (Nat.zero_add _)
          | not part =>
              obtain _ | ⟨hpart, ⟨⟩⟩ := hts
              exact ih hpart
          | when condition effect =>
              obtain _ | ⟨-, _ | ⟨heffect, ⟨⟩⟩⟩ := hts
              exact ih heffect
          | universal b body =>
              obtain ⟨_, _, v, g, tree, ⟨⟩, rfl, hbinder, hbody⟩ :=
                (hs.binder found).unfolds rfl hts
              simp only [hbinder, ih hbody]
              change _ = ((s.members g).flatMap fun c =>
                Tree.touchedWithin s.members n (tree.subst v c)).length
              simp only [List.length_flatMap, Tree.length_touchedWithin_subst]
              rw [List.map_const', List.sum_replicate_nat]
          | _ => rfl

/-- The atoms that the actions of a landscape touch. -/
def touched (s : Session) (l : Landscape) : List Tree :=
  l.actions.flatMap fun b => Tree.touchedWithin s.members (s.size + 1) b.effect

theorem adds_touched (h : task.States s l W) : l.Adds (touched s l).toFinset := by
  intro b hb V d changes t ht
  obtain ⟨a, -, unfolds⟩ := h.exists_action hb
  rw [h.members] at changes
  have low := Nat.le_succ_of_le (h.canonical.height_le unfolds.means.effect)
  rw [List.mem_toFinset]
  exact List.mem_flatMap.mpr ⟨b, hb, Tree.change_touched low changes t (.inl ht)⟩

/-- The atoms that ever hold are no more than have been counted. -/
theorem card_le_reachableAtomCount (h : task.States s l W) :
    (W ∪ (touched s l).toFinset).card ≤ reachableAtomCount s task.actions task.initial := by
  obtain ⟨a, found, lists⟩ := h.initial
  have atoms : s.store.atoms task.initial = .ok a :=
    (Prod.mk.inj (atoms_eq_ok_iff.mpr ⟨found, rfl⟩)).1
  have counts : reachableAtomCount s task.actions task.initial = a.size + (touched s l).length := by
    unfold reachableAtomCount
    rw [atoms]
    exact foldr_add_eq h.actions
      (fun unfolds => atomCount_eq h.canonical unfolds.means.effect) a.size
  rw [counts]
  calc (W ∪ (touched s l).toFinset).card
      ≤ W.card + (touched s l).toFinset.card := Finset.card_union_le _ _
    _ ≤ a.size + (touched s l).length :=
        Nat.add_le_add (lists.size_eq_card h.canonical).ge (List.toFinset_card_le _)

/-- There are fewer turns to take than the rounds allow. -/
theorem turns_lt (a n : Nat) : 1 + a * 2 ^ n < 2 ^ (n + a + 2) - 1 := by
  have exponent : a + 1 ≤ 2 ^ a := Nat.lt_two_pow_self
  have pos : 1 ≤ 2 ^ n := Nat.one_le_two_pow
  have bound : 4 * (2 ^ n * (a + 1)) ≤ 2 ^ (n + a + 2) := by
    rw [Nat.pow_add, Nat.pow_add, Nat.mul_comm]
    exact Nat.mul_le_mul_right _ (Nat.mul_le_mul_left _ exponent)
  rw [Nat.mul_add_one, Nat.mul_comm (2 ^ n) a] at bound
  omega

/-- **A search of worlds** ends before its bound. -/
theorem search_ends {limit : Option Nat} (h : task.States s l W)
    (measures : s.Measures l.estimate estimate) :
    (search task.actions task.goal estimate limit task.initial s).1 ≠ .error .unfinished := by
  intro unfinished
  have landscape := search_eq_unfinished h.canonical (h.sees (le_refl s) measures) h.initial trivial
    (run_eq_of_result unfinished)
  refine Landscape.search_ne_none (adds_touched h) ?_ landscape
  refine Nat.lt_of_le_of_lt (Nat.add_le_add_left (Nat.mul_le_mul_left _
    (Nat.pow_le_pow_right Nat.two_pos (card_le_reachableAtomCount h))) 1) ?_
  rw [← h.actions.length_eq]
  exact turns_lt _ _

end WorldSpace

/-! ### Planners -/

namespace Planner

variable {p : Planner} {problem : Problem} {ws ws' : List Warning} {e : PlanningError}
variable {α β : Type}

/-- A composed operation fails in one part or in the other. -/
theorem run_bind_eq_error {x : PlannerM α} {f : α → PlannerM β}
    (h : (x >>= f) s ws = ((.error e, s'), ws')) :
    x s ws = ((.error e, s'), ws') ∨
      ∃ a s₁ ws₁, x s ws = ((.ok a, s₁), ws₁) ∧ f a s₁ ws₁ = ((.error e, s'), ws') := by
  rw [run_bind_carrying] at h
  rcases hx : x s ws with ⟨⟨e' | a, s₁⟩, ws₁⟩ <;> rw [hx] at h
  · cases h; exact .inl rfl
  · exact .inr ⟨a, s₁, ws₁, rfl, h⟩

theorem ground_eq_error {prune : Bool}
    (h : p.ground problem prune s ws = ((.error e, s'), ws')) :
    ∃ cause, e = .formula cause ∧ Task.ofProblem p.domain problem prune ∅ = (.error cause, s') := by
  rcases run_bind_eq_error h with h | ⟨_, s₁, ws₁, hset, h⟩
  · cases h
  · obtain rfl : ∅ = s₁ := (Prod.mk.inj (Prod.mk.inj hset).1).2
    exact WorldSpace.ofFormulas_eq_error.mp (Prod.mk.inj h).1

theorem estimate_eq_error {goal : Key} (h : p.estimate goal s ws = ((.error e, s'), ws')) :
    ∃ cause, e = .formula cause ∧ Estimate.ofGoal goal s = (.error cause, s') := by
  cases heuristic : p.configuration.heuristic with
  | blind =>
      rw [run_estimate_blind heuristic] at h
      cases h
  | goalCount =>
      rw [run_estimate heuristic] at h
      split at h <;> cases h
      exact ⟨_, rfl, ‹_›⟩

theorem actionNames_eq_error {table : ActionTable} {ids : List ActionId}
    (h : actionNames table ids = .error e) : ∃ id ∈ ids, table.get? id = none ∧
      e = .unknownAction id.text := by
  induction ids with
  | nil => cases h
  | cons id ids ih =>
      unfold actionNames at h
      split at h
      · cases rest : actionNames table ids with
        | error e' =>
            rw [rest] at h
            cases h
            obtain ⟨id', mem, unknown⟩ := ih rest
            exact ⟨id', List.mem_cons_of_mem _ mem, unknown⟩
        | ok names => rw [rest] at h; cases h
      · cases h
        exact ⟨id, List.mem_cons_self, ‹_›, rfl⟩

/-- Where a search for a plan fails, with its error and the session that it leaves. -/
inductive Fails (p : Planner) (problem : Problem) : PlanningError → Session → Prop where
  | ground {cause : FormulaError} {s : Session}
      (h : Task.ofProblem p.domain problem p.configuration.pruneUnreachable ∅ = (.error cause, s)) :
      Fails p problem (.formula cause) s
  | estimate {task : Task} {cause : FormulaError} {s s' : Session}
      (ground : Task.ofProblem p.domain problem p.configuration.pruneUnreachable ∅ = (.ok task, s))
      (h : Estimate.ofGoal task.goal s = (.error cause, s')) : Fails p problem (.formula cause) s'
  | search {task : Task} {estimate : Estimate} {s s₁ s' : Session} {ws ws' : List Warning}
      {e : PlanningError}
      (ground : Task.ofProblem p.domain problem p.configuration.pruneUnreachable ∅ = (.ok task, s))
      (estimated : p.estimate task.goal s ws = ((.ok estimate, s₁), ws'))
      (h : WorldSpace.search task.actions task.goal estimate p.configuration.maxExpansions
        task.initial s₁ = (.error e, s')) : Fails p problem e s'
  | names {task : Task} {estimate : Estimate} {s s₁ s' : Session} {ws ws' : List Warning}
      {path : Path World} {counters : Counters} {id : ActionId}
      (ground : Task.ofProblem p.domain problem p.configuration.pruneUnreachable ∅ = (.ok task, s))
      (estimated : p.estimate task.goal s ws = ((.ok estimate, s₁), ws'))
      (searched : WorldSpace.search task.actions task.goal estimate p.configuration.maxExpansions
        task.initial s₁ = (.ok (path, counters), s'))
      (mem : id ∈ path.actions) (h : task.actions.get? id = none) :
      Fails p problem (.unknownAction id.text) s'

theorem solve_eq_error (h : p.solve problem s ws = ((.error e, F), ws')) : p.Fails problem e F := by
  rcases run_bind_eq_error h with failed | ⟨task, s₁, ws₁, hground, h⟩
  · obtain ⟨cause, rfl, run⟩ := ground_eq_error failed
    exact .ground run
  have hground := ground_eq_ok hground
  rcases run_bind_eq_error h with failed | ⟨estimate, s₂, ws₂, hestimate, h⟩
  · obtain ⟨cause, rfl, run⟩ := estimate_eq_error failed
    exact .estimate hground run
  rcases run_bind_eq_error h with failed | ⟨⟨path, counters⟩, s₃, ws₃, hsearch, h⟩
  · exact .search hground hestimate (Prod.mk.inj failed).1
  rcases run_bind_eq_error h with failed | ⟨names, s₄, ws₄, -, h⟩
  · obtain ⟨names, same⟩ := Prod.mk.inj (Prod.mk.inj failed).1
    obtain ⟨id, mem, unknown, rfl⟩ := actionNames_eq_error names
    exact .names hground hestimate (same ▸ (ofSession_eq_ok.mp hsearch).1) mem unknown
  · cases h

/-- **Solving ends**: no search is cut off, whatever the settings. -/
theorem solve_ends : (p.solve problem s ws).1.1 ≠ .error .unfinished := by
  intro unfinished
  cases solve_eq_error (run_eq_of_result unfinished) with
  | search hground hestimate hsearch =>
      obtain ⟨task, s₀, whole⟩ := exists_whole hground
      obtain ⟨l, W, states, measures⟩ :=
        Task.exists_states canonical_empty whole p.configuration.heuristic
      obtain ⟨grow, fits, sublist, rest, measured, -⟩ :=
        estimate_sees whole states measures hground hestimate
      rw [rest] at hsearch
      obtain ⟨l', states', -, same⟩ := states.restrict grow fits sublist.subset
      exact WorldSpace.search_ends states' (same ▸ measured) (congrArg Prod.fst hsearch)

end Planner

end ClassicalPlanner
