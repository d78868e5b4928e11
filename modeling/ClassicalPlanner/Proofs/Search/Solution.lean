import ClassicalPlanner.Proofs.Search.Invariant

/-!
# What a search answers

A path that a search gives is a route from the start to a goal (`solved`).  When it gives none, the
start is no goal (`start_not_goal`), and if it has not used up its expansions no state with a route
to it is one (`unsolved`).

**Optimality** (`optimal`).  If estimates never fall by more than an edge costs and are zero at
goals, no route to a goal is cheaper than the path, as long as its cost is below the largest.  The
reason is that some state on a route to a state not yet expanded waits in the frontier, with a
total that is no more than the route costs (`Cheapest.first_le`).
-/

namespace ClassicalPlanner.Search

variable {ε State ι : Type} [Ord ι] [Std.TransOrd ι] [Std.LawfulEqOrd ι]
variable {space : Space ε Id State ι} {start x : State} {p p' : Progress State ι} {i : ι}
variable {limit : Option Nat} {q : Priority} {steps : List (PathStep State)} {n : Nat}
variable {result : Path State × Counters} {h : State → UInt32}

/-! ### The last turn -/

/-- A search that ends does so in a turn in which all it has noted is right. -/
theorem Ends.last (inj : Function.Injective space.identity) (hp : Sound space start p)
    (ends : Ends space limit p result) :
    ∃ p', Sound space start p' ∧ Turns space limit p' (.inl result) := by
  obtain ⟨n, p', runs, last⟩ := ends
  exact ⟨p', hp.runs inj runs, turns_of_turn last⟩

omit [Std.LawfulEqOrd ι] in
theorem finish_none (p : Progress State ι) (exhausted : Bool) :
    (p.finish none exhausted).1.steps = [] := by
  show Progress.trail p.known p.known.size none [] = []
  cases p.known.size <;> rfl

omit [Ord ι] [Std.TransOrd ι] [Std.LawfulEqOrd ι] in
theorem Route.steps_ne_nil (route : Route space start steps x n) : steps ≠ [] := by
  cases route with
  | start => exact List.cons_ne_nil _ _
  | step => exact List.concat_ne_nil _ _

theorem Valid.trail_ne_nil {r : Record State ι} (h : Valid space start p)
    (hr : p.known[i]? = some r) : Progress.trail p.known p.known.size (some i) [] ≠ [] := by
  obtain ⟨steps, n, route, -, trail⟩ := h.route hr
  exact trail ▸ route.steps_ne_nil

theorem isSolved_eq_true {path : Path State} : path.isSolved = true ↔ path.steps ≠ [] := by
  unfold Path.isSolved Path.isEmpty
  rw [Bool.not_eq_true', List.isEmpty_eq_false_iff]

/-- **A path leads to a goal.** -/
theorem solved (inj : Function.Injective space.identity) (hp : Sound space start p)
    (ends : Ends space limit p result) (path : result.1.steps ≠ []) :
    ∃ x n, Route space start result.1.steps x n ∧ space.isGoal x = Except.ok true := by
  obtain ⟨p', sound, last⟩ := ends.last inj hp
  cases last with
  | empties => exact absurd (finish_none _ _) path
  | exhausts => exact absurd (finish_none _ _) path
  | solves first known goal =>
      obtain ⟨steps, n, route, -, trail⟩ := sound.valid.route known
      refine ⟨_, n, ?_, goal⟩
      show Route space start (Progress.trail _ _ _ _) _ n
      rw [trail]
      exact route

omit [Std.LawfulEqOrd ι] in
/-- With an empty frontier each state that a route leads to has been expanded. -/
theorem Sound.all_visited (inj : Function.Injective space.identity) (hp : Sound space start p)
    (first : p.frontier.first? = none) (route : Route space start steps x n) :
    ∃ r : Record State ι,
      p.known[space.identity x]? = some r ∧ r.state = x ∧ r.visited = true := by
  have visited {i : ι} {r : Record State ι} (hr : p.known[i]? = some r) : r.visited = true := by
    by_contra unvisited
    obtain ⟨q, hq, -⟩ := hp.valid.waits hr (Bool.not_eq_true _ ▸ unvisited)
    rw [Frontier.first?_eq_none_iff.mp first] at hq
    cases Std.ExtTreeMap.getElem?_empty.symm.trans hq
  have same {x : State} {r : Record State ι} (hr : p.known[space.identity x]? = some r) :
      r.state = x := inj (hp.valid.identity hr)
  induction route with
  | start =>
      obtain ⟨r, hr, -⟩ := hp.valid.start
      exact ⟨r, hr, same hr, visited hr⟩
  | step _ successors mem ih =>
      obtain ⟨b, hb, rfl, hv⟩ := ih
      obtain ⟨edges, hedges, followed⟩ := hp.explored.followed hb hv
      obtain rfl := Except.ok.inj (successors.symm.trans hedges)
      obtain ⟨r, hr, -⟩ := followed _ mem
      exact ⟨r, hr, same hr, visited hr⟩

/-- A search that gives no path has found no goal or has used up its expansions. -/
theorem unsolved (inj : Function.Injective space.identity) (hp : Sound space start p)
    (ends : Ends space limit p result) (path : result.1.steps = [])
    (unspent : result.2.exhausted = false) (route : Route space start steps x n) :
    space.isGoal x = Except.ok false := by
  obtain ⟨p', sound, last⟩ := ends.last inj hp
  cases last with
  | empties first =>
      obtain ⟨r, hr, rfl, visited⟩ := sound.all_visited inj first route
      exact sound.explored.refuted hr visited
  | exhausts => cases unspent
  | solves first known goal => exact absurd path (sound.valid.trail_ne_nil known)

/-- The start is tested before any expansion is counted: without a path it is no goal, even if no
expansion is allowed. -/
theorem start_not_goal {s : State} (hp : Search.start space s = Except.ok p)
    (ends : Ends space limit p result) (path : result.1.steps = []) :
    space.isGoal s = Except.ok false := by
  have sound := sound_start hp
  have known {i : ι} {r : Record State ι} (hr : p.known[i]? = some r) :
      r.state = s ∧ r.visited = false := by
    obtain ⟨estimate, -, hp⟩ := bind_eq_ok.mp hp
    cases hp
    rcases Progress.known_note.mp hr with ⟨-, rfl⟩ | ⟨-, hr⟩
    · exact ⟨rfl, rfl⟩
    · cases Std.ExtTreeMap.getElem?_empty.symm.trans hr
  obtain ⟨out, next, last⟩ : ∃ out, turn space limit p = Except.ok out ∧
      ∀ result', out = .inl result' → result' = result := by
    rcases ends.first with next | ⟨p₁, next, -⟩
    · exact ⟨_, next, fun _ h => (Sum.inl.inj h).symm⟩
    · exact ⟨_, next, fun _ h => by cases h⟩
  cases turns_of_turn next with
  | empties first =>
      obtain ⟨r, hr, -⟩ := sound.valid.start
      obtain ⟨q, hq, -⟩ := sound.valid.waits hr (known hr).2
      rw [Frontier.first?_eq_none_iff.mp first] at hq
      cases Std.ExtTreeMap.getElem?_empty.symm.trans hq
  | loses first unknown =>
      obtain ⟨-, -, r, hr⟩ := sound.valid.first first
      cases unknown.symm.trans hr
  | solves first hr goal =>
      obtain rfl := last _ rfl
      exact absurd path (sound.valid.trail_ne_nil hr)
  | drops first hr goal => exact (known hr).1 ▸ goal
  | exhausts first hr goal => exact (known hr).1 ▸ goal
  | expands first hr goal => exact (known hr).1 ▸ goal

omit [Std.LawfulEqOrd ι] in
theorem not_exhausted (ends : Ends space none p result) : result.2.exhausted = false := by
  obtain ⟨n, p', -, last⟩ := ends
  cases turns_of_turn last with
  | empties | solves => rfl
  | exhausts _ _ _ unvisited spent => cases spent

/-! ### Optimality -/

/-- Estimates are known everywhere, fall by no more than an edge costs, and are zero at goals. -/
structure Consistent (space : Space ε Id State ι) (h : State → UInt32) : Prop where
  estimate : ∀ s, space.estimate s = Except.ok (h s)
  edge : ∀ {s edges}, space.successors s = Except.ok edges → ∀ e ∈ edges,
    (h s).toNat ≤ e.cost.toNat + (h e.state).toNat
  goal : ∀ {s}, space.isGoal s = Except.ok true → h s = 0

/-- Expanded states have been reached by a cheapest way, where costs are not cut off. -/
structure Cheapest (space : Space ε Id State ι) (start : State) (h : State → UInt32)
    (p : Progress State ι) : Prop where
  cost : ∀ {i : ι} {r : Record State ι}, p.known[i]? = some r → r.visited = true →
    ∀ {steps n}, Route space start steps r.state n → n + (h r.state).toNat < maxCost →
      r.cost.toNat ≤ n

theorem total_le {q q' : Priority} (h : (compare q q').isLE) : q.total ≤ q'.total := by
  have h : ((compare q.total q'.total).then (compare q.turn q'.turn)).isLE := h
  refine UInt32.not_lt.mp fun lt => ?_
  rw [Std.compare_eq_gt.mpr lt] at h
  cases h

omit [Std.LawfulEqOrd ι] in
/-- A route leads to an expanded state, at its cost or less, or passes through a state that waits
with a total of no more than the route and the rest are thought to cost. -/
theorem Cheapest.cover (cheapest : Cheapest space start h p)
    (inj : Function.Injective space.identity) (hp : Sound space start p)
    (consistent : Consistent space h) (route : Route space start steps x n)
    (small : n + (h x).toNat < maxCost) :
    (∃ r : Record State ι, p.known[space.identity x]? = some r ∧ r.state = x ∧
      r.visited = true ∧ r.cost.toNat ≤ n) ∨
    ∃ (i : ι) (r : Record State ι), p.known[i]? = some r ∧ r.visited = false ∧
      (addCost r.cost r.estimate).toNat ≤ n + (h x).toNat := by
  have same {x : State} {r : Record State ι} (hr : p.known[space.identity x]? = some r) :
      r.state = x := inj (hp.valid.identity hr)
  have estimated {i : ι} {r : Record State ι} (hr : p.known[i]? = some r) :
      r.estimate = h r.state :=
    Except.ok.inj ((hp.valid.estimate hr).symm.trans (consistent.estimate r.state))
  induction route with
  | start =>
      obtain ⟨r, hr, zero⟩ := hp.valid.start
      cases visited : r.visited with
      | true => exact .inl ⟨r, hr, same hr, visited, by rw [zero]; exact Nat.le_refl 0⟩
      | false =>
          refine .inr ⟨_, r, hr, visited, ?_⟩
          rw [zero, zero_addCost, estimated hr, same hr]
          exact Nat.le_add_left _ _
  | @step steps y n edges e route successors mem ih =>
      have edge := consistent.edge successors e mem
      rcases ih (by omega) with ⟨b, hb, rfl, visited, cost⟩ | ⟨j, b, hb, unvisited, total⟩
      · obtain ⟨edges', hedges, followed⟩ := hp.explored.followed hb visited
        obtain rfl := Except.ok.inj (successors.symm.trans hedges)
        obtain ⟨r, hr, le⟩ := followed e mem
        cases visited' : r.visited with
        | true =>
            have reached := Route.step route successors mem
            rw [← same hr] at reached
            refine .inl ⟨r, hr, same hr, visited', cheapest.cost hr visited' reached ?_⟩
            rwa [same hr]
        | false =>
            refine .inr ⟨_, r, hr, visited', ?_⟩
            rw [visited'] at le
            have le := UInt32.le_iff_toNat_le.mp (le.resolve_left Bool.false_ne_true)
            rw [toNat_addCost] at le ⊢
            rw [estimated hr, same hr]
            omega
      · exact .inr ⟨j, b, hb, unvisited, by omega⟩

omit [Std.LawfulEqOrd ι] in
/-- The first total is no more than a route to a state not yet expanded is thought to cost. -/
theorem Cheapest.first_le (cheapest : Cheapest space start h p)
    (inj : Function.Injective space.identity) (hp : Sound space start p)
    (consistent : Consistent space h) (first : p.frontier.first? = some (q, i))
    (route : Route space start steps x n) (small : n + (h x).toNat < maxCost)
    (unvisited : ∀ {r : Record State ι}, p.known[space.identity x]? = some r → r.visited = false) :
    q.total.toNat ≤ n + (h x).toNat := by
  rcases cheapest.cover inj hp consistent route small with
    ⟨r, hr, -, visited, -⟩ | ⟨j, r, hr, waiting, total⟩
  · rw [unvisited hr] at visited
    cases visited
  · obtain ⟨q', hq', total'⟩ := hp.valid.waits hr waiting
    obtain ⟨-, least, -⟩ := hp.valid.first first
    have le : q.total ≤ q'.total :=
      total_le (least q' (Std.ExtTreeMap.mem_iff_isSome_getElem?.mpr (by rw [hq']; rfl)))
    rw [UInt32.le_iff_toNat_le, total'] at le
    exact Nat.le_trans le total

omit [Std.LawfulEqOrd ι] in
/-- The state taken first has been reached by a cheapest way, unless it has been expanded. -/
theorem Cheapest.first (cheapest : Cheapest space start h p)
    (inj : Function.Injective space.identity) (hp : Sound space start p)
    (consistent : Consistent space h) (first : p.frontier.first? = some (q, i))
    {r : Record State ι} (known : p.known[i]? = some r) (unvisited : r.visited = false)
    (route : Route space start steps r.state n) (small : n + (h r.state).toNat < maxCost) :
    r.cost.toNat ≤ n := by
  obtain ⟨hq, -, -⟩ := hp.valid.first first
  obtain ⟨r', hr', entry⟩ := hp.valid.entry hq
  obtain rfl := Option.some.inj (known.symm.trans hr')
  have total := cheapest.first_le inj hp consistent first route small fun hr => by
    rw [hp.valid.identity known] at hr
    rwa [← Option.some.inj (known.symm.trans hr)]
  have estimate := Except.ok.inj ((hp.valid.estimate known).symm.trans (consistent.estimate _))
  rw [UInt32.le_iff_toNat_le, toNat_addCost, estimate] at entry
  omega

theorem Cheapest.turn (cheapest : Cheapest space start h p)
    (inj : Function.Injective space.identity) (hp : Sound space start p)
    (consistent : Consistent space h) (next : turn space limit p = Except.ok (.inr p')) :
    Cheapest space start h p' := by
  cases turns_of_turn next with
  | loses => exact ⟨cheapest.cost⟩
  | drops => exact ⟨cheapest.cost⟩
  | @expands q i r p' first known goal unvisited unspent expanded =>
      refine ⟨fun {j b} hb visited steps n route small => ?_⟩
      obtain ⟨edges, -, -, later, -⟩ := hp.valid.expand inj first known expanded
      rcases later.visited_cases hb visited with ⟨-, rfl⟩ | hb
      · exact cheapest.first inj hp consistent first (r := r) known unvisited route small
      · exact cheapest.cost hb visited route small

theorem cheapest_start {s : State} (hp : Search.start space s = Except.ok p) :
    Cheapest space s h p := by
  obtain ⟨estimate, -, hp⟩ := bind_eq_ok.mp hp
  cases hp
  refine ⟨fun {i r} hr visited => ?_⟩
  rcases Progress.known_note.mp hr with ⟨-, rfl⟩ | ⟨-, hr⟩
  · cases visited
  · cases Std.ExtTreeMap.getElem?_empty.symm.trans hr

theorem Cheapest.runs (cheapest : Cheapest space start h p)
    (inj : Function.Injective space.identity) (hp : Sound space start p)
    (consistent : Consistent space h) (runs : Runs space limit n p p') :
    Cheapest space start h p' := by
  induction runs with
  | refl => exact cheapest
  | more runs next ih =>
      exact (ih cheapest hp).turn inj (hp.runs inj runs) consistent next

/-- **A path is optimal**: no route to a goal is cheaper, as long as costs are not cut off. -/
theorem optimal (inj : Function.Injective space.identity) (hp : Sound space start p)
    (cheapest : Cheapest space start h p) (consistent : Consistent space h)
    (ends : Ends space limit p result) (path : result.1.steps ≠ [])
    (route : Route space start steps x n) (goal : space.isGoal x = Except.ok true)
    (small : n < maxCost) : ∃ y m, Route space start result.1.steps y m ∧ m ≤ n := by
  obtain ⟨k, p', runs, last⟩ := ends
  have sound := hp.runs inj runs
  have cheapest := cheapest.runs inj hp consistent runs
  have zero {s : State} (hs : space.isGoal s = Except.ok true) : (h s).toNat = 0 := by
    rw [consistent.goal hs]
    rfl
  have unvisited {i : ι} {r : Record State ι} (hr : p'.known[i]? = some r)
      (hs : space.isGoal r.state = Except.ok true) : r.visited = false := by
    refine Bool.not_eq_true _ ▸ fun visited => ?_
    cases hs.symm.trans (sound.explored.refuted hr visited)
  cases turns_of_turn last with
  | empties => exact absurd (finish_none _ _) path
  | exhausts => exact absurd (finish_none _ _) path
  | @solves q i r first known here =>
      obtain ⟨steps', m, route', exact, trail⟩ := sound.valid.route known
      refine ⟨r.state, m, ?_, ?_⟩
      · show Route space start (Progress.trail _ _ _ _) _ m
        rw [trail]
        exact route'
      · have total := cheapest.first_le inj sound consistent first route
          (by rw [zero goal]; exact small)
          fun hr => unvisited hr (inj (sound.valid.identity hr) ▸ goal)
        obtain ⟨hq, -, -⟩ := sound.valid.first first
        obtain ⟨r', hr', entry⟩ := sound.valid.entry hq
        obtain rfl := Option.some.inj (known.symm.trans hr')
        rw [UInt32.le_iff_toNat_le, toNat_addCost] at entry
        rw [zero goal] at total
        omega

end ClassicalPlanner.Search
