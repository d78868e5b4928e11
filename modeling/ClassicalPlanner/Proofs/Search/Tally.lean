import ClassicalPlanner.Proofs.Search.Budget
import ClassicalPlanner.Proofs.Search.Exhaustion

/-!
# What a search has counted

States may share an identity here.  The states that a search has expanded, in order, say what it
knows and what it has counted: the identities known are those of the start and of the states in the
lists of edges that were generated (`Surveys`), and each entry pushed is for the start or for an
edge in these lists (`Tallies`).  A turn keeps both, also when it takes an entry that has been left
behind (`tallies_turn`).

So the counters of a search that ends are exact (`counters_exact`).  Only for the length of its path
must states with one identity be one.
-/

namespace ClassicalPlanner

open Session

variable {ε State ι : Type}

/-- The edges in the list out of a state; none if the question for the list has no answer. -/
def Space.edges (space : Space ε Id State ι) (x : State) : List (Edge State) :=
  match (space.successors x : Except ε (List (Edge State))) with
  | .ok edges => edges
  | .error _ => []

theorem Space.edges_eq {space : Space ε Id State ι} {x : State} {edges : List (Edge State)}
    (h : space.successors x = Except.ok edges) : space.edges x = edges := by
  unfold Space.edges
  rw [h]

/-- The edges in all lists generated for some states. -/
def Space.allEdges (space : Space ε Id State ι) (xs : List State) : List (Edge State) :=
  xs.flatMap space.edges

/-- The identities of the start and of the states in all lists generated for `xs`. -/
def Space.seen (space : Space ε Id State ι) (start : State) (xs : List State) : Set ι :=
  {i | i = space.identity start ∨ ∃ e ∈ space.allEdges xs, space.identity e.state = i}

theorem Space.allEdges_concat (space : Space ε Id State ι) (xs : List State) (x : State) :
    space.allEdges (xs ++ [x]) = space.allEdges xs ++ space.edges x := by
  rw [Space.allEdges, List.flatMap_append, List.flatMap_singleton]
  rfl

theorem Space.mem_seen_concat (space : Space ε Id State ι) {start x : State} {xs : List State}
    {i : ι} : i ∈ space.seen start (xs ++ [x]) ↔
      i ∈ space.seen start xs ∨ ∃ e ∈ space.edges x, space.identity e.state = i := by
  simp only [Space.seen, Space.allEdges_concat, Set.mem_ofPred_eq, List.mem_append, or_and_right,
    exists_or, or_assoc]

namespace Search

variable [Ord ι] [Std.TransOrd ι] [Std.LawfulEqOrd ι] {space : Space ε Id State ι} {start : State}
variable {p p' : Progress State ι} {i : ι} {r : Record State ι} {edges : List (Edge State)}
variable {limit : Option Nat} {xs : List State} {n : Nat} {e : Edge State}
variable {calls calls' : Array (Call State)}

/-! ### Following edges -/

omit [Std.LawfulEqOrd ι] in
theorem mem_known : i ∈ p.known ↔ ∃ r, p.known[i]? = some r := by
  rw [Std.ExtTreeMap.mem_iff_isSome_getElem?, Option.isSome_iff_exists]

/-- Nothing is forgotten, and what the edges lead to is known, under the state met first. -/
structure Meets (space : Space ε Id State ι) (edges : List (Edge State)) (p p' : Progress State ι) :
    Prop where
  later : Later p p'
  known : ∀ {i}, i ∈ p'.known ↔ i ∈ p.known ∨ ∃ e ∈ edges, space.identity e.state = i
  state : ∀ {i r'}, p'.known[i]? = some r' →
    (∃ r, p.known[i]? = some r ∧ r.state = r'.state) ∨
      ∃ e ∈ edges, space.identity e.state = i ∧ e.state = r'.state

namespace Meets

omit [Std.LawfulEqOrd ι] in
theorem refl (p : Progress State ι) : Meets space [] p p where
  later := .refl p
  known := by simp
  state h := .inl ⟨_, h, rfl⟩

omit [Std.LawfulEqOrd ι] in
theorem cons {p₁ : Progress State ι} (h : Meets space [e] p p₁) (h' : Meets space edges p₁ p') :
    Meets space (e :: edges) p p' where
  later := h.later.trans h'.later
  known {i} := by simp [h'.known, h.known, or_assoc]
  state {i r'} hr' := by
    rcases h'.state hr' with ⟨r₁, hr₁, same⟩ | ⟨e', mem, here⟩
    · rcases h.state hr₁ with ⟨r, hr, same'⟩ | ⟨e', mem, here, same'⟩
      · exact .inl ⟨r, hr, same'.trans same⟩
      · obtain rfl := List.mem_singleton.mp mem
        exact .inr ⟨e', List.mem_cons_self, here, same'.trans same⟩
    · exact .inr ⟨e', List.mem_cons_of_mem _ mem, here⟩

/-- The state is noted with another way to it, under the state met first. -/
theorem push {k : ι} (hk : space.identity e.state = k) (hr : r.visited = false)
    (better : ∀ {r' : Record State ι}, p.known[k]? = some r' →
      r'.visited = false ∧ r.cost ≤ r'.cost)
    (state : r.state = e.state ∨ ∃ r', p.known[k]? = some r' ∧ r'.state = r.state)
    (total : UInt32) : Meets space [e] p ((p.note k r).push total k) where
  later := later_push hr better total
  known {i} := by
    rw [mem_known, mem_known]
    constructor
    · rintro ⟨r', hr'⟩
      rcases Progress.known_note.mp hr' with ⟨rfl, -⟩ | ⟨-, hr'⟩
      · exact .inr ⟨e, List.mem_cons_self, hk⟩
      · exact .inl ⟨r', hr'⟩
    · rintro (⟨r', hr'⟩ | ⟨e', mem, here⟩)
      · by_cases same : k = i
        · exact ⟨r, same ▸ p.known_note_self k r⟩
        · exact ⟨r', (p.known_note_of_ne r same).trans hr'⟩
      · obtain rfl := List.mem_singleton.mp mem
        exact ⟨r, here ▸ hk ▸ p.known_note_self _ r⟩
  state {i r'} hr' := by
    rcases Progress.known_note.mp hr' with ⟨rfl, rfl⟩ | ⟨-, hr'⟩
    · exact state.symm.imp_right fun same => ⟨e, List.mem_cons_self, hk, same.symm⟩
    · exact .inl ⟨r', hr', rfl⟩

theorem relaxes {cost : UInt32} (step : Relaxes space i cost p e p') : Meets space [e] p p' := by
  cases step with
  | meets unknown estimate =>
      refine push rfl rfl (fun {r'} hr' => ?_) (.inl rfl) _
      rw [unknown] at hr'
      cases hr'
  | @keeps r known worse =>
      have there : space.identity e.state ∈ p.known := mem_known.mpr ⟨r, known⟩
      refine ⟨.refl p, fun {i} => ⟨.inl, ?_⟩, fun h => .inl ⟨_, h, rfl⟩⟩
      rintro (h | ⟨e', mem, rfl⟩)
      · exact h
      · exact List.mem_singleton.mp mem ▸ there
  | @improves r known unvisited better =>
      let cheap := { r with
        cost := addCost cost e.cost, previous := some i, action := some e.action }
      refine push (r := cheap) rfl unvisited (fun {r'} hr' => ?_) (.inr ⟨r, known, rfl⟩) _
      obtain rfl := Option.some.inj (known.symm.trans hr')
      exact ⟨unvisited, UInt32.le_of_lt better⟩

theorem follow {cost : UInt32} (run : edges.foldlM (relax space i cost) p = Except.ok p') :
    Meets space edges p p' := by
  induction edges generalizing p with
  | nil => cases run; exact .refl _
  | cons e edges ih =>
      obtain ⟨p₁, hp₁, run⟩ := bind_eq_ok.mp run
      exact .cons (.relaxes (relaxes_of_relax hp₁)) (ih run)

end Meets

/-! ### What is known -/

/-- The states `xs` have been expanded, each once, and what is known is the start and where the
edges out of them lead. -/
structure Surveys (space : Space ε Id State ι) (start : State) (xs : List State)
    (known : Std.ExtTreeMap ι (Record State ι)) : Prop where
  record : ∀ {i : ι} {r : Record State ι}, known[i]? = some r →
    space.identity r.state = i ∧ space.Reaches start r.state
  seen : ∀ {i : ι}, i ∈ known ↔ i ∈ space.seen start xs
  nodup : (xs.map space.identity).Nodup
  visited : ∀ {i : ι}, i ∈ xs.map space.identity ↔
    ∃ r : Record State ι, known[i]? = some r ∧ r.visited = true
  answered : ∀ x ∈ xs, space.successors x = Except.ok (space.edges x)

theorem surveys_start (h : Search.start space start = Except.ok p) :
    Surveys space start [] p.known := by
  obtain ⟨estimate, -, h⟩ := bind_eq_ok.mp h
  cases h
  refine ⟨fun {i r} hr => ?_, fun {i} => ?_, .nil, fun {i} => ?_, fun _ hx => nomatch hx⟩
  · obtain ⟨rfl, rfl⟩ := known_start hr
    exact ⟨rfl, .start⟩
  · rw [mem_known]
    constructor
    · rintro ⟨r, hr⟩
      exact .inl (known_start hr).1
    · rintro (rfl | ⟨e, mem, -⟩)
      · exact ⟨_, Progress.known_note_self _ _ _⟩
      · cases mem
  · refine iff_of_false List.not_mem_nil fun ⟨r, hr, visited⟩ => ?_
    obtain ⟨-, rfl⟩ := known_start hr
    cases visited

omit [Std.LawfulEqOrd ι] in
/-- A state that is not expanded is not among those that have been. -/
theorem Surveys.fresh (h : Surveys space start xs p.known) (known : p.known[i]? = some r)
    (unvisited : r.visited = false) : ((xs ++ [r.state]).map space.identity).Nodup := by
  rw [List.map_append, List.map_singleton, ← List.concat_eq_append]
  refine List.Nodup.concat (fun mem => ?_) h.nodup
  obtain ⟨r', hr', visited⟩ := h.visited.mp mem
  rw [(h.record known).1] at hr'
  obtain rfl := Option.some.inj (known.symm.trans hr')
  rw [visited] at unvisited
  cases unvisited

/-- **Expanding a state** adds what the edges out of it lead to. -/
theorem Surveys.expand (h : Surveys space start xs p.known) (known : p.known[i]? = some r)
    (unvisited : r.visited = false) (expanded : expand space p i r = Except.ok p') :
    Surveys space start (xs ++ [r.state]) p'.known := by
  obtain ⟨edges, hedges, run⟩ := expand_eq_ok expanded
  have meets := Meets.follow run
  have out : space.edges r.state = edges := space.edges_eq hedges
  obtain ⟨here, reached⟩ := h.record known
  refine ⟨fun {j b} hb => ?record, fun {j} => ?seen, h.fresh known unvisited, fun {j} => ?visited,
    ?answered⟩
  case record =>
    rcases meets.state hb with ⟨r₀, hr₀, same⟩ | ⟨e, mem, identity, same⟩
    · rw [← same]
      rcases known_opened hr₀ with ⟨rfl, rfl⟩ | ⟨-, hr₀⟩
      · exact ⟨here, reached⟩
      · exact h.record hr₀
    · exact same ▸ ⟨identity, .step reached hedges mem⟩
  case seen =>
    have opened : j ∈ (p.opened i r edges.length).known ↔ j ∈ p.known := by
      rw [mem_known, mem_known]
      constructor
      · rintro ⟨b, hb⟩
        rcases known_opened hb with ⟨rfl, -⟩ | ⟨-, hb⟩
        · exact ⟨r, known⟩
        · exact ⟨b, hb⟩
      · rintro ⟨b, hb⟩
        obtain ⟨b', hb', -⟩ := opened_keeps known hb
        exact ⟨b', hb'⟩
    rw [meets.known, opened, h.seen, space.mem_seen_concat, out]
  -- following edges expands nothing, so the state taken is all that is new
  case visited =>
    rw [List.map_append, List.mem_append, List.map_singleton, List.mem_singleton, here]
    constructor
    · rintro (mem | rfl)
      · obtain ⟨b, hb, visited⟩ := h.visited.mp mem
        obtain ⟨b', hb', keeps⟩ : ∃ b', (p.opened i r edges.length).known[j]? = some b' ∧
          b.Keeps b' := opened_keeps known hb
        have visited' := keeps.visited visited
        exact ⟨b', (meets.later.visited visited').mpr hb', visited'⟩
      · have expanded := p.known_note_self j { r with visited := true }
        exact ⟨_, (meets.later.visited rfl).mpr expanded, rfl⟩
    · rintro ⟨b, hb, visited⟩
      rcases meets.later.visited_cases hb visited with ⟨rfl, -⟩ | hb
      · exact .inr rfl
      · exact .inl (h.visited.mpr ⟨b, hb, visited⟩)
  case answered =>
    refine List.forall_mem_append.mpr ⟨h.answered, List.forall_mem_singleton.mpr ?_⟩
    rw [out, hedges]

/-! ### What is counted -/

/-- After `n` entries have been taken: what has been pushed and not taken is in the frontier, and
each push is for the start or for an edge out of one of the states `xs`. -/
structure Tallies (space : Space ε Id State ι) (xs : List State) (n : Nat) (p : Progress State ι) :
    Prop where
  expanded : p.expanded = xs.length
  visited : p.visited = 1 + (space.allEdges xs).length
  taken : p.frontier.size + n = p.pushed
  pushed : p.pushed ≤ p.visited
  earlier : ∀ {q : Priority} {i : ι}, p.frontier[q]? = some i → q.turn < p.pushed

omit [Std.TransOrd ι] [Std.LawfulEqOrd ι] in
/-- Taking an entry from the frontier. -/
theorem Tallies.drop {q : Priority} (h : Tallies space xs n p) (hq : p.frontier[q]? = some i) :
    Tallies space xs (n + 1) { p with frontier := p.frontier.erase q } where
  expanded := h.expanded
  visited := h.visited
  taken := by
    have size := size_erase_of_mem hq
    have taken := h.taken
    show (p.frontier.erase q).size + (n + 1) = p.pushed
    omega
  pushed := h.pushed
  earlier hq' := h.earlier (Progress.frontier_erase.mp hq').2

omit [Std.LawfulEqOrd ι] in
theorem Tallies.expand (h : Tallies space xs n p) (expanded : expand space p i r = Except.ok p') :
    Tallies space (xs ++ [r.state]) n p' := by
  obtain ⟨edges, hedges, run⟩ := expand_eq_ok expanded
  have out : space.edges r.state = edges := space.edges_eq hedges
  have grows := grows_follow (by exact h.earlier) run
  have lists : (space.allEdges (xs ++ [r.state])).length =
      (space.allEdges xs).length + edges.length := by
    rw [space.allEdges_concat, List.length_append, out]
  have visited : p'.visited = p.visited + edges.length := grows.visited
  have pushed : p'.pushed ≤ p.pushed + edges.length := grows.pushed
  have frontier : p'.frontier.size + p.pushed = p.frontier.size + p'.pushed := grows.frontier
  have := h.taken
  have := h.visited
  have := h.pushed
  refine ⟨?_, ?_, ?_, ?_, grows.earlier⟩
  · rw [grows.expanded, List.length_append, ← h.expanded]
    rfl
  · omega
  · omega
  · omega

omit [Std.LawfulEqOrd ι] in
theorem tallies_start (h : Search.start space start = Except.ok p) : Tallies space [] 0 p := by
  obtain ⟨taken, pushed, -, -⟩ := counts_start (D := 0) h
  obtain ⟨estimate, -, h⟩ := bind_eq_ok.mp h
  cases h
  refine ⟨rfl, rfl, taken, pushed, fun {q i} hq => ?_⟩
  rcases Progress.frontier_push.mp hq with ⟨rfl, -⟩ | ⟨-, hq⟩
  · exact Nat.lt_succ_self _
  · cases Std.ExtTreeMap.getElem?_empty.symm.trans hq

open Call

/-- **A turn that goes on** keeps the questions in step with what is known and counted. -/
theorem tallies_turn (h : Surveys space start (expansions calls) p.known)
    (t : Tallies space (expansions calls) n p)
    (next : turn space.traced limit p calls = (.ok (.inr p'), calls')) :
    Surveys space start (expansions calls') p'.known ∧
      Tallies space (expansions calls') (n + 1) p' := by
  have entry {q : Priority} {i : ι} (first : p.frontier.first? = some (q, i)) :
      p.frontier[q]? = some i := (Frontier.first?_eq_some_iff.mp first).1
  rcases expansions_turn next with ⟨same, kept⟩ | ⟨q, i, r, p₁, first, known, unvisited, out,
    expanded, asked⟩
  · rw [same]
    cases turns_of_turn (turn_of_traced next) with
    | loses first => exact ⟨h, t.drop (entry first)⟩
    | drops first => exact ⟨h, t.drop (entry first)⟩
    | expands _ _ _ _ _ expanded =>
        -- an expansion would have been counted
        have one := expanded_expand expanded
        rw [(kept p' rfl).2] at one
        exact absurd one (Nat.ne_of_lt (Nat.lt_succ_self _))
  · obtain rfl := Sum.inr.inj out
    rw [asked]
    let taken : Progress State ι := { p with frontier := p.frontier.erase q }
    exact ⟨Surveys.expand (p := taken) h known unvisited expanded,
      (t.drop (entry first)).expand expanded⟩

/-! ### The counters of a search that ends -/

/-- The identities known are as many as have been seen. -/
theorem Surveys.size (h : Surveys space start xs p.known) :
    p.known.size = (space.seen start xs).ncard := by
  classical
  have all : space.seen start xs = (p.known.keys.toFinset : Set ι) := by
    ext i
    rw [List.coe_toFinset]
    exact h.seen.symm.trans Std.ExtTreeMap.mem_keys.symm
  rw [all, Set.ncard_coe_finset, List.toFinset_card_of_nodup Std.ExtTreeMap.nodup_keys,
    Std.ExtTreeMap.length_keys]

theorem Surveys.le_size (h : Surveys space start xs p.known) : xs.length ≤ p.known.size := by
  have sub : xs.map space.identity ⊆ p.known.keys := fun i hi => by
    obtain ⟨r, hr, -⟩ := h.visited.mp hi
    exact Std.ExtTreeMap.mem_keys.mpr (mem_known.mpr ⟨r, hr⟩)
  have := (List.subperm_of_subset h.nodup sub).length_le
  rwa [List.length_map, Std.ExtTreeMap.length_keys] at this

theorem Surveys.size_le (h : Surveys space start xs p.known) :
    p.known.size ≤ 1 + (space.allEdges xs).length := by
  have sub : p.known.keys ⊆
      space.identity start :: (space.allEdges xs).map (space.identity ·.state) := fun i hi => by
    rw [List.mem_cons, List.mem_map]
    exact h.seen.mp (Std.ExtTreeMap.mem_keys.mp hi)
  have := (List.subperm_of_subset Std.ExtTreeMap.nodup_keys sub).length_le
  rw [List.length_cons, List.length_map, Std.ExtTreeMap.length_keys] at this
  omega

omit [Ord ι] [Std.TransOrd ι] [Std.LawfulEqOrd ι] in
/-- Every step of a route but the first has an action. -/
theorem Route.length_actions {steps : List (PathStep State)} {x : State}
    (route : Route space start steps x n) : (Path.mk steps).actions.length + 1 = steps.length := by
  induction route with
  | start => rfl
  | step _ _ _ ih =>
      rw [Path.actions, List.filterMap_append, List.length_append, List.length_append, ← ih]
      rfl

/-- The states before the last on a trail have been expanded. -/
theorem Surveys.trail_le {ids : List ι} (h : Surveys space start xs p.known)
    (trace : Traces space start p.known i ids) :
    (Progress.trail p.known p.known.size (some i) []).length ≤ xs.length + 1 := by
  -- the trail is the trace in reverse, and only its last state need not be expanded
  have identities := trace.identities_trail (fun hr => (h.record hr).1) trace.length_lt []
  have length := congrArg List.length identities
  have sub : ids ⊆ xs.map space.identity := fun j hj => h.visited.mpr (trace.visited hj)
  have few := (List.subperm_of_subset trace.nodup.of_cons sub).length_le
  simp only [List.length_map, List.length_append, List.length_reverse, List.length_cons,
    List.map_nil, List.length_nil] at length few
  omega

omit [Std.LawfulEqOrd ι] in
/-- The counters of a search are those that it has when it ends. -/
theorem Turns.counters {result : Path State × Counters}
    (last : Turns space limit p (.inl result)) :
    result.2.known = p.known.size ∧ result.2.expanded = p.expanded ∧
      result.2.visited = p.visited := by
  cases last <;> exact ⟨rfl, rfl, rfl⟩

/-- A path has no more actions than states have been expanded. -/
theorem Turns.path_le {result : Path State × Counters} (last : Turns space limit p (.inl result))
    (sound : Sound space start p) (h : Surveys space start xs p.known) :
    result.1.length ≤ xs.length ∧ result.1.actions.length ≤ xs.length ∧
      (result.2.exhausted = true → result.1.isEmpty = true) := by
  have none {path : Path State} (empty : path.steps = []) :
      path.length ≤ xs.length ∧ path.actions.length ≤ xs.length ∧ path.isEmpty = true := by
    obtain ⟨_⟩ := path
    subst empty
    exact ⟨Nat.zero_le _, Nat.zero_le _, rfl⟩
  cases last with
  | empties => exact (none (finish_none p false)).imp_right (·.imp_right fun h _ => h)
  | exhausts => exact (none (finish_none p true)).imp_right (·.imp_right fun h _ => h)
  | solves first known goal =>
      obtain ⟨ids, trace⟩ := sound.valid.traced known
      obtain ⟨steps, n, route, -, trail⟩ := trace.route known
      have few : steps.length ≤ xs.length + 1 := trail ▸ h.trail_le trace
      have actions := route.length_actions
      show (Path.mk _).steps.length - 1 ≤ _ ∧ (Path.mk _).actions.length ≤ _ ∧ _
      rw [trail]
      exact ⟨Nat.sub_le_of_le_add few, by omega, fun exhausted => nomatch exhausted⟩

/-- **A search that ends** has kept in step with its questions. -/
theorem search_surveys {rounds : Nat} {result : Path State × Counters}
    (inj : Function.Injective space.identity)
    (h : search space.traced limit rounds start #[] = (.ok (some result), calls)) :
    ∃ p n, Sound space start p ∧ Surveys space start (expansions calls) p.known ∧
      Tallies space (expansions calls) n p ∧ Turns space limit p (.inl result) := by
  -- what holds of the search and its questions between turns
  let P (p : Progress State ι) (c : Array (Call State)) : Prop :=
    Sound space start p ∧ ∃ n, Surveys space start (expansions c) p.known ∧
      Tallies space (expansions c) n p
  have kept {p c p' c'} (hp : P p c) (next : turn space.traced limit p c = (.ok (.inr p'), c')) :
      P p' c' := by
    obtain ⟨sound, n, surveys, tallies⟩ := hp
    exact ⟨sound.turn inj (turn_of_traced next), n + 1, tallies_turn surveys tallies next⟩
  have begun {p c} (first : Search.start space.traced start #[] = (.ok p, c)) : P p c := by
    have hp := start_of_traced first
    have none := expansions_start space start
    rw [first] at none
    refine ⟨sound_start hp, 0, ?_⟩
    rw [none]
    exact ⟨surveys_start hp, tallies_start hp⟩
  obtain ⟨p, c, ⟨sound, n, surveys, tallies⟩, same, last⟩ := search_keeps begun kept h
  rw [← same] at surveys tallies
  exact ⟨p, n, sound, surveys, tallies, turns_of_turn last⟩

/-- **The counters of a search that ends are exact.**  It has asked for the successors of
`counters.expanded` states, no two of which are one; `counters.visited` counts the start and the
edges in the lists it was given, and `counters.known` the different states among the start and those
that these edges lead to.  A path has no more actions than states were expanded, and is empty if the
expansions are used up. -/
theorem counters_exact {σ : Type} {space : Space ε (StateM σ) State ι} {keeps : σ → Prop}
    {answers : Space ε Id State ι} (steady : space.Steady keeps answers)
    (inj : Function.Injective space.identity) {w : σ} (hw : keeps w) {rounds : Nat}
    {path : Path State} {counters : Counters}
    (found : (search space limit rounds start w).1 = .ok (some (path, counters))) :
    ∃ calls, (search space.traced limit rounds start #[] w).1 =
        (.ok (some (path, counters)), calls) ∧
      ((expansions calls).map space.identity).Nodup ∧
      (∀ x ∈ expansions calls, answers.successors x = Except.ok (answers.edges x)) ∧
      counters.expanded = (expansions calls).length ∧
      counters.visited = 1 + (answers.allEdges (expansions calls)).length ∧
      counters.known = (answers.seen start (expansions calls)).ncard ∧
      counters.expanded ≤ counters.known ∧ counters.known ≤ counters.visited ∧
      path.length ≤ counters.expanded ∧ path.actions.length ≤ counters.expanded ∧
      (counters.exhausted = true → path.isEmpty = true) := by
  rw [steady.search_eq hw] at found
  rw [steady.search_traced_eq hw]
  rw [← steady.identity] at inj ⊢
  obtain ⟨calls, ran⟩ : ∃ calls, search answers.traced limit rounds start #[] =
      (.ok (some (path, counters)), calls) :=
    ⟨_, run_eq_of_result ((answers.steady_traced.search_eq trivial).trans found)⟩
  obtain ⟨p, n, sound, surveys, tallies, last⟩ := search_surveys inj ran
  obtain ⟨known, expanded, visited⟩ := last.counters
  have expanded : counters.expanded = (expansions calls).length := expanded.trans tallies.expanded
  have visited : counters.visited = 1 + (answers.allEdges (expansions calls)).length :=
    visited.trans tallies.visited
  refine ⟨calls, ran, surveys.nodup, surveys.answered, expanded, visited, known.trans surveys.size,
    ?_, ?_, expanded ▸ last.path_le sound surveys⟩
  · rw [expanded, show counters.known = p.known.size from known]
    exact surveys.le_size
  · rw [visited, show counters.known = p.known.size from known]
    exact surveys.size_le

end Search

open ClassicalPlanner.Graph in
/-- Three states are expanded; the edges out of them lead to the start again and to the state that
is overtaken twice. -/
theorem Search.counters_exact_overtaken :
    (search overtaken.space.traced (some 3) 6 0 #[]).1 =
      .ok (some (overtakenPath, { known := 4, expanded := 3, visited := 6 })) ∧
    (search overtaken.space.traced.traced (some 3) 6 0 #[] #[]).1 =
      (.ok (some (overtakenPath, { known := 4, expanded := 3, visited := 6 })), overtakenCalls) ∧
    Call.expansions overtakenCalls = [0, 2, 1] ∧
    (overtaken.space.allEdges [0, 2, 1]).length = 5 ∧
    (overtaken.space.seen 0 [0, 2, 1]).ncard = 4 ∧ overtakenPath.actions.length = 3 := by
  have found : (search overtaken.space.traced (some 3) 6 0 #[]).1 =
      .ok (some (overtakenPath, { known := 4, expanded := 3, visited := 6 })) := by decide
  have asked : (search overtaken.space.traced.traced (some 3) 6 0 #[] #[]).1 =
      (.ok (some (overtakenPath, { known := 4, expanded := 3, visited := 6 })), overtakenCalls) :=
    by decide
  have expanded : Call.expansions overtakenCalls = [0, 2, 1] := by decide
  obtain ⟨calls, ran, -, -, -, visited, known, -⟩ := Search.counters_exact
    (Space.steady_traced overtaken.space) (injective_identity (g := overtaken) rfl) trivial found
  obtain rfl : overtakenCalls = calls := congrArg Prod.snd (asked.symm.trans ran)
  rw [expanded] at visited known
  exact ⟨found, asked, expanded, (Nat.add_left_cancel visited).symm, known.symm, rfl⟩

end ClassicalPlanner
