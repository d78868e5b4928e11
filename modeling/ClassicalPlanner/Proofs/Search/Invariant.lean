import ClassicalPlanner.Proofs.Search.Trace
import Mathlib.Logic.Function.Basic

/-!
# What holds throughout a search

`Valid` says that what a search has noted is right: each state is known under its identity and with
its estimate, can be traced back to the start, and waits in the frontier at its current total until
it is expanded.  `Explored` says that what it has expanded is done with: no goal, and each edge out
of it leads to a state that is known and expanded or no more costly than over this edge.

Following an edge keeps the first (`Valid.relaxes`) and makes the second true of this edge; a turn
keeps both (`Sound.turn`), and so does a run (`Sound.runs`).
-/

namespace ClassicalPlanner.Search

variable {ε State ι : Type} [Ord ι] {i j k : ι} {q : Priority}

/-! ### Noting and pushing -/

namespace Progress

theorem frontier_push {p : Progress State ι} {total : UInt32} :
    (p.push total k).frontier[q]? = some i ↔
      (q = ⟨total, p.pushed⟩ ∧ i = k) ∨ (q ≠ ⟨total, p.pushed⟩ ∧ p.frontier[q]? = some i) := by
  show (p.frontier.insert ⟨total, p.pushed⟩ k)[q]? = _ ↔ _
  rw [Std.ExtTreeMap.getElem?_insert]
  simp only [Std.LawfulEqOrd.compare_eq_iff_eq]
  split <;> rename_i h
  · simp [← h, eq_comm]
  · simp [Ne.symm h]

omit [Ord ι] in
theorem frontier_erase {f : Frontier ι} {q' : Priority} :
    (f.erase q)[q']? = some i ↔ q ≠ q' ∧ f[q']? = some i := by
  rw [Std.ExtTreeMap.getElem?_erase]
  simp only [Std.LawfulEqOrd.compare_eq_iff_eq]
  split <;> simp_all

variable [Std.TransOrd ι]

theorem known_note_self (p : Progress State ι) (k : ι) (r : Record State ι) :
    (p.note k r).known[k]? = some r := Std.ExtTreeMap.getElem?_insert_self

theorem known_note_of_ne [Std.LawfulEqOrd ι] (p : Progress State ι) (r : Record State ι)
    (h : k ≠ i) : (p.note k r).known[i]? = p.known[i]? := by
  unfold note
  rw [Std.ExtTreeMap.getElem?_insert, if_neg]
  rwa [Std.LawfulEqOrd.compare_eq_iff_eq]

theorem known_note [Std.LawfulEqOrd ι] {p : Progress State ι} {r r' : Record State ι} :
    (p.note k r).known[i]? = some r' ↔
      (i = k ∧ r' = r) ∨ (k ≠ i ∧ p.known[i]? = some r') := by
  by_cases h : k = i
  · subst h
    rw [known_note_self]
    simp [eq_comm]
  · rw [known_note_of_ne p r h]
    simp [h, Ne.symm h]

end Progress

variable [Std.TransOrd ι] {space : Space ε Id State ι} {start : State}
variable {p p' : Progress State ι} {r b : Record State ι} {limit : Option Nat} {e : Edge State}
variable {edges : List (Edge State)}

/-! ### The invariant -/

/-- What the search has noted is right. -/
structure Valid (space : Space ε Id State ι) (start : State) (p : Progress State ι) : Prop where
  identity : ∀ {i : ι} {r : Record State ι}, p.known[i]? = some r → space.identity r.state = i
  estimate : ∀ {i : ι} {r : Record State ι}, p.known[i]? = some r →
    space.estimate r.state = Except.ok r.estimate
  traced : ∀ {i : ι} {r : Record State ι}, p.known[i]? = some r →
    ∃ ids, Traces space start p.known i ids
  entry : ∀ {q : Priority} {i : ι}, p.frontier[q]? = some i →
    ∃ r, p.known[i]? = some r ∧ addCost r.cost r.estimate ≤ q.total
  earlier : ∀ {q : Priority} {i : ι}, p.frontier[q]? = some i → q.turn < p.pushed
  waits : ∀ {i : ι} {r : Record State ι}, p.known[i]? = some r → r.visited = false →
    ∃ q : Priority, p.frontier[q]? = some i ∧ q.total = addCost r.cost r.estimate
  start : ∃ r, p.known[space.identity start]? = some r ∧ r.cost = 0

/-- The trail back from a state that is known is a route to it, at its cost. -/
theorem Valid.route [Std.LawfulEqOrd ι] (h : Valid space start p) (hr : p.known[i]? = some r) :
    ∃ steps n, Route space start steps r.state n ∧ r.cost.toNat = min n maxCost ∧
      Progress.trail p.known p.known.size (some i) [] = steps := by
  obtain ⟨ids, trace⟩ := h.traced hr
  exact trace.route hr

/-- The edge out of a state reached at `cost` has been followed. -/
def Followed (space : Space ε Id State ι) (p : Progress State ι) (cost : UInt32)
    (e : Edge State) : Prop :=
  ∃ r, p.known[space.identity e.state]? = some r ∧
    (r.visited = true ∨ r.cost ≤ addCost cost e.cost)

/-- What the search has expanded is no goal, and the edges out of it have been followed. -/
structure Explored (space : Space ε Id State ι) (p : Progress State ι) : Prop where
  refuted : ∀ {i : ι} {r : Record State ι}, p.known[i]? = some r → r.visited = true →
    space.isGoal r.state = Except.ok false
  followed : ∀ {i : ι} {r : Record State ι}, p.known[i]? = some r → r.visited = true →
    ∃ edges, space.successors r.state = Except.ok edges ∧ ∀ e ∈ edges, Followed space p r.cost e

/-- Nothing is forgotten, no way gets more costly, and no other state is expanded. -/
structure Later (p p' : Progress State ι) : Prop where
  known : ∀ {i : ι} {r : Record State ι}, p.known[i]? = some r →
    ∃ r', p'.known[i]? = some r' ∧ r'.cost ≤ r.cost
  visited : ∀ {i : ι} {r : Record State ι}, r.visited = true →
    (p'.known[i]? = some r ↔ p.known[i]? = some r)

theorem Later.refl (p : Progress State ι) : Later p p :=
  ⟨fun h => ⟨_, h, UInt32.le_refl _⟩, fun _ => Iff.rfl⟩

theorem Later.trans {p₁ : Progress State ι} (h : Later p p₁) (h' : Later p₁ p') : Later p p' where
  known hr :=
    have ⟨_, hr₁, le⟩ := h.known hr
    have ⟨r', hr', le'⟩ := h'.known hr₁
    ⟨r', hr', UInt32.le_trans le' le⟩
  visited hv := (h'.visited hv).trans (h.visited hv)

theorem Followed.later {cost : UInt32} (h : Followed space p cost e) (later : Later p p') :
    Followed space p' cost e := by
  obtain ⟨r, hr, hv | hc⟩ := h
  · exact ⟨r, (later.visited hv).mpr hr, .inl hv⟩
  · obtain ⟨r', hr', le⟩ := later.known hr
    exact ⟨r', hr', .inr (UInt32.le_trans le hc)⟩

/-! ### Following an edge -/

variable [Std.LawfulEqOrd ι]

/-- A state that is not expanded may be noted with a cheaper way to it. -/
theorem later_push (hr : r.visited = false)
    (better : ∀ {r' : Record State ι}, p.known[k]? = some r' →
      r'.visited = false ∧ r.cost ≤ r'.cost)
    (total : UInt32) : Later p ((p.note k r).push total k) where
  known {i r'} hr' := by
    by_cases hk : k = i
    · subst hk
      exact ⟨r, p.known_note_self k r, (better hr').2⟩
    · exact ⟨r', (p.known_note_of_ne r hk).trans hr', UInt32.le_refl _⟩
  visited {i r'} hv := by
    show (p.note k r).known[i]? = some r' ↔ _
    by_cases hk : k = i
    · subst hk
      rw [p.known_note_self]
      refine iff_of_false (fun h => ?_) fun h => ?_
      · cases h; rw [hr] at hv; cases hv
      · rw [(better h).1] at hv; cases hv
    · rw [p.known_note_of_ne r hk]

/-- The states on a trace are expanded, so a record of a state that is not expanded changes no
trace. -/
theorem Traces.note {ids : List ι} (trace : Traces space start p.known i ids) (hk : k ≠ i)
    (unvisited : ∀ {r' : Record State ι}, p.known[k]? = some r' → r'.visited = false)
    (r : Record State ι) : k ∉ i :: ids ∧ Traces space start (p.note k r).known i ids := by
  have fresh : k ∉ i :: ids := by
    rintro (_ | ⟨_, hmem⟩)
    · exact hk rfl
    · obtain ⟨b, hb, visited⟩ := trace.visited hmem
      rw [unvisited hb] at visited
      cases visited
  refine ⟨fresh, trace.mono fun l hl r' hr' => ⟨r', ?_, .refl r'⟩⟩
  rw [p.known_note_of_ne r fun h => fresh (by rwa [h])]
  exact hr'

theorem Valid.push (inj : Function.Injective space.identity) (h : Valid space start p)
    (hj : p.known[j]? = some b) (hb : b.visited = true)
    (hedges : space.successors b.state = Except.ok edges) (he : e ∈ edges)
    (hr : r.visited = false) (state : r.state = e.state) (cost : r.cost = addCost b.cost e.cost)
    (previous : r.previous = some j) (action : r.action = some e.action)
    (estimate : space.estimate e.state = Except.ok r.estimate)
    (better : ∀ {r' : Record State ι}, p.known[space.identity e.state]? = some r' →
      r'.visited = false ∧ r.cost ≤ r'.cost) :
    Valid space start ((p.note (space.identity e.state) r).push (addCost r.cost r.estimate)
      (space.identity e.state)) where
  identity {i r'} hr' := by
    rcases Progress.known_note.mp hr' with ⟨rfl, rfl⟩ | ⟨-, hr'⟩
    · rw [state]
    · exact h.identity hr'
  estimate {i r'} hr' := by
    rcases Progress.known_note.mp hr' with ⟨rfl, rfl⟩ | ⟨-, hr'⟩
    · rw [state]
      exact estimate
    · exact h.estimate hr'
  traced {i r'} hr' := by
    rcases Progress.known_note.mp hr' with ⟨rfl, rfl⟩ | ⟨hne, hr'⟩
    · -- the way to the state before, and the edge
      have unexpanded : space.identity e.state ≠ j := by
        rintro rfl
        rw [(better hj).1] at hb
        cases hb
      obtain ⟨ids, trace⟩ := h.traced hj
      obtain ⟨fresh, trace⟩ := trace.note unexpanded (fun h => (better h).1) r'
      exact ⟨j :: ids, .step (p.known_note_self _ _) ((p.known_note_of_ne _ unexpanded).trans hj)
        hb fresh hedges he state cost previous action trace⟩
    · obtain ⟨ids, trace⟩ := h.traced hr'
      exact ⟨ids, (trace.note hne (fun h => (better h).1) r).2⟩
  entry {q i} hq := by
    rcases Progress.frontier_push.mp hq with ⟨rfl, rfl⟩ | ⟨-, hq⟩
    · exact ⟨r, p.known_note_self _ _, UInt32.le_refl _⟩
    · obtain ⟨r', hr', le⟩ := h.entry hq
      by_cases hk : space.identity e.state = i
      · -- an entry left behind: the total of the state has become smaller
        subst hk
        have same : r.estimate = r'.estimate := by
          have := h.estimate hr'
          rw [inj (h.identity hr'), estimate] at this
          exact Except.ok.inj this
        refine ⟨r, p.known_note_self _ _, UInt32.le_trans ?_ le⟩
        rw [same]
        exact addCost_mono (better hr').2 _
      · exact ⟨r', (p.known_note_of_ne r hk).trans hr', le⟩
  earlier {q i} hq := by
    rcases Progress.frontier_push.mp hq with ⟨rfl, -⟩ | ⟨-, hq⟩
    · exact Nat.lt_succ_self _
    · exact Nat.lt_succ_of_lt (h.earlier hq)
  waits {i r'} hr' unvisited := by
    rcases Progress.known_note.mp hr' with ⟨rfl, rfl⟩ | ⟨-, hr'⟩
    · exact ⟨_, Progress.frontier_push.mpr (.inl ⟨rfl, rfl⟩), rfl⟩
    · obtain ⟨q, hq, total⟩ := h.waits hr' unvisited
      refine ⟨q, Progress.frontier_push.mpr (.inr ⟨?_, hq⟩), total⟩
      rintro rfl
      exact absurd (h.earlier hq) (Nat.lt_irrefl _)
  start := by
    obtain ⟨r', hr', zero⟩ := h.start
    by_cases hk : space.identity e.state = space.identity start
    · refine ⟨r, hk ▸ p.known_note_self _ _, UInt32.le_antisymm ?_ (UInt32.zero_le)⟩
      rw [← zero]
      exact (better (hk ▸ hr')).2
    · exact ⟨r', (p.known_note_of_ne r hk).trans hr', zero⟩

theorem Valid.relaxes (inj : Function.Injective space.identity) (h : Valid space start p)
    (hj : p.known[j]? = some b) (hb : b.visited = true)
    (hedges : space.successors b.state = Except.ok edges) (he : e ∈ edges)
    (step : Relaxes space j b.cost p e p') :
    Valid space start p' ∧ Later p p' ∧ Followed space p' b.cost e := by
  cases step with
  | meets unknown estimate =>
      refine ⟨h.push inj hj hb hedges he rfl rfl rfl rfl rfl estimate ?_, later_push rfl ?_ _, ?_⟩
      · intro r' hr'; rw [unknown] at hr'; cases hr'
      · intro r' hr'; rw [unknown] at hr'; cases hr'
      · exact ⟨_, p.known_note_self _ _, .inr (UInt32.le_refl _)⟩
  | keeps known worse => exact ⟨h, .refl p, _, known, worse⟩
  | @improves r known unvisited better =>
      have cheaper : ∀ {r' : Record State ι}, p.known[space.identity e.state]? = some r' →
          r'.visited = false ∧ addCost b.cost e.cost ≤ r'.cost := by
        intro r' hr'
        rw [known] at hr'
        cases hr'
        exact ⟨unvisited, UInt32.le_of_lt better⟩
      have state : r.state = e.state := inj (h.identity known)
      refine ⟨h.push inj hj hb hedges he unvisited state rfl rfl rfl ?_ cheaper, ?_,
        _, p.known_note_self _ _, .inr (UInt32.le_refl _)⟩
      · rw [← state]
        exact h.estimate known
      · let cheap := { r with
          cost := addCost b.cost e.cost, previous := some j, action := some e.action }
        exact later_push (r := cheap) unvisited cheaper _

/-- All edges of a state that is being expanded. -/
theorem Valid.follow {rest : List (Edge State)} (inj : Function.Injective space.identity)
    (h : Valid space start p) (hj : p.known[j]? = some b) (hb : b.visited = true)
    (hedges : space.successors b.state = Except.ok edges) (sub : rest ⊆ edges)
    (run : rest.foldlM (relax space j b.cost) p = Except.ok p') :
    Valid space start p' ∧ Later p p' ∧ ∀ e ∈ rest, Followed space p' b.cost e := by
  induction rest generalizing p with
  | nil =>
      cases run
      exact ⟨h, .refl _, fun e he => absurd he List.not_mem_nil⟩
  | cons e rest ih =>
      obtain ⟨he, sub⟩ := List.cons_subset.mp sub
      obtain ⟨p₁, hp₁, run⟩ := bind_eq_ok.mp run
      obtain ⟨h₁, later₁, followed⟩ := h.relaxes inj hj hb hedges he (relaxes_of_relax hp₁)
      obtain ⟨h', later', each⟩ := ih h₁ ((later₁.visited hb).mpr hj) sub run
      exact ⟨h', later₁.trans later', List.forall_mem_cons.mpr ⟨followed.later later', each⟩⟩

/-! ### Turns -/

theorem opened_keeps {degree : Nat} (hi : p.known[i]? = some r) {r' : Record State ι}
    (hr' : p.known[j]? = some r') :
    ∃ r'', (p.opened i r degree).known[j]? = some r'' ∧ r'.Keeps r'' := by
  by_cases h : i = j
  · subst h
    obtain rfl := Option.some.inj (hi.symm.trans hr')
    exact ⟨_, p.known_note_self _ _, rfl, rfl, rfl, rfl, fun _ => rfl⟩
  · exact ⟨r', (p.known_note_of_ne _ h).trans hr', .refl r'⟩

theorem Followed.opened {cost : UInt32} {degree : Nat} (h : Followed space p cost e)
    (hi : p.known[i]? = some r) : Followed space (p.opened i r degree) cost e := by
  obtain ⟨r', hr', visited | le⟩ := h
  · obtain ⟨r'', hr'', keeps⟩ := opened_keeps hi hr'
    exact ⟨r'', hr'', .inl (keeps.visited visited)⟩
  · obtain ⟨r'', hr'', keeps⟩ := opened_keeps hi hr'
    exact ⟨r'', hr'', .inr (keeps.cost ▸ le)⟩

theorem known_opened {degree : Nat} {r' : Record State ι}
    (hr' : (p.opened i r degree).known[j]? = some r') :
    (j = i ∧ r' = { r with visited := true }) ∨ (i ≠ j ∧ p.known[j]? = some r') :=
  Progress.known_note.mp hr'

/-- Marking a known state as expanded. -/
theorem Valid.opened (h : Valid space start p) (hi : p.known[i]? = some r) (degree : Nat) :
    Valid space start (p.opened i r degree) where
  identity {j r'} hr' := by
    rcases known_opened hr' with ⟨rfl, rfl⟩ | ⟨-, hr'⟩
    · show space.identity r.state = _
      exact h.identity hi
    · exact h.identity hr'
  estimate {j r'} hr' := by
    rcases known_opened hr' with ⟨rfl, rfl⟩ | ⟨-, hr'⟩
    · show space.estimate r.state = Except.ok r.estimate
      exact h.estimate hi
    · exact h.estimate hr'
  traced {j r'} hr' := by
    obtain ⟨r'', hr''⟩ : ∃ r'', p.known[j]? = some r'' := by
      rcases known_opened hr' with ⟨rfl, -⟩ | ⟨-, hr'⟩
      · exact ⟨r, hi⟩
      · exact ⟨r', hr'⟩
    obtain ⟨ids, trace⟩ := h.traced hr''
    exact ⟨ids, trace.mono fun _ _ _ hr => opened_keeps hi hr⟩
  entry {q j} hq := by
    obtain ⟨r', hr', le⟩ := h.entry hq
    by_cases hj : i = j
    · subst hj
      obtain rfl := Option.some.inj (hi.symm.trans hr')
      exact ⟨_, p.known_note_self _ _, le⟩
    · exact ⟨r', (p.known_note_of_ne _ hj).trans hr', le⟩
  earlier := h.earlier
  waits {j r'} hr' unvisited := by
    rcases known_opened hr' with ⟨rfl, rfl⟩ | ⟨-, hr'⟩
    · cases unvisited
    · exact h.waits hr' unvisited
  start := by
    obtain ⟨r', hr', zero⟩ := h.start
    obtain ⟨r'', hr'', keeps⟩ := opened_keeps hi hr'
    exact ⟨r'', hr'', keeps.cost.trans zero⟩

omit [Std.LawfulEqOrd ι] in
/-- Taking an entry for an expanded state from the frontier. -/
theorem Valid.drop (h : Valid space start p) (hq : p.frontier[q]? = some i)
    (hi : p.known[i]? = some r) (visited : r.visited = true) :
    Valid space start { p with frontier := p.frontier.erase q } where
  identity := h.identity
  estimate := h.estimate
  traced := h.traced
  entry hq' := h.entry (Progress.frontier_erase.mp hq').2
  earlier hq' := h.earlier (Progress.frontier_erase.mp hq').2
  waits {j r'} hr' unvisited := by
    obtain ⟨q', hq', total⟩ := h.waits hr' unvisited
    refine ⟨q', Progress.frontier_erase.mpr ⟨?_, hq'⟩, total⟩
    rintro rfl
    obtain rfl := Option.some.inj (hq.symm.trans hq')
    obtain rfl := Option.some.inj (hi.symm.trans hr')
    rw [visited] at unvisited
    cases unvisited
  start := h.start

/-- What holds of a search between turns. -/
structure Sound (space : Space ε Id State ι) (start : State) (p : Progress State ι) : Prop where
  valid : Valid space start p
  explored : Explored space p

omit [Std.LawfulEqOrd ι] in
/-- The first entry is for a known state. -/
theorem Valid.first (h : Valid space start p) (first : p.frontier.first? = some (q, i)) :
    p.frontier[q]? = some i ∧ (∀ q' ∈ p.frontier, (compare q q').isLE) ∧
      ∃ r, p.known[i]? = some r := by
  obtain ⟨hq, least⟩ := Frontier.first?_eq_some_iff.mp first
  obtain ⟨r, hr, -⟩ := h.entry hq
  exact ⟨hq, least, r, hr⟩

/-- What expanding a state makes of a search. -/
theorem Valid.expand (inj : Function.Injective space.identity) (h : Valid space start p)
    (first : p.frontier.first? = some (q, i)) (known : p.known[i]? = some r)
    (expanded : expand space { p with frontier := p.frontier.erase q } i r = Except.ok p') :
    ∃ edges, space.successors r.state = Except.ok edges ∧ Valid space start p' ∧
      Later (p.opened i r edges.length) p' ∧ ∀ e ∈ edges, Followed space p' r.cost e := by
  obtain ⟨hq, -, -⟩ := h.first first
  obtain ⟨edges, hedges, run⟩ := expand_eq_ok expanded
  have here : (p.opened i r edges.length).known[i]? = some { r with visited := true } :=
    p.known_note_self _ _
  obtain ⟨valid, later, each⟩ := ((h.opened known edges.length).drop hq here rfl).follow inj here
    rfl hedges (List.Subset.refl _) run
  exact ⟨edges, hedges, valid, ⟨later.known, later.visited⟩, each⟩

/-- After a state has been expanded, an expanded state is this one or was expanded before. -/
theorem Later.visited_cases {degree : Nat} (later : Later (p.opened i r degree) p')
    (hb : p'.known[j]? = some b) (visited : b.visited = true) :
    (j = i ∧ b = { r with visited := true }) ∨ p.known[j]? = some b := by
  rcases Progress.known_note.mp ((later.visited visited).mp hb) with here | ⟨-, hb⟩
  · exact .inl here
  · exact .inr hb

/-- **A turn** keeps what the search has noted right. -/
theorem Sound.turn (inj : Function.Injective space.identity) (h : Sound space start p)
    (next : turn space limit p = Except.ok (.inr p')) : Sound space start p' := by
  cases turns_of_turn next with
  | loses first unknown =>
      obtain ⟨-, -, r, hr⟩ := h.valid.first first
      rw [unknown] at hr
      cases hr
  | drops first known goal visited =>
      exact ⟨h.valid.drop (h.valid.first first).1 known visited,
        h.explored.refuted, h.explored.followed⟩
  | @expands q i r p' first known goal unvisited unspent expanded =>
      obtain ⟨edges, hedges, valid, later, each⟩ := h.valid.expand inj first known expanded
      refine ⟨valid, fun {j b} hb visited => ?_, fun {j b} hb visited => ?_⟩
      · rcases later.visited_cases hb visited with ⟨-, rfl⟩ | hb
        · exact goal
        · exact h.explored.refuted hb visited
      · rcases later.visited_cases hb visited with ⟨-, rfl⟩ | hb
        · exact ⟨edges, hedges, each⟩
        · obtain ⟨edges', hedges', followed⟩ := h.explored.followed hb visited
          refine ⟨edges', hedges', fun e he => Followed.later ?_ later⟩
          show Followed space (p.opened i r edges.length) b.cost e
          exact (followed e he).opened known

/-- At first the start is known, and nothing else. -/
theorem known_start {s : State} {r r' : Record State ι}
    (hr' : (({} : Progress State ι).note (space.identity s) r).known[i]? = some r') :
    i = space.identity s ∧ r' = r := by
  rcases Progress.known_note.mp hr' with h | ⟨-, h⟩
  · exact h
  · cases Std.ExtTreeMap.getElem?_empty.symm.trans h

theorem sound_start {s : State} (h : Search.start space s = Except.ok p) : Sound space s p := by
  obtain ⟨estimate, hestimate, h⟩ := bind_eq_ok.mp h
  cases h
  let r : Record State ι :=
    { state := s, estimate, cost := 0, previous := none, action := none, visited := false }
  have total : addCost r.cost r.estimate = estimate := zero_addCost estimate
  have found := ({} : Progress State ι).known_note_self (space.identity s) r
  constructor
  case valid =>
      refine ⟨?identity, ?estimate, ?traced, ?entry, ?earlier, ?waits, _, found, rfl⟩
      case identity =>
          intro i r' hr'
          obtain ⟨rfl, rfl⟩ := known_start hr'
          rfl
      case estimate =>
          intro i r' hr'
          obtain ⟨rfl, rfl⟩ := known_start hr'
          exact hestimate
      case traced =>
          intro i r' hr'
          obtain ⟨rfl, rfl⟩ := known_start hr'
          exact ⟨[], .start found rfl rfl rfl rfl⟩
      case entry =>
          intro q i hq
          rcases Progress.frontier_push.mp hq with ⟨rfl, rfl⟩ | ⟨-, hq⟩
          · exact ⟨r, found, total ▸ UInt32.le_refl _⟩
          · cases Std.ExtTreeMap.getElem?_empty.symm.trans hq
      case earlier =>
          intro q i hq
          rcases Progress.frontier_push.mp hq with ⟨rfl, rfl⟩ | ⟨-, hq⟩
          · exact Nat.lt_succ_self _
          · cases Std.ExtTreeMap.getElem?_empty.symm.trans hq
      case waits =>
          intro i r' hr' _
          obtain ⟨rfl, rfl⟩ := known_start hr'
          exact ⟨_, Progress.frontier_push.mpr (.inl ⟨rfl, rfl⟩), total.symm⟩
  case explored =>
      -- the start has not been expanded
      refine ⟨fun {i r'} hr' visited => ?_, fun {i r'} hr' visited => ?_⟩ <;>
        (obtain ⟨-, rfl⟩ := known_start hr'; cases visited)

theorem Sound.runs {n : Nat} (inj : Function.Injective space.identity) (h : Sound space start p)
    (runs : Runs space limit n p p') : Sound space start p' := by
  induction runs with
  | refl => exact h
  | more _ next ih => exact (ih h).turn inj next

end ClassicalPlanner.Search
