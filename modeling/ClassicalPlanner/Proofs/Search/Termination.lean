import ClassicalPlanner.Proofs.Search.Invariant
import Mathlib.Data.Finset.Card

/-!
# How long a search goes on

Each turn takes an entry from the frontier, and entries are only pushed for the start and for edges
out of states that are expanded.  A state is expanded once.  So if the reachable states are among
`V` and no state has more than `D` edges out of it, a search goes on for at most `1 + D * V.card`
turns (`Runs.le`), and with a greater bound on its turns it ends (`search_ne_none`).
-/

namespace ClassicalPlanner.Search

variable {ε State ι : Type} [Ord ι] [Std.TransOrd ι]
variable {space : Space ε Id State ι} {p p' : Progress State ι} {r : Record State ι}
variable {i : ι} {limit : Option Nat} {n D : Nat}

/-! ### The size of the frontier -/

omit [Ord ι] [Std.TransOrd ι] in
theorem size_erase_of_mem {f : Frontier ι} {q : Priority} (h : f[q]? = some i) :
    (f.erase q).size + 1 = f.size := by
  have mem : q ∈ f := Std.ExtTreeMap.mem_iff_isSome_getElem?.mpr (by rw [h]; rfl)
  have filled : f.size ≠ 0 := fun empty => by
    rw [Std.ExtTreeMap.eq_empty_iff_size_eq_zero.mpr empty] at mem
    exact Std.ExtTreeMap.not_mem_empty mem
  rw [Std.ExtTreeMap.size_erase, if_pos (Std.ExtTreeMap.mem_iff_contains.mp mem)]
  omega

omit [Std.TransOrd ι] in
theorem size_push (earlier : ∀ {q : Priority} {i : ι}, p.frontier[q]? = some i → q.turn < p.pushed)
    (total : UInt32) : (p.push total i).frontier.size = p.frontier.size + 1 := by
  have fresh : ¬ p.frontier.contains ⟨total, p.pushed⟩ := fun mem => by
    rw [Std.ExtTreeMap.contains_iff_mem, Std.ExtTreeMap.mem_iff_isSome_getElem?] at mem
    obtain ⟨j, hj⟩ := Option.isSome_iff_exists.mp mem
    exact Nat.lt_irrefl _ (earlier hj)
  show (p.frontier.insert ⟨total, p.pushed⟩ i).size = _
  rw [Std.ExtTreeMap.size_insert]
  exact if_neg fresh

/-- Entries are pushed and none is taken, at most `n` of them. -/
structure Grows (n : Nat) (p p' : Progress State ι) : Prop where
  visited : p'.visited = p.visited
  expanded : p'.expanded = p.expanded
  pushed : p'.pushed ≤ p.pushed + n
  frontier : p'.frontier.size + p.pushed = p.frontier.size + p'.pushed
  earlier : ∀ {q : Priority} {i : ι}, p'.frontier[q]? = some i → q.turn < p'.pushed

omit [Std.TransOrd ι] in
theorem Grows.trans {m : Nat} {p₁ : Progress State ι} (h : Grows n p p₁) (h' : Grows m p₁ p') :
    Grows (n + m) p p' where
  visited := h'.visited.trans h.visited
  expanded := h'.expanded.trans h.expanded
  pushed := by
    have := h.pushed
    have := h'.pushed
    omega
  frontier := by
    have := h.frontier
    have := h'.frontier
    omega
  earlier := h'.earlier

theorem grows_push (earlier : ∀ {q : Priority} {i : ι}, p.frontier[q]? = some i → q.turn < p.pushed)
    (total : UInt32) : Grows 1 p ((p.note i r).push total i) where
  visited := rfl
  expanded := rfl
  pushed := Nat.le_refl _
  frontier := by
    have size : ((p.note i r).push total i).frontier.size = p.frontier.size + 1 :=
      size_push earlier total
    show _ = p.frontier.size + (p.pushed + 1)
    omega
  earlier {q j} hq := by
    rcases Progress.frontier_push.mp hq with ⟨rfl, -⟩ | ⟨-, hq⟩
    · exact Nat.lt_succ_self _
    · exact Nat.lt_succ_of_lt (earlier hq)

theorem grows_relaxes {cost : UInt32} {e : Edge State}
    (earlier : ∀ {q : Priority} {i : ι}, p.frontier[q]? = some i → q.turn < p.pushed)
    (step : Relaxes space i cost p e p') : Grows 1 p p' := by
  cases step with
  | meets => exact grows_push earlier _
  | keeps => exact ⟨rfl, rfl, Nat.le_succ _, rfl, earlier⟩
  | improves => exact grows_push earlier _

theorem grows_follow {cost : UInt32} {edges : List (Edge State)}
    (earlier : ∀ {q : Priority} {i : ι}, p.frontier[q]? = some i → q.turn < p.pushed)
    (run : edges.foldlM (relax space i cost) p = Except.ok p') : Grows edges.length p p' := by
  induction edges generalizing p with
  | nil => cases run; exact ⟨rfl, rfl, Nat.le_refl _, rfl, earlier⟩
  | cons e edges ih =>
      obtain ⟨p₁, hp₁, run⟩ := bind_eq_ok.mp run
      have h₁ := grows_relaxes earlier (relaxes_of_relax hp₁)
      rw [List.length_cons, Nat.add_comm]
      exact h₁.trans (ih h₁.earlier run)

/-! ### Counting -/

/-- After `n` turns: what has been pushed and not taken is in the frontier, each push is for an
edge that has been followed, and each expansion is of a state of its own. -/
structure Counts (D : Nat) (p : Progress State ι) (n : Nat) : Prop where
  turns : p.frontier.size + n = p.pushed
  pushed : p.pushed ≤ p.visited
  visited : p.visited ≤ 1 + D * p.expanded
  expanded : ∃ ids : List ι, ids.Nodup ∧ ids.length = p.expanded ∧
    ∀ i ∈ ids, ∃ r : Record State ι, p.known[i]? = some r ∧ r.visited = true

theorem counts_start {s : State} (h : Search.start space s = Except.ok p) : Counts D p 0 := by
  obtain ⟨estimate, -, h⟩ := bind_eq_ok.mp h
  cases h
  refine ⟨?_, Nat.le_refl _, Nat.le_add_right _ _, [], .nil, rfl, ?_⟩
  · have earlier {q : Priority} {i : ι} (hq : (∅ : Frontier ι)[q]? = some i) : q.turn < 0 := by
      cases Std.ExtTreeMap.getElem?_empty.symm.trans hq
    exact size_push (p := ({} : Progress State ι)) (i := space.identity s) (by exact earlier)
      estimate
  · exact fun i hi => absurd hi List.not_mem_nil

/-- Taking an entry from the frontier. -/
theorem Counts.drop {q : Priority} (h : Counts D p n) (hq : p.frontier[q]? = some i) :
    Counts D { p with frontier := p.frontier.erase q } (n + 1) where
  turns := by
    have := h.turns
    have := size_erase_of_mem hq
    show (p.frontier.erase q).size + (n + 1) = p.pushed
    omega
  pushed := h.pushed
  visited := h.visited
  expanded := h.expanded

variable [Std.LawfulEqOrd ι] {start : State}

theorem Counts.turn (inj : Function.Injective space.identity) (hp : Sound space start p)
    (degree : ∀ {s edges}, space.successors s = Except.ok edges → edges.length ≤ D)
    (h : Counts D p n) (next : turn space limit p = Except.ok (.inr p')) : Counts D p' (n + 1) := by
  cases turns_of_turn next with
  | loses first => exact h.drop (hp.valid.first first).1
  | drops first => exact h.drop (hp.valid.first first).1
  | @expands q i r p' first known goal unvisited unspent expanded =>
      have taken := h.drop (hp.valid.first first).1
      obtain ⟨edges, hedges, -, later, -⟩ := hp.valid.expand inj first known expanded
      obtain ⟨edges', hedges', run⟩ := expand_eq_ok expanded
      obtain rfl := Except.ok.inj (hedges.symm.trans hedges')
      have earlier {q' : Priority} {j : ι} (hq : (p.frontier.erase q)[q']? = some j) :
          q'.turn < p.pushed := hp.valid.earlier (Progress.frontier_erase.mp hq).2
      have grows := grows_follow (by exact earlier) run
      have visited : p'.visited = p.visited + edges.length := grows.visited
      have pushed : p'.pushed ≤ p.pushed + edges.length := grows.pushed
      have few := degree hedges
      refine ⟨?_, ?_, ?_, ?_⟩
      · have size := grows.frontier
        have turns := taken.turns
        change p'.frontier.size + p.pushed = (p.frontier.erase q).size + p'.pushed at size
        change (p.frontier.erase q).size + (n + 1) = p.pushed at turns
        omega
      · have := h.pushed
        omega
      · have expanded : p'.expanded = p.expanded + 1 := grows.expanded
        have := h.visited
        rw [visited, expanded, Nat.mul_add, Nat.mul_one]
        omega
      · obtain ⟨ids, nodup, length, each⟩ := h.expanded
        have fresh : i ∉ ids := fun hi => by
          obtain ⟨r', hr', visited⟩ := each i hi
          obtain rfl := Option.some.inj (known.symm.trans hr')
          rw [unvisited] at visited
          cases visited
        refine ⟨i :: ids, List.nodup_cons.mpr ⟨fresh, nodup⟩, ?_, List.forall_mem_cons.mpr ⟨?_, ?_⟩⟩
        · exact (congrArg (· + 1) length).trans grows.expanded.symm
        · exact ⟨_, (later.visited rfl).mpr (p.known_note_self i { r with visited := true }), rfl⟩
        · intro j hj
          obtain ⟨b, hb, visited⟩ := each j hj
          refine ⟨b, (later.visited visited).mpr ?_, visited⟩
          refine (p.known_note_of_ne _ ?_).trans hb
          rintro rfl
          exact fresh hj

theorem Counts.runs (inj : Function.Injective space.identity) (hp : Sound space start p)
    (degree : ∀ {s edges}, space.successors s = Except.ok edges → edges.length ≤ D)
    (h : Counts D p 0) (runs : Runs space limit n p p') : Counts D p' n := by
  induction runs with
  | refl => exact h
  | more runs next ih => exact (ih hp h).turn inj (hp.runs inj runs) degree next

/-- **A search goes on** for no more turns than there are edges to follow, and the start. -/
theorem Runs.le {V : Finset ι} (inj : Function.Injective space.identity)
    (hp : Search.start space start = Except.ok p)
    (degree : ∀ {s edges}, space.successors s = Except.ok edges → edges.length ≤ D)
    (reach : ∀ {steps x m}, Route space start steps x m → space.identity x ∈ V)
    (runs : Runs space limit n p p') : n ≤ 1 + D * V.card := by
  have sound := sound_start hp
  have counts := (counts_start hp).runs inj sound degree runs
  have sound' := sound.runs inj runs
  obtain ⟨ids, nodup, length, each⟩ := counts.expanded
  have few : p'.expanded ≤ V.card := by
    classical
    rw [← length, ← List.toFinset_card_of_nodup nodup]
    refine Finset.card_le_card fun i hi => ?_
    rw [List.mem_toFinset] at hi
    obtain ⟨r, hr, -⟩ := each i hi
    obtain ⟨steps, m, route, -, -⟩ := sound'.valid.route hr
    rw [← sound'.valid.identity hr]
    exact reach route
  have := Nat.mul_le_mul_left D few
  have := counts.turns
  have := counts.pushed
  have := counts.visited
  omega

/-- **A search ends** if its turns are not bounded too closely. -/
theorem search_ne_none {V : Finset ι} {rounds : Nat} (inj : Function.Injective space.identity)
    (degree : ∀ {s edges}, space.successors s = Except.ok edges → edges.length ≤ D)
    (reach : ∀ {steps x m}, Route space start steps x m → space.identity x ∈ V)
    (bound : 1 + D * V.card < 2 ^ rounds - 1) : search space limit rounds start ≠ Except.ok none := by
  intro h
  obtain ⟨p, hp, h⟩ := bind_eq_ok.mp h
  obtain ⟨p', runs⟩ := runRounds_eq_none h
  have := runs.le inj hp degree reach
  omega

end ClassicalPlanner.Search
