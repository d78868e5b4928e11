import ClassicalPlanner.Proofs.Search.Solution
import ClassicalPlanner.Proofs.Search.Steady
import ClassicalPlanner.Proofs.Search.Termination
import ClassicalPlanner.Proofs.Session.Growth

/-!
# What a search asks

A search asks for the successors of a state when it expands it.  `Logs` says that the questions
written down tell the states expanded so far, each of them once, and that the search has counted
them.  A turn keeps this (`Logs.turn`), and so it holds when a search ends (`search_logs`).
-/

namespace ClassicalPlanner

open Session

variable {ε σ State ι : Type}

/-- The states whose successors are asked for, in order. -/
def Call.expansions (calls : Array (Call State)) : List State :=
  calls.toList.filterMap fun
    | .successors s => some s
    | .goal _ | .estimate _ => none

namespace Search

variable [Ord ι] [Std.TransOrd ι] {limit : Option Nat} {p p' p₀ : Progress State ι}

/-! ### Runs of a space that remembers -/

section Runs

variable {space : Space ε (StateM σ) State ι} {P : Progress State ι → σ → Prop} {c c' : σ}
variable {result : Path State × Counters}

theorem run_keeps {out : (Path State × Counters) ⊕ Progress State ι} {turns : Nat}
    (keeps : ∀ {p c p' c'}, P p c → turn space limit p c = (.ok (.inr p'), c') → P p' c')
    (hp : P p c) (h : run space limit turns p c = (.ok out, c')) :
    (∃ p', out = .inr p' ∧ P p' c') ∨ ∃ p₁ c₁ result, out = .inl result ∧ P p₁ c₁ ∧
      turn space limit p₁ c₁ = (.ok (.inl result), c') := by
  induction turns generalizing p c with
  | zero =>
      cases h
      exact .inl ⟨p, rfl, hp⟩
  | succ turns ih =>
      obtain ⟨out₁, c₁, h₁, h⟩ := run_bind_eq_ok.mp h
      cases out₁ with
      | inl result =>
          cases h
          exact .inr ⟨p, c, result, rfl, hp, h₁⟩
      | inr p₁ => exact ih (keeps hp h₁) h

/-- What turns keep holds before the turn in which a search ends. -/
theorem runRounds_keeps {rounds turns : Nat}
    (keeps : ∀ {p c p' c'}, P p c → turn space limit p c = (.ok (.inr p'), c') → P p' c')
    (hp : P p c) (h : runRounds space limit rounds turns p c = (.ok (some result), c')) :
    ∃ p₁ c₁, P p₁ c₁ ∧ turn space limit p₁ c₁ = (.ok (.inl result), c') := by
  rw [runRounds_eq_run, run_map] at h
  rcases ran : run space limit ((2 ^ rounds - 1) * turns) p c with ⟨e | out, c₁⟩ <;> rw [ran] at h
  · cases h
  · rcases run_keeps keeps hp ran with ⟨p₁, rfl, -⟩ | ⟨p₁, c₀, result', rfl, hp₁, last⟩
    · cases h
    · cases h
      exact ⟨p₁, c₀, hp₁, last⟩

end Runs

/-! ### The questions of a turn -/

variable {space : Space ε Id State ι} {i : ι} {r : Record State ι}
variable {calls calls' : Array (Call State)}

open Call

/-- A turn comes to the same whether or not its questions are written down. -/
theorem turn_of_traced {out : Except ε ((Path State × Counters) ⊕ Progress State ι)}
    (h : turn space.traced limit p calls = (out, calls')) : turn space limit p = out :=
  (Gives.composes.turn space.steady_traced p).eq_of_run trivial h

theorem start_of_traced {start : State} {out : Except ε (Progress State ι)}
    (h : Search.start space.traced start #[] = (out, calls)) : Search.start space start = out :=
  (Gives.composes.start space.steady_traced start).eq_of_run trivial h

/-- Following an edge asks for no successors, also if it fails. -/
theorem expansions_relax {cost : UInt32} {e : Edge State} :
    expansions (relax space.traced i cost p e calls).2 = expansions calls := by
  cases known : p.known[space.traced.identity e.state]? with
  | none =>
      have asked : space.traced.estimate e.state calls =
        (space.estimate e.state, calls.push (.estimate e.state)) := rfl
      simp only [relax, known]
      rw [run_bind, asked]
      cases space.estimate e.state <;> simp [expansions]
  | some r =>
      simp only [relax, known]
      split <;> rfl

theorem expansions_follow {cost : UInt32} {edges : List (Edge State)} :
    expansions (edges.foldlM (relax space.traced i cost) p calls).2 = expansions calls := by
  induction edges generalizing p calls with
  | nil => rfl
  | cons e edges ih =>
      have relaxed : expansions (relax space.traced i cost p e calls).2 = expansions calls :=
        expansions_relax
      rw [List.foldlM_cons, run_bind]
      rcases out : relax space.traced i cost p e calls with ⟨_ | p₁, calls₁⟩ <;> rw [out] at relaxed
      · exact relaxed
      · exact ih.trans relaxed

/-- Expanding a state asks for its successors, once, also if it fails. -/
theorem expansions_expand :
    expansions (expand space.traced p i r calls).2 = expansions calls ++ [r.state] := by
  have asked : space.traced.successors r.state calls =
    (space.successors r.state, calls.push (.successors r.state)) := rfl
  unfold expand
  rw [run_bind, asked]
  cases space.successors r.state with
  | error e => simp [expansions]
  | ok edges => exact expansions_follow.trans (by simp [expansions])

/-- A turn asks for no successors, or expands a state and asks for its successors. -/
theorem expansions_turn {out : (Path State × Counters) ⊕ Progress State ι}
    (h : turn space.traced limit p calls = (.ok out, calls')) :
    (expansions calls' = expansions calls ∧
      ∀ p', out = .inr p' → p'.known = p.known ∧ p'.expanded = p.expanded) ∨
    ∃ q i r p', p.frontier.first? = some (q, i) ∧ p.known[i]? = some r ∧ r.visited = false ∧
      out = .inr p' ∧ expand space { p with frontier := p.frontier.erase q } i r = Except.ok p' ∧
      expansions calls' = expansions calls ++ [r.state] := by
  cases first : p.frontier.first? with
  | none =>
      simp only [turn, first] at h
      cases h
      exact .inl ⟨rfl, fun _ h => by cases h⟩
  | some entry =>
      obtain ⟨q, i⟩ := entry
      cases known : p.known[i]? with
      | none =>
          simp only [turn, first, known] at h
          cases h
          exact .inl ⟨rfl, fun _ h => by cases h; exact ⟨rfl, rfl⟩⟩
      | some r =>
          simp only [turn, first, known] at h
          obtain ⟨goal, calls₁, h₁, h⟩ := run_bind_eq_ok.mp h
          -- the goal test comes first, and asks for no successors
          have asked : expansions calls₁ = expansions calls := by
            rw [← (Prod.mk.inj h₁).2]
            simp [expansions]
          split at h
          · cases h
            exact .inl ⟨asked, fun _ h => by cases h⟩
          · split at h
            · cases h
              exact .inl ⟨asked, fun _ h => by cases h; exact ⟨rfl, rfl⟩⟩
            · rename_i unvisited
              split at h
              · cases h
                exact .inl ⟨asked, fun _ h => by cases h⟩
              · obtain ⟨p', calls₂, h₂, h⟩ := run_bind_eq_ok.mp h
                cases h
                have untraced :=
                  (Gives.composes.expand space.steady_traced _ i r).eq_of_run trivial h₂
                exact .inr ⟨q, i, r, p', rfl, known, Bool.not_eq_true _ ▸ unvisited, rfl, untraced,
                  by rw [← asked, ← expansions_expand, h₂]⟩

/-- What holds of a search and its questions at the start, and is kept by turns, holds before the
turn in which the search ends, and this turn asks for no successors. -/
theorem search_keeps {P : Progress State ι → Array (Call State) → Prop} {rounds : Nat}
    {start : State} {result : Path State × Counters}
    (begun : ∀ {p c}, Search.start space.traced start #[] = (.ok p, c) → P p c)
    (kept : ∀ {p c p' c'}, P p c → turn space.traced limit p c = (.ok (.inr p'), c') → P p' c')
    (h : search space.traced limit rounds start #[] = (.ok (some result), calls)) :
    ∃ p c, P p c ∧ expansions calls = expansions c ∧
      turn space limit p = Except.ok (.inl result) := by
  obtain ⟨p₀, calls₀, h₀, h⟩ := run_bind_eq_ok.mp h
  obtain ⟨p, c, hp, last⟩ := runRounds_keeps kept (begun h₀) h
  rcases expansions_turn last with ⟨same, -⟩ | ⟨_, _, _, _, _, _, _, out, _⟩
  · exact ⟨p, c, hp, same, turn_of_traced last⟩
  · cases out

/-! ### The states expanded -/

/-- The questions tell the states that have been expanded, each once, and these are counted. -/
structure Logs (space : Space ε Id State ι) (p : Progress State ι) (calls : Array (Call State)) :
    Prop where
  nodup : (expansions calls).Nodup
  visited : ∀ {x}, x ∈ expansions calls ↔
    ∃ r : Record State ι, p.known[space.identity x]? = some r ∧ r.visited = true
  length : (expansions calls).length = p.expanded

variable [Std.LawfulEqOrd ι] {start : State}

theorem logs_start (h : Search.start space.traced start #[] = (.ok p, calls)) :
    Logs space p calls := by
  obtain ⟨estimate, calls₁, h₁, h⟩ := run_bind_eq_ok.mp h
  cases h
  rw [← (Prod.mk.inj h₁).2]
  refine ⟨.nil, fun {x} => ?_, rfl⟩
  refine iff_of_false List.not_mem_nil fun ⟨r, hr, visited⟩ => ?_
  obtain ⟨-, rfl⟩ := known_start hr
  cases visited

/-- **A turn** keeps the questions in step with the states expanded. -/
theorem Logs.turn (inj : Function.Injective space.identity) (hp : Sound space start p)
    (h : Logs space p calls) (next : turn space.traced limit p calls = (.ok (.inr p'), calls')) :
    Logs space p' calls' := by
  rcases expansions_turn next with ⟨same, kept⟩ | ⟨q, i, r, p₁, first, known, unvisited, out,
    expanded, asked⟩
  · obtain ⟨known, count⟩ := kept p' rfl
    exact ⟨same ▸ h.nodup, fun {x} => by rw [same, known]; exact h.visited,
      by rw [same, count]; exact h.length⟩
  · obtain rfl := Sum.inr.inj out
    obtain ⟨edges, -, -, later, -⟩ := hp.valid.expand inj first known expanded
    have here : space.identity r.state = i := hp.valid.identity known
    have unexpanded {r' : Record State ι} (hr' : p.known[i]? = some r') : r'.visited = false :=
      Option.some.inj (known.symm.trans hr') ▸ unvisited
    refine ⟨?nodup, fun {x} => ?visited, ?length⟩
    case nodup =>
      rw [asked, ← List.concat_eq_append]
      refine List.Nodup.concat (fun mem => ?_) h.nodup
      obtain ⟨r', hr', visited⟩ := h.visited.mp mem
      rw [unexpanded (here ▸ hr')] at visited
      cases visited
    -- following edges expands nothing, so the state taken is all that is new
    case visited =>
      rw [asked, List.mem_append, List.mem_singleton]
      constructor
      · rintro (mem | rfl)
        · obtain ⟨r', hr', visited⟩ := h.visited.mp mem
          refine ⟨r', (later.visited visited).mpr ((p.known_note_of_ne _ ?_).trans hr'), visited⟩
          rintro rfl
          rw [unexpanded hr'] at visited
          cases visited
        · rw [here]
          exact ⟨_, (later.visited rfl).mpr (p.known_note_self i { r with visited := true }), rfl⟩
      · rintro ⟨r', hr', visited⟩
        rcases later.visited_cases hr' visited with ⟨same, -⟩ | hr'
        · exact .inr (inj (same.trans here.symm))
        · exact .inl (h.visited.mpr ⟨r', hr', visited⟩)
    case length =>
      rw [asked, List.length_append, h.length, expanded_expand expanded]
      rfl

/-- The search that started at a state, as it is before the turn in which it ends. -/
def EndsIn (space : Space ε Id State ι) (limit : Option Nat) (start : State) (p : Progress State ι)
    (result : Path State × Counters) : Prop :=
  ∃ p₀ n, Search.start space start = Except.ok p₀ ∧ Runs space limit n p₀ p ∧
    Search.turn space limit p = Except.ok (.inl result)

theorem EndsIn.sound {result : Path State × Counters} (inj : Function.Injective space.identity)
    (h : EndsIn space limit start p result) : Sound space start p := by
  obtain ⟨p₀, n, hp₀, runs, -⟩ := h
  exact (sound_start hp₀).runs inj runs

/-- **A search that ends** has expanded the states whose successors it has asked for, each once. -/
theorem search_logs {rounds : Nat} {result : Path State × Counters}
    (inj : Function.Injective space.identity)
    (h : search space.traced limit rounds start #[] = (.ok (some result), calls)) :
    ∃ p, EndsIn space limit start p result ∧ Logs space p calls := by
  -- what holds of the search and its questions between turns
  let P (p : Progress State ι) (c : Array (Call State)) : Prop :=
    (∃ p₀ n, Search.start space start = Except.ok p₀ ∧ Runs space limit n p₀ p) ∧ Logs space p c
  have begun {p c} (first : Search.start space.traced start #[] = (.ok p, c)) : P p c :=
    ⟨⟨p, 0, start_of_traced first, .refl p⟩, logs_start first⟩
  have kept {p c p' c'} (hp : P p c)
      (next : Search.turn space.traced limit p c = (.ok (.inr p'), c')) : P p' c' := by
    obtain ⟨⟨p₀, n, hp₀, runs⟩, logs⟩ := hp
    exact ⟨⟨p₀, n + 1, hp₀, runs.more (turn_of_traced next)⟩,
      logs.turn inj ((sound_start hp₀).runs inj runs) next⟩
  obtain ⟨p, c, ⟨⟨p₀, n, hp₀, runs⟩, logs⟩, same, last⟩ := search_keeps begun kept h
  exact ⟨p, ⟨p₀, n, hp₀, runs, last⟩, same ▸ logs.nodup,
    fun {x} => by rw [same]; exact logs.visited, same ▸ logs.length⟩

end Search

end ClassicalPlanner
