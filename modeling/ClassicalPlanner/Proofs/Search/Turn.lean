import ClassicalPlanner.Search.AStar
import Mathlib.Algebra.Group.Nat.Defs
import Mathlib.Order.Basic

/-!
# Turns of a search

What one step of a search can do, for a space whose answers depend on the state alone: `Relaxes`
says how an edge is followed, and `Turns` how a turn ends the search or goes on.

The rounds of a search are together a run of all their turns (`runRounds_eq_run`).  So a search that
answers has taken some turns and then one that ends it (`runRounds_eq_some`); one that answers
nothing has gone on for all its turns (`runRounds_eq_none`).
-/

namespace ClassicalPlanner

/-! ### Costs -/

/-- The largest cost. -/
def maxCost : Nat := UInt32.size - 1

theorem toNat_addCost (a b : UInt32) : (addCost a b).toNat = min (a.toNat + b.toNat) maxCost := by
  have := a.toNat_lt
  have := b.toNat_lt
  unfold addCost maxCost
  split <;> rename_i h
  · rw [UInt32.toNat_add, Nat.mod_eq_of_lt h]
    simp only [UInt32.size] at *
    omega
  · simp only [UInt32.size] at *
    rw [UInt32.toNat_ofNat']
    omega

theorem addCost_mono {a a' : UInt32} (h : a ≤ a') (b : UInt32) : addCost a b ≤ addCost a' b := by
  rw [UInt32.le_iff_toNat_le] at h ⊢
  rw [toNat_addCost, toNat_addCost]
  omega

theorem zero_addCost (b : UInt32) : addCost 0 b = b := by
  have := b.toNat_lt
  refine UInt32.toNat_inj.mp ?_
  rw [toNat_addCost, maxCost, UInt32.toNat_zero]
  simp only [UInt32.size]
  omega

/-! ### Operations that may fail -/

theorem bind_eq_ok {ε α β : Type} {x : ExceptT ε Id α} {f : α → ExceptT ε Id β} {b : β} :
    (x >>= f) = Except.ok b ↔ ∃ a, x = Except.ok a ∧ f a = Except.ok b := by
  cases x with
  | error e => exact iff_of_false (fun h => by cases h) fun ⟨_, h, _⟩ => by cases h
  | ok a => exact ⟨fun h => ⟨a, rfl, h⟩, fun ⟨a', h, h'⟩ => by cases h; exact h'⟩

namespace Search

variable {ε State ι : Type} [Ord ι] [Std.TransOrd ι]
variable {space : Space ε Id State ι} {p p' : Progress State ι} {i j : ι}
variable {r : Record State ι} {limit : Option Nat} {e : Edge State}

/-! ### Following an edge -/

/-- What following an edge out of the state `previous`, reached at `cost`, makes of a search. -/
inductive Relaxes (space : Space ε Id State ι) (previous : ι) (cost : UInt32)
    (p : Progress State ι) (e : Edge State) : Progress State ι → Prop where
  /-- The edge leads to a state not met before. -/
  | meets {h : UInt32} (unknown : p.known[space.identity e.state]? = none)
      (estimate : space.estimate e.state = Except.ok h) :
      Relaxes space previous cost p e
        ((p.note (space.identity e.state)
          { state := e.state, estimate := h, cost := addCost cost e.cost, previous := some previous,
            action := some e.action, visited := false }).push
          (addCost (addCost cost e.cost) h) (space.identity e.state))
  /-- The state is expanded, or the way to it is no cheaper. -/
  | keeps {r : Record State ι} (known : p.known[space.identity e.state]? = some r)
      (worse : r.visited = true ∨ r.cost ≤ addCost cost e.cost) :
      Relaxes space previous cost p e p
  /-- The way to the state is cheaper than before. -/
  | improves {r : Record State ι} (known : p.known[space.identity e.state]? = some r)
      (unvisited : r.visited = false) (better : addCost cost e.cost < r.cost) :
      Relaxes space previous cost p e
        ((p.note (space.identity e.state)
          { r with cost := addCost cost e.cost, previous := some previous,
                   action := some e.action }).push
          (addCost (addCost cost e.cost) r.estimate) (space.identity e.state))

theorem relaxes_of_relax {cost : UInt32} (h : relax space i cost p e = Except.ok p') :
    Relaxes space i cost p e p' := by
  unfold relax at h
  simp only at h
  split at h
  · rename_i unknown
    obtain ⟨estimate, he, h⟩ := bind_eq_ok.mp h
    cases h
    exact .meets unknown he
  · rename_i r known
    split at h
    · rename_i worse
      cases h
      rw [Bool.or_eq_true, decide_eq_true_eq] at worse
      exact .keeps known worse
    · rename_i better
      cases h
      rw [Bool.or_eq_true, decide_eq_true_eq, not_or, Bool.not_eq_true, UInt32.not_le] at better
      exact .improves known better.1 better.2

/-- A state being expanded, before its edges are followed. -/
def Progress.opened (p : Progress State ι) (i : ι) (r : Record State ι) (degree : Nat) :
    Progress State ι :=
  { p.note i { r with visited := true } with
    expanded := p.expanded + 1, visited := p.visited + degree }

theorem expand_eq_ok (h : expand space p i r = Except.ok p') :
    ∃ edges, space.successors r.state = Except.ok edges ∧
      edges.foldlM (relax space i r.cost) (p.opened i r edges.length) = Except.ok p' :=
  bind_eq_ok.mp h

/-- Following edges counts no expansion. -/
theorem expanded_follow {cost : UInt32} {edges : List (Edge State)}
    (run : edges.foldlM (relax space i cost) p = Except.ok p') : p'.expanded = p.expanded := by
  induction edges generalizing p with
  | nil => cases run; rfl
  | cons e edges ih =>
      obtain ⟨p₁, hp₁, run⟩ := bind_eq_ok.mp run
      have kept : p₁.expanded = p.expanded := by cases relaxes_of_relax hp₁ <;> rfl
      exact (ih run).trans kept

/-- Expanding a state counts as one expansion. -/
theorem expanded_expand (h : expand space p i r = Except.ok p') : p'.expanded = p.expanded + 1 := by
  obtain ⟨edges, -, run⟩ := expand_eq_ok h
  exact expanded_follow run

/-! ### Turns -/

/-- What a turn makes of a search: its result, or the search as it goes on. -/
inductive Turns (space : Space ε Id State ι) (limit : Option Nat) (p : Progress State ι) :
    (Path State × Counters) ⊕ Progress State ι → Prop where
  | empties (first : p.frontier.first? = none) : Turns space limit p (.inl (p.finish none false))
  /-- No state is in the frontier before it is known, so this does not come about. -/
  | loses {q : Priority} {i : ι} (first : p.frontier.first? = some (q, i))
      (unknown : p.known[i]? = none) :
      Turns space limit p (.inr { p with frontier := p.frontier.erase q })
  | solves {q : Priority} {i : ι} {r : Record State ι} (first : p.frontier.first? = some (q, i))
      (known : p.known[i]? = some r) (goal : space.isGoal r.state = Except.ok true) :
      Turns space limit p
        (.inl (Progress.finish { p with frontier := p.frontier.erase q } (some i) false))
  | drops {q : Priority} {i : ι} {r : Record State ι} (first : p.frontier.first? = some (q, i))
      (known : p.known[i]? = some r) (goal : space.isGoal r.state = Except.ok false)
      (visited : r.visited = true) :
      Turns space limit p (.inr { p with frontier := p.frontier.erase q })
  | exhausts {q : Priority} {i : ι} {r : Record State ι} (first : p.frontier.first? = some (q, i))
      (known : p.known[i]? = some r) (goal : space.isGoal r.state = Except.ok false)
      (unvisited : r.visited = false) (spent : limit.any (· ≤ p.expanded) = true) :
      Turns space limit p
        (.inl (Progress.finish { p with frontier := p.frontier.erase q } none true))
  | expands {q : Priority} {i : ι} {r : Record State ι} {p' : Progress State ι}
      (first : p.frontier.first? = some (q, i)) (known : p.known[i]? = some r)
      (goal : space.isGoal r.state = Except.ok false) (unvisited : r.visited = false)
      (unspent : limit.any (· ≤ p.expanded) = false)
      (expanded : expand space { p with frontier := p.frontier.erase q } i r = Except.ok p') :
      Turns space limit p (.inr p')

theorem turns_of_turn {out : (Path State × Counters) ⊕ Progress State ι}
    (h : turn space limit p = Except.ok out) : Turns space limit p out := by
  unfold turn at h
  split at h
  · rename_i first
    cases h
    exact .empties first
  · rename_i q i first
    simp only at h
    split at h
    · rename_i unknown
      cases h
      exact .loses first unknown
    · rename_i r known
      obtain ⟨goal, hgoal, h⟩ := bind_eq_ok.mp h
      cases goal with
      | true =>
          cases h
          exact .solves first known hgoal
      | false =>
          simp only [Bool.false_eq_true, if_false] at h
          split at h
          · rename_i visited
            cases h
            exact .drops first known hgoal visited
          · rename_i unvisited
            rw [Bool.not_eq_true] at unvisited
            split at h
            · rename_i spent
              cases h
              exact .exhausts first known hgoal unvisited spent
            · rename_i unspent
              obtain ⟨p', expanded, h⟩ := bind_eq_ok.mp h
              cases h
              exact .expands first known hgoal unvisited (Bool.not_eq_true _ ▸ unspent) expanded

/-! ### Rounds of turns -/

section Rounds

variable {m : Type → Type} [Monad m] [LawfulMonad m] (space : Space ε m State ι)

/-- A number of turns, and then as many more as are left if the search goes on. -/
theorem run_add (a b : Nat) (p : Progress State ι) : run space limit (a + b) p =
    run space limit a p >>= Sum.elim (fun result => pure (.inl result)) (run space limit b) := by
  induction a generalizing p with
  | zero =>
      rw [Nat.zero_add, run, pure_bind, Sum.elim_inr]
  | succ a ih =>
      rw [Nat.succ_add, run, run, bind_assoc]
      refine bind_congr fun out => ?_
      cases out with
      | inl result => simp only [pure_bind, Sum.elim_inl]
      | inr p => exact ih p

/-- The rounds together are a run of all their turns. -/
theorem runRounds_eq_run (rounds turns : Nat) (p : Progress State ι) :
    runRounds space limit rounds turns p =
      Sum.getLeft? <$> run space limit ((2 ^ rounds - 1) * turns) p := by
  induction rounds generalizing turns p with
  | zero =>
      rw [Nat.pow_zero, Nat.sub_self, Nat.zero_mul, runRounds, run, map_pure, Sum.getLeft?_inr]
  | succ rounds ih =>
      have total : (2 ^ (rounds + 1) - 1) * turns = turns + (2 ^ rounds - 1) * (2 * turns) := by
        obtain ⟨m, hm⟩ := Nat.exists_eq_add_one.mpr (Nat.two_pow_pos rounds)
        rw [Nat.pow_succ, hm, Nat.add_sub_cancel, show (m + 1) * 2 - 1 = 2 * m + 1 by omega]
        rw [Nat.add_mul, Nat.one_mul, Nat.mul_left_comm, Nat.mul_assoc, Nat.add_comm]
      rw [total, run_add, map_bind, runRounds]
      refine bind_congr fun out => ?_
      cases out with
      | inl result => simp only [Sum.elim_inl, map_pure, Sum.getLeft?_inl]
      | inr p => exact ih (2 * turns) p

end Rounds
/-! ### Runs -/

/-- A number of turns after which the search goes on. -/
inductive Runs (space : Space ε Id State ι) (limit : Option Nat) :
    Nat → Progress State ι → Progress State ι → Prop where
  | refl (p : Progress State ι) : Runs space limit 0 p p
  | more {n : Nat} {p p₁ p' : Progress State ι} (h : Runs space limit n p p₁)
      (next : turn space limit p₁ = Except.ok (.inr p')) : Runs space limit (n + 1) p p'

theorem Runs.trans {n m : Nat} {p₁ : Progress State ι} (h : Runs space limit n p p₁)
    (h' : Runs space limit m p₁ p') : Runs space limit (n + m) p p' := by
  induction h' with
  | refl => exact h
  | more _ next ih => exact .more (ih h) next

/-- Some turns, and then one that ends the search. -/
def Ends (space : Space ε Id State ι) (limit : Option Nat) (p : Progress State ι)
    (result : Path State × Counters) : Prop :=
  ∃ n p', Runs space limit n p p' ∧ turn space limit p' = Except.ok (.inl result)

theorem Ends.after {n : Nat} {result : Path State × Counters} (h : Runs space limit n p p')
    (h' : Ends space limit p' result) : Ends space limit p result := by
  obtain ⟨m, p'', runs, ends⟩ := h'
  exact ⟨n + m, p'', h.trans runs, ends⟩

theorem Runs.head {n : Nat} (h : Runs space limit (n + 1) p p') :
    ∃ p₁, turn space limit p = Except.ok (.inr p₁) ∧ Runs space limit n p₁ p' := by
  generalize hm : n + 1 = m at h
  induction h generalizing n with
  | refl => cases hm
  | @more m _ p₁ p' runs next ih =>
      obtain rfl := Nat.succ.inj hm
      cases n with
      | zero => cases runs; exact ⟨p', next, .refl p'⟩
      | succ n =>
          obtain ⟨p₂, first, rest⟩ := ih rfl
          exact ⟨p₂, first, .more rest next⟩

/-- The first turn of a search that ends. -/
theorem Ends.first {result : Path State × Counters} (h : Ends space limit p result) :
    turn space limit p = Except.ok (.inl result) ∨
      ∃ p₁, turn space limit p = Except.ok (.inr p₁) ∧ Ends space limit p₁ result := by
  obtain ⟨n, p', runs, last⟩ := h
  cases n with
  | zero => cases runs; exact .inl last
  | succ n =>
      obtain ⟨p₁, first, rest⟩ := runs.head
      exact .inr ⟨p₁, first, n, p', rest, last⟩

/-- A search ends in one way. -/
theorem Ends.unique {result result' : Path State × Counters} (h : Ends space limit p result)
    (h' : Ends space limit p result') : result = result' := by
  obtain ⟨n, p', runs, last⟩ := h
  induction n generalizing p with
  | zero =>
      cases runs
      rcases h'.first with first | ⟨p₁, first, -⟩
      · exact Sum.inl.inj (Except.ok.inj (last.symm.trans first))
      · cases last.symm.trans first
  | succ n ih =>
      obtain ⟨p₁, first, rest⟩ := runs.head
      rcases h'.first with first' | ⟨p₂, first', h'⟩
      · cases first.symm.trans first'
      · obtain rfl := Sum.inr.inj (Except.ok.inj (first.symm.trans first'))
        exact ih h' rest

theorem run_eq_inr {turns : Nat} (h : run space limit turns p = Except.ok (.inr p')) :
    Runs space limit turns p p' := by
  induction turns generalizing p with
  | zero => cases h; exact .refl _
  | succ turns ih =>
      obtain ⟨out, h₁, h⟩ := bind_eq_ok.mp h
      cases out with
      | inl result => cases h
      | inr p₁ =>
          rw [Nat.add_comm]
          exact Runs.trans (.more (.refl p) h₁) (ih h)

theorem run_eq_inl {turns : Nat} {result : Path State × Counters}
    (h : run space limit turns p = Except.ok (.inl result)) : Ends space limit p result := by
  induction turns generalizing p with
  | zero => cases h
  | succ turns ih =>
      obtain ⟨out, h₁, h⟩ := bind_eq_ok.mp h
      cases out with
      | inl result => cases h; exact ⟨0, p, .refl p, h₁⟩
      | inr p₁ => exact .after (.more (.refl p) h₁) (ih h)

theorem runRounds_eq_some {rounds turns : Nat} {result : Path State × Counters}
    (h : runRounds space limit rounds turns p = Except.ok (some result)) :
    Ends space limit p result := by
  rw [runRounds_eq_run] at h
  rcases out : run space limit ((2 ^ rounds - 1) * turns) p with e | result' | p' <;>
    rw [out] at h <;> cases h
  exact run_eq_inl out

/-- A search that ends is a start and some turns. -/
theorem search_eq_some {rounds : Nat} {s : State} {result : Path State × Counters}
    (h : search space limit rounds s = Except.ok (some result)) :
    ∃ p, Search.start space s = Except.ok p ∧ Ends space limit p result := by
  obtain ⟨p, hp, h⟩ := bind_eq_ok.mp h
  exact ⟨p, hp, runRounds_eq_some h⟩

/-- A search without an answer has gone on for all its turns. -/
theorem runRounds_eq_none {rounds turns : Nat}
    (h : runRounds space limit rounds turns p = Except.ok none) :
    ∃ p', Runs space limit ((2 ^ rounds - 1) * turns) p p' := by
  rw [runRounds_eq_run] at h
  rcases out : run space limit ((2 ^ rounds - 1) * turns) p with e | result | p' <;>
    rw [out] at h <;> cases h
  exact ⟨p', run_eq_inr out⟩

end Search

end ClassicalPlanner
