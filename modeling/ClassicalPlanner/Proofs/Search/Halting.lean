import ClassicalPlanner.Proofs.Search.Tally

/-!
# Searches end

Each turn takes an entry from the frontier.  `pops` counts the entries taken in a run, also in one
that fails: they are at most one more than there are edges in the lists that the run was given
(`run_pops`).

A turn that goes on expands a state or leaves fewer entries in the frontier.  So a search that can
expand only so many states ends, however many edges lead out of them (`exists_not_runs`).  It can if
its expansions are limited, or if there are only finitely many identities to be met, for each is
expanded once (`search_halts`).
-/

namespace ClassicalPlanner.Search

open Session Call

/-! ### Entries taken from the frontier -/

section Pops

variable {ε : Type} {m : Type → Type} [Monad m] {State Id : Type} [Ord Id] [Std.TransOrd Id]

/-- The number of entries that are taken from the frontier in a number of turns, or in fewer if the
search ends. -/
def pops (space : Space ε m State Id) (limit : Option Nat) :
    (turns : Nat) → Progress State Id → m Nat
  | 0, _ => pure 0
  | turns + 1, p =>
    match p.frontier.first? with
    | none => pure 0
    | some _ => do
      match ← (turn space limit p).run with
      | .ok (.inr p) => return 1 + (← pops space limit turns p)
      | _ => return 1

theorem pops_succ (space : Space ε m State Id) (limit : Option Nat) (turns : Nat)
    (p : Progress State Id) : pops space limit (turns + 1) p =
      match p.frontier.first? with
      | none => pure 0
      | some _ => do
        match ← (turn space limit p).run with
        | .ok (.inr p) => return 1 + (← pops space limit turns p)
        | _ => return 1 := rfl

/-- The number of entries that a search takes from the frontier. -/
def searchPops (space : Space ε m State Id) (limit : Option Nat) (rounds : Nat) (state : State) :
    m Nat := do
  match ← (start space state).run with
  | .ok p => pops space limit (2 ^ rounds - 1) p
  | .error _ => pure 0

end Pops

variable {ε σ State ι : Type} [Ord ι] [Std.TransOrd ι] {space : Space ε Id State ι} {start : State}
variable {p p' : Progress State ι} {limit : Option Nat} {n turns : Nat}
variable {calls calls' : Array (Call State)}

theorem gives_pops {space : Space ε (StateM σ) State ι} {keeps : σ → Prop}
    {answers : Space ε Id State ι} (steady : space.Steady keeps answers) (turns : Nat)
    (p : Progress State ι) :
    Gives keeps (pops space limit turns p) (pops answers limit turns p) := by
  induction turns generalizing p with
  | zero => exact .pure _
  | succ turns ih =>
      rw [pops_succ, pops_succ]
      split
      · exact .pure _
      · refine .bind (Gives.composes.turn steady p) ?_
        rcases turn answers limit p with e | result | p'
        · exact .pure _
        · exact .pure _
        · exact .bind (ih p') (.pure _)

theorem gives_searchPops {space : Space ε (StateM σ) State ι} {keeps : σ → Prop}
    {answers : Space ε Id State ι} (steady : space.Steady keeps answers) (rounds : Nat) :
    Gives keeps (searchPops space limit rounds start) (searchPops answers limit rounds start) := by
  unfold searchPops
  refine .bind (Gives.composes.start steady start) ?_
  rcases Search.start answers start with e | p
  · exact .pure _
  · exact gives_pops steady _ p

/-- A turn that goes on takes one entry. -/
theorem pops_goesOn (next : turn space limit p = Except.ok (.inr p')) :
    (pops space limit (turns + 1) p).run = 1 + (pops space limit turns p').run := by
  have out : (turn space limit p).run = pure (.ok (.inr p')) := next
  cases first : p.frontier.first? with
  | none =>
      simp only [turn, first] at next
      cases next
  | some entry =>
      simp only [pops_succ, first, out, pure_bind]
      rfl

/-- A turn that does not go on takes no more than is there. -/
theorem pops_ends (turns : Nat) (ends : ∀ p', turn space limit p ≠ Except.ok (.inr p')) :
    (pops space limit (turns + 1) p).run ≤ p.frontier.size := by
  cases first : p.frontier.first? with
  | none =>
      simp only [pops_succ, first]
      exact Nat.zero_le _
  | some entry =>
      have filled := size_erase_of_mem (Frontier.first?_eq_some_iff.mp first).1
      have one : (pops space limit (turns + 1) p).run = 1 := by
        rcases next : turn space limit p with e | result | p'
        · have out : (turn space limit p).run = pure (.error e) := next
          simp only [pops_succ, first, out, pure_bind]
          rfl
        · have out : (turn space limit p).run = pure (.ok (.inl result)) := next
          simp only [pops_succ, first, out, pure_bind]
          rfl
        · exact absurd next (ends p')
      rw [one]
      omega

variable [Std.LawfulEqOrd ι] {xs : List State}

omit [Std.LawfulEqOrd ι] in
/-- A turn that fails asks for no successors, or for those of a state that is not expanded. -/
theorem expansions_turn_error {e : ε} (h : turn space.traced limit p calls = (.error e, calls')) :
    expansions calls' = expansions calls ∨ ∃ (i : ι) (r : Record State ι),
      p.known[i]? = some r ∧ r.visited = false ∧
      expansions calls' = expansions calls ++ [r.state] := by
  cases first : p.frontier.first? with
  | none =>
      simp only [turn, first] at h
      cases h
  | some entry =>
      obtain ⟨q, i⟩ := entry
      cases known : p.known[i]? with
      | none =>
          simp only [turn, first, known] at h
          cases h
      | some r =>
          simp only [turn, first, known] at h
          have asked (c : Array (Call State)) :
              expansions (c.push (.goal r.state)) = expansions c := by
            simp [expansions]
          rcases run_bind_eq_error.mp h with h | ⟨goal, calls₁, h₁, h⟩
          · rw [← (Prod.mk.inj h).2]
            exact .inl (asked calls)
          · have asked : expansions calls₁ = expansions calls := by
              rw [← (Prod.mk.inj h₁).2]
              exact asked calls
            split at h
            · cases h
            · split at h
              · cases h
              · rename_i unvisited
                split at h
                · cases h
                · rcases run_bind_eq_error.mp h with h | ⟨_, _, _, h⟩
                  · refine .inr ⟨i, r, known, Bool.not_eq_true _ ▸ unvisited, ?_⟩
                    rw [← asked, ← expansions_expand, h]
                  · cases h

omit [Std.TransOrd ι] [Std.LawfulEqOrd ι] in
theorem Tallies.waiting (t : Tallies space xs n p) :
    n + p.frontier.size ≤ 1 + (space.allEdges xs).length := by
  rw [Nat.add_comm, t.taken, ← t.visited]
  exact t.pushed

/-- **A run** of any length asks for no list of edges twice, also if it fails, and takes no more
entries than there are edges in the lists, and the start. -/
theorem run_pops (limit : Option Nat) (turns : Nat)
    (h : Surveys space start (expansions calls) p.known)
    (t : Tallies space (expansions calls) n p) :
    ((expansions (run space.traced limit turns p calls).2).map space.identity).Nodup ∧
      n + (pops space limit turns p).run ≤
        1 + (space.allEdges (expansions (run space.traced limit turns p calls).2)).length := by
  induction turns generalizing p calls n with
  | zero => exact ⟨h.nodup, (Nat.le_add_right n _).trans t.waiting⟩
  | succ turns ih =>
      have waiting := t.waiting
      rw [run, run_bind]
      rcases next : turn space.traced limit p calls with ⟨e | result | p', calls₁⟩
      · -- no list follows one that could not be given
        have out := turn_of_traced next
        have few := pops_ends turns fun p' goes => by cases out.symm.trans goes
        rcases expansions_turn_error next with same | ⟨i, r, known, unvisited, asked⟩
        · rw [same]
          exact ⟨h.nodup, (Nat.add_le_add_left few n).trans waiting⟩
        · rw [asked, space.allEdges_concat, List.length_append]
          exact ⟨h.fresh known unvisited, by omega⟩
      · have out := turn_of_traced next
        have few := pops_ends turns fun p' goes => by cases out.symm.trans goes
        rcases expansions_turn next with ⟨same, -⟩ | ⟨_, _, _, _, _, _, _, out, _⟩
        · show ((expansions calls₁).map space.identity).Nodup ∧
            _ ≤ 1 + (space.allEdges (expansions calls₁)).length
          rw [same]
          exact ⟨h.nodup, (Nat.add_le_add_left few n).trans waiting⟩
        · cases out
      · have out := turn_of_traced next
        obtain ⟨h', t'⟩ := tallies_turn h t next
        obtain ⟨nodup, few⟩ := ih h' t'
        rw [pops_goesOn out, ← Nat.add_assoc]
        exact ⟨nodup, few⟩

/-! ### Turns come to an end -/

omit [Std.LawfulEqOrd ι] in
/-- A turn that goes on expands a state or leaves fewer entries in the frontier. -/
theorem expanded_turn (next : turn space limit p = Except.ok (.inr p')) :
    p'.expanded = p.expanded + 1 ∨
      p'.expanded = p.expanded ∧ p'.frontier.size < p.frontier.size := by
  have fewer {q : Priority} {i : ι} (first : p.frontier.first? = some (q, i)) :
      (p.frontier.erase q).size < p.frontier.size :=
    Nat.lt_of_succ_le (size_erase_of_mem (Frontier.first?_eq_some_iff.mp first).1).le
  cases turns_of_turn next with
  | loses first => exact .inr ⟨rfl, fewer first⟩
  | drops first => exact .inr ⟨rfl, fewer first⟩
  | expands _ _ _ _ _ expanded =>
      have one := expanded_expand expanded
      exact .inl one

omit [Std.LawfulEqOrd ι] in
/-- **A search that expands only so many states ends.**  The measure is the number of expansions
that are left, and then the number of entries in the frontier. -/
theorem exists_not_runs {B : Nat} (p : Progress State ι)
    (bound : ∀ {n p'}, Runs space limit n p p' → p'.expanded ≤ B) :
    ∃ N, ∀ p', ¬Runs space limit N p p' := by
  have stops {out} (next : turn space limit p = out) (ends : ∀ p', out ≠ Except.ok (.inr p')) :
      ∃ N, ∀ p', ¬Runs space limit N p p' :=
    ⟨1, fun p' runs => have ⟨p₁, first, _⟩ := runs.head; ends p₁ (next.symm.trans first)⟩
  rcases next : turn space limit p with e | result | p₁
  · exact stops next fun _ h => nomatch h
  · exact stops next fun _ h => nomatch h
  · have first : Runs space limit 1 p p₁ := .more (.refl p) next
    have measure := expanded_turn next
    have := bound first
    obtain ⟨N, never⟩ := exists_not_runs p₁ fun runs => bound (first.trans runs)
    refine ⟨N + 1, fun p' runs => ?_⟩
    obtain ⟨p₂, again, rest⟩ := runs.head
    obtain rfl := Sum.inr.inj (Except.ok.inj (next.symm.trans again))
    exact never p' rest
termination_by (B - p.expanded, p.frontier.size)
decreasing_by
  rw [Prod.lex_def]
  omega

omit [Std.LawfulEqOrd ι] in
/-- Once a search has ended, more turns change nothing. -/
theorem run_of_not_runs {N : Nat} (never : ∀ p', ¬Runs space limit N p p') (le : N ≤ turns) :
    run space limit turns p = run space limit N p := by
  obtain ⟨more, rfl⟩ := Nat.exists_eq_add_of_le le
  rw [run_add]
  rcases out : run space limit N p with e | result | p'
  · rfl
  · rfl
  · exact absurd (run_eq_inr out) (never p')

omit [Std.LawfulEqOrd ι] in
/-- A search never expands more states than its limit. -/
theorem Runs.expanded_le_limit {k : Nat} (runs : Runs space (some k) n p p')
    (h : p.expanded ≤ k) : p'.expanded ≤ k := by
  induction runs with
  | refl => exact h
  | more _ next ih =>
      have few := ih h
      cases turns_of_turn next with
      | loses => exact few
      | drops => exact few
      | expands _ _ _ _ unspent expanded =>
          rw [expanded_expand expanded]
          exact Nat.lt_of_not_le fun spent => by
            rw [spent_some.mpr spent] at unspent
            cases unspent

/-- In a run from the start, the states expanded and what is known and counted are in step. -/
theorem Runs.tallies (started : Search.start space start = Except.ok p)
    (runs : Runs space limit n p p') :
    ∃ xs, Surveys space start xs p'.known ∧ Tallies space xs n p' := by
  have traced : ∃ calls, Surveys space start (expansions calls) p'.known ∧
      Tallies space (expansions calls) n p' := by
    induction runs with
    | refl => exact ⟨#[], surveys_start started, tallies_start started⟩
    | @more _ _ p₁ _ _ next ih =>
        obtain ⟨calls, h, t⟩ := ih started
        have same : (turn space.traced limit p₁ calls).1 = turn space limit p₁ :=
          (Gives.composes.turn space.steady_traced p₁ calls trivial).1
        exact ⟨_, tallies_turn h t (run_eq_of_result (same.trans next))⟩
  obtain ⟨calls, h⟩ := traced
  exact ⟨expansions calls, h⟩

/-- A search never expands more states than there are identities of states that can be reached. -/
theorem Runs.expanded_le_card {V : Finset ι} (started : Search.start space start = Except.ok p)
    (reach : ∀ x, space.Reaches start x → space.identity x ∈ V) (runs : Runs space limit n p p') :
    p'.expanded ≤ V.card := by
  classical
  obtain ⟨xs, h, t⟩ := runs.tallies started
  rw [t.expanded, ← List.length_map space.identity, ← List.toFinset_card_of_nodup h.nodup]
  refine Finset.card_le_card fun i hi => ?_
  obtain ⟨r, hr, -⟩ := h.visited.mp (List.mem_toFinset.mp hi)
  obtain ⟨rfl, reached⟩ := h.record hr
  exact reach r.state reached

/-! ### Whole searches -/

theorem search_pops {rounds : Nat} {out : Except ε (Option (Path State × Counters))}
    (ran : search space.traced limit rounds start #[] = (out, calls)) :
    ((expansions calls).map space.identity).Nodup ∧
      (searchPops space limit rounds start).run ≤
        1 + (space.allEdges (expansions calls)).length := by
  have none := expansions_start space start
  rw [search_eq_run, run_bind] at ran
  rcases begun : Search.start space.traced start #[] with ⟨e | p, calls₀⟩ <;>
    rw [begun] at none ran <;> change expansions calls₀ = [] at none <;>
    have started := start_of_traced begun
  · have out : (Search.start space start).run = pure (.error e) := started
    simp only [searchPops, out, pure_bind]
    obtain rfl := (Prod.mk.inj ran).2
    rw [none]
    exact ⟨.nil, Nat.zero_le _⟩
  · have out : (Search.start space start).run = pure (.ok p) := started
    simp only [searchPops, out, pure_bind]
    have surveys := surveys_start started
    have tallies := tallies_start started
    rw [← none] at surveys tallies
    obtain ⟨nodup, few⟩ := run_pops limit (2 ^ rounds - 1) surveys tallies
    change (Sum.getLeft? <$> run space.traced limit (2 ^ rounds - 1) p) calls₀ = _ at ran
    rw [run_map] at ran
    rw [Nat.zero_add] at few
    exact (Prod.mk.inj ran).2 ▸ ⟨nodup, few⟩

/-- A search that can expand only so many states has an outcome. -/
theorem exists_search_eq
    (finite : limit ≠ none ∨ {i | ∃ x, space.Reaches start x ∧ space.identity x = i}.Finite) :
    ∃ least out, out ≠ Except.ok none ∧
      ∀ rounds, least ≤ rounds → search space limit rounds start = out := by
  simp only [search_eq_run]
  rcases started : Search.start space start with e | p
  · exact ⟨0, .error e, by rintro ⟨⟩, fun _ _ => rfl⟩
  obtain ⟨B, bound⟩ : ∃ B, ∀ {n p'}, Runs space limit n p p' → p'.expanded ≤ B := by
    rcases finite with limited | finite
    · obtain ⟨k, rfl⟩ := Option.ne_none_iff_exists'.mp limited
      have fresh : p.expanded = 0 := (tallies_start started).expanded
      exact ⟨k, fun runs => runs.expanded_le_limit (fresh ▸ Nat.zero_le k)⟩
    · exact ⟨_, fun runs => runs.expanded_le_card (V := finite.toFinset) started fun x reached =>
        finite.mem_toFinset.mpr ⟨x, reached, rfl⟩⟩
  obtain ⟨N, never⟩ := exists_not_runs p bound
  have enough {rounds : Nat} (le : N ≤ rounds) : N ≤ 2 ^ rounds - 1 :=
    Nat.le_sub_one_of_lt (le.trans_lt Nat.lt_two_pow_self)
  refine ⟨N, (Sum.getLeft? <$> run space limit N p : ExceptT ε Id _), ?_, fun rounds le => ?_⟩
  · rcases out : run space limit N p with e | result | p'
    · rintro ⟨⟩
    · rintro ⟨⟩
    · exact absurd (run_eq_inr out) (never p')
  · rw [← run_of_not_runs never (enough le)]
    exact pure_bind (m := ExceptT ε Id) p _

/-- **A search asks for no list of edges twice, and ends.**  Whatever comes of it, no two states
whose successors it asks for have one identity, and it takes no more entries from its frontier than
there are edges in the lists that it is given, and the start.  If its expansions are limited, or if
the states that can be reached have finitely many identities, it comes to a result or an error,
which is the same for any greater number of rounds. -/
theorem search_halts {space : Space ε (StateM σ) State ι} {answers : Space ε Id State ι}
    {keeps : σ → Prop} {w : σ} (steady : space.Steady keeps answers) (hw : keeps w)
    (limit : Option Nat) (start : State) :
    (∀ rounds out calls, (search space.traced limit rounds start #[] w).1 = (out, calls) →
      ((expansions calls).map space.identity).Nodup ∧
      (searchPops space limit rounds start w).1 ≤
        1 + (answers.allEdges (expansions calls)).length) ∧
    (limit ≠ none ∨ {i | ∃ x, answers.Reaches start x ∧ space.identity x = i}.Finite →
      ∃ least out, out ≠ .ok none ∧
        ∀ rounds, least ≤ rounds → (search space limit rounds start w).1 = out) := by
  rw [← steady.identity]
  constructor
  · intro rounds out calls ran
    rw [steady.search_traced_eq hw] at ran
    rw [(gives_searchPops steady rounds w hw).1]
    exact search_pops ran
  · intro finite
    obtain ⟨least, out, ended, same⟩ := exists_search_eq finite
    exact ⟨least, out, ended, fun rounds le => (steady.search_eq hw).trans (same rounds le)⟩

/-- A line without an end, with free edges on, back and round each state, and estimates that fall by
more than an edge costs.  States that leave the same remainder are one. -/
def endless (modulus : Nat) : Space Empty Id Nat Nat where
  identity s := s % modulus
  isGoal _ := pure false
  estimate s := pure (if s % 2 = 0 then 0 else 7)
  successors s := pure [⟨s + 1, 0, ⟨1⟩⟩, ⟨s, 0, ⟨2⟩⟩, ⟨s - 1, 0, ⟨3⟩⟩]

/-- On the endless line every state can be reached, and a search ends with its expansions used up.
With three identities it ends without a limit. -/
theorem search_halts_endless :
    (∀ x, (endless 0).Reaches 0 x) ∧
    (∃ least out, out ≠ .ok none ∧ ∀ rounds, least ≤ rounds →
      (search (endless 0).traced (some 3) rounds 0 #[]).1 = out) ∧
    (search (endless 0).traced.traced (some 3) 4 0 #[] #[]).1.1 =
      .ok (some (∅, { known := 4, expanded := 3, visited := 10, exhausted := true })) ∧
    (searchPops (endless 0).traced (some 3) 4 0 #[]).1 ≤ 10 ∧
    (∃ least out, out ≠ .ok none ∧ ∀ rounds, least ≤ rounds →
      (search (endless 3).traced none rounds 0 #[]).1 = out) ∧
    (search (endless 3).traced none 4 0 #[]).1 =
      .ok (some (∅, { known := 3, expanded := 3, visited := 10 })) := by
  have reached (x : Nat) : (endless 0).Reaches 0 x := by
    induction x with
    | zero => exact .start
    | succ x ih => exact .step ih rfl List.mem_cons_self
  obtain ⟨few, ends⟩ := search_halts ((endless 0).steady_traced) (w := #[]) trivial (some 3) 0
  have finite : {i | ∃ x, (endless 3).Reaches 0 x ∧ (endless 3).traced.identity x = i}.Finite :=
    (Set.finite_lt_nat 3).subset fun i ⟨x, _, hx⟩ => hx ▸ Nat.mod_lt x (by decide)
  obtain ⟨-, ends'⟩ := search_halts ((endless 3).steady_traced) (w := #[]) trivial none 0
  obtain ⟨-, pops⟩ := few 4 _ _ rfl
  have edges : 1 + ((endless 0).allEdges (expansions
      (search (endless 0).traced.traced (some 3) 4 0 #[] #[]).1.2)).length = 10 := by
    decide
  exact ⟨reached, ends (.inl nofun), by decide, edges ▸ pops, ends' (.inr finite),
    by decide⟩

end ClassicalPlanner.Search
