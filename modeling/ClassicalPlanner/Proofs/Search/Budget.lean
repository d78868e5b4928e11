import ClassicalPlanner.Proofs.Search.Calls
import ClassicalPlanner.Proofs.Search.Path

/-!
# A bound on expansions only cuts a search short

A turn looks at the bound once: after it has taken an entry, found that its state is no goal and
that the entry is not stale, and before it expands the state (`Checks`).  So two searches with
different bounds take the same turns, with the same questions, until one of them comes to a state
that it may not expand.  That one ends there, with an empty path; the other expands the state and
goes on (`Within.run`).

`budget_cuts_short` says this of whole searches: a search never expands more states than its bound
allows; if it has not used up its expansions, a search with a larger bound or none ends in the same
way; and if it has, any such search expands at least one more state.
-/

namespace ClassicalPlanner

open Session

namespace Search

variable {ε σ State ι : Type} [Ord ι] [Std.TransOrd ι] {space : Space ε Id State ι}
variable {p p' : Progress State ι} {calls calls' : Array (Call State)} {limit more : Option Nat}
variable {n : Nat}

open Call

/-! ### Where a turn looks at the bound -/

/-- What a turn does is the same for all bounds up to the point at which it looks at the bound. -/
inductive Checks (space : Space ε Id State ι) (p : Progress State ι) (calls : Array (Call State)) :
    Prop where
  | fails (e : ε) {calls' : Array (Call State)} (asked : expansions calls' = expansions calls)
      (turn : ∀ limit, turn space.traced limit p calls = (.error e, calls')) :
      Checks space p calls
  | ends (result : Path State × Counters) {calls' : Array (Call State)}
      (asked : expansions calls' = expansions calls) (unexhausted : result.2.exhausted = false)
      (turn : ∀ limit, turn space.traced limit p calls = (.ok (.inl result), calls')) :
      Checks space p calls
  | goesOn (p' : Progress State ι) {calls' : Array (Call State)}
      (asked : expansions calls' = expansions calls) (counted : p'.expanded = p.expanded)
      (turn : ∀ limit, turn space.traced limit p calls = (.ok (.inr p'), calls')) :
      Checks space p calls
  /-- The turn has come to a state that is to be expanded. -/
  | comes (taken : Progress State ι) (i : ι) (r : Record State ι) {calls' : Array (Call State)}
      (asked : expansions calls' = expansions calls) (counted : taken.expanded = p.expanded)
      (spent : ∀ {limit}, limit.any (· ≤ p.expanded) = true →
        turn space.traced limit p calls = (.ok (.inl (taken.finish none true)), calls'))
      (unspent : ∀ {limit}, limit.any (· ≤ p.expanded) = false →
        turn space.traced limit p calls =
          ((expand space.traced taken i r calls').1.map .inr,
            (expand space.traced taken i r calls').2)) :
      Checks space p calls

theorem checks (space : Space ε Id State ι) (p : Progress State ι) (calls : Array (Call State)) :
    Checks space p calls := by
  cases first : p.frontier.first? with
  | none =>
      refine .ends (p.finish none false) rfl rfl fun limit => ?_
      simp only [turn, first]
      rfl
  | some entry =>
      obtain ⟨q, i⟩ := entry
      let taken : Progress State ι := { p with frontier := p.frontier.erase q }
      cases known : p.known[i]? with
      | none =>
          refine .goesOn taken rfl rfl fun limit => ?_
          simp only [turn, first, known]
          rfl
      | some r =>
          have tested : space.traced.isGoal r.state calls =
            (space.isGoal r.state, calls.push (.goal r.state)) := rfl
          have asked : expansions (calls.push (.goal r.state)) = expansions calls := by
            simp [expansions]
          cases goal : space.isGoal r.state with
          | error e =>
              refine .fails e asked fun limit => ?_
              simp only [turn, first, known]
              rw [run_bind, tested, goal]
          | ok goal' =>
              cases goal' with
              | true =>
                  refine .ends (taken.finish (some i) false) asked rfl fun limit => ?_
                  simp only [turn, first, known]
                  rw [run_bind, tested, goal]
                  rfl
              | false =>
                  cases visited : r.visited with
                  | true =>
                      refine .goesOn taken asked rfl fun limit => ?_
                      simp only [turn, first, known, visited, if_true]
                      rw [run_bind, tested, goal]
                      rfl
                  | false =>
                      refine .comes taken i r asked rfl (fun {limit} spent => ?_)
                        fun {limit} unspent => ?_
                      · simp only [turn, first, known, visited, spent, if_true]
                        rw [run_bind, tested, goal]
                        rfl
                      · simp only [turn, first, known, visited, unspent]
                        rw [run_bind, tested, goal]
                        exact run_map Sum.inr _ _

/-! ### A turn within the bound -/

/-- The search has counted the expansions it has asked for, and they are not more than `n`. -/
structure Within (n : Nat) (p : Progress State ι) (calls : Array (Call State)) : Prop where
  tally : (expansions calls).length = p.expanded
  le : p.expanded ≤ n

omit [Std.TransOrd ι] in
theorem spent_some {p : Progress State ι} :
    (some n).any (· ≤ p.expanded) = true ↔ n ≤ p.expanded := by
  rw [Option.any_some, decide_eq_true_iff]

omit [Std.TransOrd ι] in
/-- A bound that is larger than the number of expansions is not used up. -/
theorem unspent_of_lt {p : Progress State ι} (above : ∀ m ∈ limit, p.expanded < m) :
    limit.any (· ≤ p.expanded) = false := by
  cases limit with
  | none => rfl
  | some m =>
      rw [Option.any_some, decide_eq_false_iff_not, Nat.not_le]
      exact above m rfl

/-! ### Questions are never taken back -/

/-- Whatever comes of the operation, it has asked for no fewer expansions than before. -/
abbrev Asks {α : Type} (x : ExceptT ε (StateM (Array (Call State))) α) : Prop :=
  ∀ calls, (expansions calls).length ≤ (expansions (x calls).2).length

omit [Ord ι] [Std.TransOrd ι] in
theorem composes_asks :
    Composes fun _ (x _ : ExceptT ε (StateM (Array (Call State))) _) => Asks x where
  pure _ _ := Nat.le_refl _
  bind {α β x x' f f'} hx hf := by
    intro calls
    have first := hx calls
    rw [run_bind]
    rcases out : x calls with ⟨e | a, calls₁⟩ <;> rw [out] at first
    · exact first
    · exact first.trans (hf a calls₁)

theorem asks_run (limit : Option Nat) (turns : Nat) (p : Progress State ι) :
    Asks (run space.traced limit turns p) := by
  have push (calls : Array (Call State)) (call : Call State) :
      (expansions calls).length ≤ (expansions (calls.push call)).length := by
    cases call <;> simp [expansions]
  have answers : Related (fun _ (x _ : ExceptT ε (StateM (Array (Call State))) _) => Asks x)
      space.traced space.traced :=
    ⟨rfl, fun _ _ => push _ _, fun _ _ => push _ _, fun _ _ => push _ _⟩
  exact composes_asks.run answers turns p

/-! ### Two bounds -/

/-- What comes of a search: an error, or its result unless it has not ended; and the questions it
has asked. -/
abbrev Outcome (ε State : Type) :=
  Except ε (Option (Path State × Counters)) × Array (Call State)

/-- What comes of a search of at most `n` expansions, and what of one with a larger bound that takes
no fewer turns. -/
inductive CutShort (n : Nat) : Outcome ε State → Outcome ε State → Prop where
  | fails (e : ε) {calls : Array (Call State)} (bound : (expansions calls).length ≤ n) :
      CutShort n (.error e, calls) (.error e, calls)
  | ends {result : Path State × Counters} {calls : Array (Call State)}
      (unexhausted : result.2.exhausted = false) (bound : (expansions calls).length ≤ n) :
      CutShort n (.ok (some result), calls) (.ok (some result), calls)
  | cut {result : Path State × Counters} {calls : Array (Call State)} {out : Outcome ε State}
      (exhausted : result.2.exhausted = true) (path : result.1.steps = [])
      (spent : (expansions calls).length = n) (further : n + 1 ≤ (expansions out.2).length) :
      CutShort n (.ok (some result), calls) out
  | goesOn {calls : Array (Call State)} {out : Outcome ε State}
      (bound : (expansions calls).length ≤ n) : CutShort n (.ok none, calls) out

namespace CutShort

variable {o o' : Outcome ε State} {result : Path State × Counters}

omit [Ord ι] [Std.TransOrd ι]

theorem bound (h : CutShort n o o') : (expansions o.2).length ≤ n := by
  cases h with
  | fails _ bound => exact bound
  | ends _ bound => exact bound
  | cut _ _ spent => exact spent.le
  | goesOn bound => exact bound

theorem same (h : CutShort n o o') (ended : o.1 = .ok (some result))
    (unexhausted : result.2.exhausted = false) : o' = o := by
  cases h with
  | fails => cases ended
  | ends => rfl
  | cut exhausted => cases ended; rw [unexhausted] at exhausted; cases exhausted
  | goesOn => cases ended

theorem further (h : CutShort n o o') (ended : o.1 = .ok (some result))
    (exhausted : result.2.exhausted = true) :
    result.1.steps = [] ∧ (expansions o.2).length = n ∧ n + 1 ≤ (expansions o'.2).length := by
  cases h with
  | fails => cases ended
  | ends unexhausted => cases ended; rw [unexhausted] at exhausted; cases exhausted
  | cut _ path spent further => cases ended; exact ⟨path, spent, further⟩
  | goesOn => cases ended

end CutShort

/-- **A run within the bound** takes the turns of one with a larger bound, until that one expands a
state that it may not expand. -/
theorem Within.run (h : Within n p calls) (above : ∀ m ∈ more, n < m) {turns turns' : Nat}
    (le : turns ≤ turns') :
    CutShort n ((Sum.getLeft? <$> Search.run space.traced (some n) turns p) calls)
      ((Sum.getLeft? <$> Search.run space.traced more turns' p) calls) := by
  simp only [run_map]
  induction turns generalizing p calls turns' with
  | zero => exact .goesOn (h.tally ▸ h.le)
  | succ turns ih =>
      obtain ⟨turns', rfl⟩ := Nat.exists_eq_add_one_of_ne_zero (Nat.ne_of_gt (Nat.lt_of_lt_of_le
        (Nat.succ_pos turns) le))
      have le := Nat.le_of_succ_le_succ le
      rw [Search.run, Search.run, run_bind, run_bind]
      cases checks space p calls with
      | fails e asked turn =>
          rw [turn, turn]
          exact .fails e (asked ▸ h.tally ▸ h.le)
      | ends result asked unexhausted turn =>
          rw [turn, turn]
          exact .ends unexhausted (asked ▸ h.tally ▸ h.le)
      | goesOn p' asked counted turn =>
          rw [turn, turn]
          exact ih ⟨asked ▸ counted ▸ h.tally, counted ▸ h.le⟩ le
      | @comes taken i r calls' asked counted spent unspent =>
          have expanded : expansions (expand space.traced taken i r calls').2 =
            expansions calls' ++ [r.state] := expansions_expand
          have length : (expansions (expand space.traced taken i r calls').2).length =
              p.expanded + 1 := by
            rw [expanded, List.length_append, asked, h.tally]
            rfl
          rw [unspent (unspent_of_lt fun m hm => Nat.lt_of_le_of_lt h.le (above m hm))]
          rcases Nat.lt_or_eq_of_le h.le with lt | rfl
          -- both searches expand the state
          · rw [unspent (unspent_of_lt fun m hm => Option.some.inj hm ▸ lt)]
            rcases out : expand space.traced taken i r calls' with ⟨e | p', calls₁⟩ <;>
              rw [out] at length
            · exact .fails e (length ▸ lt)
            · have untraced := (Gives.composes.expand space.steady_traced taken i r).eq_of_run
                trivial out
              have one : p'.expanded = p.expanded + 1 := counted ▸ expanded_expand untraced
              exact ih ⟨length.trans one.symm, one ▸ lt⟩ le
          -- only the search with the larger bound does
          · rw [spent (spent_some.mpr (Nat.le_refl _))]
            refine .cut rfl (finish_none taken true) (asked ▸ h.tally) ?_
            rcases out : expand space.traced taken i r calls' with ⟨e | p', calls₁⟩ <;>
              rw [out] at length
            · exact length.ge
            · exact length.ge.trans (asks_run more turns' p' calls₁)

/-! ### Whole searches -/

/-- A search that has just started has expanded nothing. -/
theorem expansions_start (space : Space ε Id State ι) (start : State) :
    expansions (Search.start space.traced start #[]).2 = [] := by
  have asked : space.traced.estimate start #[] =
    (space.estimate start, #[.estimate start]) := rfl
  unfold Search.start
  simp only
  rw [run_bind, asked]
  cases space.estimate start <;> rfl

theorem within_start {start : State}
    (h : Search.start space.traced start #[] = (.ok p, calls)) : Within n p calls := by
  have none := expansions_start space start
  rw [h] at none
  obtain ⟨estimate, calls₁, h₁, h⟩ := run_bind_eq_ok.mp h
  cases h
  exact ⟨congrArg List.length none, Nat.zero_le n⟩

/-- A search that ends has counted the expansions it has asked for. -/
theorem search_tally {rounds : Nat} {start : State} {result : Path State × Counters}
    (h : search space.traced limit rounds start #[] = (.ok (some result), calls)) :
    result.2.expanded = (expansions calls).length := by
  have kept {p : Progress State ι} {c : Array (Call State)} {p' : Progress State ι}
      {c' : Array (Call State)} (tally : (expansions c).length = p.expanded)
      (next : turn space.traced limit p c = (.ok (.inr p'), c')) :
      (expansions c').length = p'.expanded := by
    rcases expansions_turn next with ⟨same, kept⟩ | ⟨q, i, r, p₁, -, -, -, out, expanded, asked⟩
    · rw [same, (kept p' rfl).2, tally]
    · obtain rfl := Sum.inr.inj out
      rw [asked, List.length_append, tally, expanded_expand expanded]
      rfl
  obtain ⟨p, c, tally, same, last⟩ :=
    search_keeps (fun first => (within_start (n := 0) first).tally) kept h
  have counted : result.2.expanded = p.expanded := by
    cases turns_of_turn last <;> rfl
  rw [counted, ← tally, same]

theorem search_eq_run {m : Type → Type} [Monad m] [LawfulMonad m] (space : Space ε m State ι)
    (rounds : Nat) (start : State) :
    search space limit rounds start = Search.start space start >>= fun p =>
      Sum.getLeft? <$> run space limit (2 ^ rounds - 1) p := by
  unfold search
  refine bind_congr fun p => ?_
  rw [runRounds_eq_run, Nat.mul_one]

/-- The search with the larger bound goes the same way, until the other is cut short. -/
theorem search_cut (above : ∀ m ∈ more, n < m) {rounds rounds' : Nat} (le : rounds ≤ rounds')
    (start : State) : CutShort n (search space.traced (some n) rounds start #[])
      (search space.traced more rounds' start #[]) := by
  have turns : 2 ^ rounds - 1 ≤ 2 ^ rounds' - 1 :=
    Nat.sub_le_sub_right (Nat.pow_le_pow_right Nat.two_pos le) 1
  rw [search_eq_run, search_eq_run, run_bind, run_bind]
  rcases begun : Search.start space.traced start #[] with ⟨e | p, calls⟩
  · have none := expansions_start space start
    rw [begun] at none
    exact .fails e (none ▸ Nat.zero_le n)
  · exact (within_start begun).run above turns

/-- **A bound on expansions only cuts a search short.**  A search expands no more states than its
bound allows, also if it fails.  If it ends without having used up its expansions, a search with a
larger bound or none gives the same path and counters, after the same questions.  If it has used
them up, its path is empty, and any such search expands at least one more state. -/
theorem budget_cuts_short {space : Space ε (StateM σ) State ι} {answers : Space ε Id State ι}
    {keeps : σ → Prop} {w w' : σ} {rounds : Nat} {start : State}
    {out : Except ε (Option (Path State × Counters))} (steady : space.Steady keeps answers)
    (hw : keeps w) (hw' : keeps w') (above : ∀ m ∈ more, n < m)
    (ran : (search space.traced (some n) rounds start #[] w).1 = (out, calls)) :
    (expansions calls).length ≤ n ∧
    ∀ path counters, out = .ok (some (path, counters)) →
      counters.expanded = (expansions calls).length ∧
      (counters.exhausted = false → ∀ rounds', rounds ≤ rounds' →
        (search space.traced more rounds' start #[] w').1 = (out, calls)) ∧
      (counters.exhausted = true → path.steps = [] ∧ counters.expanded = n ∧
        ∀ rounds' out' calls', rounds ≤ rounds' →
          (search space.traced more rounds' start #[] w').1 = (out', calls') →
          n + 1 ≤ (expansions calls').length ∧
          ∀ path' counters', out' = .ok (some (path', counters')) →
            n + 1 ≤ counters'.expanded) := by
  rw [steady.search_traced_eq hw] at ran
  simp only [steady.search_traced_eq hw']
  have cut {rounds' : Nat} (le : rounds ≤ rounds') :
      CutShort n (out, calls) (search answers.traced more rounds' start #[]) :=
    ran ▸ search_cut above le start
  refine ⟨(cut (Nat.le_refl rounds)).bound, fun path counters ended => ?_⟩
  have tally : counters.expanded = (expansions calls).length := search_tally (ended ▸ ran)
  refine ⟨tally, fun unexhausted rounds' le => (cut le).same ended unexhausted, fun exhausted => ?_⟩
  obtain ⟨empty, spent, -⟩ := (cut (Nat.le_refl rounds)).further ended exhausted
  refine ⟨empty, tally.trans spent, fun rounds' out' calls' le ran' => ?_⟩
  obtain ⟨-, -, further⟩ := (cut le).further ended exhausted
  rw [ran'] at further
  refine ⟨further, fun path' counters' ended' => ?_⟩
  exact (search_tally (ended' ▸ ran')).symm ▸ further

end Search

open ClassicalPlanner.Graph in
/-- With three expansions the goal is found, and so it is without a bound.  With two the search ends
before, and any greater bound lets it expand a third state. -/
theorem Search.budget_cuts_short_overtaken :
    (search overtaken.space.traced.traced (some 3) 6 0 #[] #[]).1 =
      (.ok (some (overtakenPath, { known := 4, expanded := 3, visited := 6 })), overtakenCalls) ∧
    (search overtaken.space.traced.traced none 6 0 #[] #[]).1 =
      (.ok (some (overtakenPath, { known := 4, expanded := 3, visited := 6 })), overtakenCalls) ∧
    (search overtaken.space.traced.traced (some 2) 6 0 #[] #[]).1 =
      (.ok (some (∅, { known := 3, expanded := 2, visited := 4, exhausted := true })),
        overtakenCalls.take 8) ∧
    ∀ m, 2 < m → 3 ≤ (Call.expansions
      (search overtaken.space.traced.traced (some m) 6 0 #[] #[]).1.2).length := by
  have found : (search overtaken.space.traced.traced (some 3) 6 0 #[] #[]).1 =
      (.ok (some (overtakenPath, { known := 4, expanded := 3, visited := 6 })), overtakenCalls) := by
    decide
  have short : (search overtaken.space.traced.traced (some 2) 6 0 #[] #[]).1 =
      (.ok (some (∅, { known := 3, expanded := 2, visited := 4, exhausted := true })),
        overtakenCalls.take 8) := by
    decide
  have steady := Space.steady_traced overtaken.space
  have unlimited (m : Nat) (h : m ∈ (none : Option Nat)) : 3 < m := by cases h
  obtain ⟨-, atLimit⟩ := Search.budget_cuts_short steady trivial trivial unlimited found
  obtain ⟨-, unbounded, -⟩ := atLimit _ _ rfl
  refine ⟨found, unbounded rfl 6 (Nat.le_refl 6), short, fun m above => ?_⟩
  have greater (k : Nat) (h : k ∈ some m) : 2 < k := Option.some.inj h ▸ above
  obtain ⟨-, beyond⟩ := Search.budget_cuts_short steady trivial trivial greater short
  obtain ⟨-, -, further⟩ := beyond _ _ rfl
  exact ((further rfl).2.2 6 _ _ (Nat.le_refl 6) rfl).1

end ClassicalPlanner
