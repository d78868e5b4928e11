import ClassicalPlanner.Proofs.Search.Trace
import Mathlib.Data.List.Forall2
import Mathlib.Data.Option.Basic
import Mathlib.Data.Sum.Basic

/-!
# Searches of spaces that are alike

Two spaces may name their states differently and still be alike: asked about related states they
give the same answers, with related successors in the same order.  What it means for two programs to
give related results is left open: it may be any lift `L` of relations between results to relations
between programs that is kept by returning a value and by doing one thing after another (`Lifts`).

A search of the second space then follows a search of the first step by step.  The frontiers hold
related states at the same priorities (`Mirrors`), and in the end the paths take the same actions
through related states and the counters are equal (`Alike.search`).

The lift used most is `Follows`: where the first program gives a result, the second gives a related
one.  Spaces that are alike in this sense are those of `Simulates`.
-/

namespace ClassicalPlanner.Search

variable {ε ε' S S' ι ι' : Type}

/-! ### Relations between programs -/

variable {m m' : Type → Type} [Monad m] [Monad m']

/-- A relation between programs for each relation between their results. -/
abbrev Lift (ε ε' : Type) (m m' : Type → Type) :=
  ∀ α α' : Type, (α → α' → Prop) → ExceptT ε m α → ExceptT ε' m' α' → Prop

/-- The lift is kept by returning a value and by doing one thing after another. -/
structure Lifts (L : Lift ε ε' m m') : Prop where
  pure : ∀ {α α' : Type} {R : α → α' → Prop} {a : α} {a' : α'}, R a a' →
    L α α' R (pure a) (pure a')
  bind : ∀ {α α' β β' : Type} {R : α → α' → Prop} {Q : β → β' → Prop} {x : ExceptT ε m α}
    {x' : ExceptT ε' m' α'} {f : α → ExceptT ε m β} {f' : α' → ExceptT ε' m' β'}, L α α' R x x' →
    (∀ {a a'}, R a a' → L β β' Q (f a) (f' a')) → L β β' Q (x >>= f) (x' >>= f')

theorem Lifts.foldlM {L : Lift ε ε' m m'} (lifts : Lifts L) {α α' γ γ' : Type} {R : α → α' → Prop}
    {T : γ → γ' → Prop} {f : α → γ → ExceptT ε m α} {f' : α' → γ' → ExceptT ε' m' α'}
    (hf : ∀ {a a' c c'}, R a a' → T c c' → L α α' R (f a c) (f' a' c')) {l : List γ} {l' : List γ'}
    (hl : List.Forall₂ T l l') {a : α} {a' : α'} (ha : R a a') :
    L α α' R (l.foldlM f a) (l'.foldlM f' a') := by
  induction hl generalizing a a' with
  | nil => exact lifts.pure ha
  | cons hc _ ih => exact lifts.bind (hf ha hc) ih

/-- Where the first operation gives a result, the second gives a related one. -/
def Follows {α α' : Type} (R : α → α' → Prop) (x : ExceptT ε Id α) (x' : ExceptT ε' Id α') : Prop :=
  ∀ a, x = Except.ok a → ∃ a', x' = Except.ok a' ∧ R a a'

theorem Follows.lifts : Lifts fun α α' R (x : ExceptT ε Id α) (x' : ExceptT ε' Id α') =>
    Follows R x x' where
  pure {α α' R a a'} h := fun _ hx => ⟨a', rfl, Except.ok.inj hx ▸ h⟩
  bind {α α' β β' R Q x x' f f'} hx hf := by
    intro b h
    obtain ⟨a, ha, h⟩ := bind_eq_ok.mp h
    obtain ⟨a', ha', rel⟩ := hx a ha
    obtain ⟨b', hb', rel'⟩ := hf rel b h
    exact ⟨b', bind_eq_ok.mpr ⟨a', ha', hb'⟩, rel'⟩

/-! ### Related data -/

/-- Edges with equal costs and actions that lead to related states. -/
structure EdgeRel (Rel : S → S' → Prop) (e : Edge S) (e' : Edge S') : Prop where
  state : Rel e.state e'.state
  cost : e'.cost = e.cost
  action : e'.action = e.action

/-- Steps with equal actions to related states. -/
structure StepRel (Rel : S → S' → Prop) (step : PathStep S) (step' : PathStep S') : Prop where
  action : step'.action = step.action
  state : Rel step.state step'.state

/-- Equal counters, and paths with related steps. -/
structure ResultRel (Rel : S → S' → Prop) (result : Path S × Counters) (result' : Path S' × Counters) :
    Prop where
  steps : List.Forall₂ (StepRel Rel) result.1.steps result'.1.steps
  counters : result'.2 = result.2

theorem ResultRel.actions {Rel : S → S' → Prop} {result : Path S × Counters}
    {result' : Path S' × Counters} (h : ResultRel Rel result result') :
    result.1.actions = result'.1.actions := by
  have each {l : List (PathStep S)} {l' : List (PathStep S')}
      (hl : List.Forall₂ (StepRel Rel) l l') :
      l.filterMap (·.action) = l'.filterMap (·.action) := by
    induction hl with
    | nil => rfl
    | cons rel _ ih => rw [List.filterMap_cons, List.filterMap_cons, rel.action, ih]
  exact each h.steps

theorem ResultRel.isSolved {Rel : S → S' → Prop} {result : Path S × Counters}
    {result' : Path S' × Counters} (h : ResultRel Rel result result') :
    result.1.isSolved = result'.1.isSolved := by
  unfold Path.isSolved Path.isEmpty
  rcases h with ⟨steps, -⟩
  cases hl : result.1.steps <;> cases hl' : result'.1.steps <;> rw [hl, hl'] at steps
  · rfl
  · cases steps
  · cases steps
  · rfl

/-- The same is known of related states. -/
structure RecordRel (Rel : S → S' → Prop) (same : ι → ι' → Prop) (r : Record S ι) (r' : Record S' ι') :
    Prop where
  state : Rel r.state r'.state
  estimate : r'.estimate = r.estimate
  cost : r'.cost = r.cost
  previous : Option.Rel same r.previous r'.previous
  action : r'.action = r.action
  visited : r'.visited = r.visited

variable [Ord ι] [Ord ι'] [Std.TransOrd ι] [Std.TransOrd ι']

/-- The same is known of related states, by their identities. -/
def KnownRel (Rel : S → S' → Prop) (same : ι → ι' → Prop) (known : Std.ExtTreeMap ι (Record S ι))
    (known' : Std.ExtTreeMap ι' (Record S' ι')) : Prop :=
  ∀ i i', same i i' → Option.Rel (RecordRel Rel same) known[i]? known'[i']?

/-- Two searches that have got equally far. -/
structure Mirrors (Rel : S → S' → Prop) (same : ι → ι' → Prop) (p : Progress S ι)
    (p' : Progress S' ι') : Prop where
  frontier : ∀ q : Priority, Option.Rel same p.frontier[q]? p'.frontier[q]?
  known : KnownRel Rel same p.known p'.known
  size : p'.known.size = p.known.size
  pushed : p'.pushed = p.pushed
  expanded : p'.expanded = p.expanded
  visited : p'.visited = p.visited

variable {Rel : S → S' → Prop} {same : ι → ι' → Prop}
variable {p : Progress S ι} {p' : Progress S' ι'} {i j : ι} {i' j' : ι'}
variable {r : Record S ι} {r' : Record S' ι'}
variable {known : Std.ExtTreeMap ι (Record S ι)} {known' : Std.ExtTreeMap ι' (Record S' ι')}

theorem isSome_congr {α β : Type} {R : α → β → Prop} {x : Option α} {y : Option β}
    (h : Option.Rel R x y) : x.isSome = y.isSome := by
  cases h <;> rfl

/-! ### Steps of the search -/

variable [Std.LawfulEqOrd ι] [Std.LawfulEqOrd ι']

/-- Related identities are equal or different together. -/
def OneToOne (same : ι → ι' → Prop) : Prop :=
  ∀ i i' j j', same i i' → same j j' → (i = j ↔ i' = j')

omit [Std.TransOrd ι] [Std.TransOrd ι'] in
theorem compare_congr (one : OneToOne same) (hi : same i i') (hj : same j j') :
    compare i j = .eq ↔ compare i' j' = .eq := by
  rw [Std.LawfulEqOrd.compare_eq_iff_eq, Std.LawfulEqOrd.compare_eq_iff_eq]
  exact one _ _ _ _ hi hj

theorem KnownRel.insert (one : OneToOne same) (h : KnownRel Rel same known known')
    (hi : same i i') (hr : RecordRel Rel same r r') :
    KnownRel Rel same (known.insert i r) (known'.insert i' r') := by
  intro j j' hj
  rw [Std.ExtTreeMap.getElem?_insert, Std.ExtTreeMap.getElem?_insert]
  simp only [compare_congr one hi hj]
  split
  · exact .some hr
  · exact h j j' hj

theorem KnownRel.erase (one : OneToOne same) (h : KnownRel Rel same known known') (hi : same i i') :
    KnownRel Rel same (known.erase i) (known'.erase i') := by
  intro j j' hj
  rw [Std.ExtTreeMap.getElem?_erase, Std.ExtTreeMap.getElem?_erase]
  simp only [compare_congr one hi hj]
  split
  · exact .none
  · exact h j j' hj

namespace Mirrors

theorem note (one : OneToOne same) (h : Mirrors Rel same p p') (hi : same i i')
    (hr : RecordRel Rel same r r') : Mirrors Rel same (p.note i r) (p'.note i' r') where
  frontier := h.frontier
  known := h.known.insert one hi hr
  size := by
    have mem : i ∈ p.known ↔ i' ∈ p'.known := by
      rw [Std.ExtTreeMap.mem_iff_isSome_getElem?, Std.ExtTreeMap.mem_iff_isSome_getElem?,
        isSome_congr (h.known i i' hi)]
    show (p'.known.insert i' r').size = (p.known.insert i r).size
    rw [Std.ExtTreeMap.size_insert, Std.ExtTreeMap.size_insert, h.size]
    simp only [Std.ExtTreeMap.contains_iff_mem, mem]
  pushed := h.pushed
  expanded := h.expanded
  visited := h.visited

omit [Std.LawfulEqOrd ι] [Std.LawfulEqOrd ι'] in
theorem push (h : Mirrors Rel same p p') (hi : same i i') (total : UInt32) :
    Mirrors Rel same (p.push total i) (p'.push total i') where
  frontier q := by
    show Option.Rel same (p.frontier.insert ⟨total, p.pushed⟩ i)[q]?
      (p'.frontier.insert ⟨total, p'.pushed⟩ i')[q]?
    rw [Std.ExtTreeMap.getElem?_insert, Std.ExtTreeMap.getElem?_insert, h.pushed]
    split
    · exact .some hi
    · exact h.frontier q
  known := h.known
  size := h.size
  pushed := congrArg (· + 1) h.pushed
  expanded := h.expanded
  visited := h.visited

omit [Std.LawfulEqOrd ι] [Std.LawfulEqOrd ι'] in
theorem erase (h : Mirrors Rel same p p') (q : Priority) :
    Mirrors Rel same { p with frontier := p.frontier.erase q }
      { p' with frontier := p'.frontier.erase q } where
  frontier q' := by
    show Option.Rel same (p.frontier.erase q)[q']? (p'.frontier.erase q)[q']?
    rw [Std.ExtTreeMap.getElem?_erase, Std.ExtTreeMap.getElem?_erase]
    split
    · exact .none
    · exact h.frontier q'
  known := h.known
  size := h.size
  pushed := h.pushed
  expanded := h.expanded
  visited := h.visited

omit [Std.LawfulEqOrd ι] [Std.LawfulEqOrd ι'] in
/-- The same entry comes first. -/
theorem first (h : Mirrors Rel same p p') :
    Option.Rel (fun entry entry' => entry'.1 = entry.1 ∧ same entry.2 entry'.2)
      p.frontier.first? p'.frontier.first? := by
  have mem {q : Priority} : q ∈ p'.frontier ↔ q ∈ p.frontier := by
    rw [Std.ExtTreeMap.mem_iff_isSome_getElem?, Std.ExtTreeMap.mem_iff_isSome_getElem?,
      isSome_congr (h.frontier q)]
  cases first : p.frontier.first? with
  | none =>
      have empty : p'.frontier = ∅ := Std.ExtTreeMap.eq_empty_iff_forall_not_mem.mpr fun q hq => by
        rw [mem, Frontier.first?_eq_none_iff.mp first] at hq
        exact Std.ExtTreeMap.not_mem_empty hq
      rw [Frontier.first?_eq_none_iff.mpr empty]
      exact .none
  | some entry =>
      obtain ⟨q, i⟩ := entry
      obtain ⟨hq, least⟩ := Frontier.first?_eq_some_iff.mp first
      have hq' := h.frontier q
      rw [hq] at hq'
      cases found : p'.frontier[q]? with
      | none => rw [found] at hq'; cases hq'
      | some i' =>
          rw [found] at hq'
          cases hq' with
          | some hi =>
              rw [Frontier.first?_eq_some_iff.mpr ⟨found, fun q' hq' => least q' (mem.mp hq')⟩]
              exact .some ⟨rfl, hi⟩

end Mirrors

theorem trail_rel (one : OneToOne same) (h : KnownRel Rel same known known') (bound : Nat)
    {last : Option ι} {last' : Option ι'} (hlast : Option.Rel same last last')
    {acc : List (PathStep S)} {acc' : List (PathStep S')}
    (hacc : List.Forall₂ (StepRel Rel) acc acc') :
    List.Forall₂ (StepRel Rel) (Progress.trail known bound last acc)
      (Progress.trail known' bound last' acc') := by
  induction bound generalizing known known' last last' acc acc' with
  | zero => exact hacc
  | succ bound ih =>
      cases hlast with
      | none => exact hacc
      | @some i i' hi =>
          have found := h i i' hi
          unfold Progress.trail
          cases hr : known[i]? with
          | none =>
              rw [hr] at found
              cases hr' : known'[i']? with
              | none => exact hacc
              | some r' => rw [hr'] at found; cases found
          | some r =>
              rw [hr] at found
              cases hr' : known'[i']? with
              | none => rw [hr'] at found; cases found
              | some r' =>
                  rw [hr'] at found
                  cases found with
                  | some hrec =>
                      exact ih (h.erase one hi) hrec.previous
                        (.cons ⟨hrec.action, hrec.state⟩ hacc)

theorem Mirrors.finish (one : OneToOne same) (h : Mirrors Rel same p p') {goal : Option ι}
    {goal' : Option ι'} (hgoal : Option.Rel same goal goal') (exhausted : Bool) :
    ResultRel Rel (p.finish goal exhausted) (p'.finish goal' exhausted) where
  steps := by
    show List.Forall₂ _ (Progress.trail _ _ _ _) (Progress.trail _ p'.known.size _ _)
    rw [h.size]
    exact trail_rel one h.known _ hgoal .nil
  counters := by
    show Counters.mk _ _ _ _ = Counters.mk _ _ _ _
    rw [h.size, h.expanded, h.visited]

/-! ### Spaces that are alike -/

/-- Asked about related states, the spaces give the same answers. -/
structure Alike (L : Lift ε ε' m m') (space : Space ε m S ι) (space' : Space ε' m' S' ι')
    (Rel : S → S' → Prop) : Prop where
  identity : ∀ {a a' b b'}, Rel a a' → Rel b b' →
    (space.identity a = space.identity b ↔ space'.identity a' = space'.identity b')
  isGoal : ∀ {a a'}, Rel a a' → L Bool Bool Eq (space.isGoal a) (space'.isGoal a')
  estimate : ∀ {a a'}, Rel a a' → L UInt32 UInt32 Eq (space.estimate a) (space'.estimate a')
  successors : ∀ {a a'}, Rel a a' → L (List (Edge S)) (List (Edge S'))
    (List.Forall₂ (EdgeRel Rel)) (space.successors a) (space'.successors a')

/-- Identities of related states. -/
def Same (space : Space ε m S ι) (space' : Space ε' m' S' ι') (Rel : S → S' → Prop) (i : ι)
    (i' : ι') : Prop :=
  ∃ a a', Rel a a' ∧ space.identity a = i ∧ space'.identity a' = i'

variable {L : Lift ε ε' m m'} {space : Space ε m S ι} {space' : Space ε' m' S' ι'}
variable {limit : Option Nat}

namespace Alike

omit [Monad m] [Monad m'] [Ord ι] [Ord ι'] [Std.TransOrd ι] [Std.TransOrd ι']
  [Std.LawfulEqOrd ι] [Std.LawfulEqOrd ι'] in
theorem oneToOne (sim : Alike L space space' Rel) : OneToOne (Same space space' Rel) := by
  rintro _ _ _ _ ⟨a, a', ha, rfl, rfl⟩ ⟨b, b', hb, rfl, rfl⟩
  exact sim.identity ha hb

theorem relax (lifts : Lifts L) (sim : Alike L space space' Rel) (hi : Same space space' Rel i i')
    (cost : UInt32) {e : Edge S} {e' : Edge S'} (h : Mirrors Rel (Same space space' Rel) p p')
    (he : EdgeRel Rel e e') : L _ _ (Mirrors Rel (Same space space' Rel))
      (relax space i cost p e) (relax space' i' cost p' e') := by
  have hid : Same space space' Rel (space.identity e.state) (space'.identity e'.state) :=
    ⟨_, _, he.state, rfl, rfl⟩
  have found := h.known _ _ hid
  unfold Search.relax
  simp only [he.cost]
  cases hr : p.known[space.identity e.state]? with
  | none =>
      rw [hr] at found
      cases hr' : p'.known[space'.identity e'.state]? with
      | some r' => rw [hr'] at found; cases found
      | none =>
          refine lifts.bind (sim.estimate he.state) ?_
          rintro estimate _ rfl
          refine lifts.pure ((h.note sim.oneToOne hid ?_).push hid _)
          exact ⟨he.state, rfl, rfl, .some hi, congrArg some he.action, rfl⟩
  | some r =>
      rw [hr] at found
      cases hr' : p'.known[space'.identity e'.state]? with
      | none => rw [hr'] at found; cases found
      | some r' =>
          rw [hr'] at found
          cases found with
          | some hrec =>
              simp only [hrec.visited, hrec.cost, hrec.estimate]
              split
              · exact lifts.pure h
              · refine lifts.pure ((h.note sim.oneToOne hid ?_).push hid _)
                exact ⟨hrec.state, rfl, rfl, .some hi, congrArg some he.action, rfl⟩

theorem expand (lifts : Lifts L) (sim : Alike L space space' Rel) (hi : Same space space' Rel i i')
    (h : Mirrors Rel (Same space space' Rel) p p')
    (hr : RecordRel Rel (Same space space' Rel) r r') :
    L _ _ (Mirrors Rel (Same space space' Rel)) (expand space p i r)
      (expand space' p' i' r') := by
  refine lifts.bind (sim.successors hr.state) fun {edges edges'} hedges => ?_
  rw [hr.cost, ← hedges.length_eq]
  refine lifts.foldlM (T := EdgeRel Rel) (fun h he => sim.relax lifts hi r.cost h he) hedges ?_
  have marked : RecordRel Rel (Same space space' Rel) { r with visited := true }
      { r' with cost := r.cost, visited := true } :=
    ⟨hr.state, hr.estimate, rfl, hr.previous, hr.action, rfl⟩
  have noted := h.note sim.oneToOne hi marked
  exact ⟨noted.frontier, noted.known, noted.size, noted.pushed,
    congrArg (· + 1) noted.expanded, congrArg (· + edges.length) noted.visited⟩

theorem turn (lifts : Lifts L) (sim : Alike L space space' Rel)
    (h : Mirrors Rel (Same space space' Rel) p p') :
    L _ _ (Sum.LiftRel (ResultRel Rel) (Mirrors Rel (Same space space' Rel)))
      (turn space limit p) (turn space' limit p') := by
  have first := h.first
  unfold Search.turn
  cases hq : p.frontier.first? with
  | none =>
      rw [hq] at first
      cases hq' : p'.frontier.first? with
      | some entry => rw [hq'] at first; cases first
      | none => exact lifts.pure (.inl (h.finish sim.oneToOne .none false))
  | some entry =>
      rw [hq] at first
      cases hq' : p'.frontier.first? with
      | none => rw [hq'] at first; cases first
      | some entry' =>
          rw [hq'] at first
          obtain ⟨q, i⟩ := entry
          obtain ⟨q', i'⟩ := entry'
          cases first with
          | some both =>
              obtain ⟨rfl, hi⟩ := both
              have taken := h.erase q'
              have found := h.known i i' hi
              simp only
              cases hr : p.known[i]? with
              | none =>
                  rw [hr] at found
                  cases hr' : p'.known[i']? with
                  | some r' => rw [hr'] at found; cases found
                  | none => exact lifts.pure (.inr taken)
              | some r =>
                  rw [hr] at found
                  cases hr' : p'.known[i']? with
                  | none => rw [hr'] at found; cases found
                  | some r' =>
                      rw [hr'] at found
                      cases found with
                      | some hrec =>
                          refine lifts.bind (sim.isGoal hrec.state) ?_
                          rintro goal _ rfl
                          simp only [hrec.visited, h.expanded] at taken ⊢
                          split
                          · exact lifts.pure (.inl (taken.finish sim.oneToOne (.some hi) false))
                          · split
                            · exact lifts.pure (.inr taken)
                            · split
                              · exact lifts.pure (.inl (taken.finish sim.oneToOne .none true))
                              · exact lifts.bind (sim.expand lifts hi taken hrec) fun h =>
                                  lifts.pure (.inr h)

theorem run (lifts : Lifts L) (sim : Alike L space space' Rel) (turns : Nat)
    (h : Mirrors Rel (Same space space' Rel) p p') :
    L _ _ (Sum.LiftRel (ResultRel Rel) (Mirrors Rel (Same space space' Rel)))
      (run space limit turns p) (run space' limit turns p') := by
  induction turns generalizing p p' with
  | zero => exact lifts.pure (.inr h)
  | succ turns ih =>
      refine lifts.bind (sim.turn lifts h) ?_
      rintro _ _ (hresult | h)
      · exact lifts.pure (.inl hresult)
      · exact ih h

theorem runRounds (lifts : Lifts L) (sim : Alike L space space' Rel) (rounds turns : Nat)
    (h : Mirrors Rel (Same space space' Rel) p p') :
    L _ _ (Option.Rel (ResultRel Rel)) (runRounds space limit rounds turns p)
      (runRounds space' limit rounds turns p') := by
  induction rounds generalizing p p' turns with
  | zero => exact lifts.pure .none
  | succ rounds ih =>
      refine lifts.bind (sim.run lifts turns h) ?_
      rintro _ _ (hresult | h)
      · exact lifts.pure (.some hresult)
      · exact ih (2 * turns) h

theorem start (lifts : Lifts L) (sim : Alike L space space' Rel) {s : S} {s' : S'} (hs : Rel s s') :
    L _ _ (Mirrors Rel (Same space space' Rel)) (start space s) (start space' s') := by
  have hid : Same space space' Rel (space.identity s) (space'.identity s') :=
    ⟨_, _, hs, rfl, rfl⟩
  have empty : Mirrors Rel (Same space space' Rel) ({} : Progress S ι) ({} : Progress S' ι') := by
    refine ⟨fun q => ?_, fun i i' hi => ?_, rfl, rfl, rfl, rfl⟩
    · show Option.Rel _ (∅ : Frontier ι)[q]? (∅ : Frontier ι')[q]?
      rw [Std.ExtTreeMap.getElem?_empty, Std.ExtTreeMap.getElem?_empty]
      exact .none
    · rw [Std.ExtTreeMap.getElem?_empty, Std.ExtTreeMap.getElem?_empty]
      exact .none
  refine lifts.bind (sim.estimate hs) ?_
  rintro estimate _ rfl
  exact lifts.pure ((empty.note sim.oneToOne hid ⟨hs, rfl, rfl, .none, rfl, rfl⟩).push hid estimate)

/-- **Searches of like spaces** take the same actions through related states, and count the same. -/
theorem search (lifts : Lifts L) (sim : Alike L space space' Rel) (rounds : Nat) {s : S} {s' : S'}
    (hs : Rel s s') :
    L _ _ (Option.Rel (ResultRel Rel)) (search space limit rounds s)
      (search space' limit rounds s') :=
  lifts.bind (sim.start lifts hs) fun h => sim.runRounds lifts rounds 1 h

end Alike

/-- Where `space` has an answer, `space'` has the same about a related state. -/
structure Simulates (space : Space ε Id S ι) (space' : Space ε' Id S' ι') (Rel : S → S' → Prop) :
    Prop where
  identity : ∀ {a a' b b'}, Rel a a' → Rel b b' →
    (space.identity a = space.identity b ↔ space'.identity a' = space'.identity b')
  isGoal : ∀ {a a'}, Rel a a' → Follows Eq (space.isGoal a) (space'.isGoal a')
  estimate : ∀ {a a'}, Rel a a' → Follows Eq (space.estimate a) (space'.estimate a')
  successors : ∀ {a a'}, Rel a a' →
    Follows (List.Forall₂ (EdgeRel Rel)) (space.successors a) (space'.successors a')

/-- A search of a space that simulates another one follows a search of that one. -/
theorem Simulates.search {space : Space ε Id S ι} {space' : Space ε' Id S' ι'}
    (sim : Simulates space space' Rel) (rounds : Nat) {s : S} {s' : S'} (hs : Rel s s') :
    Follows (Option.Rel (ResultRel Rel)) (search space limit rounds s)
      (search space' limit rounds s') :=
  Alike.search Follows.lifts ⟨sim.identity, sim.isGoal, sim.estimate, sim.successors⟩ rounds hs

end ClassicalPlanner.Search
