import ClassicalPlanner.Search.AStar

/-!
# Searches are put together from answers

A search does nothing to the state of a space but ask its questions.  So what holds of the answers
of a space, or relates the answers of two spaces, holds of a search or relates two searches, if it
is kept by returning a value and by doing one thing after another (`Composes.search`).
-/

namespace ClassicalPlanner.Search

variable {ε ε' : Type} {m m' : Type → Type} [Monad m] [Monad m']

/-- A relation between operations that give the same type of result. -/
abbrev Relation (ε ε' : Type) (m m' : Type → Type) :=
  ∀ α : Type, ExceptT ε m α → ExceptT ε' m' α → Prop

/-- The relation is kept by returning a value and by doing one thing after another. -/
structure Composes (R : Relation ε ε' m m') : Prop where
  pure : ∀ {α : Type} (a : α), R α (pure a) (pure a)
  bind : ∀ {α β : Type} {x : ExceptT ε m α} {x' : ExceptT ε' m' α} {f : α → ExceptT ε m β}
    {f' : α → ExceptT ε' m' β}, R α x x' → (∀ a, R β (f a) (f' a)) → R β (x >>= f) (x' >>= f')

variable {State ι : Type}

/-- The two spaces have the same states, and their answers are related. -/
structure Related (R : Relation ε ε' m m') (space : Space ε m State ι)
    (space' : Space ε' m' State ι) : Prop where
  identity : space'.identity = space.identity
  isGoal : ∀ s, R Bool (space.isGoal s) (space'.isGoal s)
  estimate : ∀ s, R UInt32 (space.estimate s) (space'.estimate s)
  successors : ∀ s, R (List (Edge State)) (space.successors s) (space'.successors s)

namespace Composes

variable {R : Relation ε ε' m m'} {space : Space ε m State ι} {space' : Space ε' m' State ι}

theorem foldlM {α β : Type} (h : Composes R) {f : α → β → ExceptT ε m α}
    {f' : α → β → ExceptT ε' m' α} (hf : ∀ a b, R α (f a b) (f' a b)) (l : List β) (a : α) :
    R α (l.foldlM f a) (l.foldlM f' a) := by
  induction l generalizing a with
  | nil => exact h.pure a
  | cons b l ih => exact h.bind (hf a b) ih

variable [Ord ι] [Std.TransOrd ι] {limit : Option Nat}

theorem relax (h : Composes R) (answers : Related R space space') (previous : ι) (cost : UInt32)
    (p : Progress State ι) (e : Edge State) :
    R _ (relax space previous cost p e) (relax space' previous cost p e) := by
  unfold Search.relax
  simp only [answers.identity]
  split
  · exact h.bind (answers.estimate e.state) fun _ => h.pure _
  · split
    · exact h.pure p
    · exact h.pure _

theorem expand (h : Composes R) (answers : Related R space space') (p : Progress State ι) (i : ι)
    (r : Record State ι) : R _ (expand space p i r) (expand space' p i r) :=
  h.bind (answers.successors r.state) fun edges => h.foldlM (h.relax answers i r.cost) edges _

theorem turn (h : Composes R) (answers : Related R space space') (p : Progress State ι) :
    R _ (turn space limit p) (turn space' limit p) := by
  unfold Search.turn
  split
  · exact h.pure _
  · simp only
    split
    · exact h.pure _
    · rename_i r _
      refine h.bind (answers.isGoal r.state) fun goal => ?_
      split
      · exact h.pure _
      · split
        · exact h.pure _
        · split
          · exact h.pure _
          · exact h.bind (h.expand answers _ _ r) fun _ => h.pure _

theorem run (h : Composes R) (answers : Related R space space') (turns : Nat)
    (p : Progress State ι) : R _ (run space limit turns p) (run space' limit turns p) := by
  induction turns generalizing p with
  | zero => exact h.pure _
  | succ turns ih =>
      refine h.bind (h.turn answers p) fun out => ?_
      cases out with
      | inl result => exact h.pure _
      | inr p => exact ih p

theorem runRounds (h : Composes R) (answers : Related R space space') (rounds turns : Nat)
    (p : Progress State ι) :
    R _ (runRounds space limit rounds turns p) (runRounds space' limit rounds turns p) := by
  induction rounds generalizing turns p with
  | zero => exact h.pure none
  | succ rounds ih =>
      refine h.bind (h.run answers turns p) fun out => ?_
      cases out with
      | inl result => exact h.pure _
      | inr p => exact ih (2 * turns) p

theorem start (h : Composes R) (answers : Related R space space') (s : State) :
    R _ (start space s) (start space' s) := by
  unfold Search.start
  simp only [answers.identity]
  exact h.bind (answers.estimate s) fun _ => h.pure _

/-- **What relates the answers relates the searches.** -/
theorem search (h : Composes R) (answers : Related R space space') (rounds : Nat) (s : State) :
    R _ (search space limit rounds s) (search space' limit rounds s) :=
  h.bind (h.start answers s) (h.runRounds answers rounds 1)

end Composes

end ClassicalPlanner.Search
