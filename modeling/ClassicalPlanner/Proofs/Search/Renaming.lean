import ClassicalPlanner.Proofs.Search.Simulation
import ClassicalPlanner.Proofs.Search.Path

/-!
# Searches do not see how states are numbered

A search keeps what it knows of a state under the identity of the state, in a map that is ordered by
identities, and the entries of the frontier carry identities too.  Neither order decides anything:
entries are taken by their sums of costs, and among equal sums by the order in which they were
pushed.

So if each identity is replaced by another, no two by the same, a search is the same program as
before (`search_renamed`): it asks the same questions in the same order, does the same to what the
space remembers, and comes to the same path and counters or fails in the same way.

The two searches are compared by what may follow them.  Programs are coupled along a relation of
their results if they may be exchanged in front of any two programs that do the same with related
results (`Couples`); programs coupled along equality are equal.
-/

namespace ClassicalPlanner

variable {ε S ι ι' : Type} {m : Type → Type}

/-- The space in which each identity is replaced by its image. -/
def Space.renamed (space : Space ε m S ι) (f : ι → ι') : Space ε m S ι' :=
  { space with identity := fun s => f (space.identity s) }

namespace Search

variable [Monad m]

/-! ### Coupled programs -/

/-- The programs may be exchanged in front of any two that do the same with related results. -/
def Couples {α α' : Type} (R : α → α' → Prop) (x : ExceptT ε m α) (x' : ExceptT ε m α') : Prop :=
  ∀ (β : Type) (f : α → ExceptT ε m β) (f' : α' → ExceptT ε m β),
    (∀ {a a'}, R a a' → f a = f' a') → x >>= f = x' >>= f'

namespace Couples

variable {α : Type} {x x' : ExceptT ε m α}

/-- A program is coupled with itself along a reflexive relation. -/
theorem refl {R : α → α → Prop} (h : ∀ a, R a a) (x : ExceptT ε m α) : Couples R x x :=
  fun _ _ _ same => congrArg (x >>= ·) (funext fun a => same (h a))

variable [LawfulMonad m]

theorem lifts : Lifts fun α α' R (x : ExceptT ε m α) (x' : ExceptT ε m α') => Couples R x x' where
  pure rel _ f f' same := by
    rw [pure_bind, pure_bind]
    exact same rel
  bind hx hf γ g g' same := by
    rw [bind_assoc, bind_assoc]
    exact hx γ _ _ fun rel => hf rel γ g g' same

/-- Programs that are coupled along equality are equal. -/
theorem eq {R : α → α → Prop} (h : Couples R x x') (equal : ∀ {a a'}, R a a' → a = a') :
    x = x' := by
  have ends : x >>= pure = x' >>= pure := h α pure pure fun rel => congrArg pure (equal rel)
  rwa [bind_pure, bind_pure] at ends

end Couples

/-! ### Renamed spaces -/

variable [LawfulMonad m] [Ord ι] [Ord ι'] [Std.TransOrd ι] [Std.TransOrd ι']
variable [Std.LawfulEqOrd ι] [Std.LawfulEqOrd ι'] {f : ι → ι'}

omit [LawfulMonad m] [Ord ι] [Ord ι'] [Std.TransOrd ι] [Std.TransOrd ι'] [Std.LawfulEqOrd ι]
  [Std.LawfulEqOrd ι'] in
theorem alike_renamed (one : Function.Injective f) (space : Space ε m S ι) :
    Alike (fun α α' R (x : ExceptT ε m α) (x' : ExceptT ε m α') => Couples R x x') space
      (space.renamed f) Eq where
  identity := by
    rintro a _ b _ rfl rfl
    exact one.eq_iff.symm
  isGoal := by
    rintro s _ rfl
    exact Couples.refl (fun _ => rfl) _
  estimate := by
    rintro s _ rfl
    exact Couples.refl (fun _ => rfl) _
  successors := by
    rintro s _ rfl
    exact Couples.refl (fun edges => List.forall₂_same.mpr fun _ _ => ⟨rfl, rfl, rfl⟩) _

theorem StepRel.eq {step step' : PathStep S} (h : StepRel Eq step step') : step = step' := by
  obtain ⟨action, s⟩ := step
  obtain ⟨action', s'⟩ := step'
  obtain ⟨hAction, hState⟩ := h
  dsimp only at hAction hState
  rw [hAction, hState]

/-- Equal counters and equal steps make equal results. -/
theorem ResultRel.eq {result result' : Path S × Counters} (h : ResultRel Eq result result') :
    result = result' := by
  obtain ⟨⟨steps⟩, counters⟩ := result
  obtain ⟨⟨steps'⟩, counters'⟩ := result'
  obtain ⟨rel, rfl⟩ := h
  have same : List.Forall₂ Eq steps steps' := List.Forall₂.imp (fun _ _ => StepRel.eq) rel
  rw [List.forall₂_eq_eq_eq] at same
  rw [same]

/-- **A search does not see how states are numbered.**  The search of the renamed space is the same
program, also where it writes down the questions that it asks. -/
theorem search_renamed (one : Function.Injective f) (space : Space ε m S ι) (limit : Option Nat)
    (rounds : Nat) (s : S) :
    search (space.renamed f) limit rounds s = search space limit rounds s ∧
      search (space.renamed f).traced limit rounds s = search space.traced limit rounds s := by
  have same {m : Type → Type} [Monad m] [LawfulMonad m] (space : Space ε m S ι) :
      search (space.renamed f) limit rounds s = search space limit rounds s := by
    refine ((alike_renamed one space).search Couples.lifts rounds rfl).eq ?_ |>.symm
    rintro _ _ (rel | _)
    · exact congrArg some rel.eq
    · rfl
  exact ⟨same space, same space.traced⟩

end Search

open ClassicalPlanner.Graph in
/-- Numbered in the opposite order, the states are asked about in the same order and the same path
is found. -/
theorem Search.search_renamed_negated : Function.Injective (fun i : Int => -i) ∧
    search (overtaken.space.renamed (fun i : Int => -i)).traced (some 3) 6 0 #[] =
      (.ok (some (overtakenPath, { known := 4, expanded := 3, visited := 6 })), overtakenCalls) := by
  have one : Function.Injective (fun i : Int => -i) := fun _ _ => Int.neg_inj.mp
  obtain ⟨-, same⟩ := Search.search_renamed one overtaken.space (some 3) 6 0
  have result : (search overtaken.space.traced (some 3) 6 0 #[]).1 =
      .ok (some (overtakenPath, { known := 4, expanded := 3, visited := 6 })) := by decide
  have calls : (search overtaken.space.traced (some 3) 6 0 #[]).2 = overtakenCalls := by
    decide
  refine ⟨one, ?_⟩
  rw [same]
  exact Prod.ext result calls

end ClassicalPlanner
