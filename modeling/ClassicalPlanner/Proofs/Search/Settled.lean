import ClassicalPlanner.Proofs.Search.Composition
import ClassicalPlanner.Proofs.Search.Turn
import ClassicalPlanner.Proofs.Session.Growth

/-!
# Searches that register as they go

The answers of a space may depend on a session and add to it.  If they settle, a search that
succeeds could have been run in the session that it leaves: there each question asked has the same
answer again, and nothing is added.  So it is a search of a space whose answers depend on the state
alone (`Space.settled`), and all that is known of such searches holds of it (`echoes_search`).
-/

namespace ClassicalPlanner

open Session

variable {ε α β State ι : Type} {F s s' : Session}

/-! ### Settled answers -/

open Classical in
/-- What an operation gives in a session to which it adds nothing. -/
noncomputable def settled (F : Session) (x : ExceptT ε (StateM Session) α) : ExceptT Unit Id α :=
  match x F with
  | (.ok a, s) => if s = F then pure a else throw ()
  | (.error _, _) => throw ()

theorem settled_eq_ok {x : ExceptT ε (StateM Session) α} {a : α} :
    settled F x = Except.ok a ↔ x F = (.ok a, F) := by
  unfold settled
  rcases x F with ⟨e | b, s⟩
  · exact iff_of_false (fun h => by cases h) fun h => by cases h
  · by_cases same : s = F
    · subst same
      simp only [if_true]
      exact ⟨fun h => by cases h; rfl, fun h => by cases h; rfl⟩
    · simp only [if_neg same]
      exact iff_of_false (fun h => by cases h) fun h => same (Prod.mk.inj h).2

/-- In every session up to `F`, `x` gives what `x'` gives, or fails. -/
structure Echoes (F : Session) (x : ExceptT ε (StateM Session) α) (x' : ExceptT Unit Id α) :
    Prop where
  additive : Additive x
  echo : ∀ {s a s'}, s.Canonical → x s = (.ok a, s') → s' ≤ F → x' = Except.ok a

theorem Session.Settles.echoes {x : ExceptT ε (StateM Session) α} (h : Settles x x)
    (hF : F.Canonical) : Echoes F x (settled F x) :=
  ⟨h.additive, fun hs hx grow => settled_eq_ok.mpr (h.again hs hx hF grow)⟩

namespace Echoes

theorem pure (a : α) : Echoes F (pure a : ExceptT ε (StateM Session) α) (pure a) :=
  ⟨.pure a, fun _ h _ => by cases h; rfl⟩

theorem bind {x : ExceptT ε (StateM Session) α} {x' : ExceptT Unit Id α}
    {f : α → ExceptT ε (StateM Session) β} {f' : α → ExceptT Unit Id β} (hx : Echoes F x x')
    (hf : ∀ a, Echoes F (f a) (f' a)) : Echoes F (x >>= f) (x' >>= f') := by
  refine ⟨.bind hx.additive fun a => (hf a).additive, fun {s b s'} hs h grow => ?_⟩
  obtain ⟨a, s₁, h₁, h₂⟩ := run_bind_eq_ok.mp h
  obtain ⟨-, fits⟩ := hx.additive.of_run hs h₁
  obtain ⟨grow', -⟩ := (hf a).additive.of_run fits h₂
  exact bind_eq_ok.mpr ⟨a, hx.echo hs h₁ (grow'.trans grow), (hf a).echo fits h₂ grow⟩

theorem composes : Search.Composes fun α (x : ExceptT ε (StateM Session) α) x' => Echoes F x x' :=
  ⟨pure, bind⟩

end Echoes

/-! ### Spaces whose answers settle -/

/-- The space with the answers that a session has settled. -/
noncomputable def Space.settled (space : Space ε (StateM Session) State ι) (F : Session) :
    Space Unit Id State ι where
  identity := space.identity
  isGoal s := ClassicalPlanner.settled F (space.isGoal s)
  estimate s := ClassicalPlanner.settled F (space.estimate s)
  successors s := ClassicalPlanner.settled F (space.successors s)

/-- All answers of the space settle. -/
structure Space.Settles (space : Space ε (StateM Session) State ι) : Prop where
  isGoal : ∀ s, Session.Settles (space.isGoal s) (space.isGoal s)
  estimate : ∀ s, Session.Settles (space.estimate s) (space.estimate s)
  successors : ∀ s, Session.Settles (space.successors s) (space.successors s)

/-- **A search that registers** as it goes is, if it succeeds, a search of the space with the
answers settled in the session that it leaves, or any later one. -/
theorem echoes_search [Ord ι] [Std.TransOrd ι] {space : Space ε (StateM Session) State ι}
    (h : space.Settles) (hF : F.Canonical) (limit : Option Nat) (rounds : Nat) (s : State) :
    Echoes F (search space limit rounds s) (search (space.settled F) limit rounds s) :=
  Echoes.composes.search ⟨rfl, fun s => (h.isGoal s).echoes hF,
    fun s => (h.estimate s).echoes hF, fun s => (h.successors s).echoes hF⟩ rounds s

end ClassicalPlanner
