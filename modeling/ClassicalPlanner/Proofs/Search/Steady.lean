import ClassicalPlanner.Proofs.Search.Composition

/-!
# Spaces that answer about the state alone

A space may remember things as it is asked, and change them.  It is steady if its answers do not
show this: while some fact `keeps` holds of what it remembers, each answer is that of a space
`answers` that remembers nothing, and `keeps` goes on to hold.

A search of a steady space is a search of `answers` (`Space.Steady.search_eq`), and asks the same
questions (`Space.Steady.search_traced_eq`).  A space that writes its questions down is steady
(`Space.steady_traced`).
-/

namespace ClassicalPlanner

variable {ε σ τ α β State ι : Type} {keeps : σ → Prop}

/-! ### Operations with one result -/

/-- While `keeps` holds of what is remembered, the operation gives `b`, and `keeps` goes on to
hold. -/
def Gives (keeps : σ → Prop) (x : StateM σ β) (b : β) : Prop :=
  ∀ w, keeps w → (x w).1 = b ∧ keeps (x w).2

namespace Gives

theorem pure (b : β) : Gives keeps (pure b) b := fun _ hw => ⟨rfl, hw⟩

theorem bind {x : StateM σ α} {a : α} {f : α → StateM σ β} {b : β} (hx : Gives keeps x a)
    (hf : Gives keeps (f a) b) : Gives keeps (x >>= f) b := by
  intro w hw
  obtain ⟨rfl, hw'⟩ := hx w hw
  exact hf _ hw'

theorem eq_of_run {x : StateM σ β} {b b' : β} {w w' : σ} (h : Gives keeps x b) (hw : keeps w)
    (run : x w = (b', w')) : b = b' := by
  rw [← (h w hw).1, run]

theorem composes : Search.Composes fun _ (x : ExceptT ε (StateM σ) _) (x' : ExceptT ε Id _) =>
    Gives keeps x x' where
  pure a := Gives.pure (Except.ok a)
  bind {α β x x' f f'} hx hf := by
    show Gives keeps (StateT.bind x (ExceptT.bindCont f)) (ExceptT.bindCont f' x')
    refine Gives.bind hx ?_
    rcases x' with e | a
    · exact Gives.pure _
    · exact hf a

/-- The same of operations that carry something along, and show it. -/
theorem composes_carrying : Search.Composes fun _ (x : ExceptT ε (StateT τ (StateM σ)) _)
    (x' : ExceptT ε (StateM τ) _) => ∀ c, Gives keeps (x c) (x' c) where
  pure a c := Gives.pure (Except.ok a, c)
  bind {α β x x' f f'} hx hf := by
    intro c
    show Gives keeps (StateT.bind (x c) fun r => ExceptT.bindCont f r.1 r.2)
      (ExceptT.bindCont f' (x' c).1 (x' c).2)
    refine Gives.bind (hx c) ?_
    rcases x' c with ⟨e | a, c'⟩
    · exact Gives.pure _
    · exact hf a c'

end Gives

/-! ### Steady spaces -/

namespace Space

/-- Whatever the space remembers, if `keeps` holds of it, its answers are those of `answers`. -/
abbrev Steady (space : Space ε (StateM σ) State ι) (keeps : σ → Prop)
    (answers : Space ε Id State ι) : Prop :=
  Search.Related (fun _ (x : ExceptT ε (StateM σ) _) (x' : ExceptT ε Id _) => Gives keeps x x')
    space answers

/-- Writing the questions down does not change the answers. -/
theorem steady_traced (space : Space ε Id State ι) : space.traced.Steady (fun _ => True) space :=
  ⟨rfl, fun _ _ _ => ⟨rfl, trivial⟩, fun _ _ _ => ⟨rfl, trivial⟩, fun _ _ _ => ⟨rfl, trivial⟩⟩

namespace Steady

variable {space : Space ε (StateM σ) State ι} {answers : Space ε Id State ι}
variable [Ord ι] [Std.TransOrd ι] {limit : Option Nat} {rounds : Nat} {s : State} {w : σ}

/-- **A search of a steady space** gives what a search of the answers gives. -/
theorem search_eq (h : space.Steady keeps answers) (hw : keeps w) :
    (search space limit rounds s w).1 = search answers limit rounds s :=
  (Gives.composes.search h rounds s w hw).1

/-- **The questions** that a search asks a steady space depend on the answers alone. -/
theorem search_traced_eq (h : space.Steady keeps answers) (hw : keeps w)
    (calls : Array (Call State)) : (search space.traced limit rounds s calls w).1 =
      search answers.traced limit rounds s calls := by
  have traced : Search.Related (fun _ (x : ExceptT ε (StateT (Array (Call State)) (StateM σ)) _)
      (x' : ExceptT ε (StateM (Array (Call State))) _) => ∀ c, Gives keeps (x c) (x' c))
      space.traced answers.traced :=
    ⟨h.identity, fun s _ => .bind (h.isGoal s) (.pure _), fun s _ => .bind (h.estimate s) (.pure _),
      fun s _ => .bind (h.successors s) (.pure _)⟩
  exact (Gives.composes_carrying.search traced rounds s calls w hw).1

end Steady

end Space

end ClassicalPlanner
