import ClassicalPlanner.Task.ActionTable
import ClassicalPlanner.Proofs.Session.Effect

/-!
# Execution of ground actions

`Executes s w acts s' w'` says that the actions run one after the other: each precondition is found
true, and each effect applied, in the session that the one before has left.

`step_reads` says what one step does to the trees that hold in a world.
-/

namespace ClassicalPlanner

namespace Session

variable {s s₁ s' F : Session} {w w' : World} {W : Finset Tree} {a : GroundAction}
variable {acts : List GroundAction}

/-- The actions run one after the other, from the world `w` of the session `s` to `w'`. -/
inductive Executes : Session → World → List GroundAction → Session → World → Prop where
  | nil (s : Session) (w : World) : Executes s w [] s w
  | cons {s s₁ s₂ s' : Session} {w w₁ w' : World} {a : GroundAction} {acts : List GroundAction}
      (holds : evaluate a.precondition w s = (.ok true, s₁))
      (next : apply w a.effect s₁ = (.ok w₁, s₂))
      (rest : Executes s₂ w₁ acts s' w') : Executes s w (a :: acts) s' w'

theorem Executes.additive (h : Executes s w acts s' w') (hs : s.Canonical) :
    s ≤ s' ∧ s'.Canonical := by
  induction h with
  | nil => exact ⟨le_refl _, hs⟩
  | cons holds next _ ih =>
      obtain ⟨grow, fits⟩ := (settles_evaluate _ _).additive.of_run hs holds
      obtain ⟨grow', fits'⟩ := (settles_apply _ _).additive.of_run fits next
      obtain ⟨grow'', fits''⟩ := ih fits'
      exact ⟨grow.trans (grow'.trans grow''), fits''⟩

/-- In `F`, the precondition and the effect of an action denote trees. -/
structure Means (F : Session) (a : GroundAction) (p e : Tree) : Prop where
  precondition : F.store.Denotes a.precondition p
  effect : F.store.Denotes a.effect e

theorem Means.mono {p e : Tree} (h : s.Means a p e) (grow : s ≤ s') : s'.Means a p e :=
  ⟨h.precondition.mono grow.store, h.effect.mono grow.store⟩

/-- What a step does to the trees that hold. -/
theorem step_reads {s₂ : Session} (hs : s.Canonical) (hF : F.Canonical)
    (holds : evaluate a.precondition w s = (.ok true, s₁))
    (next : apply w a.effect s₁ = (.ok w', s₂)) (grow : s₂ ≤ F) (hw : Reads F s w W) :
    ∃ p e d, F.Means a p e ∧ Tree.truth F.members W p = .ok true ∧
      Tree.change F.members W e = .ok d ∧ Reads F s₂ w' (d.applyTo W) := by
  obtain ⟨p, hp, -⟩ := hs.exists_denotes (contains_of_evaluate holds)
  obtain ⟨grow₁, fits₁⟩ := (settles_evaluate a.precondition w).additive.of_run hs holds
  obtain ⟨e, he, -⟩ := fits₁.exists_denotes (contains_of_apply next)
  obtain ⟨grow₂, -⟩ := (settles_apply w a.effect).additive.of_run fits₁ next
  have most := grow₂.trans grow
  obtain ⟨d, hd, hw'⟩ := apply_eq_ok_of_reads fits₁ hF he (hw.mono grow₁) next grow
  refine ⟨p, e, d, ⟨hp.mono (grow₁.trans most).store, he.mono most.store⟩, ?_, ?_, hw'⟩
  · rw [funext (grow₁.trans most).members]
    exact evaluate_eq_ok hs hp holds most hw
  · rw [funext most.members]
    exact hd

end Session

end ClassicalPlanner
