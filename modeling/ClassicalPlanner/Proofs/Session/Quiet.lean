import ClassicalPlanner.Proofs.Session.Effect

/-!
# Deciding what has been collected

Evaluation registers instances of quantifiers, and so does collecting an effect.  Evaluation stops
as soon as the answer is known, a collection does not stop.  So after a formula has been collected,
all instances that it takes to decide it are there, and deciding it is `Quiet` (`quiet_evaluate`):
it adds nothing, and needs no numbers.
-/

namespace ClassicalPlanner

namespace Session

variable {s s' F : Session} {k : Key} {w : World} {c c' : Changes} {α β : Type}

/-- The operation adds nothing, and does not fail for want of numbers. -/
def Quiet (F : Session) (x : SessionM α) : Prop :=
  (x F).2 = F ∧ (x F).1 ≠ .error .outOfNumbers

namespace Quiet

theorem pure (b : α) : Quiet F (pure b : SessionM α) := ⟨rfl, nofun⟩

theorem bind {x : SessionM α} {f : α → SessionM β} (hx : Quiet F x) (hf : ∀ b, Quiet F (f b)) :
    Quiet F (x >>= f) := by
  unfold Quiet at hx ⊢
  rw [run_bind]
  rcases result : x F with ⟨e | b, s⟩ <;> rw [result] at hx
  · exact ⟨hx.1, fun h => hx.2 (congrArg Except.error (Except.error.inj h))⟩
  · obtain rfl : s = F := hx.1
    exact hf b

/-- What comes after a result that is known. -/
theorem after {x : SessionM α} {f : α → SessionM β} {b : α} (hx : x F = (.ok b, F))
    (hf : Quiet F (f b)) : Quiet F (x >>= f) := by
  unfold Quiet
  rw [run_bind, hx]
  exact hf

theorem allM {f : Key → SessionM Bool} {ks : List Key} (each : ∀ k ∈ ks, Quiet F (f k)) :
    Quiet F (ks.allM f) := by
  induction ks with
  | nil => exact pure true
  | cons k ks ih =>
      obtain ⟨first, rest⟩ := List.forall_mem_cons.mp each
      refine bind first fun b => ?_
      cases b with
      | true => exact ih rest
      | false => exact pure false

end Quiet

theorem quiet_holds (hw : F.HasWorld w) (k : Key) : Quiet F (holds w k) := by
  obtain ⟨a, found⟩ := hw
  exact .after (atoms_eq_ok_iff.mpr ⟨found, rfl⟩) (.pure _)

/-- A fold that has come to its end has taken each member, in some session on the way. -/
theorem foldlM_visits {f : β → α → SessionM β} {l : List α} {b b' : β} (hs : s.Canonical)
    (additive : ∀ b a, Additive (f b a)) (h : l.foldlM f b s = (.ok b', s')) {a : α} (ha : a ∈ l) :
    ∃ b₁ b₂ s₁ s₂, s₁.Canonical ∧ f b₁ a s₁ = (.ok b₂, s₂) ∧ s₂ ≤ s' := by
  induction l generalizing s b with
  | nil => exact absurd ha List.not_mem_nil
  | cons a' l ih =>
      obtain ⟨b₁, s₁, h₁, h₂⟩ := run_bind_eq_ok.mp h
      obtain ⟨-, fits⟩ := (additive b a').of_run hs h₁
      rcases List.mem_cons.mp ha with rfl | ha
      · exact ⟨b, b₁, s, s₁, hs, h₁, ((Additive.foldlM additive l b₁).of_run fits h₂).1⟩
      · exact ih fits h₂ ha

/-- Once a formula has been collected as an effect, all instances that it takes to decide it are
there. -/
theorem quiet_evaluateWithin {n : Nat} {g : Key → SessionM Bool} (again : ∀ k, Repeats (g k) (g k))
    (hs : s.Canonical) (h : changesFrom c (collectWithin g n k) s = (.ok c', s'))
    (hF : F.Canonical) (grow : s' ≤ F) (hw : F.HasWorld w) : Quiet F (evaluateWithin w n k) := by
  induction n generalizing s s' c c' k with
  | zero => cases h
  | succ n ih =>
      have additive (c : Changes) (k : Key) : Additive (changesFrom c (collectWithin g n k)) :=
        (repeats_collectWithin again (Nat.le_refl n)).additive
      have all {ks : List Key} {s₁ : Session} (fits : s₁.Canonical)
          (h : ks.foldlM (fun c k => changesFrom c (collectWithin g n k)) c s₁ = (.ok c', s')) :
          Quiet F (ks.allM (evaluateWithin w n)) := .allM fun k hk => by
        obtain ⟨_, _, s₂, s₃, fits, h, le⟩ := foldlM_visits fits additive h hk
        exact ih fits h (le.trans grow)
      obtain ⟨more, -⟩ := (repeats_collectWithin again (Nat.le_refl (n + 1))).additive.of_run hs h
      rw [changesFrom_collectWithin] at h
      obtain ⟨node, s₁, hnode, h⟩ := run_bind_eq_ok.mp h
      obtain ⟨found, rfl⟩ := node_eq_ok hnode
      refine .after (run_node ((more.trans grow).store.nodes found)) ?_
      cases node with
      | atom p terms => exact quiet_holds hw k
      | and parts => exact all hs h
      | not part =>
          obtain ⟨c₁, s₂, h, rest⟩ := run_bind_eq_ok.mp h
          cases rest
          exact .bind (ih hs h grow) fun _ => .pure _
      | when guard effect => exact ⟨rfl, nofun⟩
      | universal b body =>
          obtain ⟨ks, s₂, hks, h⟩ := run_bind_eq_ok.mp h
          obtain ⟨-, fits⟩ := (settles_instances b body).additive.of_run hs hks
          obtain ⟨le, -⟩ := (Additive.foldlM additive ks c).of_run fits h
          exact .after ((settles_instances b body).again hs hks hF (le.trans grow)) (all fits h)
      | _ => cases h

theorem quiet_evaluate (hs : s.Canonical) (h : changesFrom c (collectAll k) s = (.ok c', s'))
    (hF : F.Canonical) (grow : s' ≤ F) (hw : F.HasWorld w) : Quiet F (evaluate k w) :=
  -- collected once more in the later session, the formula is bounded as evaluation there is
  quiet_evaluateWithin (fun _ => .pure true) hF ((settles_collectAll c k).again hs h hF grow) hF
    (le_refl F) hw

end Session

end ClassicalPlanner
