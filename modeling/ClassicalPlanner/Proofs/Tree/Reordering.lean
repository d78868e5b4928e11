import ClassicalPlanner.Proofs.Formula.Denotation
import ClassicalPlanner.Proofs.Tree.Effect

/-!
# Conjuncts in another order

`Reordered t t'` says that the conditions and effects in `t'` are those in `t`, with the parts of
any conjunctions in another order, at any depth.  The terms of an atom and the two sides of an
equation are no conditions, so they stay as they are.

The order decides whether there is an answer at all: a part that is no condition is not looked at if
it stands behind one that is false.  But two answers are never different ones.  That is what `Agree`
says of two results, and all that conditions and effects are put together with keeps it
(`truth_reordered`, `change_reordered`).
-/

namespace ClassicalPlanner

/-! ### Results that agree -/

section Agree

variable {ε α β γ : Type}

/-- If both are values, they are the same. -/
def Agree (r r' : Except ε α) : Prop := ∀ ⦃a a'⦄, r = .ok a → r' = .ok a' → a = a'

/-- Each member of one list has a partner in the other. -/
structure Partners (R : α → β → Prop) (l : List α) (m : List β) : Prop where
  left : ∀ a ∈ l, ∃ b ∈ m, R a b
  right : ∀ b ∈ m, ∃ a ∈ l, R a b

namespace Partners

variable {R S : α → β → Prop} {l : List α} {m m' : List β}

theorem of_forall₂ (h : List.Forall₂ R l m) : Partners R l m where
  left _ ha := NodeStore.forall₂_exists_right h ha
  right _ hb := NodeStore.forall₂_exists_right h.flip hb

theorem perm (h : Partners R l m) (hm : m.Perm m') : Partners R l m' where
  left a ha :=
    have ⟨b, hb, hab⟩ := h.left a ha
    ⟨b, hm.mem_iff.mp hb, hab⟩
  right b hb := h.right b (hm.mem_iff.mpr hb)

theorem imp (h : Partners R l m) (hRS : ∀ a b, R a b → S a b) : Partners S l m where
  left a ha :=
    have ⟨b, hb, hab⟩ := h.left a ha
    ⟨b, hb, hRS a b hab⟩
  right b hb :=
    have ⟨a, ha, hab⟩ := h.right b hb
    ⟨a, ha, hRS a b hab⟩

/-- Members made from the same thing are partners. -/
theorem map {f : γ → α} {g : γ → β} {l : List γ} (h : ∀ c, R (f c) (g c)) :
    Partners R (l.map f) (l.map g) where
  left a ha := by
    obtain ⟨c, hc, rfl⟩ := List.mem_map.mp ha
    exact ⟨g c, List.mem_map_of_mem hc, h c⟩
  right b hb := by
    obtain ⟨c, hc, rfl⟩ := List.mem_map.mp hb
    exact ⟨f c, List.mem_map_of_mem hc, h c⟩

end Partners

namespace Agree

theorem refl (r : Except ε α) : Agree r r := by
  intro a a' h h'
  exact Except.ok.inj (h.symm.trans h')

theorem symm {r r' : Except ε α} (h : Agree r r') : Agree r' r :=
  fun _ _ ha ha' => (h ha' ha).symm

theorem error (e : ε) (r : Except ε α) : Agree (.error e) r := by
  intro a a' h
  cases h

theorem bind {x x' : Except ε α} {f f' : α → Except ε β} (hx : Agree x x')
    (hf : ∀ a, Agree (f a) (f' a)) : Agree (x >>= f) (x' >>= f') := by
  intro b b' h h'
  cases x with
  | error e => cases h
  | ok a =>
      cases x' with
      | error e => cases h'
      | ok a' =>
          obtain rfl := hx rfl rfl
          exact hf a h h'

variable {f : α → Except ε Bool} {l m : List α}

/-- Looking for a member that is false finds one, or all are true. -/
theorem allM_eq_ok {b : Bool} (h : l.allM f = .ok b) :
    (b = true → ∀ a ∈ l, f a = .ok true) ∧ (b = false → ∃ a ∈ l, f a = .ok false) := by
  induction l with
  | nil =>
      cases h
      simp
  | cons a l ih =>
      rw [List.allM] at h
      cases ha : f a with
      | error e => rw [ha] at h; cases h
      | ok x =>
          rw [ha] at h
          cases x with
          | true =>
              obtain ⟨every, some⟩ := ih h
              refine ⟨fun hb => List.forall_mem_cons.mpr ⟨ha, every hb⟩, fun hb => ?_⟩
              obtain ⟨a', ha', false⟩ := some hb
              exact ⟨a', List.mem_cons_of_mem a ha', false⟩
          | false =>
              cases h
              exact ⟨Bool.noConfusion, fun _ => ⟨a, List.mem_cons_self, ha⟩⟩

theorem allM (h : Partners (fun a b => Agree (f a) (f b)) l m) : Agree (l.allM f) (m.allM f) := by
  intro x y hx hy
  obtain ⟨every, some⟩ := allM_eq_ok hx
  obtain ⟨every', some'⟩ := allM_eq_ok hy
  cases x with
  | true =>
      cases y with
      | true => rfl
      | false =>
          obtain ⟨b, hb, false⟩ := some' rfl
          obtain ⟨a, ha, same⟩ := h.right b hb
          exact same (every rfl a ha) false
  | false =>
      cases y with
      | true =>
          obtain ⟨a, ha, false⟩ := some rfl
          obtain ⟨b, hb, same⟩ := h.left a ha
          exact same false (every' rfl b hb)
      | false => rfl

/-- Looking for a member that is true finds one, or all are false. -/
theorem anyM_eq_ok {b : Bool} (h : l.anyM f = .ok b) :
    (b = false → ∀ a ∈ l, f a = .ok false) ∧ (b = true → ∃ a ∈ l, f a = .ok true) := by
  induction l with
  | nil =>
      cases h
      simp
  | cons a l ih =>
      rw [List.anyM] at h
      cases ha : f a with
      | error e => rw [ha] at h; cases h
      | ok x =>
          rw [ha] at h
          cases x with
          | false =>
              obtain ⟨every, some⟩ := ih h
              refine ⟨fun hb => List.forall_mem_cons.mpr ⟨ha, every hb⟩, fun hb => ?_⟩
              obtain ⟨a', ha', true⟩ := some hb
              exact ⟨a', List.mem_cons_of_mem a ha', true⟩
          | true =>
              cases h
              exact ⟨Bool.noConfusion, fun _ => ⟨a, List.mem_cons_self, ha⟩⟩

theorem anyM (h : Partners (fun a b => Agree (f a) (f b)) l m) : Agree (l.anyM f) (m.anyM f) := by
  intro x y hx hy
  obtain ⟨every, some⟩ := anyM_eq_ok hx
  obtain ⟨every', some'⟩ := anyM_eq_ok hy
  cases x with
  | true =>
      cases y with
      | true => rfl
      | false =>
          obtain ⟨a, ha, true⟩ := some rfl
          obtain ⟨b, hb, same⟩ := h.left a ha
          exact same true (every' rfl b hb)
  | false =>
      cases y with
      | true =>
          obtain ⟨b, hb, true⟩ := some' rfl
          obtain ⟨a, ha, same⟩ := h.right b hb
          exact same (every rfl a ha) true
      | false => rfl

end Agree

end Agree

namespace Tree

variable {members : SymbolId → List SymbolId} {t t' : Tree} {v c : SymbolId}

/-! ### Reordering -/

/-- The parts of conjunctions in another order, outside atoms and equations. -/
inductive Reordered : Tree → Tree → Prop where
  | refl (t : Tree) : Reordered t t
  | and {parts middle parts' : List Tree} (each : List.Forall₂ Reordered parts middle)
      (order : middle.Perm parts') : Reordered (.compound .and parts) (.compound .and parts')
  | inside {kind : Kind} {args args' : List Tree} (other : kind ≠ .atom ∧ kind ≠ .equals)
      (each : List.Forall₂ Reordered args args') :
      Reordered (.compound kind args) (.compound kind args')

theorem Reordered.eq_var {g : SymbolId} (h : Reordered (.var v g) t) : t = .var v g := by
  cases h
  rfl

theorem Reordered.subst (h : Reordered t t') : Reordered (t.subst v c) (t'.subst v c) := by
  induction t generalizing t' with
  | constant _ | var _ _ | world _ =>
      cases h
      exact .refl _
  | compound kind args ih =>
      have mapped {l : List Tree} (h : List.Forall₂ Reordered args l) :
          List.Forall₂ Reordered (args.map (Tree.subst v c)) (l.map (Tree.subst v c)) := by
        rw [List.forall₂_map_left_iff, List.forall₂_map_right_iff]
        exact (NodeStore.forall₂_imp_mem h.flip fun _ a ha h => ih a ha h).flip
      cases h with
      | refl => exact .refl _
      | and each order =>
          rw [subst_compound rfl, subst_compound rfl]
          exact .and (mapped each) (order.map _)
      | inside other each =>
          rw [Tree.subst, Tree.subst]
          refine .inside other ?_
          split
          · exact List.rel_append (List.forall₂_take 1 each) (List.forall₂_drop 1 (mapped each))
          · exact mapped each

/-! ### Conditions -/

theorem laxWithin_reordered (n : Nat) (upper lower : Finset Tree) (h : Reordered t t') :
    Agree (laxWithin members n upper lower t) (laxWithin members n upper lower t') := by
  induction n generalizing t t' upper lower with
  | zero => exact .error _ _
  | succ n ih =>
      cases h with
      | refl => exact .refl _
      | and each order =>
          exact .allM (((Partners.of_forall₂ each).perm order).imp fun _ _ => ih upper lower)
      | @inside kind args args' other each =>
          have parts := (Partners.of_forall₂ each).imp fun _ _ => ih upper lower
          -- the kinds go as in the definition, and the last case is that there is no answer
          unfold laxWithin
          split <;> try (rename_i same; cases same)
          · exact absurd rfl other.1
          · exact .allM parts
          · exact .anyM parts
          · obtain _ | ⟨part, ⟨⟩⟩ := each
            exact .bind (ih lower upper part) fun _ => .refl _
          · exact absurd rfl other.2
          · obtain _ | ⟨antecedent, _ | ⟨consequent, ⟨⟩⟩⟩ := each
            refine .bind (ih lower upper antecedent) fun b => ?_
            cases b with
            | true => exact ih upper lower consequent
            | false => exact .refl _
          · obtain _ | ⟨binder, _ | ⟨body, ⟨⟩⟩⟩ := each
            obtain rfl := binder.eq_var
            exact .anyM (.map fun c => ih upper lower body.subst)
          · obtain _ | ⟨binder, _ | ⟨body, ⟨⟩⟩⟩ := each
            obtain rfl := binder.eq_var
            exact .allM (.map fun c => ih upper lower body.subst)
          · exact .error _ _

/-- **Two answers are one.**  A condition in another order is as true as it was, if both are
decided. -/
theorem truth_reordered {atoms : Finset Tree} (h : Reordered t t') :
    Agree (truth members atoms t) (truth members atoms t') := by
  have both : Agree (laxWithin members _ atoms atoms t) _ :=
    laxWithin_reordered (max t.height t'.height) atoms atoms h
  rwa [laxWithin_eq_lax (Nat.le_max_left _ _), laxWithin_eq_lax (Nat.le_max_right _ _)] at both

/-! ### Effects -/

theorem Delta.le_antisymm {d e : Delta} (h : d ≤ e) (h' : e ≤ d) : d = e :=
  Delta.ext (h.1.antisymm h'.1) (h.2.antisymm h'.2)

theorem Delta.union_le {d d' e : Delta} (h : d ≤ e) (h' : d' ≤ e) : d ∪ d' ≤ e :=
  ⟨Finset.union_subset h.1 h'.1, Finset.union_subset h.2 h'.2⟩

variable {f : Tree → Except FormulaError Delta} {l m : List Tree} {d e : Delta}

/-- What each effect of a list changes is part of what they all change. -/
theorem le_gather (h : gather f l = .ok e) (ht : t ∈ l) : ∃ d, f t = .ok d ∧ d ≤ e := by
  induction l generalizing e with
  | nil => cases ht
  | cons a l ih =>
      obtain ⟨e₁, e₂, h₁, h₂, rfl⟩ := gather_cons_eq_ok h
      rcases List.mem_cons.mp ht with rfl | ht
      · exact ⟨e₁, h₁, Delta.le_union_left _ _⟩
      · obtain ⟨d, hd, le⟩ := ih h₂ ht
        exact ⟨d, hd, Delta.le_trans le (Delta.le_union_right _ _)⟩

theorem gather_le_gather (h : ∀ a ∈ l, ∃ b ∈ m, Agree (f a) (f b)) (hd : gather f l = .ok d)
    (he : gather f m = .ok e) : d ≤ e := by
  induction l generalizing d with
  | nil =>
      cases hd
      exact Delta.empty_le e
  | cons a l ih =>
      obtain ⟨⟨b, hb, same⟩, rest⟩ := List.forall_mem_cons.mp h
      obtain ⟨d₁, d₂, h₁, h₂, rfl⟩ := gather_cons_eq_ok hd
      obtain ⟨e₁, he₁, le⟩ := le_gather he hb
      obtain rfl := same h₁ he₁
      exact Delta.union_le le (ih rest h₂)

theorem gather_agree (h : Partners (fun a b => Agree (f a) (f b)) l m) :
    Agree (gather f l) (gather f m) := by
  intro d e hd he
  refine Delta.le_antisymm (gather_le_gather h.left hd he) (gather_le_gather (fun b hb => ?_) he hd)
  obtain ⟨a, ha, same⟩ := h.right b hb
  exact ⟨a, ha, same.symm⟩

theorem deltaWithin_reordered {guard : Tree → Except FormulaError Bool}
    (guards : ∀ {g g'}, Reordered g g' → Agree (guard g) (guard g')) (n : Nat)
    (h : Reordered t t') :
    Agree (deltaWithin members guard n t) (deltaWithin members guard n t') := by
  induction n generalizing t t' with
  | zero => exact .error _ _
  | succ n ih =>
      cases h with
      | refl => exact .refl _
      | and each order =>
          exact gather_agree (((Partners.of_forall₂ each).perm order).imp fun _ _ => ih)
      | @inside kind args args' other each =>
          unfold deltaWithin
          split <;> try (rename_i same; cases same)
          · exact absurd rfl other.1
          · exact gather_agree ((Partners.of_forall₂ each).imp fun _ _ => ih)
          · obtain _ | ⟨part, ⟨⟩⟩ := each
            exact .bind (ih part) fun _ => .refl _
          · obtain _ | ⟨condition, _ | ⟨effect, ⟨⟩⟩⟩ := each
            refine .bind (guards condition) fun b => ?_
            cases b with
            | true => exact ih effect
            | false => exact .refl _
          · obtain _ | ⟨binder, _ | ⟨body, ⟨⟩⟩⟩ := each
            obtain rfl := binder.eq_var
            exact gather_agree (.map fun c => ih body.subst)
          · exact .error _ _

/-- **An effect in another order** changes what it changed, if both can be applied. -/
theorem change_reordered {atoms : Finset Tree} (h : Reordered t t') :
    Agree (change members atoms t) (change members atoms t') := by
  have both : Agree (deltaWithin members (truth members atoms) _ t) _ :=
    deltaWithin_reordered truth_reordered (max t.height t'.height) h
  rwa [deltaWithin_eq_delta (Nat.le_max_left _ _), deltaWithin_eq_delta (Nat.le_max_right _ _)]
    at both

end Tree

end ClassicalPlanner
