import ClassicalPlanner.Proofs.Tree.Effect
import Mathlib.Data.Finset.Dedup

/-!
# Atoms that effects touch

`Tree.touchedWithin` lists the atoms that an effect may add or remove, whatever holds: nothing else
is changed (`change_touched`).  A constant that takes the place of another changes the atoms listed
and not their number (`length_touchedWithin_subst`), so the number for a quantified effect is a
product.
-/

namespace ClassicalPlanner.Tree

/-- The atoms that an effect may add or remove; `depth` bounds the height of the tree. -/
def touchedWithin (members : SymbolId → List SymbolId) : (depth : Nat) → Tree → List Tree
  | 0, _ => []
  | depth + 1, t =>
    match t with
    | .compound .atom _ => [t]
    | .compound .and parts => parts.flatMap (touchedWithin members depth)
    | .compound .not [part] => touchedWithin members depth part
    | .compound .when [_, effect] => touchedWithin members depth effect
    | .compound .universal [.var v g, body] =>
      (members g).flatMap fun c => touchedWithin members depth (body.subst v c)
    | _ => []

variable {members : SymbolId → List SymbolId} {guard : Tree → Except FormulaError Bool}
variable {t : Tree} {n : Nat} {d : Delta}

/-- All changes are to atoms in the list. -/
def Delta.Within (d : Delta) (l : List Tree) : Prop := ∀ t, t ∈ d.add ∨ t ∈ d.remove → t ∈ l

theorem Delta.within_empty (l : List Tree) : (∅ : Delta).Within l := fun t h => by
  rcases h with h | h <;> exact absurd h (Finset.notMem_empty t)

theorem Delta.Within.swap {l : List Tree} (h : d.Within l) : d.swap.Within l :=
  fun t ht => h t ht.symm

theorem Delta.Within.union {e : Delta} {l l' : List Tree} (hd : d.Within l) (he : e.Within l') :
    (d ∪ e).Within (l ++ l') := by
  intro t h
  rw [Delta.add_union, Delta.remove_union, Finset.mem_union, Finset.mem_union] at h
  rw [List.mem_append]
  rcases h with (h | h) | h | h
  · exact .inl (hd t (.inl h))
  · exact .inr (he t (.inl h))
  · exact .inl (hd t (.inr h))
  · exact .inr (he t (.inr h))

theorem gather_within {f : Tree → Except FormulaError Delta} {touched : Tree → List Tree}
    {l : List Tree} (hf : ∀ t ∈ l, ∀ d, f t = .ok d → d.Within (touched t))
    (h : gather f l = .ok d) : d.Within (l.flatMap touched) := by
  induction l generalizing d with
  | nil => cases h; exact Delta.within_empty _
  | cons t l ih =>
      obtain ⟨d₁, d₂, h₁, h₂, rfl⟩ := gather_cons_eq_ok h
      exact (hf t List.mem_cons_self d₁ h₁).union
        (ih (fun t ht => hf t (List.mem_cons_of_mem _ ht)) h₂)

theorem deltaWithin_touched (h : deltaWithin members guard n t = .ok d) :
    d.Within (touchedWithin members n t) := by
  induction n generalizing t d with
  | zero => cases h
  | succ n ih =>
      unfold deltaWithin at h
      split at h
      · cases h
        rintro t (ht | ht)
        · exact ht
        · exact absurd ht (Finset.notMem_empty t)
      · exact gather_within (fun t _ d h => ih h) h
      · rename_i part
        cases h₁ : deltaWithin members guard n part with
        | error e => rw [h₁] at h; cases h
        | ok d₁ => rw [h₁] at h; cases h; exact (ih h₁).swap
      · rename_i condition effect
        cases hc : guard condition with
        | error e => rw [hc] at h; cases h
        | ok b =>
            rw [hc] at h
            cases b with
            | true => exact ih h
            | false => cases h; exact Delta.within_empty _
      · have within := gather_within (fun t _ d h => ih h) h
        rwa [List.flatMap_map] at within
      · cases h

/-- **What an effect touches** has all that it changes. -/
theorem change_touched {atoms : Finset Tree} (hn : t.height ≤ n)
    (h : change members atoms t = .ok d) : d.Within (touchedWithin members n t) :=
  deltaWithin_touched ((deltaWithin_eq_delta hn).trans h)

/-- A constant in the place of another does not change the number of atoms. -/
theorem length_touchedWithin_subst {old new : SymbolId} :
    (touchedWithin members n (t.subst old new)).length = (touchedWithin members n t).length := by
  induction n generalizing t old new with
  | zero => rfl
  | succ n ih =>
      cases t with
      | constant c => rw [subst]; rfl
      | var v g => rw [subst]; split <;> rfl
      | world k => rw [subst]
      | compound kind args =>
          cases kind with
          | atom => rw [subst_compound rfl]; rfl
          | and =>
              rw [subst_compound rfl]
              unfold touchedWithin
              simp only [List.length_flatMap, List.map_map]
              exact congrArg List.sum (List.map_congr_left fun part _ => ih)
          | not =>
              rw [subst_compound rfl]
              obtain _ | ⟨part, _ | ⟨_, _⟩⟩ := args
              · rfl
              · exact ih
              · rfl
          | when =>
              rw [subst_compound rfl]
              obtain _ | ⟨condition, _ | ⟨effect, _ | ⟨_, _⟩⟩⟩ := args
              · rfl
              · rfl
              · exact ih
              · rfl
          | universal =>
              obtain _ | ⟨binder, _ | ⟨body, _ | ⟨_, _⟩⟩⟩ := args
              · rw [subst]; rfl
              · rw [subst]; cases binder <;> rfl
              · rw [subst_quantifier rfl]
                cases binder with
                | var v g =>
                    unfold touchedWithin
                    simp only [List.length_flatMap]
                    refine congrArg List.sum (List.map_congr_left fun c _ => ?_)
                    exact ih.trans (ih.trans ih.symm)
                | _ => rfl
              · rw [subst]; cases binder <;> rfl
          | _ => rw [subst]; rfl

end ClassicalPlanner.Tree
