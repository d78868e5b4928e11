import ClassicalPlanner.Proofs.Tree.Truth
import Mathlib.Data.Finset.Lattice.Lemmas

/-!
# Effects of trees

`Tree.delta` collects the atoms that an effect adds and removes, given which guards hold.  A
negation exchanges the two; the parts of a conjunction and the instances of a quantifier contribute
one after the other.

With every guard counted as true an effect changes at least what it changes when some guards fail
(`change_le`), which is what makes the bounds of reachability hold all reachable worlds.
-/

namespace ClassicalPlanner.Tree

/-- The atoms that an effect adds and removes. -/
@[ext]
structure Delta where
  add : Finset Tree := ∅
  remove : Finset Tree := ∅

namespace Delta

instance : EmptyCollection Delta := ⟨{}⟩

instance : Union Delta := ⟨fun d e => ⟨d.add ∪ e.add, d.remove ∪ e.remove⟩⟩

instance : LE Delta := ⟨fun d e => d.add ⊆ e.add ∧ d.remove ⊆ e.remove⟩

/-- Additions and removals exchanged. -/
def swap (d : Delta) : Delta := ⟨d.remove, d.add⟩

/-- The atoms that hold after the changes. -/
def applyTo (d : Delta) (atoms : Finset Tree) : Finset Tree := (atoms \ d.remove) ∪ d.add

variable {d d' e e' : Delta}

@[simp] theorem add_empty : (∅ : Delta).add = ∅ := rfl

@[simp] theorem remove_empty : (∅ : Delta).remove = ∅ := rfl

@[simp] theorem add_union : (d ∪ e).add = d.add ∪ e.add := rfl

@[simp] theorem remove_union : (d ∪ e).remove = d.remove ∪ e.remove := rfl

@[simp] theorem add_swap : d.swap.add = d.remove := rfl

@[simp] theorem remove_swap : d.swap.remove = d.add := rfl

@[simp] theorem swap_swap (d : Delta) : d.swap.swap = d := rfl

theorem union_assoc (d d' e : Delta) : d ∪ d' ∪ e = d ∪ (d' ∪ e) :=
  Delta.ext (Finset.union_assoc _ _ _) (Finset.union_assoc _ _ _)

theorem union_empty (d : Delta) : d ∪ ∅ = d :=
  Delta.ext (Finset.union_empty _) (Finset.union_empty _)

theorem empty_union (d : Delta) : ∅ ∪ d = d :=
  Delta.ext (Finset.empty_union _) (Finset.empty_union _)

theorem le_refl (d : Delta) : d ≤ d := ⟨Finset.Subset.refl _, Finset.Subset.refl _⟩

theorem empty_le (d : Delta) : ∅ ≤ d := ⟨Finset.empty_subset _, Finset.empty_subset _⟩

theorem le_trans (h : d ≤ d') (h' : d' ≤ e) : d ≤ e :=
  ⟨h.1.trans h'.1, h.2.trans h'.2⟩

theorem le_union_left (d e : Delta) : d ≤ d ∪ e :=
  ⟨Finset.subset_union_left, Finset.subset_union_left⟩

theorem le_union_right (d e : Delta) : e ≤ d ∪ e :=
  ⟨Finset.subset_union_right, Finset.subset_union_right⟩

theorem union_le_union (h : d ≤ d') (h' : e ≤ e') : d ∪ e ≤ d' ∪ e' :=
  ⟨Finset.union_subset_union h.1 h'.1, Finset.union_subset_union h.2 h'.2⟩

theorem swap_le_swap (h : d ≤ e) : d.swap ≤ e.swap := ⟨h.2, h.1⟩

theorem mem_applyTo {atoms : Finset Tree} {t : Tree} :
    t ∈ d.applyTo atoms ↔ (t ∈ atoms ∧ t ∉ d.remove) ∨ t ∈ d.add := by
  unfold applyTo
  rw [Finset.mem_union, Finset.mem_sdiff]

/-- What holds after the changes held before or is added. -/
theorem applyTo_subset {atoms : Finset Tree} : d.applyTo atoms ⊆ atoms ∪ d.add :=
  Finset.union_subset_union Finset.sdiff_subset (Finset.Subset.refl _)

end Delta

variable {members : SymbolId → List SymbolId} {guard guard' : Tree → Except FormulaError Bool}
variable {t : Tree}

/-- The changes of some effects, one after the other. -/
def gather (f : Tree → Except FormulaError Delta) : List Tree → Except FormulaError Delta
  | [] => .ok ∅
  | t :: ts => do
    let d ← f t
    let e ← gather f ts
    return d ∪ e

/-- What an effect changes, given which guards hold; `depth` bounds the height of the tree. -/
def deltaWithin (members : SymbolId → List SymbolId) (guard : Tree → Except FormulaError Bool) :
    (depth : Nat) → Tree → Except FormulaError Delta
  | 0, t => .error (.misplaced t.kind .effect)
  | depth + 1, t =>
    match t with
    | .compound .atom _ => .ok { add := {t} }
    | .compound .and parts => gather (deltaWithin members guard depth) parts
    | .compound .not [part] => do return (← deltaWithin members guard depth part).swap
    | .compound .when [condition, effect] => do
      if ← guard condition then deltaWithin members guard depth effect else return ∅
    | .compound .universal [.var v g, body] =>
      gather (deltaWithin members guard depth) ((members g).map (body.subst v))
    | t => .error (.misplaced t.kind .effect)

/-- What an effect changes, given which guards hold. -/
def delta (members : SymbolId → List SymbolId) (guard : Tree → Except FormulaError Bool)
    (t : Tree) : Except FormulaError Delta :=
  deltaWithin members guard t.height t

/-- What an effect changes when exactly the given atoms hold. -/
def change (members : SymbolId → List SymbolId) (atoms : Finset Tree) (t : Tree) :
    Except FormulaError Delta :=
  delta members (truth members atoms) t

/-- What an effect may change: every guard counts as true. -/
def changeAll (members : SymbolId → List SymbolId) (t : Tree) : Except FormulaError Delta :=
  delta members (fun _ => .ok true) t

/-! ### Depth -/

theorem gather_congr {f g : Tree → Except FormulaError Delta} :
    ∀ {l : List Tree}, (∀ t ∈ l, f t = g t) → gather f l = gather g l
  | [], _ => rfl
  | t :: l, h => by
      rw [gather, gather, h t List.mem_cons_self,
        gather_congr fun s hs => h s (List.mem_cons_of_mem _ hs)]

/-- Any depth from the height of the tree on gives the same changes. -/
theorem deltaWithin_eq {n m : Nat} (hn : t.height ≤ n) (hm : t.height ≤ m) :
    deltaWithin members guard n t = deltaWithin members guard m t := by
  induction n generalizing m t with
  | zero => exact absurd hn (not_height_le_zero t)
  | succ n ih =>
      cases m with
      | zero => exact absurd hm (not_height_le_zero t)
      | succ m =>
          unfold deltaWithin
          split
          · rfl
          · rw [height_compound_le] at hn hm
            exact gather_congr fun s hs => ih (hn s hs) (hm s hs)
          · simp only [height_compound_le, List.forall_mem_cons] at hn hm
            rw [ih hn.1 hm.1]
          · simp only [height_compound_le, List.forall_mem_cons] at hn hm
            rw [ih hn.2.1 hm.2.1]
          · simp only [height_compound_le, List.forall_mem_cons] at hn hm
            refine gather_congr fun s hs => ?_
            obtain ⟨c, -, rfl⟩ := List.mem_map.mp hs
            exact ih (by rw [height_subst]; exact hn.2.1) (by rw [height_subst]; exact hm.2.1)
          · rfl

theorem deltaWithin_eq_delta {n : Nat} (hn : t.height ≤ n) :
    deltaWithin members guard n t = delta members guard t :=
  deltaWithin_eq hn (Nat.le_refl _)

/-! ### Guards -/

/-- The changes of a list of effects are the changes of its head and those of its tail. -/
theorem gather_cons_eq_ok {f : Tree → Except FormulaError Delta} {ts : List Tree} {d : Delta}
    (h : gather f (t :: ts) = .ok d) :
    ∃ d₁ d₂, f t = .ok d₁ ∧ gather f ts = .ok d₂ ∧ d = d₁ ∪ d₂ := by
  rw [gather] at h
  cases h₁ : f t with
  | error e => rw [h₁] at h; cases h
  | ok d₁ =>
      cases h₂ : gather f ts with
      | error e => rw [h₁, h₂] at h; cases h
      | ok d₂ => rw [h₁, h₂] at h; cases h; exact ⟨d₁, d₂, rfl, rfl, rfl⟩

theorem gather_le {f g : Tree → Except FormulaError Delta} :
    ∀ {l : List Tree} {d e : Delta},
      (∀ t ∈ l, ∀ d e, f t = .ok d → g t = .ok e → d ≤ e) →
      gather f l = .ok d → gather g l = .ok e → d ≤ e
  | [], _, _, _, hf, hg => by cases hf; cases hg; exact Delta.le_refl _
  | t :: l, _, _, h, hf, hg => by
      obtain ⟨d₁, d₂, hf₁, hf₂, rfl⟩ := gather_cons_eq_ok hf
      obtain ⟨e₁, e₂, hg₁, hg₂, rfl⟩ := gather_cons_eq_ok hg
      exact Delta.union_le_union (h t List.mem_cons_self _ _ hf₁ hg₁)
        (gather_le (fun s hs => h s (List.mem_cons_of_mem _ hs)) hf₂ hg₂)

theorem deltaWithin_le {n : Nat} {d e : Delta} (h : deltaWithin members guard n t = .ok d)
    (h' : deltaWithin members (fun _ => .ok true) n t = .ok e) : d ≤ e := by
  induction n generalizing t d e with
  | zero => cases h
  | succ n ih =>
      unfold deltaWithin at h h'
      split at h
      · cases h; cases h'; exact Delta.le_refl _
      · exact gather_le (fun s _ d e => ih) h h'
      · rename_i part
        cases h₁ : deltaWithin members guard n part with
        | error e => rw [h₁] at h; cases h
        | ok d₁ =>
            cases h₂ : deltaWithin members (fun _ => .ok true) n part with
            | error e => simp only [h₂] at h'; cases h'
            | ok e₁ =>
                rw [h₁] at h
                simp only [h₂] at h'
                cases h
                cases h'
                exact Delta.swap_le_swap (ih h₁ h₂)
      · rename_i condition effect
        cases hc : guard condition with
        | error e => rw [hc] at h; cases h
        | ok b =>
            rw [hc] at h
            cases b with
            | true => exact ih h h'
            | false => cases h; exact Delta.empty_le e
      · exact gather_le (fun s _ d e => ih) h h'
      · cases h

/-- **All guards counted as true.**  An effect changes no more than it may change. -/
theorem change_le {atoms : Finset Tree} {d e : Delta} (h : change members atoms t = .ok d)
    (h' : changeAll members t = .ok e) : d ≤ e :=
  deltaWithin_le h h'

/-! ### Errors -/

theorem gather_eq_error {f : Tree → Except FormulaError Delta} {e : FormulaError} :
    ∀ {l : List Tree}, gather f l = .error e → ∃ t ∈ l, f t = .error e
  | t :: l, h => by
      rw [gather] at h
      cases h₁ : f t with
      | error e' =>
          rw [h₁] at h
          cases h
          exact ⟨t, List.mem_cons_self, h₁⟩
      | ok d =>
          cases h₂ : gather f l with
          | error e' =>
              rw [h₁, h₂] at h
              cases h
              obtain ⟨s, hs, hfs⟩ := gather_eq_error h₂
              exact ⟨s, List.mem_cons_of_mem _ hs, hfs⟩
          | ok d' => rw [h₁, h₂] at h; cases h

theorem deltaWithin_eq_error {n : Nat} {e : FormulaError}
    (hg : ∀ t e, guard t = .error e → ∃ kind role, e = .misplaced kind role)
    (h : deltaWithin members guard n t = .error e) : ∃ kind role, e = .misplaced kind role := by
  induction n generalizing t with
  | zero => cases h; exact ⟨_, _, rfl⟩
  | succ n ih =>
      unfold deltaWithin at h
      split at h
      · cases h
      · obtain ⟨s, -, hs⟩ := gather_eq_error h
        exact ih hs
      · rename_i part
        cases h₁ : deltaWithin members guard n part with
        | error e' => rw [h₁] at h; cases h; exact ih h₁
        | ok d => rw [h₁] at h; cases h
      · rename_i condition effect
        cases hc : guard condition with
        | error e' => rw [hc] at h; cases h; exact hg _ _ hc
        | ok b =>
            rw [hc] at h
            cases b with
            | true => exact ih h
            | false => cases h
      · obtain ⟨s, -, hs⟩ := gather_eq_error h
        exact ih hs
      · cases h; exact ⟨_, _, rfl⟩

/-- All that can be wrong with an effect is that a part of it, or of a guard, has no place there. -/
theorem change_eq_error {atoms : Finset Tree} {e : FormulaError}
    (h : change members atoms t = .error e) : ∃ kind role, e = .misplaced kind role := by
  refine deltaWithin_eq_error (fun _ e hg => ?_) h
  obtain ⟨kind, rfl⟩ := lax_eq_error hg
  exact ⟨kind, _, rfl⟩

theorem changeAll_eq_error {e : FormulaError} (h : changeAll members t = .error e) :
    ∃ kind role, e = .misplaced kind role :=
  deltaWithin_eq_error (fun _ _ hg => by cases hg) h

end ClassicalPlanner.Tree
