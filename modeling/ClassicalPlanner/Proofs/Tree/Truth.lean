import ClassicalPlanner.Proofs.Tree.Basic
import Mathlib.Data.Finset.Basic

/-!
# Truth of trees

`Tree.lax` decides a tree between an upper and a lower set of atoms, and `Tree.truth` decides it in
one set, which is both bounds at once.  Conjunctions, disjunctions and quantifiers look at their
parts from left to right and stop as soon as the answer is known, so a part behind the answer may
be no condition at all.

**Monotonicity** (`lax_mono`).  Between wider bounds a condition that may hold still may hold.  So
what is true in a set may hold between any two bounds around it (`lax_of_truth`).
-/

namespace ClassicalPlanner.Tree

variable {members : SymbolId → List SymbolId} {upper lower : Finset Tree} {t : Tree}

/-- Decides a condition between two sets of atoms; `depth` bounds the height of the tree. -/
def laxWithin (members : SymbolId → List SymbolId) :
    (depth : Nat) → (upper lower : Finset Tree) → Tree → Except FormulaError Bool
  | 0, _, _, t => .error (.misplaced t.kind .condition)
  | depth + 1, upper, lower, t =>
    match t with
    | .compound .atom _ => .ok (t ∈ upper)
    | .compound .and parts => parts.allM (laxWithin members depth upper lower)
    | .compound .or parts => parts.anyM (laxWithin members depth upper lower)
    | .compound .not [part] => do return !(← laxWithin members depth lower upper part)
    | .compound .equals [left, right] => .ok (left = right)
    | .compound .imply [antecedent, consequent] => do
      if ← laxWithin members depth lower upper antecedent then
        laxWithin members depth upper lower consequent
      else return true
    | .compound .existential [.var v g, body] =>
      ((members g).map (body.subst v)).anyM (laxWithin members depth upper lower)
    | .compound .universal [.var v g, body] =>
      ((members g).map (body.subst v)).allM (laxWithin members depth upper lower)
    | t => .error (.misplaced t.kind .condition)

/-- Whether a condition may hold between two sets of atoms. -/
def lax (members : SymbolId → List SymbolId) (upper lower : Finset Tree) (t : Tree) :
    Except FormulaError Bool :=
  laxWithin members t.height upper lower t

/-- Whether a condition holds when exactly the given atoms do. -/
def truth (members : SymbolId → List SymbolId) (atoms : Finset Tree) (t : Tree) :
    Except FormulaError Bool :=
  lax members atoms atoms t

/-! ### Depth -/

theorem allM_congr {α ε : Type} {f g : α → Except ε Bool} :
    ∀ {l : List α}, (∀ a ∈ l, f a = g a) → l.allM f = l.allM g
  | [], _ => rfl
  | a :: l, h => by
      rw [List.allM, List.allM, h a List.mem_cons_self,
        allM_congr fun b hb => h b (List.mem_cons_of_mem _ hb)]

theorem anyM_congr {α ε : Type} {f g : α → Except ε Bool} :
    ∀ {l : List α}, (∀ a ∈ l, f a = g a) → l.anyM f = l.anyM g
  | [], _ => rfl
  | a :: l, h => by
      rw [List.anyM, List.anyM, h a List.mem_cons_self,
        anyM_congr fun b hb => h b (List.mem_cons_of_mem _ hb)]

/-- Any depth from the height of the tree on gives the same answer. -/
theorem laxWithin_eq {n m : Nat} (hn : t.height ≤ n) (hm : t.height ≤ m) :
    laxWithin members n upper lower t = laxWithin members m upper lower t := by
  induction n generalizing m t upper lower with
  | zero => exact absurd hn (not_height_le_zero t)
  | succ n ih =>
      cases m with
      | zero => exact absurd hm (not_height_le_zero t)
      | succ m =>
          have instances : ∀ {v g : SymbolId} {body : Tree}, body.height ≤ n → body.height ≤ m →
              ∀ s ∈ (members g).map (body.subst v), ∀ u l,
                laxWithin members n u l s = laxWithin members m u l s := by
            intro v g body hbn hbm s hs u l
            obtain ⟨c, -, rfl⟩ := List.mem_map.mp hs
            exact ih (by rwa [height_subst]) (by rwa [height_subst])
          unfold laxWithin
          split
          · rfl
          · rw [height_compound_le] at hn hm
            exact allM_congr fun s hs => ih (hn s hs) (hm s hs)
          · rw [height_compound_le] at hn hm
            exact anyM_congr fun s hs => ih (hn s hs) (hm s hs)
          · simp only [height_compound_le, List.forall_mem_cons] at hn hm
            rw [ih hn.1 hm.1]
          · rfl
          · simp only [height_compound_le, List.forall_mem_cons] at hn hm
            rw [ih hn.1 hm.1, ih hn.2.1 hm.2.1]
          · simp only [height_compound_le, List.forall_mem_cons] at hn hm
            exact anyM_congr fun s hs => instances hn.2.1 hm.2.1 s hs upper lower
          · simp only [height_compound_le, List.forall_mem_cons] at hn hm
            exact allM_congr fun s hs => instances hn.2.1 hm.2.1 s hs upper lower
          · rfl

theorem laxWithin_eq_lax {n : Nat} (hn : t.height ≤ n) :
    laxWithin members n upper lower t = lax members upper lower t :=
  laxWithin_eq hn (Nat.le_refl _)

/-! ### Monotonicity -/

theorem allM_mono {α ε : Type} {f g : α → Except ε Bool} :
    ∀ {l : List α} {y : Bool}, (∀ a ∈ l, ∀ y, f a = .ok true → g a = .ok y → y = true) →
      l.allM f = .ok true → l.allM g = .ok y → y = true
  | [], _, _, _, hg => by cases hg; rfl
  | a :: l, y, h, hf, hg => by
      rw [List.allM] at hf hg
      cases hfa : f a with
      | error e => rw [hfa] at hf; cases hf
      | ok x =>
          cases hga : g a with
          | error e => rw [hga] at hg; cases hg
          | ok z =>
              rw [hfa] at hf
              rw [hga] at hg
              cases x with
              | false => cases hf
              | true =>
                  obtain rfl : z = true := h a List.mem_cons_self z hfa hga
                  exact allM_mono (fun b hb => h b (List.mem_cons_of_mem _ hb)) hf hg

theorem anyM_mono {α ε : Type} {f g : α → Except ε Bool} :
    ∀ {l : List α} {y : Bool}, (∀ a ∈ l, ∀ y, f a = .ok true → g a = .ok y → y = true) →
      l.anyM f = .ok true → l.anyM g = .ok y → y = true
  | [], _, _, hf, _ => by cases hf
  | a :: l, y, h, hf, hg => by
      rw [List.anyM] at hf hg
      cases hfa : f a with
      | error e => rw [hfa] at hf; cases hf
      | ok x =>
          cases hga : g a with
          | error e => rw [hga] at hg; cases hg
          | ok z =>
              rw [hfa] at hf
              rw [hga] at hg
              cases z with
              | true => cases hg; rfl
              | false =>
                  cases x with
                  | true => exact absurd (h a List.mem_cons_self false hfa hga) (by simp)
                  | false => exact anyM_mono (fun b hb => h b (List.mem_cons_of_mem _ hb)) hf hg

theorem laxWithin_mono {n : Nat} {upper' lower' : Finset Tree} (hu : upper ⊆ upper')
    (hl : lower' ⊆ lower) {y : Bool} (h : laxWithin members n upper lower t = .ok true)
    (h' : laxWithin members n upper' lower' t = .ok y) : y = true := by
  induction n generalizing t upper lower upper' lower' y with
  | zero => cases h
  | succ n ih =>
      -- under a negation the bounds change places, and so do the two answers
      have negated : ∀ {s : Tree} {x y : Bool}, laxWithin members n lower upper s = .ok x →
          laxWithin members n lower' upper' s = .ok y → x = false → y = false := by
        intro s x y hx hy hfalse
        cases y with
        | false => rfl
        | true => rw [ih hl hu hy hx] at hfalse; cases hfalse
      unfold laxWithin at h h'
      split at h
      · simp only [Except.ok.injEq, decide_eq_true_eq] at h h'
        exact h' ▸ decide_eq_true (hu h)
      · exact allM_mono (fun s _ y => ih hu hl) h h'
      · exact anyM_mono (fun s _ y => ih hu hl) h h'
      · rename_i part
        cases hx : laxWithin members n lower upper part with
        | error e => rw [hx] at h; cases h
        | ok x =>
            cases hy : laxWithin members n lower' upper' part with
            | error e => simp only [hy] at h'; cases h'
            | ok z =>
                rw [hx] at h
                simp only [hy] at h'
                cases x with
                | true => cases h
                | false => rw [negated hx hy rfl] at h'; cases h'; rfl
      · exact Except.ok.inj (h'.symm.trans h)
      · rename_i antecedent consequent
        cases hx : laxWithin members n lower upper antecedent with
        | error e => rw [hx] at h; cases h
        | ok x =>
            cases hy : laxWithin members n lower' upper' antecedent with
            | error e => simp only [hy] at h'; cases h'
            | ok z =>
                rw [hx] at h
                simp only [hy] at h'
                cases z with
                | false => cases h'; rfl
                | true =>
                    cases x with
                    | false => cases negated hx hy rfl
                    | true => exact ih hu hl h h'
      · exact anyM_mono (fun s _ y => ih hu hl) h h'
      · exact allM_mono (fun s _ y => ih hu hl) h h'
      · cases h

/-- **Monotonicity.**  A condition that may hold between two bounds may hold between wider ones. -/
theorem lax_mono {upper' lower' : Finset Tree} (hu : upper ⊆ upper') (hl : lower' ⊆ lower)
    {y : Bool} (h : lax members upper lower t = .ok true)
    (h' : lax members upper' lower' t = .ok y) : y = true :=
  laxWithin_mono hu hl h h'

/-- What holds in a set of atoms may hold between any bounds around it. -/
theorem lax_of_truth {atoms : Finset Tree} (hu : atoms ⊆ upper) (hl : lower ⊆ atoms) {y : Bool}
    (h : truth members atoms t = .ok true) (h' : lax members upper lower t = .ok y) : y = true :=
  lax_mono hu hl h h'

/-! ### Errors -/

theorem allM_eq_error {α ε : Type} {f : α → Except ε Bool} {e : ε} :
    ∀ {l : List α}, l.allM f = .error e → ∃ a ∈ l, f a = .error e
  | a :: l, h => by
      rw [List.allM] at h
      cases hfa : f a with
      | error e' =>
          rw [hfa] at h
          cases h
          exact ⟨a, List.mem_cons_self, hfa⟩
      | ok x =>
          rw [hfa] at h
          cases x with
          | false => cases h
          | true =>
              obtain ⟨b, hb, hfb⟩ := allM_eq_error h
              exact ⟨b, List.mem_cons_of_mem _ hb, hfb⟩

theorem anyM_eq_error {α ε : Type} {f : α → Except ε Bool} {e : ε} :
    ∀ {l : List α}, l.anyM f = .error e → ∃ a ∈ l, f a = .error e
  | a :: l, h => by
      rw [List.anyM] at h
      cases hfa : f a with
      | error e' =>
          rw [hfa] at h
          cases h
          exact ⟨a, List.mem_cons_self, hfa⟩
      | ok x =>
          rw [hfa] at h
          cases x with
          | true => cases h
          | false =>
              obtain ⟨b, hb, hfb⟩ := anyM_eq_error h
              exact ⟨b, List.mem_cons_of_mem _ hb, hfb⟩

theorem laxWithin_eq_error {n : Nat} {e : FormulaError}
    (h : laxWithin members n upper lower t = .error e) :
    ∃ kind, e = .misplaced kind .condition := by
  induction n generalizing t upper lower with
  | zero => cases h; exact ⟨_, rfl⟩
  | succ n ih =>
      unfold laxWithin at h
      split at h
      · cases h
      · obtain ⟨s, -, hs⟩ := allM_eq_error h
        exact ih hs
      · obtain ⟨s, -, hs⟩ := anyM_eq_error h
        exact ih hs
      · rename_i part
        cases hx : laxWithin members n lower upper part with
        | error e' => rw [hx] at h; cases h; exact ih hx
        | ok x => rw [hx] at h; cases h
      · cases h
      · rename_i antecedent consequent
        cases hx : laxWithin members n lower upper antecedent with
        | error e' => rw [hx] at h; cases h; exact ih hx
        | ok x =>
            rw [hx] at h
            cases x with
            | true => exact ih h
            | false => cases h
      · obtain ⟨s, -, hs⟩ := anyM_eq_error h
        exact ih hs
      · obtain ⟨s, -, hs⟩ := allM_eq_error h
        exact ih hs
      · cases h; exact ⟨_, rfl⟩

/-- All that can be wrong with a condition is that a part of it is none. -/
theorem lax_eq_error {e : FormulaError} (h : lax members upper lower t = .error e) :
    ∃ kind, e = .misplaced kind .condition :=
  laxWithin_eq_error h

end ClassicalPlanner.Tree
