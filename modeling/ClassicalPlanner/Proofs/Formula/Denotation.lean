import ClassicalPlanner.Formula.Store
import ClassicalPlanner.Proofs.Tree.Basic
import Mathlib.Order.Basic

/-!
# What a key stands for

`s ≤ s'` says that the store `s'` has all that `s` has, under the same keys and numbers.
`Denotes s k t` says that the expression with key `k` unfolds to the tree `t`.  A key denotes at
most one tree (`Denotes.unique`), and goes on denoting it when the store grows (`Denotes.mono`).
-/

namespace ClassicalPlanner

namespace Node

/-- A node with a list of arguments. -/
def IsCompound (n : Node) : Prop := (arity? n.kind).isSome

instance (n : Node) : Decidable n.IsCompound := inferInstanceAs (Decidable (_ = true))

end Node

namespace NodeStore

/-! ### Growth -/

/-- The store `s'` has all that `s` has. -/
structure Extends (s s' : NodeStore) : Prop where
  nodes : ∀ {k n}, s.find? k = some n → s'.find? k = some n
  signatures : ∀ {l : List Key} {i : UInt32}, s.signatures[l]? = some i → s'.signatures[l]? = some i
  size : s.size ≤ s'.size

instance : LE NodeStore := ⟨Extends⟩

theorem Extends.refl (s : NodeStore) : s ≤ s := ⟨id, id, Nat.le_refl _⟩

theorem Extends.trans {s₁ s₂ s₃ : NodeStore} (h : s₁ ≤ s₂) (h' : s₂ ≤ s₃) : s₁ ≤ s₃ :=
  ⟨fun hk => h'.nodes (h.nodes hk), fun hl => h'.signatures (h.signatures hl),
    Nat.le_trans h.size h'.size⟩

instance : Preorder NodeStore where
  le_refl := Extends.refl
  le_trans _ _ _ := Extends.trans

theorem contains_iff {s : NodeStore} {k : Key} : s.contains k ↔ ∃ n, s.find? k = some n := by
  rw [contains, Std.ExtTreeMap.contains_eq_isSome_getElem?, Option.isSome_iff_exists]
  rfl

theorem find?_eq_none {s : NodeStore} {k : Key} (h : ¬s.contains k) : s.find? k = none := by
  by_contra found
  exact h (contains_iff.mpr (Option.ne_none_iff_exists'.mp found))

theorem Extends.contains {s s' : NodeStore} (h : s ≤ s') {k : Key} (hk : s.contains k) :
    s'.contains k := by
  obtain ⟨n, hn⟩ := contains_iff.mp hk
  exact contains_iff.mpr ⟨n, h.nodes hn⟩

theorem node_eq_ok_iff {s : NodeStore} {k : Key} {n : Node} :
    s.node k = .ok n ↔ s.find? k = some n := by
  unfold node
  split <;> simp_all

theorem node_of_find? {s : NodeStore} {k : Key} {n : Node} (h : s.find? k = some n) :
    s.node k = .ok n := node_eq_ok_iff.mpr h

/-! ### Denotation -/

/-- The expression with key `k` unfolds to a tree. -/
inductive Denotes (s : NodeStore) : Key → Tree → Prop where
  | constant {k : Key} {c : SymbolId} (h : s.find? k = some (.constant c)) :
      Denotes s k (.constant c)
  | var {k : Key} {v g : SymbolId} (h : s.find? k = some (.variable v g)) : Denotes s k (.var v g)
  | world {k : Key} {atoms : AtomSet} (h : s.find? k = some (.world atoms)) :
      Denotes s k (.world k)
  | compound {k : Key} {n : Node} {ts : List Tree} (h : s.find? k = some n) (hn : n.IsCompound)
      (hts : List.Forall₂ (Denotes s) n.args ts) : Denotes s k (.compound n.kind ts)

variable {s s' : NodeStore} {k : Key} {t : Tree}

theorem forall₂_imp_mem {α β : Type} {R S : α → β → Prop} {l : List α} {m : List β}
    (h : List.Forall₂ R l m) (hRS : ∀ a, ∀ b ∈ m, R a b → S a b) : List.Forall₂ S l m := by
  induction h with
  | nil => exact .nil
  | cons hab _ ih =>
      exact .cons (hRS _ _ List.mem_cons_self hab) (ih fun a b hb => hRS a b (List.mem_cons_of_mem _ hb))

theorem forall₂_exists_right {α β : Type} {R : α → β → Prop} {l : List α} {m : List β}
    (h : List.Forall₂ R l m) {a : α} (ha : a ∈ l) : ∃ b ∈ m, R a b := by
  induction h with
  | nil => cases ha
  | @cons a' b _ _ hab _ ih =>
      rcases List.mem_cons.mp ha with rfl | ha
      · exact ⟨b, List.mem_cons_self, hab⟩
      · obtain ⟨b', hb', hab'⟩ := ih ha
        exact ⟨b', List.mem_cons_of_mem _ hb', hab'⟩

/-- Two lists that are related to one list are equal if each of their members is determined. -/
theorem forall₂_left_eq {α β : Type} {R S : α → β → Prop} {l l' : List α} {m : List β}
    (h : List.Forall₂ R l m) (h' : List.Forall₂ S l' m)
    (hRS : ∀ a ∈ l, ∀ b ∈ m, ∀ a', R a b → S a' b → a = a') : l = l' := by
  induction h generalizing l' with
  | nil => cases h'; rfl
  | cons hab _ ih =>
      cases h' with
      | cons hab' hm' =>
          rw [hRS _ List.mem_cons_self _ List.mem_cons_self _ hab hab',
            ih hm' fun a ha b hb => hRS a (List.mem_cons_of_mem _ ha) b (List.mem_cons_of_mem _ hb)]

theorem Denotes.mono (h : Denotes s k t) (hs : s ≤ s') : Denotes s' k t := by
  induction t generalizing k with
  | constant c => cases h with | constant h => exact .constant (hs.nodes h)
  | var v g => cases h with | var h => exact .var (hs.nodes h)
  | world w => cases h with | world h => exact .world (hs.nodes h)
  | compound kind ts ih =>
      cases h with
      | compound h hn hts =>
          exact .compound (hs.nodes h) hn (forall₂_imp_mem hts fun _ t ht hk => ih t ht hk)

theorem denotes_all_mono {ks : List Key} {ts : List Tree} (h : List.Forall₂ (Denotes s) ks ts)
    (hs : s ≤ s') : List.Forall₂ (Denotes s') ks ts :=
  h.imp fun _ _ hk => hk.mono hs

theorem Denotes.find? (h : Denotes s k t) : ∃ n, s.find? k = some n ∧ n.kind = t.kind := by
  cases h with
  | constant h | var h | world h => exact ⟨_, h, rfl⟩
  | compound h _ _ => exact ⟨_, h, rfl⟩

theorem not_isCompound_constant (c : SymbolId) : ¬ (Node.constant c).IsCompound :=
  Bool.false_ne_true

theorem not_isCompound_variable (v g : SymbolId) : ¬ (Node.variable v g).IsCompound :=
  Bool.false_ne_true

theorem not_isCompound_world (atoms : AtomSet) : ¬ (Node.world atoms).IsCompound :=
  Bool.false_ne_true

/-- A constant unfolds to itself. -/
theorem Denotes.eq_constant {c : SymbolId} (h : Denotes s k t)
    (hk : s.find? k = some (.constant c)) : t = .constant c := by
  cases h with
  | constant h => rw [hk] at h; cases h; rfl
  | var h | world h => rw [hk] at h; cases h
  | compound h hn _ => rw [hk] at h; cases h; exact absurd hn (not_isCompound_constant c)

/-- A variable unfolds to itself. -/
theorem Denotes.eq_var {v g : SymbolId} (h : Denotes s k t)
    (hk : s.find? k = some (.variable v g)) : t = .var v g := by
  cases h with
  | var h => rw [hk] at h; cases h; rfl
  | constant h | world h => rw [hk] at h; cases h
  | compound h hn _ => rw [hk] at h; cases h; exact absurd hn (not_isCompound_variable v g)

/-- A world stays as it is. -/
theorem Denotes.eq_world {atoms : AtomSet} (h : Denotes s k t)
    (hk : s.find? k = some (.world atoms)) : t = .world k := by
  cases h with
  | world h => rfl
  | constant h | var h => rw [hk] at h; cases h
  | compound h hn _ => rw [hk] at h; cases h; exact absurd hn (not_isCompound_world atoms)

/-- A compound unfolds to its kind over the trees of its arguments. -/
theorem Denotes.eq_compound {n : Node} (h : Denotes s k t) (hk : s.find? k = some n)
    (hn : n.IsCompound) : ∃ ts, t = .compound n.kind ts ∧ List.Forall₂ (Denotes s) n.args ts := by
  cases h with
  | constant h => rw [hk] at h; cases h; exact absurd hn (not_isCompound_constant _)
  | var h => rw [hk] at h; cases h; exact absurd hn (not_isCompound_variable _ _)
  | world h => rw [hk] at h; cases h; exact absurd hn (not_isCompound_world _)
  | compound h _ hts => rw [hk] at h; cases h; exact ⟨_, rfl, hts⟩

/-- **A key denotes one tree.** -/
theorem Denotes.unique {t' : Tree} (h : Denotes s k t) (h' : Denotes s k t') : t = t' := by
  induction t generalizing k t' with
  | constant c => cases h with | constant h => exact (h'.eq_constant h).symm
  | var v g => cases h with | var h => exact (h'.eq_var h).symm
  | world w => cases h with | world h => exact (h'.eq_world h).symm
  | compound kind ts ih =>
      cases h with
      | compound h hn hts =>
          obtain ⟨ts', rfl, hts'⟩ := h'.eq_compound h hn
          rw [forall₂_left_eq hts.flip hts'.flip fun u hu _ _ _ hk hk' => ih u hu hk hk']

end NodeStore

end ClassicalPlanner
