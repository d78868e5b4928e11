import ClassicalPlanner.Formula.Node
import Mathlib.Data.List.Forall2

/-!
# Trees

A tree is an expression with its arguments in place of their keys.  What a formula means depends on
its tree alone, so two sessions that number their expressions differently agree on it.  Worlds
never occur inside formulas that are read from text; as parts of a tree they are opaque and stand
under their key.

`Tree.subst` is substitution on trees.  It does not change the height (`height_subst`), which is
what bounds every recursion over a formula, quantifiers included.
-/

namespace ClassicalPlanner

/-- An expression, unfolded. -/
inductive Tree where
  | constant (symbol : SymbolId)
  | var (symbol group : SymbolId)
  /-- The world with a key. -/
  | world (key : Key)
  | compound (kind : Kind) (args : List Tree)
deriving Inhabited

namespace Tree

/-! ### Equality -/

mutual

/-- Whether two trees are equal. -/
def decEq : (a b : Tree) → Decidable (a = b)
  | .constant c, .constant d => decidable_of_iff (c = d) (by simp)
  | .var v g, .var w h => decidable_of_iff (v = w ∧ g = h) (by simp)
  | .world k, .world l => decidable_of_iff (k = l) (by simp)
  | .compound i as, .compound j bs =>
    have := decEqAll as bs
    decidable_of_iff (i = j ∧ as = bs) (by simp)
  | .constant _, .var _ _ | .constant _, .world _ | .constant _, .compound _ _
  | .var _ _, .constant _ | .var _ _, .world _ | .var _ _, .compound _ _
  | .world _, .constant _ | .world _, .var _ _ | .world _, .compound _ _
  | .compound _ _, .constant _ | .compound _ _, .var _ _ | .compound _ _, .world _ =>
    isFalse (by simp)

/-- Whether two lists of trees are equal. -/
def decEqAll : (as bs : List Tree) → Decidable (as = bs)
  | [], [] => isTrue rfl
  | [], _ :: _ | _ :: _, [] => isFalse (by simp)
  | a :: as, b :: bs =>
    have := decEq a b
    have := decEqAll as bs
    decidable_of_iff (a = b ∧ as = bs) (by simp)

end

instance : DecidableEq Tree := decEq

/-! ### Induction -/

/-- To prove something of all trees, prove it of a compound from its arguments. -/
@[elab_as_elim, induction_eliminator]
theorem induct {motive : Tree → Prop} (constant : ∀ c, motive (.constant c))
    (var : ∀ v g, motive (.var v g)) (world : ∀ k, motive (.world k))
    (compound : ∀ kind args, (∀ t ∈ args, motive t) → motive (.compound kind args)) :
    ∀ t, motive t
  | .constant c => constant c
  | .var v g => var v g
  | .world k => world k
  | .compound kind args =>
      compound kind args fun t _ => induct constant var world compound t

/-! ### Kind and height -/

/-- The kind of a tree. -/
def kind : Tree → Kind
  | .constant _ => .constant
  | .var _ _ => .variable
  | .world _ => .world
  | .compound kind _ => kind

/-- The length of the longest chain of arguments. -/
def height : Tree → Nat
  | .constant _ | .var _ _ | .world _ => 1
  | .compound _ args => (args.map height).foldr max 0 + 1

theorem height_pos (t : Tree) : 0 < t.height := by
  cases t <;> simp [height]

theorem not_height_le_zero (t : Tree) : ¬ t.height ≤ 0 := Nat.not_le.mpr t.height_pos

theorem height_compound_le {kind : Kind} {args : List Tree} {n : Nat} :
    (compound kind args).height ≤ n + 1 ↔ ∀ t ∈ args, t.height ≤ n := by
  have bound : ∀ l : List Nat, l.foldr max 0 ≤ n ↔ ∀ m ∈ l, m ≤ n := by
    intro l
    induction l with
    | nil => simp
    | cons m l ih => rw [List.foldr_cons, Nat.max_le, ih, List.forall_mem_cons]
  rw [height, Nat.add_le_add_iff_right, bound]
  simp

theorem height_lt_of_mem {kind : Kind} {args : List Tree} {t : Tree} (h : t ∈ args) :
    t.height < (compound kind args).height := by
  obtain ⟨n, hn⟩ := Nat.exists_eq_add_one.mpr (height_pos (compound kind args))
  rw [hn]
  exact Nat.lt_succ_of_le (height_compound_le.mp (Nat.le_of_eq hn) t h)

/-! ### Substitution -/

/-- The tree with the constant `new` for every constant and every ungrouped variable named `old`,
binders apart. -/
def subst (old new : SymbolId) : Tree → Tree
  | .constant c => .constant (if c = old then new else c)
  | .var v g => if g = .none ∧ v = old then .constant new else .var v g
  | .world k => .world k
  | .compound kind args =>
    let replaced := args.map (subst old new)
    .compound kind (if kind.isQuantifier then args.take 1 ++ replaced.drop 1 else replaced)

variable {old new : SymbolId}

theorem subst_compound {kind : Kind} {args : List Tree} (h : kind.isQuantifier = false) :
    (compound kind args).subst old new = .compound kind (args.map (subst old new)) := by
  rw [subst]
  simp [h]

theorem subst_quantifier {kind : Kind} {binder body : Tree} (h : kind.isQuantifier = true) :
    (compound kind [binder, body]).subst old new =
      .compound kind [binder, body.subst old new] := by
  rw [subst]
  simp [h]

/-- Constants take the place of constants and of variables, so a tree stays as high as it is. -/
theorem height_subst (t : Tree) : (t.subst old new).height = t.height := by
  have bounds : ∀ n, (t.subst old new).height ≤ n ↔ t.height ≤ n := by
    induction t with
    | constant c => intro n; simp only [subst, height]
    | var v g => intro n; rw [subst]; split <;> simp only [height]
    | world k => intro n; rw [subst]
    | compound kind args ih =>
        intro n
        cases n with
        | zero => exact iff_of_false (not_height_le_zero _) (not_height_le_zero _)
        | succ n =>
            have each : ∀ l ⊆ args, (∀ t ∈ l.map (subst old new), t.height ≤ n) ↔
                ∀ t ∈ l, t.height ≤ n := by
              intro l hl
              rw [List.forall_mem_map]
              exact forall₂_congr fun t ht => ih t (hl ht) n
            rw [subst, height_compound_le, height_compound_le]
            split
            · cases args with
              | nil => rfl
              | cons binder args =>
                  have rest := each args (List.subset_cons_self _ _)
                  simpa using fun _ => by simpa using rest
            · exact each args (List.Subset.refl _)
  exact Nat.le_antisymm ((bounds _).mpr (Nat.le_refl _)) ((bounds _).mp (Nat.le_refl _))

end Tree

end ClassicalPlanner
