import ClassicalPlanner.Proofs.Tree.Basic

/-!
# Symbols replaced all at once

`Tree.replace f` puts constants for several symbols in one go.  A symbol can be replaced where it
is the name of a constant or of a variable without a group; the binder of a quantifier is out of
reach (`names`).  Nothing but the replacements of these symbols matters (`replace_congr`), and one
replacement after another is again a replacement (`replace_replace`).

Substituting symbols one after the other is replacing them all at once, as long as no symbol that
is put in is one that is replaced (`foldl_subst`).  Then the order does not matter
(`lookup_perm`), and nothing is left to replace (`lookup_names_replace`).
-/

namespace ClassicalPlanner

/-- The number of arguments that are not looked into when symbols are replaced. -/
def Kind.binders (kind : Kind) : Nat := if kind.isQuantifier then 1 else 0

namespace Tree

variable {t : Tree} {kind : Kind} {args : List Tree} {v old new : SymbolId}
variable {f g : SymbolId → Option SymbolId}

/-- Mapping behind the first `n` members leaves both parts of the list where they were. -/
theorem take_drop_append_map {α : Type} (n : Nat) (h : α → α) (l : List α) :
    (l.take n ++ (l.drop n).map h).take n = l.take n ∧
      (l.take n ++ (l.drop n).map h).drop n = (l.drop n).map h := by
  rcases Nat.le_total n l.length with le | le
  · have length : (l.take n).length = n := List.length_take_of_le le
    exact ⟨List.take_left' length, List.drop_left' length⟩
  · simp [List.drop_of_length_le le, List.take_of_length_le le]

/-! ### Symbols that can be replaced -/

/-- The symbols of constants and of variables without a group, binders apart. -/
def names : Tree → List SymbolId
  | .constant c => [c]
  | .var v g => if g = .none then [v] else []
  | .world _ => []
  | .compound kind args => ((args.map names).drop kind.binders).flatten

theorem mem_names_compound :
    v ∈ (compound kind args).names ↔ ∃ a ∈ args.drop kind.binders, v ∈ a.names := by
  simp [names, ← List.map_drop]

/-! ### Replacement -/

/-- The tree with the constant `f v` for every constant and every ungrouped variable named `v` that
has one, binders apart. -/
def replace (f : SymbolId → Option SymbolId) : Tree → Tree
  | .constant c => .constant ((f c).getD c)
  | .var v g =>
      match if g = .none then f v else none with
      | some c => .constant c
      | none => .var v g
  | .world k => .world k
  | .compound kind args =>
      .compound kind (args.take kind.binders ++ (args.map (replace f)).drop kind.binders)

theorem replace_constant (c : SymbolId) :
    (constant c).replace f = .constant ((f c).getD c) := by
  rw [replace]

theorem replace_var {g : SymbolId} : (var v g).replace f =
    match if g = .none then f v else none with
    | some c => .constant c
    | none => .var v g := by
  rw [replace]

theorem replace_world (k : Key) : (world k).replace f = .world k := by
  rw [replace]

theorem replace_compound : (compound kind args).replace f =
    .compound kind (args.take kind.binders ++ (args.drop kind.binders).map (replace f)) := by
  rw [replace, List.map_drop]

theorem replace_free : (var v .none).replace f =
    match f v with
    | some c => .constant c
    | none => .var v .none := by
  rw [replace_var, if_pos rfl]

theorem replace_grouped {g : SymbolId} (h : g ≠ .none) : (var v g).replace f = .var v g := by
  rw [replace_var, if_neg h]

/-- Substitution replaces one symbol. -/
theorem subst_eq_replace (t : Tree) :
    t.subst old new = t.replace fun v => if v = old then some new else none := by
  induction t with
  | constant c =>
      rw [subst, replace_constant]
      split <;> rfl
  | var v g =>
      rw [subst, replace_var]
      by_cases hg : g = .none <;> by_cases hv : v = old <;> simp [hg, hv]
  | world k => rw [subst, replace_world]
  | compound kind args ih =>
      rw [subst, replace_compound, List.map_drop, List.map_congr_left ih, Kind.binders]
      cases kind.isQuantifier <;> simp

/-- Only what is put in for symbols of the tree matters. -/
theorem replace_congr (h : ∀ v ∈ t.names, f v = g v) : t.replace f = t.replace g := by
  induction t with
  | constant c => rw [replace_constant, replace_constant, h c (by simp [names])]
  | var v g' =>
      by_cases hg : g' = .none
      · subst hg
        rw [replace_free, replace_free, h v (by simp [names])]
      · rw [replace_grouped hg, replace_grouped hg]
  | world k => rw [replace_world, replace_world]
  | compound kind args ih =>
      rw [replace_compound, replace_compound]
      refine congrArg (compound kind <| _ ++ ·) (List.map_congr_left fun a ha => ?_)
      exact ih a (List.mem_of_mem_drop ha) fun v hv => h v (mem_names_compound.mpr ⟨a, ha, hv⟩)

/-- Where no symbol is replaced, the tree stays as it is. -/
theorem replace_none (t : Tree) : t.replace (fun _ => none) = t := by
  induction t with
  | constant c => rw [replace_constant, Option.getD_none]
  | var v g => rw [replace_var, ite_self]
  | world k => exact replace_world k
  | compound kind args ih =>
      have same : (args.drop kind.binders).map (replace fun _ => none) =
          args.drop kind.binders := by
        rw [List.map_congr_left fun a ha => ih a (List.mem_of_mem_drop ha), List.map_id']
      rw [replace_compound, same, List.take_append_drop]

theorem replace_eq_self (h : ∀ v ∈ t.names, f v = none) : t.replace f = t := by
  rw [replace_congr h, replace_none]

/-- A symbol that cannot be replaced in a tree can be substituted, but nothing changes. -/
theorem subst_eq_self (h : old ∉ t.names) : t.subst old new = t := by
  rw [subst_eq_replace]
  refine replace_eq_self fun v hv => if_neg ?_
  rintro rfl
  exact h hv

/-- The symbols of a tree after a replacement. -/
theorem mem_names_replace : v ∈ (t.replace f).names ↔ ∃ u ∈ t.names, (f u).getD u = v := by
  induction t with
  | constant c => simp [replace_constant, names, eq_comm]
  | var u g =>
      by_cases hg : g = .none
      · subst hg
        rw [replace_free]
        cases value : f u <;> simp [names, value, eq_comm]
      · rw [replace_grouped hg]
        simp [names, hg]
  | world k => simp [replace_world, names]
  | compound kind args ih =>
      rw [replace_compound, mem_names_compound, (take_drop_append_map _ _ _).2]
      constructor
      · rintro ⟨_, mem, hv⟩
        obtain ⟨a, ha, rfl⟩ := List.mem_map.mp mem
        obtain ⟨u, hu, value⟩ := (ih a (List.mem_of_mem_drop ha)).mp hv
        exact ⟨u, mem_names_compound.mpr ⟨a, ha, hu⟩, value⟩
      · rintro ⟨u, hu, value⟩
        obtain ⟨a, ha, hu⟩ := mem_names_compound.mp hu
        exact ⟨_, List.mem_map_of_mem ha, (ih a (List.mem_of_mem_drop ha)).mpr ⟨u, hu, value⟩⟩

/-- What two replacements put in, one after the other. -/
def andThen (f g : SymbolId → Option SymbolId) (v : SymbolId) : Option SymbolId :=
  match f v with
  | some c => some ((g c).getD c)
  | none => g v

/-- **One replacement after another** is a replacement. -/
theorem replace_replace (t : Tree) : (t.replace f).replace g = t.replace (andThen f g) := by
  induction t with
  | constant c =>
      rw [replace_constant, replace_constant, replace_constant, andThen]
      cases f c <;> rfl
  | var v g' =>
      by_cases hg : g' = .none
      · subst hg
        rw [replace_free, replace_free, andThen]
        cases f v with
        | some c => exact replace_constant c
        | none => rw [replace_free]
      · rw [replace_grouped hg, replace_grouped hg, replace_grouped hg]
  | world k => rw [replace_world, replace_world, replace_world]
  | compound kind args ih =>
      obtain ⟨outside, inside⟩ := take_drop_append_map kind.binders (replace f) args
      rw [replace_compound, replace_compound, replace_compound, outside, inside, List.map_map]
      refine congrArg (compound kind <| _ ++ ·) (List.map_congr_left fun a ha => ?_)
      exact ih a (List.mem_of_mem_drop ha)

/-! ### Substitution of several symbols -/

variable {bindings bindings' : List (SymbolId × SymbolId)}

/-- No symbol that is put in is one that is replaced. -/
def Separate (bindings : List (SymbolId × SymbolId)) : Prop :=
  ∀ b ∈ bindings, b.2 ∉ bindings.map Prod.fst

instance (bindings : List (SymbolId × SymbolId)) : Decidable (Separate bindings) :=
  inferInstanceAs (Decidable (∀ b ∈ bindings, b.2 ∉ bindings.map Prod.fst))

theorem lookup_eq_none_iff : bindings.lookup v = none ↔ v ∉ bindings.map Prod.fst := by
  rw [List.lookup_eq_none_iff]
  constructor
  · intro other mem
    obtain ⟨b, hb, rfl⟩ := List.mem_map.mp mem
    exact bne_iff_ne.mp (other b hb) rfl
  · intro unbound b hb
    refine bne_iff_ne.mpr ?_
    rintro rfl
    exact unbound (List.mem_map_of_mem hb)

theorem mem_of_lookup (h : bindings.lookup v = some new) : (v, new) ∈ bindings := by
  obtain ⟨before, after, rfl, -⟩ := List.lookup_eq_some_iff.mp h
  simp

/-- **One after the other is all at once.**  Substituting symbols in turn replaces each by what is
listed first for it, if no symbol that is put in is one that is replaced. -/
theorem foldl_subst (separate : Separate bindings) (t : Tree) :
    bindings.foldl (fun t b => t.subst b.1 b.2) t = t.replace (bindings.lookup ·) := by
  induction bindings generalizing t with
  | nil => exact (replace_none t).symm
  | cons b bindings ih =>
      obtain ⟨old, new⟩ := b
      have rest : Separate bindings := fun b hb mem =>
        separate b (List.mem_cons_of_mem _ hb) (List.mem_cons_of_mem _ mem)
      have stays : bindings.lookup new = none := lookup_eq_none_iff.mpr fun mem =>
        separate (old, new) List.mem_cons_self (List.mem_cons_of_mem _ mem)
      rw [List.foldl_cons, ih rest, subst_eq_replace, replace_replace]
      refine replace_congr fun v _ => ?_
      rw [andThen, List.lookup_cons]
      by_cases same : v = old
      · simp [same, stays]
      · simp [same, beq_false_of_ne same]

/-- Where every symbol is bound once, it is bound to what is listed for it. -/
theorem lookup_eq_some_of_nodup (distinct : (bindings.map Prod.fst).Nodup) :
    bindings.lookup v = some new ↔ (v, new) ∈ bindings := by
  refine ⟨mem_of_lookup, fun mem => ?_⟩
  obtain ⟨before, after, rfl⟩ := List.append_of_mem mem
  refine List.lookup_eq_some_iff.mpr ⟨before, after, rfl, fun b hb => ?_⟩
  rw [List.map_append, List.nodup_append] at distinct
  rw [bne_iff_ne]
  exact (distinct.2.2 _ (List.mem_map_of_mem hb) _ (by simp)).symm

/-- The order of bindings of different symbols does not matter. -/
theorem lookup_perm (distinct : (bindings.map Prod.fst).Nodup) (h : bindings'.Perm bindings)
    (v : SymbolId) : bindings'.lookup v = bindings.lookup v := by
  refine Option.ext fun c => ?_
  rw [lookup_eq_some_of_nodup distinct, lookup_eq_some_of_nodup ((h.map _).nodup_iff.mpr distinct),
    h.mem_iff]

/-- **Nothing is left to replace** when all symbols have been replaced by others. -/
theorem lookup_names_replace (separate : Separate bindings)
    (hv : v ∈ (t.replace (bindings.lookup ·)).names) : bindings.lookup v = none := by
  obtain ⟨u, -, rfl⟩ := mem_names_replace.mp hv
  cases value : bindings.lookup u with
  | none => exact value
  | some c => exact lookup_eq_none_iff.mpr (separate _ (mem_of_lookup value))

end Tree

end ClassicalPlanner
