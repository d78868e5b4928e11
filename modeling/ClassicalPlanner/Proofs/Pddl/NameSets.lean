import ClassicalPlanner.Model.Domain

/-!
# Named sets of names

What is in named sets is which names there are, and which members each of them has
(`NameSets.ext_members`).  `extend` adds one name and some members of it, so a list of extensions
adds what each of them adds, whatever the order (`mem_foldl_extend`, `mem_getD_foldl_extend`).
-/

namespace ClassicalPlanner.NameSets

variable {α : Type} {sets sets' : NameSets} {group group' name : String} {names : List String}

theorem mem_extend : group' ∈ sets.extend group names ↔ group' = group ∨ group' ∈ sets := by
  rw [extend, Std.ExtTreeMap.mem_insert, Std.LawfulEqCmp.compare_eq_iff_eq, eq_comm]

theorem mem_getD_extend_iff : name ∈ (sets.extend group names).getD group' ∅ ↔
    name ∈ sets.getD group' ∅ ∨ group' = group ∧ name ∈ names := by
  rw [extend, Std.ExtTreeMap.getD_insert]
  simp only [Std.LawfulEqCmp.compare_eq_iff_eq]
  split
  · rename_i same
    subst same
    rw [Std.ExtTreeSet.mem_insertMany_list, List.contains_iff_mem]
    simp
  · rename_i other
    simp [Ne.symm other]

theorem mem_getD_iff : name ∈ sets.getD group ∅ ↔ ∃ set, sets[group]? = some set ∧ name ∈ set := by
  rw [Std.ExtTreeMap.getD_eq_getD_getElem?]
  cases sets[group]? with
  | none => simp
  | some set => simp

theorem mem_iff_getElem? : group ∈ sets ↔ ∃ set, sets[group]? = some set := by
  rw [← Std.ExtTreeMap.isSome_getElem?_iff_mem, Option.isSome_iff_exists]

theorem not_mem_empty : group ∉ (∅ : NameSets) := Std.ExtTreeMap.not_mem_empty

theorem not_mem_getD_empty : name ∉ (∅ : NameSets).getD group ∅ := by
  rw [Std.ExtTreeMap.getD_empty]
  exact Std.ExtTreeSet.not_mem_empty

theorem mem_of_mem_getD (h : name ∈ sets.getD group ∅) : group ∈ sets := by
  obtain ⟨set, found, -⟩ := mem_getD_iff.mp h
  exact mem_iff_getElem?.mpr ⟨set, found⟩

theorem mem_erase : group ∈ sets.erase group' ↔ group ≠ group' ∧ group ∈ sets := by
  rw [Std.ExtTreeMap.mem_erase, Ne, Std.LawfulEqCmp.compare_eq_iff_eq, eq_comm]

theorem mem_getD_erase :
    name ∈ Std.ExtTreeMap.getD (sets.erase group') group ∅ ↔
      group ≠ group' ∧ name ∈ sets.getD group ∅ := by
  rw [Std.ExtTreeMap.getD_erase]
  simp only [Std.LawfulEqCmp.compare_eq_iff_eq]
  split
  · rename_i same
    exact iff_of_false Std.ExtTreeSet.not_mem_empty fun h => h.1 same.symm
  · rename_i other
    exact ⟨fun h => ⟨Ne.symm other, h⟩, And.right⟩

/-- One name that both have or lack, with the same members. -/
theorem getElem?_congr (h : group ∈ sets ↔ group ∈ sets')
    (hm : ∀ name, name ∈ sets.getD group ∅ ↔ name ∈ sets'.getD group ∅) :
    sets[group]? = sets'[group]? := by
  have members : sets.getD group ∅ = sets'.getD group ∅ :=
    Std.ExtTreeSet.ext_mem fun name => hm name
  rw [Std.ExtTreeMap.getD_eq_getD_getElem?, Std.ExtTreeMap.getD_eq_getD_getElem?] at members
  rw [mem_iff_getElem?, mem_iff_getElem?] at h
  cases found : sets[group]? with
  | none =>
      cases found' : sets'[group]? with
      | none => rfl
      | some set' =>
          obtain ⟨set, hset⟩ := h.mpr ⟨set', found'⟩
          cases found.symm.trans hset
  | some set =>
      obtain ⟨set', found'⟩ := h.mp ⟨set, found⟩
      rw [found, found'] at members
      rw [found']
      exact congrArg some members

/-- **Named sets are equal** if they have the same names with the same members. -/
theorem ext_members (h : ∀ group, group ∈ sets ↔ group ∈ sets')
    (hm : ∀ group name, name ∈ sets.getD group ∅ ↔ name ∈ sets'.getD group ∅) : sets = sets' :=
  Std.ExtTreeMap.ext_getElem? fun group => getElem?_congr (h group) (hm group)

/-! ### Lists of extensions -/

variable {l : List α} {key : α → String} {added : α → List String}

theorem mem_foldl_extend :
    group ∈ l.foldl (fun sets a => extend sets (key a) (added a)) sets ↔
      group ∈ sets ∨ ∃ a ∈ l, key a = group := by
  induction l generalizing sets with
  | nil => simp
  | cons a l ih =>
      rw [List.foldl_cons, ih, mem_extend, eq_comm, or_comm (a := key a = group), or_assoc]
      simp only [List.mem_cons, or_and_right, exists_or, exists_eq_left]

theorem mem_getD_foldl_extend :
    name ∈ (l.foldl (fun sets a => extend sets (key a) (added a)) sets).getD group ∅ ↔
      name ∈ sets.getD group ∅ ∨ ∃ a ∈ l, key a = group ∧ name ∈ added a := by
  induction l generalizing sets with
  | nil => simp
  | cons a l ih =>
      rw [List.foldl_cons, ih, mem_getD_extend_iff, eq_comm, or_assoc]
      simp only [List.mem_cons, or_and_right, exists_or, exists_eq_left]

/-! ### Listing -/

theorem mem_toList {set : NameSet} : (group, set) ∈ sets.toList ↔ sets[group]? = some set :=
  Std.ExtTreeMap.mem_toList_iff_getElem?_eq_some

/-- The members of a set are those that its entry lists. -/
theorem mem_getD_iff_entry : name ∈ sets.getD group ∅ ↔
    ∃ entry ∈ sets.toList, entry.1 = group ∧ name ∈ entry.2.toList := by
  rw [mem_getD_iff]
  constructor
  · rintro ⟨set, known, mem⟩
    exact ⟨(group, set), mem_toList.mpr known, rfl, Std.ExtTreeSet.mem_toList.mpr mem⟩
  · rintro ⟨⟨_, set⟩, known, rfl, mem⟩
    exact ⟨set, mem_toList.mp known, Std.ExtTreeSet.mem_toList.mp mem⟩

end ClassicalPlanner.NameSets
