import Std.Data.ExtTreeMap

/-!
# Frontiers

What a search has met and not yet looked at.  Entries are kept by priority, and the one of least
priority comes first (`Frontier.first?_eq_some_iff`).
-/

namespace ClassicalPlanner.Search

/-- The place of an entry in a frontier. -/
structure Priority where
  /-- The cost of the way and the estimate of the rest. -/
  total : UInt32
  /-- The number of entries pushed before. -/
  turn : Nat
deriving DecidableEq, Repr

namespace Priority

instance : Ord Priority := ⟨compareLex (compareOn total) (compareOn turn)⟩

instance : Std.TransOrd Priority :=
  inferInstanceAs (Std.TransCmp (compareLex (compareOn total) (compareOn turn)))

instance : Std.LawfulEqOrd Priority where
  eq_of_compare {a b} h := by
    obtain ⟨ht, hn⟩ := compareLex_eq_eq.mp h
    have ht : a.total = b.total := Std.LawfulEqOrd.eq_of_compare ht
    have hn : a.turn = b.turn := Std.LawfulEqOrd.eq_of_compare hn
    cases a; cases b; simp_all

end Priority

/-- Entries by priority. -/
abbrev Frontier (Id : Type) := Std.ExtTreeMap Priority Id

namespace Frontier

variable {Id : Type} {f : Frontier Id}

/-- The entry that comes first. -/
def first? (f : Frontier Id) : Option (Priority × Id) := f.entryAtIdx? 0

open Std.DTreeMap.Internal in
/-- The leftmost entry of a balanced tree heads its list. -/
theorem entryAtIdx?_zero_of_balanced (t : Impl Priority fun _ => Id) (balanced : t.Balanced) :
    Impl.Const.entryAtIdx? t 0 = (Impl.Const.toList t).head? := by
  rw [Impl.Const.toList_eq_toListModel_map]
  induction t with
  | leaf => rfl
  | inner size k v l r ihl =>
      obtain _ | ⟨hl, _⟩ := balanced
      cases l with
      | leaf => simp [Impl.Const.entryAtIdx?, Impl.size]
      | inner size' k' v' l' r' =>
          have earlier : compare 0 (Impl.inner size' k' v' l' r').size = .lt := by
            cases hl; exact Nat.compare_eq_lt.mpr (by simp only [Impl.size]; omega)
          rw [Impl.Const.entryAtIdx?, earlier]
          simp [ihl hl]

theorem first?_eq_head?_toList (f : Frontier Id) : f.first? = f.toList.head? := by
  obtain ⟨⟨t⟩⟩ := f
  induction t using Quotient.ind with
  | _ t => exact entryAtIdx?_zero_of_balanced t.inner t.wf.balanced

theorem first?_eq_none_iff : f.first? = none ↔ f = ∅ := by
  rw [first?_eq_head?_toList, List.head?_eq_none_iff, Std.ExtTreeMap.toList_eq_nil_iff]

/-- The first entry is the one whose priority is least. -/
theorem first?_eq_some_iff {p : Priority} {id : Id} :
    f.first? = some (p, id) ↔ f[p]? = some id ∧ ∀ q ∈ f, (compare p q).isLE := by
  have ordered : f.toList.Pairwise fun a b => compare a.1 b.1 = .lt :=
    Std.ExtTreeMap.ordered_keys_toList
  have holds (q : Priority) (j : Id) : (q, j) ∈ f.toList ↔ f[q]? = some j :=
    Std.ExtTreeMap.mem_toList_iff_getElem?_eq_some
  have listed (q : Priority) (h : q ∈ f) : ∃ j, (q, j) ∈ f.toList :=
    ⟨f[q], (holds q _).mpr (Std.ExtTreeMap.getElem?_eq_some_getElem h)⟩
  rw [first?_eq_head?_toList, ← holds]
  cases entries : f.toList with
  | nil => simp
  | cons first rest =>
      rw [entries] at ordered listed
      obtain ⟨before, _⟩ := List.pairwise_cons.mp ordered
      simp only [List.head?_cons, Option.some.injEq]
      constructor
      · rintro rfl
        refine ⟨List.mem_cons_self, fun q h => ?_⟩
        obtain ⟨j, hj⟩ := listed q h
        obtain same | later := List.mem_cons.mp hj
        · obtain ⟨rfl, rfl⟩ := Prod.mk.inj same
          simp
        · simp [before _ later]
      · rintro ⟨member, least⟩
        obtain same | later := List.mem_cons.mp member
        · exact same.symm
        · have present : first.1 ∈ f :=
            Std.ExtTreeMap.mem_iff_isSome_getElem?.mpr
              (by rw [(holds first.1 first.2).mp (by simp [entries])]; rfl)
          have after : compare p first.1 = .gt := by
            rw [Std.OrientedOrd.eq_swap, before _ later]; rfl
          have := least _ present
          simp [after] at this

end Frontier

end ClassicalPlanner.Search
