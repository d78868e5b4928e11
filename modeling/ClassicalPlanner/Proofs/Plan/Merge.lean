import ClassicalPlanner.Proofs.Plan.Estimate
import ClassicalPlanner.Proofs.Session.History

/-!
# Counting along two lists

The goal count goes along two sorted lists with one place in each.  A turn compares the keys at the
two places and moves on in one of the lists (`Merge.turn`), and it is not known beforehand how many
turns there will be (`Merge.run`).  Each turn leaves less of the lists (`Merge.turn_shorter`) and
keeps what is counted in the end (`Merge.turn_counts`), so the run ends with the count of `missing`
(`Merge.run_eq`).

For lists that rise strictly that is the number of members of the one that the other lacks
(`missing_counts`).
-/

namespace ClassicalPlanner

variable {goal present : List Key} {atom candidate : Key}

/-! ### One comparison -/

theorem missing_of_lt (h : compare candidate atom = .lt) :
    missing (atom :: goal) (candidate :: present) = missing (atom :: goal) present := by
  simp [missing, h]

theorem missing_of_eq (h : compare candidate atom = .eq) :
    missing (atom :: goal) (candidate :: present) = missing goal (candidate :: present) := by
  obtain rfl := Std.LawfulEqOrd.eq_of_compare h
  simp [missing]

theorem missing_of_gt (h : compare candidate atom = .gt) :
    missing (atom :: goal) (candidate :: present) = missing goal (candidate :: present) + 1 := by
  have other : candidate ≠ atom := by
    rintro rfl
    rw [Std.ReflOrd.compare_self] at h
    cases h
  simp [missing, h, other]

theorem missing_cons_nil : missing (atom :: goal) [] = missing goal [] + 1 := by simp [missing]

/-! ### The loop -/

/-- What is left of the two lists, and the members of the first that have been counted. -/
structure Merge where
  goal : List Key
  present : List Key
  counted : Nat := 0

namespace Merge

variable {m m' : Merge}

/-- One turn, as long as something is left of the first list.  It passes over a smaller key of the
second list; it goes on in the first list if the keys are the same, and counts if the second list
has a greater key or none. -/
def turn : Merge → Option Merge
  | ⟨[], _, _⟩ => none
  | ⟨_ :: goal, [], counted⟩ => some ⟨goal, [], counted + 1⟩
  | ⟨atom :: goal, candidate :: present, counted⟩ =>
    match compare candidate atom with
    | .lt => some ⟨atom :: goal, present, counted⟩
    | .eq => some ⟨goal, candidate :: present, counted⟩
    | .gt => some ⟨goal, candidate :: present, counted + 1⟩

theorem turn_cons (atom candidate : Key) (goal present : List Key) (counted : Nat) :
    turn ⟨atom :: goal, candidate :: present, counted⟩ =
      match compare candidate atom with
      | .lt => some ⟨atom :: goal, present, counted⟩
      | .eq => some ⟨goal, candidate :: present, counted⟩
      | .gt => some ⟨goal, candidate :: present, counted + 1⟩ := rfl

/-- The count after the last turn, if there is a last one. -/
def run (m : Merge) : Option Nat :=
  match m.turn with
  | none => some m.counted
  | some m => m |>.run
partial_fixpoint

/-- **A turn leaves less** of the lists. -/
theorem turn_shorter (h : m.turn = some m') :
    m'.goal.length + m'.present.length < m.goal.length + m.present.length := by
  rcases m with ⟨_ | ⟨atom, goal⟩, _ | ⟨candidate, present⟩, counted⟩
  · cases h
  · cases h
  · cases h
    exact Nat.lt_succ_self _
  · rw [turn_cons] at h
    split at h <;> cases h <;> simp only [List.length_cons] <;> omega

/-- **A turn keeps the count** that is reached in the end. -/
theorem turn_counts (h : m.turn = some m') :
    m'.counted + missing m'.goal m'.present = m.counted + missing m.goal m.present := by
  rcases m with ⟨_ | ⟨atom, goal⟩, _ | ⟨candidate, present⟩, counted⟩
  · cases h
  · cases h
  · cases h
    simp only [missing_cons_nil]
    omega
  · rw [turn_cons] at h
    split at h <;> rename_i order <;> cases h
    · simp only [missing_of_lt order]
    · simp only [missing_of_eq order]
    · simp only [missing_of_gt order]
      omega

/-- After the last turn nothing is left to count. -/
theorem missing_of_turn_none (h : m.turn = none) : missing m.goal m.present = 0 := by
  rcases m with ⟨_ | ⟨atom, goal⟩, _ | ⟨candidate, present⟩, counted⟩
  · rfl
  · rfl
  · cases h
  · rw [turn_cons] at h
    split at h <;> cases h

/-- **The loop ends**, along any two lists, with the count of what is missing. -/
theorem run_eq (m : Merge) : m.run = some (m.counted + missing m.goal m.present) := by
  rw [run]
  cases h : m.turn with
  | none => rw [missing_of_turn_none h, Nat.add_zero]
  | some m' =>
      have shorter := turn_shorter h
      rw [← turn_counts h]
      exact run_eq m'
termination_by m.goal.length + m.present.length

end Merge

/-! ### Lists that rise -/

/-- **The count is that of the difference.**  For two lists of keys that rise strictly, the number
of members of the first that are not in the second; and the loop along them ends with it. -/
theorem missing_counts (hg : goal.Pairwise fun a b => a.toNat < b.toNat)
    (hp : present.Pairwise fun a b => a.toNat < b.toNat) :
    missing goal present = (goal.toFinset \ present.toFinset).card ∧
    missing goal present = goal.countP (· ∉ present) ∧
    (Merge.mk goal present 0).run = some (missing goal present) := by
  have counts : missing goal present = (goal.filter (· ∉ present)).length :=
    missing_eq (hg.imp Key.compare_eq_lt_iff.mpr) (hp.imp Key.compare_eq_lt_iff.mpr)
  have nodup : (goal.filter (· ∉ present)).Nodup :=
    List.Pairwise.filter _ (hg.imp fun less same => Nat.ne_of_lt less (congrArg Key.toNat same))
  refine ⟨?_, counts.trans (List.countP_eq_length_filter).symm, ?_⟩
  · rw [counts, ← List.toFinset_card_of_nodup nodup]
    congr 1
    ext k
    simp
  · rw [Merge.run_eq, Nat.zero_add]

namespace Merge

/-- A variable, and two atoms. -/
def wanted : List Key := [.ofSymbol ⟨7⟩, .ofKind .atom 2, .ofKind .atom 5]

/-- Keys around those wanted, and the last of them. -/
def listed : List Key :=
  [.ofKind .constant 9, .ofKind .atom 1, .ofKind .atom 3, .ofKind .atom 5, .ofKind .world 1]

end Merge

open Merge in
/-- One key comes before all that are listed, one between two of them, and one is listed. -/
theorem missing_counts_atoms :
    missing wanted listed = 2 ∧ (Merge.mk wanted listed 0).run = some 2 := by
  have hw : wanted.Pairwise fun a b => a.toNat < b.toNat := by decide
  have hl : listed.Pairwise fun a b => a.toNat < b.toNat := by decide
  obtain ⟨difference, -, ends⟩ := missing_counts hw hl
  have count : missing wanted listed = 2 := difference.trans (by decide)
  exact ⟨count, count ▸ ends⟩

end ClassicalPlanner
