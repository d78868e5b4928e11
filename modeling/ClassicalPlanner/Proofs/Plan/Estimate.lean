import ClassicalPlanner.Config.Basic
import ClassicalPlanner.Plan.Estimate
import ClassicalPlanner.Proofs.Session.Effect
import Mathlib.Data.Finset.Card
import Mathlib.Data.List.Nodup
import Mathlib.Data.List.TakeWhile

/-!
# Estimates and trees

The goal count of a world is the number of trees that the goal adds and the world lacks
(`value_eq_ok`): it does not depend on how atoms are numbered, although it is counted along two
lists in the order of their numbers (`missing_eq`).
-/

namespace ClassicalPlanner

/-! ### Counting along sorted lists -/

theorem mem_dropWhile {α : Type} {p : α → Bool} {l : List α} {a : α} (h : ¬ p a = true) :
    a ∈ l.dropWhile p ↔ a ∈ l := by
  conv => rhs; rw [← List.takeWhile_append_dropWhile (p := p) (l := l), List.mem_append]
  exact (or_iff_right fun mem => h (List.mem_takeWhile_imp mem)).symm

/-- In a sorted list from which all smaller keys have been dropped, a key comes first or not at
all. -/
theorem head?_eq_some_iff_mem {l : List Key} {k : Key}
    (sorted : l.Pairwise fun a b => compare a b = .lt) (above : ∀ a, l.head? = some a →
      ¬ compare a k = .lt) : l.head? = some k ↔ k ∈ l := by
  cases l with
  | nil => exact iff_of_false (fun h => by cases h) List.not_mem_nil
  | cons a l =>
      refine ⟨fun h => List.mem_of_mem_head? h, fun h => ?_⟩
      rcases List.mem_cons.mp h with rfl | h
      · rfl
      · exact absurd ((List.pairwise_cons.mp sorted).1 k h) (above a rfl)

theorem head?_dropWhile_not {α : Type} {p : α → Bool} {l : List α} {a : α}
    (h : (l.dropWhile p).head? = some a) : ¬ p a = true := by
  have := List.head?_dropWhile_not p l
  rw [h] at this
  exact Bool.eq_false_iff.mp this

/-- The count along two sorted lists is the number of members of the one that are not in the
other. -/
theorem missing_eq {goal present : List Key} (hg : goal.Pairwise fun a b => compare a b = .lt)
    (hp : present.Pairwise fun a b => compare a b = .lt) :
    missing goal present = (goal.filter (· ∉ present)).length := by
  induction goal generalizing present with
  | nil => rfl
  | cons k goal ih =>
      obtain ⟨least, hg⟩ := List.pairwise_cons.mp hg
      have sorted : (present.dropWhile fun a => compare a k == .lt).Pairwise fun a b =>
          compare a b = .lt := hp.sublist (List.dropWhile_sublist _)
      have first : (present.dropWhile fun a => compare a k == .lt).head? = some k ↔
          k ∈ present := by
        rw [head?_eq_some_iff_mem sorted fun a ha => by simpa using head?_dropWhile_not ha]
        exact mem_dropWhile (by simp)
      have rest : goal.filter (· ∉ present.dropWhile fun a => compare a k == .lt) =
          goal.filter (· ∉ present) := by
        refine List.filter_congr fun a ha => decide_eq_decide.mpr (not_congr (mem_dropWhile ?_))
        rw [Std.OrientedOrd.eq_swap, least a ha]
        simp
      rw [missing]
      simp only [first, ih hg sorted, rest, List.filter_cons]
      by_cases mem : k ∈ present <;> simp [mem]

namespace Session

variable {s s' F : Session} {a b : AtomSet} {G W : Finset Tree} {w : World}
variable {estimate : Estimate} {f : Finset Tree → UInt32} {k : Key} {t : Tree}

/-- The number of atoms missing is the number of trees missing. -/
theorem missing_eq_card (hs : s.Canonical) (hg : s.Lists a G) (hw : s.Depicts b W) :
    missing a.toList b.toList = (G \ W).card := by
  rw [missing_eq Std.ExtTreeSet.ordered_toList Std.ExtTreeSet.ordered_toList]
  have mem {k : Key} : k ∈ a.toList.filter (· ∉ b.toList) ↔ k ∈ a ∧ k ∉ b := by
    rw [List.mem_filter, decide_eq_true_eq, Std.ExtTreeSet.mem_toList, Std.ExtTreeSet.mem_toList]
  refine length_eq_card hs (nodup_toList.filter _) (fun k hk => ?_) fun t ht => ?_
  · obtain ⟨hka, hkb⟩ := mem.mp hk
    obtain ⟨t, ht, hkt⟩ := hg.denotes hka
    exact ⟨t, Finset.mem_sdiff.mpr ⟨ht, fun h => hkb ((hw hkt).mpr h)⟩, hkt⟩
  · obtain ⟨ht, hn⟩ := Finset.mem_sdiff.mp ht
    obtain ⟨k, hk, hkt⟩ := hg.listed ht
    exact ⟨k, mem.mpr ⟨hk, fun h => hn ((hw hkt).mp h)⟩, hkt⟩

/-! ### Estimates -/

/-- The estimate of a world is `f` of its trees. -/
def Measures (s : Session) (f : Finset Tree → UInt32) : Estimate → Prop
  | .blind => f = fun _ => 0
  | .goalCount atoms => ∃ G, s.Lists atoms G ∧ f = fun W => UInt32.ofNat (G \ W).card

theorem Measures.mono (h : s.Measures f estimate) (grow : s ≤ s') : s'.Measures f estimate := by
  cases estimate with
  | blind => exact h
  | goalCount atoms =>
      obtain ⟨G, lists, hf⟩ := h
      exact ⟨G, lists.mono grow, hf⟩

theorem repeats_value (estimate : Estimate) (w : World) :
    Repeats (estimate.value w) (estimate.value w) := by
  cases estimate with
  | blind => exact .pure 0
  | goalCount atoms => exact .bind (repeats_atoms w) fun _ => .pure _

theorem settles_value (estimate : Estimate) (w : World) :
    Settles (estimate.value w) (estimate.value w) := (repeats_value estimate w).toSettles

theorem value_eq_ok {v : UInt32} (hs : s.Canonical) (hf : s.Measures f estimate)
    (hw : s.Shows w W) (h : estimate.value w s = (.ok v, s')) : v = f W := by
  cases estimate with
  | blind =>
      obtain rfl := hf
      cases h
      rfl
  | goalCount atoms =>
      obtain ⟨G, lists, rfl⟩ := hf
      obtain ⟨b, s₁, hb, h⟩ := run_bind_eq_ok.mp h
      obtain ⟨a, found, lists'⟩ := hw
      obtain ⟨found', rfl⟩ := atoms_eq_ok_iff.mp hb
      obtain rfl : a = b := Node.world.inj (Option.some.inj (found.symm.trans found'))
      cases h
      exact congrArg UInt32.ofNat (missing_eq_card hs lists (lists'.depicts hs (le_refl _)))

end Session

namespace Tree

/-- How the way to a goal is estimated: a goal without a goal count is searched for blindly. -/
def estimate (members : SymbolId → List SymbolId) (goal : Tree) :
    Heuristic → Finset Tree → UInt32
  | .blind, _ => 0
  | .goalCount, W =>
    match changeAll members goal with
    | .ok d => UInt32.ofNat (d.add \ W).card
    | .error _ => 0

end Tree

namespace Session

variable {s s' : Session} {estimate : Estimate} {k : Key} {t : Tree}

theorem settles_ofGoal (k : Key) : Settles (Estimate.ofGoal k) (Estimate.ofGoal k) :=
  .bind (settles_collectAll ∅ k) fun _ => .pure _

theorem ofGoal_eq_ok (hs : s.Canonical) (ht : s.store.Denotes k t)
    (h : Estimate.ofGoal k s = (.ok estimate, s')) :
    s'.Measures (Tree.estimate s.members t .goalCount) estimate := by
  obtain ⟨c, s₁, hc, h⟩ := run_bind_eq_ok.mp h
  cases h
  obtain ⟨d, hd, hc⟩ := ((answers_collectAll hs ht collects_empty).of_ok hc (le_refl s')).eq_ok
  rw [Tree.Delta.empty_union] at hc
  refine ⟨d.add, hc.add, funext fun W => ?_⟩
  rw [Tree.estimate, hd]

/-- A goal without a goal count. -/
theorem ofGoal_eq_misplaced {kind : Kind} {role : Role} (hs : s.Canonical)
    (ht : s.store.Denotes k t) (h : Estimate.ofGoal k s = (.error (.misplaced kind role), s')) :
    s'.Measures (Tree.estimate s.members t .goalCount) .blind := by
  have answer := answers_collectAll (F := s') hs ht collects_empty
  unfold Estimate.ofGoal at h
  rw [run_bind] at h
  unfold Answers at answer
  generalize changesFrom ∅ (collectAll k) s = out at h answer
  rcases out with ⟨e | c, s₁⟩
  · cases h
    rcases answer (le_refl s') with none | gathers
    · cases none
    · refine funext fun W => ?_
      rw [Tree.estimate, gathers.eq_error]
  · cases h

end Session

end ClassicalPlanner
