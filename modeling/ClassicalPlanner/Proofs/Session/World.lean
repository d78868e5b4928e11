import ClassicalPlanner.Proofs.Session.Answer
import Mathlib.Data.Finset.Card

/-!
# Worlds and the trees that hold in them

A world lists keys, and what matters is which trees they denote.  `Shows s w W` says that the world
`w` of the session `s` lists the keys of the trees in `W` and nothing else.  In one session a world
is determined by its trees (`Shows.unique`).

A world may also list keys that are not registered yet.  For those `Reads F s w W` looks at a
session `F` further on: of the keys known there, `w` lists those of the trees in `W`.
-/

namespace ClassicalPlanner

namespace Session

variable {s s' F : Session} {k : Key} {t : Tree} {w w' : World} {W W' : Finset Tree} {a : AtomSet}

/-! ### Sets of keys -/

/-- The keys in `a` are those of the trees in `W`. -/
structure Lists (s : Session) (a : AtomSet) (W : Finset Tree) : Prop where
  denotes : ∀ {k}, k ∈ a → ∃ t ∈ W, s.store.Denotes k t
  listed : ∀ {t}, t ∈ W → ∃ k ∈ a, s.store.Denotes k t

/-- Of the keys that `F` knows, `a` has those of the trees in `W`. -/
def Depicts (F : Session) (a : AtomSet) (W : Finset Tree) : Prop :=
  ∀ {k t}, F.store.Denotes k t → (k ∈ a ↔ t ∈ W)

theorem Lists.mono (h : Lists s a W) (grow : s ≤ s') : Lists s' a W where
  denotes hk :=
    have ⟨t, ht, hkt⟩ := h.denotes hk
    ⟨t, ht, hkt.mono grow.store⟩
  listed ht :=
    have ⟨k, hk, hkt⟩ := h.listed ht
    ⟨k, hk, hkt.mono grow.store⟩

theorem Lists.depicts (h : Lists s a W) (hF : F.Canonical) (grow : s ≤ F) : Depicts F a W := by
  intro k t hkt
  constructor
  · intro hk
    obtain ⟨t', ht', hkt'⟩ := h.denotes hk
    rwa [hkt.unique (hkt'.mono grow.store)]
  · intro ht
    obtain ⟨k', hk', hkt'⟩ := h.listed ht
    rwa [hF.denotes_injective hkt (hkt'.mono grow.store)]

theorem lists_empty : Lists s ∅ ∅ :=
  ⟨fun h => absurd h Std.ExtTreeSet.not_mem_empty, fun h => absurd h (Finset.notMem_empty _)⟩

theorem Lists.insert (h : Lists s a W) (hk : s.store.Denotes k t) :
    Lists s (a.insert k) (W ∪ {t}) where
  denotes {k'} hk' := by
    rw [Std.ExtTreeSet.mem_insert, Std.LawfulEqOrd.compare_eq_iff_eq] at hk'
    rcases hk' with rfl | hk'
    · exact ⟨t, by simp, hk⟩
    · obtain ⟨t', ht', hkt'⟩ := h.denotes hk'
      exact ⟨t', Finset.mem_union_left _ ht', hkt'⟩
  listed {t'} ht' := by
    rw [Finset.mem_union, Finset.mem_singleton] at ht'
    rcases ht' with ht' | rfl
    · obtain ⟨k', hk', hkt'⟩ := h.listed ht'
      exact ⟨k', Std.ExtTreeSet.mem_insert.mpr (.inr hk'), hkt'⟩
    · exact ⟨k, Std.ExtTreeSet.mem_insert_self, hk⟩

theorem nodup_toList {α : Type} [Ord α] [Std.TransOrd α] {a : Std.ExtTreeSet α} :
    a.toList.Nodup := by
  refine Std.ExtTreeSet.distinct_toList.imp fun {a b} (ne : ¬compare a b = .eq) => ?_
  rintro rfl
  exact ne Std.ReflOrd.compare_self

/-- Different keys are those of as many trees. -/
theorem length_eq_card (hs : s.Canonical) {ks : List Key} (nodup : ks.Nodup)
    (denotes : ∀ k ∈ ks, ∃ t ∈ W, s.store.Denotes k t)
    (listed : ∀ t ∈ W, ∃ k ∈ ks, s.store.Denotes k t) : ks.length = W.card := by
  obtain ⟨ts, hts, -⟩ := NodeStore.Canonical.denotes_all hs fun k hk => by
    obtain ⟨t, -, hkt⟩ := denotes k hk
    exact hkt.contains
  have unique : Relator.BiUnique s.store.Denotes :=
    ⟨fun _ _ _ h h' => hs.denotes_injective h h', fun _ _ _ h h' => h.unique h'⟩
  have distinct : ts.Nodup := (List.rel_nodup unique hts).mp nodup
  have trees : ts.toFinset = W := by
    ext t
    rw [List.mem_toFinset]
    constructor
    · intro ht
      obtain ⟨k, hk, hkt⟩ := NodeStore.forall₂_exists_right hts.flip ht
      obtain ⟨t', ht', hkt'⟩ := denotes k hk
      rwa [hkt.unique hkt']
    · intro ht
      obtain ⟨k, hk, hkt⟩ := listed t ht
      obtain ⟨t', ht', hkt'⟩ := NodeStore.forall₂_exists_right hts hk
      rwa [hkt.unique hkt']
  rw [hts.length_eq, ← trees, List.toFinset_card_of_nodup distinct]

theorem Lists.size_eq_card (hs : s.Canonical) (h : s.Lists a W) : a.size = W.card := by
  rw [← Std.ExtTreeSet.length_toList]
  refine length_eq_card hs nodup_toList (fun k hk => h.denotes (Std.ExtTreeSet.mem_toList.mp hk))
    fun t ht => ?_
  obtain ⟨k, hk, hkt⟩ := h.listed ht
  exact ⟨k, Std.ExtTreeSet.mem_toList.mpr hk, hkt⟩

/-- Registered keys are those of some trees. -/
theorem exists_lists (hs : s.Canonical) (h : ∀ k ∈ a, s.store.contains k) : ∃ W, Lists s a W := by
  obtain ⟨ts, hts, -⟩ := NodeStore.Canonical.denotes_all hs fun k hk =>
    h k (Std.ExtTreeSet.mem_toList.mp hk)
  refine ⟨ts.toFinset, ⟨fun {k} hk => ?_, fun {t} ht => ?_⟩⟩
  · obtain ⟨t, ht, hkt⟩ :=
      NodeStore.forall₂_exists_right hts (Std.ExtTreeSet.mem_toList.mpr hk)
    exact ⟨t, List.mem_toFinset.mpr ht, hkt⟩
  · obtain ⟨k, hk, hkt⟩ := NodeStore.forall₂_exists_right hts.flip (List.mem_toFinset.mp ht)
    exact ⟨k, Std.ExtTreeSet.mem_toList.mp hk, hkt⟩

/-- Of any set of keys, a session knows those of some trees. -/
theorem exists_trees (hF : F.Canonical) (a : AtomSet) :
    ∃ W : Finset Tree, ∀ t, t ∈ W ↔ ∃ k ∈ a, F.store.Denotes k t := by
  let known : AtomSet := .ofList (a.toList.filter (F.store.contains ·))
  have mem {k : Key} : k ∈ known ↔ k ∈ a ∧ F.store.contains k := by
    rw [Std.ExtTreeSet.mem_ofList, List.contains_iff_mem, List.mem_filter,
      Std.ExtTreeSet.mem_toList]
  obtain ⟨W, lists⟩ := exists_lists (a := known) hF fun k hk => (mem.mp hk).2
  refine ⟨W, fun t => ⟨fun ht => ?_, ?_⟩⟩
  · obtain ⟨k, hk, hkt⟩ := lists.listed ht
    exact ⟨k, (mem.mp hk).1, hkt⟩
  · rintro ⟨k, hk, hkt⟩
    exact (lists.depicts hF (le_refl F) hkt).mp (mem.mpr ⟨hk, hkt.contains⟩)

theorem depicts_of_trees (hF : F.Canonical)
    (h : ∀ t, t ∈ W ↔ ∃ k ∈ a, F.store.Denotes k t) : Depicts F a W := by
  intro k t hkt
  rw [h]
  refine ⟨fun hk => ⟨k, hk, hkt⟩, ?_⟩
  rintro ⟨k', hk', hkt'⟩
  rwa [hF.denotes_injective hkt hkt']

theorem exists_depicts (hF : F.Canonical) (a : AtomSet) : ∃ W, Depicts F a W := by
  obtain ⟨W, trees⟩ := exists_trees hF a
  exact ⟨W, depicts_of_trees hF trees⟩

theorem Depicts.union {a' : AtomSet} (h : Depicts F a W) (h' : Depicts F a' W') :
    Depicts F (a ∪ a') (W ∪ W') := by
  intro k t hkt
  rw [Std.ExtTreeSet.mem_union_iff, Finset.mem_union, h hkt, h' hkt]

theorem Depicts.sdiff {a' : AtomSet} (h : Depicts F a W) (h' : Depicts F a' W') :
    Depicts F (a \ a') (W \ W') := by
  intro k t hkt
  rw [Std.ExtTreeSet.mem_diff_iff, Finset.mem_sdiff, h hkt, h' hkt]

/-- Two lists of the same trees are equal. -/
theorem Lists.unique {a' : AtomSet} (hs : s.Canonical) (h : Lists s a W) (h' : Lists s a' W) :
    a = a' := by
  refine Std.ExtTreeSet.ext_mem fun k => ⟨fun hk => ?_, fun hk => ?_⟩
  · obtain ⟨t, ht, hkt⟩ := h.denotes hk
    exact (h'.depicts hs (le_refl s) hkt).mpr ht
  · obtain ⟨t, ht, hkt⟩ := h'.denotes hk
    exact (h.depicts hs (le_refl s) hkt).mpr ht

/-! ### Worlds -/

/-- In `s`, `w` is the world of the trees in `W`. -/
def Shows (s : Session) (w : World) (W : Finset Tree) : Prop :=
  ∃ a, s.store.find? w.key = some (.world a) ∧ s.Lists a W

/-- In `s`, `w` is the world of a set of atoms which, as far as `F` knows, are those in `W`. -/
def Reads (F s : Session) (w : World) (W : Finset Tree) : Prop :=
  ∃ a, s.store.find? w.key = some (.world a) ∧ F.Depicts a W

theorem Reads.mono (h : Reads F s w W) (grow : s ≤ s') : Reads F s' w W := by
  obtain ⟨a, found, depicts⟩ := h
  exact ⟨a, grow.store.nodes found, depicts⟩

theorem Shows.mono (h : Shows s w W) (grow : s ≤ s') : Shows s' w W := by
  obtain ⟨a, found, lists⟩ := h
  exact ⟨a, grow.store.nodes found, lists.mono grow⟩

theorem Shows.reads (h : Shows s w W) (hF : F.Canonical) (grow : s ≤ F) : Reads F s w W := by
  obtain ⟨a, found, lists⟩ := h
  exact ⟨a, found, lists.depicts hF grow⟩

/-- In `s`, `w` is a world. -/
def HasWorld (s : Session) (w : World) : Prop := ∃ a, s.store.find? w.key = some (.world a)

theorem HasWorld.contains (h : s.HasWorld w) : s.store.contains w.key :=
  NodeStore.contains_iff.mpr ⟨_, h.choose_spec⟩

theorem HasWorld.mono (h : s.HasWorld w) (grow : s ≤ s') : s'.HasWorld w := by
  obtain ⟨a, found⟩ := h
  exact ⟨a, grow.store.nodes found⟩

theorem HasWorld.exists_reads (h : s.HasWorld w) (hF : F.Canonical) : ∃ W, Reads F s w W := by
  obtain ⟨a, found⟩ := h
  obtain ⟨W, depicts⟩ := exists_depicts hF a
  exact ⟨W, a, found, depicts⟩

/-- A world is determined by its atoms. -/
theorem world_unique (hs : s.Canonical) (found : s.store.find? w.key = some (.world a))
    (found' : s.store.find? w'.key = some (.world a)) : w = w' := by
  have again := hs.addWorld_of_find? found
  rw [hs.addWorld_of_find? found'] at again
  exact (congrArg Prod.fst (Except.ok.inj again)).symm

/-- **The trees of a world** determine it. -/
theorem Shows.unique (hs : s.Canonical) (h : Shows s w W) (h' : Shows s w' W) : w = w' := by
  obtain ⟨a, found, lists⟩ := h
  obtain ⟨a', found', lists'⟩ := h'
  obtain rfl := lists.unique hs lists'
  exact world_unique hs found found'

/-- A world has one set of trees. -/
theorem Shows.trees_unique (hs : s.Canonical) (h : Shows s w W) (h' : Shows s w W') : W = W' := by
  obtain ⟨a, found, lists⟩ := h
  obtain ⟨a', found', lists'⟩ := h'
  rw [found] at found'
  cases found'
  ext t
  constructor
  · intro ht
    obtain ⟨k, hk, hkt⟩ := lists.listed ht
    exact (lists'.depicts hs (le_refl s) hkt).mp hk
  · intro ht
    obtain ⟨k, hk, hkt⟩ := lists'.listed ht
    exact (lists.depicts hs (le_refl s) hkt).mp hk

/-! ### Reading worlds -/

theorem atoms_eq_ok_iff :
    atoms w s = (.ok a, s') ↔ s.store.find? w.key = some (.world a) ∧ s' = s := by
  have stored : s.store.atoms w = .ok a ↔ s.store.find? w.key = some (.world a) := by
    unfold NodeStore.atoms NodeStore.node
    cases s.store.find? w.key with
    | none => exact iff_of_false (fun h => by cases h) (fun h => by cases h)
    | some node =>
        cases node with
        | world a => exact ⟨fun h => by cases h; rfl, fun h => by cases h; rfl⟩
        | _ => exact iff_of_false (fun h => by cases h) (fun h => by cases h)
  rw [← stored]
  exact ⟨fun h => ⟨(Prod.mk.inj h).1, (Prod.mk.inj h).2.symm⟩, fun ⟨h, h'⟩ => Prod.ext h h'.symm⟩

theorem settles_atoms (w : World) : Settles (atoms w) (atoms w) :=
  ⟨.reading _, fun _ h _ grow => by
    obtain ⟨found, rfl⟩ := atoms_eq_ok_iff.mp h
    exact atoms_eq_ok_iff.mpr ⟨grow.store.nodes found, rfl⟩⟩

theorem answers_holds (ht : s.store.Denotes k t) (hw : Reads F s w W) :
    Answers F (holds w k) s fun _ r => r = .ok (t ∈ W) := by
  obtain ⟨a, found, depicts⟩ := hw
  have read : holds w k s = (.ok (a.contains k), s) := by
    unfold holds
    rw [run_bind, atoms_eq_ok_iff.mpr ⟨found, rfl⟩]
    rfl
  unfold Answers
  rw [read]
  intro grow
  refine .inr (congrArg Except.ok ?_)
  rw [Bool.eq_iff_iff, decide_eq_true_eq, ← depicts (ht.mono grow.store)]
  exact Std.ExtTreeSet.contains_iff_mem

theorem addWorld_eq_ok (hs : s.Canonical) (h : addWorld a s = (.ok w, s')) :
    s'.store.find? w.key = some (.world a) := by
  obtain ⟨store, added, rfl⟩ := register_eq_ok h
  exact (NodeStore.Canonical.addWorld hs added).2.2

theorem answers_addWorld {P : Session → Except FormulaError World → Prop} (hs : s.Canonical)
    (h : ∀ {w s'}, s ≤ s' → s'.store.find? w.key = some (.world a) → P s' (.ok w)) :
    Answers F (addWorld a) s P := by
  refine answers_register NodeStore.addWorld_eq_error fun {w store} added => ?_
  obtain ⟨-, grow, found⟩ := NodeStore.Canonical.addWorld hs added
  exact h ⟨grow, rfl⟩ found

end Session

end ClassicalPlanner
