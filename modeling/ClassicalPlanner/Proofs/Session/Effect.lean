import ClassicalPlanner.Session.Apply
import ClassicalPlanner.Proofs.Session.Truth
import ClassicalPlanner.Proofs.Tree.Effect

/-!
# Effects in sessions

Collecting an effect collects the changes of its tree (`answers_collectWithin`), and applying it
takes the world of a set of trees to the world of the changed set (`answers_apply`).  Both repeat.

A collection carries what has been collected along; `changesFrom` makes it an operation on the
session whose result this is, and the equations of the first section say how it does so.
-/

namespace ClassicalPlanner

namespace Session

variable {s s' F : Session} {k : Key} {t : Tree} {w w' : World} {W : Finset Tree}
variable {c c' : Changes} {d e : Tree.Delta} {α : Type}

/-! ### Collections as operations -/

theorem changesFrom_eq_ok {x : ChangesM Unit} :
    changesFrom c x s = (.ok c', s') ↔ x c s = ((.ok (), c'), s') := by
  unfold changesFrom
  rcases x c s with ⟨⟨_ | ⟨⟩, d⟩, s₁⟩
  · exact iff_of_false (fun h => by cases h) (fun h => by cases h)
  · exact ⟨fun h => by cases h; rfl, fun h => by cases h; rfl⟩

theorem changesFrom_collecting (c : Changes) (x : SessionM α) (f : α → ChangesM Unit) :
    changesFrom c (collecting x >>= f) = x >>= fun a => changesFrom c (f a) := by
  funext s
  rw [run_bind]
  unfold changesFrom
  rw [run_bind_carrying]
  unfold collecting
  rcases x s with ⟨e | a, s₁⟩ <;> rfl

theorem changesFrom_bind (c : Changes) (x y : ChangesM Unit) :
    changesFrom c (x >>= fun _ => y) = changesFrom c x >>= fun c => changesFrom c y := by
  funext s
  rw [run_bind]
  unfold changesFrom
  rw [run_bind_carrying]
  rcases x c s with ⟨⟨e | ⟨⟩, c'⟩, s₁⟩ <;> rfl

theorem changesFrom_swapped (c : Changes) (x : ChangesM Unit) :
    changesFrom c (swapped x) = changesFrom c.swap x >>= fun c => pure c.swap := by
  funext s
  rw [run_bind]
  unfold changesFrom swapped
  rcases x c.swap s with ⟨⟨e | ⟨⟩, c'⟩, s₁⟩ <;> rfl

theorem changesFrom_forM (c : Changes) (l : List α) (f : α → ChangesM Unit) :
    changesFrom c (l.forM f) = l.foldlM (fun c a => changesFrom c (f a)) c := by
  induction l generalizing c with
  | nil => rfl
  | cons a l ih =>
      rw [List.foldlM_cons]
      simp only [← ih]
      exact changesFrom_bind c (f a) (l.forM f)

/-- Collecting at a node, in terms of collecting at its arguments. -/
theorem changesFrom_collectWithin (guardHolds : Key → SessionM Bool) (n : Nat) (k : Key)
    (c : Changes) : changesFrom c (collectWithin guardHolds (n + 1) k) = node k >>= fun node =>
      let collect (c : Changes) (k : Key) := changesFrom c (collectWithin guardHolds n k)
      match node with
      | .atom _ _ => pure { c with add := c.add.insert k }
      | .and parts => parts.foldlM collect c
      | .not part => collect c.swap part >>= fun c => pure c.swap
      | .when guard effect => guardHolds guard >>= fun holds =>
        if holds then collect c effect else pure c
      | .universal binder body => instances binder body >>= fun ks => ks.foldlM collect c
      | other => throw (.misplaced other.kind .effect) := by
  refine (changesFrom_collecting c (node k) _).trans ?_
  congr 1
  funext node
  cases node with
  | and parts => exact changesFrom_forM c parts _
  | not part => exact changesFrom_swapped c _
  | when guard effect =>
      refine (changesFrom_collecting c (guardHolds guard) _).trans ?_
      congr 1
      funext holds
      cases holds <;> rfl
  | universal b body =>
      refine (changesFrom_collecting c (instances b body) _).trans ?_
      congr 1
      funext ks
      exact changesFrom_forM c ks _
  | _ => rfl

/-! ### Collections repeat -/

theorem repeats_collectWithin {f g : Key → SessionM Bool} (hg : ∀ k, Repeats (f k) (g k))
    {n m : Nat} (h : n ≤ m) : Repeats (changesFrom c (collectWithin f n k))
      (changesFrom c (collectWithin g m k)) := by
  induction n generalizing m k c with
  | zero => exact .circular k _
  | succ n ih =>
      obtain ⟨m, rfl⟩ : ∃ m', m = m' + 1 := ⟨m - 1, by omega⟩
      have inner (c : Changes) (k : Key) := ih (c := c) (k := k) (Nat.le_of_succ_le_succ h)
      rw [changesFrom_collectWithin, changesFrom_collectWithin]
      refine .bind (repeats_node k) fun node => ?_
      cases node with
      | atom p terms => exact .pure _
      | and parts => exact .foldlM inner parts c
      | not part => exact .bind (inner c.swap part) fun _ => .pure _
      | when guard effect =>
          refine .bind (hg guard) fun holds => ?_
          cases holds with
          | true => exact inner c effect
          | false => exact .pure c
      | universal b body => exact .bind (repeats_instances b body) fun ks => .foldlM inner ks c
      | _ => exact .throw (by simp)

theorem changesFrom_collect (c : Changes) (k : Key) (w : World) :
    changesFrom c (collect k w) = liftM depth >>= fun n =>
      changesFrom c (collectWithin (evaluate · w) n k) :=
  changesFrom_collecting c (liftM depth) _

theorem changesFrom_collectAll (c : Changes) (k : Key) :
    changesFrom c (collectAll k) = liftM depth >>= fun n =>
      changesFrom c (collectWithin (fun _ => pure true) n k) :=
  changesFrom_collecting c (liftM depth) _

theorem repeats_collect (c : Changes) (k : Key) (w : World) :
    Repeats (changesFrom c (collect k w)) (changesFrom c (collect k w)) := by
  rw [changesFrom_collect]
  exact .withDepth fun _ _ h => repeats_collectWithin (fun k => repeats_evaluate k w) h

theorem settles_collect (c : Changes) (k : Key) (w : World) :
    Settles (changesFrom c (collect k w)) (changesFrom c (collect k w)) :=
  (repeats_collect c k w).toSettles

theorem repeats_collectAll (c : Changes) (k : Key) :
    Repeats (changesFrom c (collectAll k)) (changesFrom c (collectAll k)) := by
  rw [changesFrom_collectAll]
  exact .withDepth fun _ _ h => repeats_collectWithin (fun _ => .pure true) h

theorem settles_collectAll (c : Changes) (k : Key) :
    Settles (changesFrom c (collectAll k)) (changesFrom c (collectAll k)) :=
  (repeats_collectAll c k).toSettles

theorem repeats_apply (w : World) (k : Key) : Repeats (apply w k) (apply w k) :=
  .bind (repeats_collect ∅ k w) fun _ => .bind (repeats_atoms w) fun _ => repeats_addWorld _

theorem settles_apply (w : World) (k : Key) : Settles (apply w k) (apply w k) :=
  (repeats_apply w k).toSettles

/-! ### Changes of trees -/

/-- The keys collected are those of the trees that change. -/
structure Collects (s : Session) (c : Changes) (d : Tree.Delta) : Prop where
  add : s.Lists c.add d.add
  remove : s.Lists c.remove d.remove

theorem Collects.mono (h : Collects s c d) (grow : s ≤ s') : Collects s' c d :=
  ⟨h.add.mono grow, h.remove.mono grow⟩

theorem Collects.swap (h : Collects s c d) : Collects s c.swap d.swap := ⟨h.remove, h.add⟩

/-- The same trees are collected under the same keys. -/
theorem Collects.unique (hs : s.Canonical) (h : s.Collects c d) (h' : s.Collects c' d) :
    c = c' := by
  cases c
  cases c'
  rw [Changes.mk.injEq]
  exact ⟨h.add.unique hs h'.add, h.remove.unique hs h'.remove⟩

theorem collects_empty : Collects s ∅ ∅ := ⟨lists_empty, lists_empty⟩

/-- The result is what `d` had, and the changes of an effect that come to `r₀`. -/
def Gathers (d : Tree.Delta) (r₀ : Except FormulaError Tree.Delta) (s : Session)
    (r : Except FormulaError Changes) : Prop :=
  match r₀ with
  | .ok e => ∃ c, r = .ok c ∧ s.Collects c (d ∪ e)
  | .error e => r = .error e

theorem Gathers.eq_error {r₀ : Except FormulaError Tree.Delta} {e : FormulaError}
    (h : Gathers d r₀ s (.error e)) : r₀ = .error e := by
  cases r₀ with
  | ok d' =>
      obtain ⟨_, h, -⟩ := h
      cases h
  | error e' =>
      cases h
      rfl

theorem Gathers.eq_ok {r₀ : Except FormulaError Tree.Delta} (h : Gathers d r₀ s (.ok c)) :
    ∃ e, r₀ = .ok e ∧ s.Collects c (d ∪ e) := by
  cases r₀ with
  | ok e =>
      obtain ⟨_, ⟨⟩, hc⟩ := h
      exact ⟨e, rfl, hc⟩
  | error e' => cases h

theorem answers_foldlM {f : Changes → Key → SessionM Changes}
    {g : Tree → Except FormulaError Tree.Delta} {ks : List Key} {ts : List Tree}
    (hs : s.Canonical) (hf : ∀ c k, Additive (f c k)) (hk : List.Forall₂ s.store.Denotes ks ts)
    (hc : s.Collects c d)
    (h : ∀ {c d k t s'}, t ∈ ts → s ≤ s' → s'.Canonical → s'.store.Denotes k t →
      s'.Collects c d → Answers F (f c k) s' (Gathers d (g t))) :
    Answers F (ks.foldlM f c) s (Gathers d (Tree.gather g ts)) := by
  induction ks generalizing s ts c d with
  | nil =>
      cases hk
      refine .pure ⟨c, rfl, ?_⟩
      rwa [Tree.Delta.union_empty]
  | cons k ks ih =>
      cases hk with
      | @cons _ t _ ts hkt hk =>
          refine .bind hs (hf c k) (fun c => .foldlM hf ks c)
            (h List.mem_cons_self (le_refl s) hs hkt hc) ?_ ?_
          · intro e s' he
            rw [Tree.gather, he.eq_error]
            rfl
          · intro c' s' grow fits hc'
            obtain ⟨e, he, hc'⟩ := hc'.eq_ok
            refine .imp (ih fits (NodeStore.denotes_all_mono hk grow.store) hc'
              fun ht grow' => h (List.mem_cons_of_mem _ ht) (grow.trans grow')) ?_
            intro s'' r hr
            rw [Tree.gather, he]
            cases hg : Tree.gather g ts with
            | error e' => rw [hg] at hr; exact hr
            | ok e' =>
                rw [hg] at hr
                obtain ⟨c'', rfl, hc''⟩ := hr
                exact ⟨c'', rfl, d.union_assoc e e' ▸ hc''⟩

theorem answers_collectWithin {g : Key → SessionM Bool} {guard : Tree → Except FormulaError Bool}
    {n : Nat} (hs : s.Canonical) (ht : s.store.Denotes k t) (hn : t.height ≤ n)
    (hc : s.Collects c d) (again : ∀ k, Repeats (g k) (g k))
    (hg : ∀ {k t s'}, s ≤ s' → s'.Canonical → s'.store.Denotes k t →
      Answers F (g k) s' fun _ r => r = guard t) :
    Answers F (changesFrom c (collectWithin g n k)) s
      (Gathers d (Tree.deltaWithin s.members guard n t)) := by
  induction n generalizing s k t c d with
  | zero => exact absurd hn t.not_height_le_zero
  | succ n ih =>
      have inner (c : Changes) (k : Key) : Additive (changesFrom c (collectWithin g n k)) :=
        (repeats_collectWithin again (Nat.le_refl n)).additive
      have part {c : Changes} {d : Tree.Delta} {k : Key} {t : Tree} {s' : Session}
          (ht : s'.store.Denotes k t) (hn : t.height ≤ n) (grow : s ≤ s') (fits : s'.Canonical)
          (hc : s'.Collects c d) : Answers F (changesFrom c (collectWithin g n k)) s'
            (Gathers d (Tree.deltaWithin s.members guard n t)) := by
        rw [← funext grow.members]
        exact ih fits ht hn hc fun grow' => hg (grow.trans grow')
      rw [changesFrom_collectWithin]
      cases ht with
      | constant found | var found | world found =>
          exact answers_node_bind found (.of_result rfl)
      | @compound _ node ts found hnode hts =>
          have low := Tree.height_compound_le.mp hn
          refine answers_node_bind found ?_
          cases node with
          | constant | «variable» | world => exact absurd hnode Bool.false_ne_true
          | atom p terms =>
              refine .pure ⟨_, rfl, ?_, ?_⟩
              · exact hc.add.insert (.compound found hnode hts)
              · rw [Tree.Delta.remove_union, Finset.union_empty]
                exact hc.remove
          | and parts =>
              exact answers_foldlM hs inner hts hc fun ht grow fits hk hc =>
                part hk (low _ ht) grow fits hc
          | not a =>
              obtain _ | @⟨_, ta, _, _, ha, ⟨⟩⟩ := hts
              change Answers F _ s (Gathers d do
                return (← Tree.deltaWithin s.members guard n ta).swap)
              refine .bind hs (inner c.swap a) (fun _ => .pure _)
                (part ha (low _ List.mem_cons_self) (le_refl s) hs hc.swap) ?_ ?_
              · intro e s' he
                rw [he.eq_error]
                rfl
              · intro c' s' grow fits hc'
                obtain ⟨e, he, hc'⟩ := hc'.eq_ok
                rw [he]
                exact .pure ⟨c'.swap, rfl, hc'.swap⟩
          | when condition effect =>
              obtain _ | @⟨_, ta, _, _, ha, _ | @⟨_, tb, _, _, hb, ⟨⟩⟩⟩ := hts
              change Answers F _ s (Gathers d do
                if ← guard ta then Tree.deltaWithin s.members guard n tb else return ∅)
              refine .bind hs (again condition).additive (fun holds => ?_)
                (hg (le_refl s) hs ha) ?_ ?_
              · cases holds with
                | true => exact inner c effect
                | false => exact .pure c
              · rintro e s' he
                rw [← he]
                rfl
              · rintro holds s' grow fits he
                rw [← he]
                cases holds with
                | true =>
                    exact part (hb.mono grow.store)
                      (low _ (List.mem_cons_of_mem _ List.mem_cons_self)) grow fits (hc.mono grow)
                | false =>
                    refine .pure ⟨c, rfl, ?_⟩
                    rw [Tree.Delta.union_empty]
                    exact hc.mono grow
          | universal b body =>
              obtain ⟨_, _, v, g, t, ⟨⟩, rfl, hb, hbody⟩ := (hs.binder found).unfolds rfl hts
              exact answers_instances_bind hs (.var hb) hbody (low t (by simp))
                (fun ks => .foldlM inner ks c) fun grow fits hks low =>
                  answers_foldlM fits inner hks (hc.mono grow) fun ht grow' fits' hk hc' =>
                    part hk (low _ ht) (grow.trans grow') fits' hc'
          | _ => exact .of_result rfl

theorem answers_collect (hs : s.Canonical) (ht : s.store.Denotes k t) (hc : s.Collects c d)
    (hw : Reads F s w W) : Answers F (changesFrom c (collect k w)) s
      (Gathers d (Tree.change s.members W t)) := by
  have low : t.height ≤ s.size + 1 := Nat.le_succ_of_le (hs.height_le ht)
  rw [changesFrom_collect, Tree.change, ← Tree.deltaWithin_eq_delta low]
  refine answers_withDepth (answers_collectWithin hs ht low hc
    (fun k => repeats_evaluate k w) fun grow fits hk => ?_)
  rw [← funext grow.members]
  exact answers_evaluate fits hk (hw.mono grow)

theorem answers_collectAll (hs : s.Canonical) (ht : s.store.Denotes k t) (hc : s.Collects c d) :
    Answers F (changesFrom c (collectAll k)) s (Gathers d (Tree.changeAll s.members t)) := by
  have low : t.height ≤ s.size + 1 := Nat.le_succ_of_le (hs.height_le ht)
  rw [changesFrom_collectAll, Tree.changeAll, ← Tree.deltaWithin_eq_delta low]
  exact answers_withDepth (answers_collectWithin hs ht low hc (fun _ => .pure true)
    fun _ _ _ => .pure rfl)

/-- An effect that has been collected is registered. -/
theorem contains_of_collectWithin {g : Key → SessionM Bool} {n : Nat}
    (h : changesFrom c (collectWithin g n k) s = (.ok c', s')) : s.store.contains k := by
  cases n with
  | zero => cases h
  | succ n =>
      rw [changesFrom_collectWithin] at h
      obtain ⟨node, s₁, hnode, -⟩ := run_bind_eq_ok.mp h
      exact NodeStore.contains_iff.mpr ⟨node, (node_eq_ok hnode).1⟩

theorem contains_of_collectAll (h : changesFrom c (collectAll k) s = (.ok c', s')) :
    s.store.contains k := by
  rw [changesFrom_collectAll] at h
  obtain ⟨n, s₁, hn, h⟩ := run_bind_eq_ok.mp h
  obtain ⟨-, rfl⟩ := Prod.mk.inj hn
  exact contains_of_collectWithin h

theorem contains_of_apply (h : apply w k s = (.ok w', s')) : s.store.contains k := by
  obtain ⟨c, s₁, hc, -⟩ := run_bind_eq_ok.mp h
  rw [changesFrom_collect] at hc
  obtain ⟨n, s₂, hn, hc⟩ := run_bind_eq_ok.mp hc
  obtain ⟨-, rfl⟩ := Prod.mk.inj hn
  exact contains_of_collectWithin hc

/-! ### The next world -/

theorem mem_applyTo {a : AtomSet} :
    k ∈ c.applyTo a ↔ (k ∈ a ∧ k ∉ c.remove) ∨ k ∈ c.add := by
  unfold Changes.applyTo
  rw [Std.ExtTreeSet.mem_union_iff, Std.ExtTreeSet.mem_diff_iff]

/-- The world after the changes of an effect that come to `r₀`. -/
def LeadsTo (a : AtomSet) (r₀ : Except FormulaError Tree.Delta) (s : Session)
    (r : Except FormulaError World) : Prop :=
  match r₀ with
  | .ok d => ∃ c w, r = .ok w ∧ s.Collects c d ∧ s.store.find? w.key = some (.world (c.applyTo a))
  | .error e => r = .error e

/-- **The next world** has the atoms of the world before, changed as the tree of the effect says. -/
theorem answers_apply {a : AtomSet} (hs : s.Canonical) (ht : s.store.Denotes k t)
    (found : s.store.find? w.key = some (.world a)) (ha : F.Depicts a W) :
    Answers F (apply w k) s (LeadsTo a (Tree.change s.members W t)) := by
  refine .bind hs (settles_collect ∅ k w).additive
    (fun c => .bind (settles_atoms w).additive fun a => (settles_addWorld _).additive)
    (answers_collect hs ht collects_empty ⟨a, found, ha⟩) ?_ ?_
  · intro e s' he
    rw [he.eq_error]
    rfl
  · intro c s₁ grow fits hc
    obtain ⟨d, hd, hc⟩ := hc.eq_ok
    rw [Tree.Delta.empty_union] at hc
    rw [hd]
    unfold Answers
    rw [run_bind, atoms_eq_ok_iff.mpr ⟨grow.store.nodes found, rfl⟩]
    exact answers_addWorld fits fun grow' found' => ⟨c, _, rfl, hc.mono grow', found'⟩

theorem Lists.applyTo {a : AtomSet} (hs : s.Canonical) (h : s.Lists a W) (hc : s.Collects c d) :
    s.Lists (c.applyTo a) (d.applyTo W) where
  denotes {k} hk := by
    rw [mem_applyTo] at hk
    rcases hk with ⟨hk, hremove⟩ | hk
    · obtain ⟨t, ht, hkt⟩ := h.denotes hk
      exact ⟨t, Tree.Delta.mem_applyTo.mpr
        (.inl ⟨ht, fun h => hremove ((hc.remove.depicts hs (le_refl s) hkt).mpr h)⟩), hkt⟩
    · obtain ⟨t, ht, hkt⟩ := hc.add.denotes hk
      exact ⟨t, Tree.Delta.mem_applyTo.mpr (.inr ht), hkt⟩
  listed {t} ht := by
    rw [Tree.Delta.mem_applyTo] at ht
    rcases ht with ⟨ht, hremove⟩ | ht
    · obtain ⟨k, hk, hkt⟩ := h.listed ht
      exact ⟨k, mem_applyTo.mpr
        (.inl ⟨hk, fun h => hremove ((hc.remove.depicts hs (le_refl s) hkt).mp h)⟩), hkt⟩
    · obtain ⟨k, hk, hkt⟩ := hc.add.listed ht
      exact ⟨k, mem_applyTo.mpr (.inr hk), hkt⟩

theorem Depicts.applyTo {a : AtomSet} (hF : F.Canonical) (h : F.Depicts a W) (hc : s.Collects c d)
   (grow : s ≤ F) : F.Depicts (c.applyTo a) (d.applyTo W) :=
  Depicts.union (h.sdiff (hc.remove.depicts hF grow)) (hc.add.depicts hF grow)

/-- An effect that can be applied changes the trees of a world as its own tree says. -/
theorem apply_eq_ok (hs : s.Canonical) (ht : s.store.Denotes k t) (hw : s.Shows w W)
    (h : apply w k s = (.ok w', s')) :
    ∃ d, Tree.change s.members W t = .ok d ∧ s'.Shows w' (d.applyTo W) := by
  obtain ⟨a, found, lists⟩ := hw
  obtain ⟨grow, fits⟩ := (settles_apply w k).additive.of_run hs h
  have answer := (answers_apply hs ht found (lists.depicts fits grow)).of_ok h (le_refl s')
  unfold LeadsTo at answer
  split at answer
  · rename_i d hd
    obtain ⟨c, _, ⟨⟩, hc, found'⟩ := answer
    exact ⟨d, hd, _, found', (lists.mono grow).applyTo fits hc⟩
  · cases answer

/-- The same of a world whose atoms need not be registered yet. -/
theorem apply_eq_ok_of_reads (hs : s.Canonical) (hF : F.Canonical) (ht : s.store.Denotes k t)
    (hw : Reads F s w W) (h : apply w k s = (.ok w', s')) (grow : s' ≤ F) :
    ∃ d, Tree.change s.members W t = .ok d ∧ Reads F s' w' (d.applyTo W) := by
  obtain ⟨a, found, depicts⟩ := hw
  have answer := (answers_apply hs ht found depicts).of_ok h grow
  unfold LeadsTo at answer
  split at answer
  · rename_i d hd
    obtain ⟨c, _, ⟨⟩, hc, found'⟩ := answer
    exact ⟨d, hd, _, found', depicts.applyTo hF hc grow⟩
  · cases answer

/-! ### Refusals -/

/-- When a registered effect cannot be collected, a part of it is no effect or no condition, or the
numbers have run out. -/
theorem collect_refuses {e : FormulaError} (hs : s.Canonical) (hk : s.store.contains k)
    (hc : s.Collects c d) (hw : s.HasWorld w)
    (h : changesFrom c (collect k w) s = (.error e, s')) : e.Refusal := by
  obtain ⟨-, fits⟩ := (settles_collect c k w).additive.of_run hs h
  obtain ⟨t, ht, -⟩ := hs.exists_denotes hk
  obtain ⟨W, hW⟩ := hw.exists_reads fits
  rcases (answers_collect hs ht hc hW).of_error h (le_refl s') with rfl | refused
  · exact .inr rfl
  · obtain ⟨kind, role, rfl⟩ := Tree.change_eq_error refused.eq_error
    exact .inl trivial

theorem collectAll_refuses {e : FormulaError} (hs : s.Canonical) (hk : s.store.contains k)
    (hc : s.Collects c d) (h : changesFrom c (collectAll k) s = (.error e, s')) : e.Refusal := by
  obtain ⟨t, ht, -⟩ := hs.exists_denotes hk
  rcases (answers_collectAll hs ht hc).of_error h (le_refl s') with rfl | refused
  · exact .inr rfl
  · obtain ⟨kind, role, rfl⟩ := Tree.changeAll_eq_error refused.eq_error
    exact .inl trivial

theorem apply_refuses {e : FormulaError} (hs : s.Canonical) (hk : s.store.contains k)
    (hw : s.HasWorld w) (h : apply w k s = (.error e, s')) : e.Refusal := by
  obtain ⟨-, fits⟩ := (settles_apply w k).additive.of_run hs h
  obtain ⟨t, ht, -⟩ := hs.exists_denotes hk
  obtain ⟨a, found⟩ := hw
  obtain ⟨W, depicts⟩ := exists_depicts fits a
  rcases (answers_apply hs ht found depicts).of_error h (le_refl s') with rfl | refused
  · exact .inr rfl
  · unfold LeadsTo at refused
    split at refused
    · obtain ⟨_, _, ⟨⟩, _⟩ := refused
    · rename_i e' he
      cases refused
      obtain ⟨kind, role, rfl⟩ := Tree.change_eq_error he
      exact .inl trivial

end Session

end ClassicalPlanner
