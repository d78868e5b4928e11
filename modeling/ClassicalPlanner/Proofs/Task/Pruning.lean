import ClassicalPlanner.Task.Reachability
import ClassicalPlanner.Proofs.Session.Reachable
import ClassicalPlanner.Proofs.Task.Execution

/-!
# Pruning

`ActionTable.prune` drops an action if its precondition fails between two bounds.  A world between
the bounds leads to worlds between them, by any action of the table (`Bounds.applyTo`), and a
precondition that is true in such a world may hold between the bounds (`Bounds.retains`).  So no
action that can run is dropped.

The bounds are sets of trees, since the run may take place in a session that numbers its
expressions in another way than the one in which the table is pruned.
-/

namespace ClassicalPlanner

open Session

variable {s s' F : Session} {w upper lower : World} {W U L : Finset Tree} {t t' : ActionTable}

namespace ActionTable

/-! ### Bounds -/

/-- Between `lower` and `upper` lie the trees of `initial`, and each action of the table adds trees
of `upper` and removes none of `lower`. -/
structure Bounds (F : Session) (t : ActionTable) (W U L : Finset Tree) : Prop where
  upper : W ⊆ U
  lower : L ⊆ W
  changes : ∀ a ∈ t.toList, ∃ e d, F.store.Denotes a.effect e ∧
    Tree.changeAll F.members e = .ok d ∧ d.add ⊆ U ∧ Disjoint d.remove L

/-- The next world lies between the bounds. -/
theorem Bounds.applyTo {V : Finset Tree} {a : GroundAction} {e : Tree} {d : Tree.Delta}
    (h : Bounds F t W U L) (ha : a ∈ t.toList) (he : F.store.Denotes a.effect e)
    (hd : Tree.change F.members V e = .ok d) (hV : V ⊆ U ∧ L ⊆ V) :
    d.applyTo V ⊆ U ∧ L ⊆ d.applyTo V := by
  obtain ⟨e', d', he', hd', add, remove⟩ := h.changes a ha
  obtain rfl := he.unique he'
  obtain ⟨hadd, hremove⟩ := Tree.change_le hd hd'
  constructor
  · exact Tree.Delta.applyTo_subset.trans (Finset.union_subset hV.1 (hadd.trans add))
  · intro u hu
    refine Tree.Delta.mem_applyTo.mpr (.inl ⟨hV.2 hu, fun h => ?_⟩)
    exact Finset.disjoint_left.mp remove (hremove h) hu

/-- Collects the effects of some actions, every guard counted as true. -/
def collectEffects (l : List GroundAction) : ChangesM Unit := l.forM fun a => collectAll a.effect

theorem changesFrom_collectEffects (l : List GroundAction) (c : Changes) :
    changesFrom c (collectEffects l) =
      l.foldlM (fun c a => changesFrom c (collectAll a.effect)) c :=
  changesFrom_forM c l _

theorem additive_collectEffects (l : List GroundAction) (c : Changes) :
    Additive (changesFrom c (collectEffects l)) := by
  rw [changesFrom_collectEffects]
  exact Additive.foldlM (fun c (a : GroundAction) => (settles_collectAll c a.effect).additive) l c

theorem collectEffects_eq_ok {l : List GroundAction} {c c' : Changes} {d : Tree.Delta}
    (hs : s.Canonical) (hc : s.Collects c d)
    (h : changesFrom c (collectEffects l) s = (.ok c', s')) :
    ∃ d', s'.Collects c' d' ∧ d ≤ d' ∧ ∀ a ∈ l, ∃ e δ, s'.store.Denotes a.effect e ∧
      Tree.changeAll s'.members e = .ok δ ∧ δ ≤ d' := by
  induction l generalizing s c d with
  | nil =>
      cases h
      exact ⟨d, hc, d.le_refl, fun a ha => absurd ha List.not_mem_nil⟩
  | cons a l ih =>
      rw [changesFrom_collectEffects] at h
      obtain ⟨c₁, s₁, h₁, h₂⟩ := run_bind_eq_ok.mp h
      rw [← changesFrom_collectEffects] at h₂
      obtain ⟨e, he, -⟩ := hs.exists_denotes (contains_of_collectAll h₁)
      obtain ⟨grow, fits⟩ := (settles_collectAll c a.effect).additive.of_run hs h₁
      obtain ⟨grow', -⟩ := (additive_collectEffects l c₁).of_run fits h₂
      obtain ⟨δ, hδ, hc₁⟩ := ((answers_collectAll hs he hc).of_ok h₁ (le_refl s₁)).eq_ok
      obtain ⟨d', hc', le, each⟩ := ih fits hc₁ h₂
      refine ⟨d', hc', Tree.Delta.le_trans (d.le_union_left δ) le, List.forall_mem_cons.mpr ⟨?_, each⟩⟩
      refine ⟨e, δ, he.mono (grow.trans grow').store, ?_, Tree.Delta.le_trans (d.le_union_right δ) le⟩
      rw [funext (grow.trans grow').members]
      exact hδ

theorem additive_reachabilityBounds (t : ActionTable) (w : World) :
    Additive (t.reachabilityBounds w) := by
  refine .bind (additive_collectEffects t.toList ∅) fun c => ?_
  refine .bind (settles_atoms w).additive fun a => ?_
  refine .bind (settles_addWorld _).additive fun upper => ?_
  exact .bind (settles_addWorld _).additive fun lower => .pure (upper, lower)

/-- The two worlds show bounds of the table. -/
theorem reachabilityBounds_eq_ok (hs : s.Canonical) (hF : F.Canonical) (hw : Reads F s w W)
    (h : t.reachabilityBounds w s = (.ok (upper, lower), s')) (grow : s' ≤ F) :
    ∃ U L, Reads F s' upper U ∧ Reads F s' lower L ∧ Bounds F t W U L := by
  obtain ⟨c, s₁, hc, h⟩ := run_bind_eq_ok.mp h
  obtain ⟨a, s₂, ha, h⟩ := run_bind_eq_ok.mp h
  obtain ⟨u, s₃, hupper, h⟩ := run_bind_eq_ok.mp h
  obtain ⟨l, s₄, hlower, h⟩ := run_bind_eq_ok.mp h
  cases h
  obtain ⟨found, rfl⟩ := atoms_eq_ok_iff.mp ha
  obtain ⟨grow₁, fits₁⟩ := (additive_collectEffects t.toList ∅).of_run hs hc
  obtain ⟨grow₂, fits₂⟩ := (settles_addWorld _).additive.of_run fits₁ hupper
  obtain ⟨grow₃, -⟩ := (settles_addWorld _).additive.of_run fits₂ hlower
  obtain ⟨d, hc, -, each⟩ := collectEffects_eq_ok hs collects_empty hc
  obtain ⟨a', found', depicts⟩ := hw.mono grow₁
  obtain rfl : a = a' := Node.world.inj (Option.some.inj (found.symm.trans found'))
  have most := grow₂.trans (grow₃.trans grow)
  refine ⟨W ∪ d.add, W \ d.remove, ?_, ?_, Finset.subset_union_left, Finset.sdiff_subset, ?_⟩
  · exact ⟨_, grow₃.store.nodes (addWorld_eq_ok fits₁ hupper),
      depicts.union (hc.add.depicts hF most)⟩
  · exact ⟨_, addWorld_eq_ok fits₂ hlower, depicts.sdiff (hc.remove.depicts hF most)⟩
  · intro b hb
    obtain ⟨e, δ, he, hδ, add, remove⟩ := each b hb
    refine ⟨e, δ, he.mono most.store, ?_, add.trans Finset.subset_union_right, ?_⟩
    · rw [funext most.members]
      exact hδ
    · exact Finset.disjoint_of_subset_left remove Finset.disjoint_sdiff

/-! ### Retained actions -/

theorem additive_retained (upper lower : World) (l : List GroundAction) :
    Additive (retained upper lower l) := by
  induction l with
  | nil => exact .pure []
  | cons a l ih =>
      exact .bind (settles_laxEvaluate _ _ _).additive fun keep => .bind ih fun rest =>
        .pure (if keep then a :: rest else rest)

/-- The actions retained are those whose precondition may hold between the bounds. -/
theorem retained_eq_ok {l kept : List GroundAction} (hs : s.Canonical)
    (hu : Reads F s upper U) (hl : Reads F s lower L)
    (h : retained upper lower l s = (.ok kept, s')) (grow : s' ≤ F) :
    kept.Sublist l ∧ ∀ a ∈ l, ∃ p b, F.store.Denotes a.precondition p ∧
      Tree.lax F.members U L p = .ok b ∧ (b = true → a ∈ kept) := by
  induction l generalizing s kept with
  | nil =>
      cases h
      exact ⟨.slnil, fun a ha => absurd ha List.not_mem_nil⟩
  | cons a l ih =>
      obtain ⟨keep, s₁, h₁, h⟩ := run_bind_eq_ok.mp h
      obtain ⟨rest, s₂, h₂, h⟩ := run_bind_eq_ok.mp h
      cases h
      obtain ⟨grow₁, fits₁⟩ := (settles_laxEvaluate _ _ _).additive.of_run hs h₁
      obtain ⟨grow₂, -⟩ := (additive_retained upper lower l).of_run fits₁ h₂
      obtain ⟨p, hp, -⟩ := hs.exists_denotes (contains_of_laxEvaluate h₁)
      have decided := laxEvaluate_eq_ok hs hp h₁ (grow₂.trans grow) hu hl
      have most := grow₁.trans (grow₂.trans grow)
      rw [← funext most.members] at decided
      obtain ⟨sublist, each⟩ := ih fits₁ (hu.mono grow₁) (hl.mono grow₁) h₂
      cases keep with
      | true =>
          refine ⟨sublist.cons_cons a, List.forall_mem_cons.mpr
            ⟨⟨p, true, hp.mono most.store, decided, fun _ => List.mem_cons_self⟩, ?_⟩⟩
          intro b hb
          obtain ⟨q, c, hq, hc, kept⟩ := each b hb
          exact ⟨q, c, hq, hc, fun h => List.mem_cons_of_mem a (kept h)⟩
      | false =>
          exact ⟨sublist.cons a, List.forall_mem_cons.mpr
            ⟨⟨p, false, hp.mono most.store, decided, fun h => absurd h Bool.false_ne_true⟩,
              each⟩⟩

/-! ### The pruned table -/

/-- Pruning finds the bounds, then the actions to retain, and changes the table last. -/
theorem prune_eq (w : World) (t : ActionTable) (s : Session) : prune w t s =
    match t.reachabilityBounds w s with
    | (.error e, s) => ((.error e, t), s)
    | (.ok (upper, lower), s) =>
      match retained upper lower t.toList s with
      | (.error e, s) => ((.error e, t), s)
      | (.ok kept, s) => ((.ok (t.size - kept.length), { t with actions := kept.toArray }), s) := by
  unfold prune
  rw [run_bind_carrying]
  show (onSession (t.reachabilityBounds w) >>= _) t s = _
  rw [run_bind_carrying]
  unfold onSession
  rcases t.reachabilityBounds w s with ⟨e | ⟨upper, lower⟩, s₁⟩
  · rfl
  · show (onSession (retained upper lower t.toList) >>= _) t s₁ = match
      retained upper lower t.toList s₁ with
      | (.error e, s) => ((.error e, t), s)
      | (.ok kept, s) => ((.ok (t.size - kept.length), { t with actions := kept.toArray }), s)
    rw [run_bind_carrying]
    unfold onSession
    rcases retained upper lower t.toList s₁ with ⟨e | kept, s₂⟩ <;> rfl

/-- A pruned table has the actions whose precondition may hold between bounds of the table. -/
theorem prune_eq_ok {n : Nat} (hs : s.Canonical) (hF : F.Canonical) (hw : Reads F s w W)
    (h : prune w t s = ((.ok n, t'), s')) (grow : s' ≤ F) :
    ∃ U L, Bounds F t W U L ∧ t'.toList.Sublist t.toList ∧
      ∀ a ∈ t.toList, ∃ p b, F.store.Denotes a.precondition p ∧
        Tree.lax F.members U L p = .ok b ∧ (b = true → a ∈ t'.toList) := by
  rw [prune_eq] at h
  split at h
  · cases h
  · rename_i upper lower s₁ hbounds
    split at h
    · cases h
    · rename_i kept s₂ hkept
      cases h
      obtain ⟨-, fits₁⟩ := (additive_reachabilityBounds t w).of_run hs hbounds
      obtain ⟨grow₂, -⟩ := (additive_retained upper lower t.toList).of_run fits₁ hkept
      obtain ⟨U, L, hu, hl, bounds⟩ :=
        reachabilityBounds_eq_ok hs hF hw hbounds (grow₂.trans grow)
      exact ⟨U, L, bounds, retained_eq_ok fits₁ hu hl hkept grow⟩

theorem additive_prune (w : World) (t : ActionTable) : Additive (prune w t) := by
  intro s hs
  obtain ⟨grow₁, fits₁⟩ := additive_reachabilityBounds t w s hs
  rw [prune_eq]
  split
  · rename_i hbounds
    rw [hbounds] at grow₁ fits₁
    exact ⟨grow₁, fits₁⟩
  · rename_i upper lower s₁ hbounds
    rw [hbounds] at grow₁ fits₁
    obtain ⟨grow₂, fits₂⟩ := additive_retained upper lower t.toList s₁ fits₁
    split <;> rename_i hkept <;> rw [hkept] at grow₂ fits₂ <;>
      exact ⟨grow₁.trans grow₂, fits₂⟩

/-- Pruning is put together from operations of the session. -/
theorem stays_prune (w : World) (t : ActionTable) : Stays (prune w t) := by
  have stays_retained (upper lower : World) (l : List GroundAction) :
      Stays (retained upper lower l) := by
    induction l with
    | nil => exact .result _
    | cons a l ih => exact .bind (.laxEvaluate _ _ _) fun _ => .bind ih fun _ => .result _
  have stays_bounds : Stays (t.reachabilityBounds w) := by
    refine .bind ?_ fun c => .bind (.reading _) fun a => .bind (.addWorld _) fun _ =>
      .bind (.addWorld _) fun _ => .result _
    show Stays (changesFrom ∅ (collectEffects t.toList))
    rw [changesFrom_collectEffects]
    exact .foldlM (fun c (a : GroundAction) => .collectAll c a.effect) _ _
  intro s hs
  have h₁ := stays_bounds s hs
  rw [prune_eq]
  split
  · rename_i hbounds
    rwa [hbounds] at h₁
  · rename_i upper lower s₁ hbounds
    rw [hbounds] at h₁
    have h₂ := stays_retained upper lower t.toList s₁ h₁
    split <;> rename_i hkept <;> rwa [hkept] at h₂

/-! ### Runs -/

/-- The keys of a table denote the same trees in two sessions, as far as both know them. -/
def Agree (t : ActionTable) (F₁ F₂ : Session) : Prop :=
  ∀ a ∈ t.toList, ∀ k ∈ [a.precondition, a.effect], ∀ {u u'},
    F₁.store.Denotes k u → F₂.store.Denotes k u' → u = u'

/-- **Bounds hold a run.**  Each action of a run is executable in a set of trees between the
bounds. -/
theorem Bounds.of_executes {F₁ F₂ r r' : Session} {V : Finset Tree} {w' : World}
    {acts : List GroundAction} (h : Bounds F₁ t W U L) (agree : t.Agree F₁ F₂)
    (members : F₁.members = F₂.members) (hr : r.Canonical) (hF : F₂.Canonical)
    (hw : Reads F₂ r w V) (hV : V ⊆ U ∧ L ⊆ V) (mem : ∀ a ∈ acts, a ∈ t.toList)
    (run : Executes r w acts r' w') (grow : r' ≤ F₂) :
    ∀ a ∈ acts, ∃ V p, V ⊆ U ∧ L ⊆ V ∧ F₂.store.Denotes a.precondition p ∧
      Tree.truth F₂.members V p = .ok true := by
  induction run generalizing V with
  | nil => exact fun a ha => absurd ha List.not_mem_nil
  | @cons s s₁ s₂ s' w w₁ w' a acts holds next rest ih =>
      obtain ⟨ha, mem⟩ := List.forall_mem_cons.mp mem
      obtain ⟨-, fits₁⟩ := (settles_evaluate _ _).additive.of_run hr holds
      obtain ⟨-, fits₂⟩ := (settles_apply _ _).additive.of_run fits₁ next
      obtain ⟨grow₃, -⟩ := rest.additive fits₂
      obtain ⟨p, e, d, means, hp, hd, hw₁⟩ := step_reads hr hF holds next (grow₃.trans grow) hw
      refine List.forall_mem_cons.mpr ⟨⟨V, p, hV.1, hV.2, means.precondition, hp⟩, ?_⟩
      obtain ⟨e', he'⟩ : ∃ e', F₁.store.Denotes a.effect e' :=
        have ⟨e', _, he', _⟩ := h.changes a ha
        ⟨e', he'⟩
      obtain rfl := agree a ha a.effect (by simp) he' means.effect
      rw [← members] at hd
      exact ih fits₂ hw₁ (h.applyTo ha he' hd hV) mem grow

/-- The keys of the table, and the atoms of the world, are registered. -/
structure RegisteredIn (t : ActionTable) (s : Session) (w : World) : Prop where
  keys : ∀ a ∈ t.toList, s.store.contains a.precondition ∧ s.store.contains a.effect
  atoms : ∀ {a}, s.store.find? w.key = some (.world a) → ∀ k ∈ a, s.store.contains k

theorem RegisteredIn.agree {F₁ F₂ : Session} (h : t.RegisteredIn s w) (hs : s.Canonical)
    (grow₁ : s ≤ F₁) (grow₂ : s ≤ F₂) : t.Agree F₁ F₂ := by
  intro a ha k hk u u' hu hu'
  have known : s.store.contains k := by
    simp only [List.mem_cons, List.not_mem_nil, or_false] at hk
    rcases hk with rfl | rfl
    · exact (h.keys a ha).1
    · exact (h.keys a ha).2
  obtain ⟨v, hv, -⟩ := hs.exists_denotes known
  rw [hu.unique (hv.mono grow₁.store), hu'.unique (hv.mono grow₂.store)]

/-- **Pruning keeps what can run.**  If an action of the table occurs in a run from the initial
world, it is still in the pruned table, which lists actions of the table in their order.  The run
may take place in any session that continues the one after pruning; it may also continue the one
before, if that knows all that the table and the world speak of.  A table that cannot be pruned
stays as it is. -/
theorem prune_keeps_executable (hs : s.Reachable)
    (hw : ∃ atoms, s.store.find? w.key = some (.world atoms)) :
    match prune w t s with
    | ((.ok _, t'), s') => t'.toList.Sublist t.toList ∧
      ∀ {r r' : Session} {w' : World} {acts : List GroundAction}, r.Reachable →
        (s' ≤ r ∨ s ≤ r ∧ t.RegisteredIn s w) → (∀ a ∈ acts, a ∈ t.toList) →
        Executes r w acts r' w' → ∀ a ∈ acts, a ∈ t'.toList
    | ((.error _, t'), _) => t' = t := by
  obtain ⟨atoms, found⟩ := hw
  have hs := hs.canonical
  split
  · rename_i n t' s' h
    obtain ⟨grow, fits⟩ := (additive_prune w t).of_run hs h
    constructor
    · obtain ⟨W, depicts⟩ := exists_depicts fits atoms
      obtain ⟨_, _, -, sublist, -⟩ := prune_eq_ok hs fits ⟨atoms, found, depicts⟩ h (le_refl s')
      exact sublist
    · intro r r' w' acts hr place mem run a ha
      have hr := hr.canonical
      obtain ⟨grow', fits'⟩ := run.additive hr
      -- the session in which pruning is looked at, and the trees of the initial world
      obtain ⟨F, W, hF, growF, agree, members, hw₁, hw₂⟩ : ∃ F W, F.Canonical ∧ s' ≤ F ∧
          t.Agree F r' ∧ F.members = r'.members ∧ Reads F s w W ∧ Reads r' r w W := by
        rcases place with later | ⟨beside, registered⟩
        · obtain ⟨W, depicts⟩ := exists_depicts fits' atoms
          have hw : Reads r' s w W := ⟨atoms, found, depicts⟩
          exact ⟨r', W, fits', later.trans grow', fun _ _ _ _ _ _ h h' => h.unique h', rfl, hw,
            hw.mono (grow.trans later)⟩
        · obtain ⟨W, lists⟩ := exists_lists hs (registered.atoms found)
          have hw : Shows s w W := ⟨atoms, found, lists⟩
          have most := beside.trans grow'
          refine ⟨s', W, fits, le_refl s', registered.agree hs grow most, ?_,
            hw.reads fits grow, (hw.reads fits' most).mono beside⟩
          rw [funext grow.members, funext most.members]
      obtain ⟨U, L, bounds, -, each⟩ := prune_eq_ok hs hF hw₁ h growF
      obtain ⟨V, p, hVU, hLV, hp, true⟩ := bounds.of_executes agree members hr fits' hw₂
        ⟨bounds.upper, bounds.lower⟩ mem run (le_refl r') a ha
      obtain ⟨p', b, hp', hb, kept⟩ := each a (mem a ha)
      obtain rfl := agree a (mem a ha) a.precondition (by simp) hp' hp
      rw [members] at hb
      exact kept (Tree.lax_of_truth hVU hLV true hb)
  · rename_i e t' s' h
    rw [prune_eq] at h
    split at h
    · cases h; rfl
    · split at h <;> cases h
      rfl

namespace OneOfTwo

/-- A session with three atoms, and the world of the first. -/
def session : Session :=
  runAll [.parse "p", .parse "q", .parse "r", .addWorld (.ofList [Key.ofKind .atom 1])] ∅

def world : World := ⟨.ofKind .world 4⟩

/-- It needs the first atom and adds the second. -/
def runs : GroundAction := ⟨⟨1⟩, "a", .ofKind .atom 1, .ofKind .atom 2⟩

/-- It needs the third atom, which nothing adds. -/
def waits : GroundAction := ⟨⟨2⟩, "b", .ofKind .atom 3, .ofKind .atom 2⟩

def table : ActionTable := { actions := #[runs, waits], issued := 2 }

end OneOfTwo

open OneOfTwo in
/-- Of two actions the one that runs is kept and the other is dropped. -/
theorem prune_keeps_one_of_two : (prune world table session).1.1 = .ok 1 ∧
    (∃ s w, Executes (prune world table session).2 world [runs] s w) ∧
    runs ∈ (prune world table session).1.2.toList := by
  have reachable : session.Reachable := Reachable.empty.runAll _
  have registered : ∃ atoms, session.store.find? world.key = some (.world atoms) :=
    ⟨.ofList [Key.ofKind .atom 1], by decide⟩
  have pruned : (prune world table session).1.1 = .ok 1 := by decide
  have holds : (evaluate runs.precondition world (prune world table session).2).1 = .ok true := by
    decide
  have next : (apply world runs.effect
      (evaluate runs.precondition world (prune world table session).2).2).1 =
        .ok ⟨.ofKind .world 5⟩ := by
    decide
  have run : ∃ s w, Executes (prune world table session).2 world [runs] s w :=
    ⟨_, _, .cons (Prod.ext holds rfl) (Prod.ext next rfl) (.nil _ _)⟩
  refine ⟨pruned, run, ?_⟩
  have kept := prune_keeps_executable (t := table) reachable registered
  have stays := stays_prune world table session reachable
  revert pruned run kept stays
  generalize prune world table session = out
  rcases out with ⟨⟨e | n, t'⟩, s'⟩
  · intro pruned
    cases pruned
  · rintro - ⟨r, w', run⟩ kept stays
    exact kept.2 stays (.inl (le_refl s')) (by simp [table, ActionTable.toList]) run runs
      List.mem_cons_self

end ActionTable

end ClassicalPlanner
