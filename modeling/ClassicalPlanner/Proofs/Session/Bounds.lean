import ClassicalPlanner.Proofs.Session.Reachable

/-!
# Lax evaluation as a bound

Between a world and itself lax evaluation is evaluation.  Between wider bounds what may hold still
may hold (`laxEvaluate_mono`), so what holds in a world may hold between any bounds around it.

The answers that are compared belong to two calls, and each call may register expressions.  That
matters where a world lists keys that are not registered yet: which tree such a key will denote
depends on what is registered first.  So the two calls are made on one session, in either order,
or all atoms of the worlds are registered.
-/

namespace ClassicalPlanner

namespace Session

variable {s s₁ s₂ s₁' s₂' F F₁ F₂ : Session} {k : Key} {t : Tree} {y : Bool}
variable {w w' upper upper' lower lower' : World} {W W' U U' L L' : Finset Tree}

/-! ### Worlds within worlds -/

/-- Every atom of `w` is one of `w'`. -/
def Within (s : Session) (w w' : World) : Prop :=
  ∃ a a', s.store.find? w.key = some (.world a) ∧ s.store.find? w'.key = some (.world a') ∧
    ∀ k ∈ a, k ∈ a'

/-- As far as a session knows them, the trees of a smaller world are among those of a larger one. -/
theorem Within.exists_reads (h : s.Within w w') (hF : F.Canonical) :
    ∃ W W', Reads F s w W ∧ Reads F s w' W' ∧ W ⊆ W' := by
  obtain ⟨a, a', found, found', subset⟩ := h
  obtain ⟨W, trees⟩ := exists_trees hF a
  obtain ⟨W', trees'⟩ := exists_trees hF a'
  refine ⟨W, W', ⟨a, found, depicts_of_trees hF trees⟩, ⟨a', found', depicts_of_trees hF trees'⟩,
    fun t ht => ?_⟩
  obtain ⟨k, hk, hkt⟩ := (trees t).mp ht
  exact (trees' t).mpr ⟨k, subset k hk, hkt⟩

theorem Within.shows_subset (h : s.Within w w') (hs : s.Canonical) (hw : s.Shows w W)
    (hw' : s.Shows w' W') : W ⊆ W' := by
  obtain ⟨a, a', found, found', subset⟩ := h
  obtain ⟨_, found₁, lists⟩ := hw
  obtain ⟨_, found₂, lists'⟩ := hw'
  cases found.symm.trans found₁
  cases found'.symm.trans found₂
  intro t ht
  obtain ⟨k, hk, hkt⟩ := lists.listed ht
  exact (lists'.depicts hs (le_refl s) hkt).mp (subset k hk)

/-! ### Monotonicity -/

theorem laxEvaluate_mono_of_reads (fits₁ : s₁.Canonical) (fits₂ : s₂.Canonical) (grow₁ : s ≤ s₁)
    (grow₂ : s ≤ s₂) (ht : s.store.Denotes k t) (hu : U ⊆ U') (hl : L' ⊆ L)
    (upperReads : Reads F₁ s upper U) (lowerReads : Reads F₁ s lower L)
    (upperReads' : Reads F₂ s upper' U') (lowerReads' : Reads F₂ s lower' L')
    (h : laxEvaluate k upper lower s₁ = (.ok true, s₁')) (most₁ : s₁' ≤ F₁)
    (h' : laxEvaluate k upper' lower' s₂ = (.ok y, s₂')) (most₂ : s₂' ≤ F₂) : y = true := by
  have first := laxEvaluate_eq_ok fits₁ (ht.mono grow₁.store) h most₁ (upperReads.mono grow₁)
    (lowerReads.mono grow₁)
  have second := laxEvaluate_eq_ok fits₂ (ht.mono grow₂.store) h' most₂ (upperReads'.mono grow₂)
    (lowerReads'.mono grow₂)
  rw [funext grow₁.members] at first
  rw [funext grow₂.members] at second
  exact Tree.lax_mono hu hl first second

/-- Two calls, each with the session that it leaves, can be compared: they are made one after the
other, or the worlds list nothing that is not registered. -/
def Comparable (s s₁ s₁' s₂ s₂' : Session) (worlds : List World) : Prop :=
  s₁' ≤ s₂ ∨ s₂' ≤ s₁ ∨ ∀ w ∈ worlds, ∃ W, s.Shows w W

/-- **Monotonicity.**  What may hold between two worlds may hold between wider bounds. -/
theorem laxEvaluate_mono (hs : s.Canonical) (known : s.store.contains k)
    (hu : s.Within upper upper') (hl : s.Within lower' lower) (fits₁ : s₁.Canonical)
    (fits₂ : s₂.Canonical) (grow₁ : s ≤ s₁) (grow₂ : s ≤ s₂)
    (h : laxEvaluate k upper lower s₁ = (.ok true, s₁'))
    (h' : laxEvaluate k upper' lower' s₂ = (.ok y, s₂'))
    (calls : Comparable s s₁ s₁' s₂ s₂' [upper, lower, upper', lower']) : y = true := by
  obtain ⟨t, ht, -⟩ := hs.exists_denotes known
  obtain ⟨more₁, fits₁'⟩ := (settles_laxEvaluate k upper lower).additive.of_run fits₁ h
  obtain ⟨more₂, fits₂'⟩ := (settles_laxEvaluate k upper' lower').additive.of_run fits₂ h'
  -- of two calls in a row the later one leaves a session that knows what both of them know
  have sameSession {F : Session} (hF : F.Canonical) (most₁ : s₁' ≤ F) (most₂ : s₂' ≤ F) :
      y = true := by
    obtain ⟨U, U', readsU, readsU', subsetU⟩ := hu.exists_reads hF
    obtain ⟨L', L, readsL', readsL, subsetL⟩ := hl.exists_reads hF
    exact laxEvaluate_mono_of_reads fits₁ fits₂ grow₁ grow₂ ht subsetU subsetL readsU readsL readsU'
      readsL' h most₁ h' most₂
  rcases calls with later | earlier | registered
  · exact sameSession fits₂' (later.trans more₂) (le_refl s₂')
  · exact sameSession fits₁' (le_refl s₁') (earlier.trans more₁)
  · obtain ⟨U, showsU⟩ := registered upper (by simp)
    obtain ⟨L, showsL⟩ := registered lower (by simp)
    obtain ⟨U', showsU'⟩ := registered upper' (by simp)
    obtain ⟨L', showsL'⟩ := registered lower' (by simp)
    have reads {F : Session} {w : World} {W : Finset Tree} (hF : F.Canonical) (grow : s ≤ F)
        (hw : s.Shows w W) : Reads F s w W := hw.reads hF grow
    exact laxEvaluate_mono_of_reads fits₁ fits₂ grow₁ grow₂ ht (hu.shows_subset hs showsU showsU')
      (hl.shows_subset hs showsL' showsL) (reads fits₁' (grow₁.trans more₁) showsU)
      (reads fits₁' (grow₁.trans more₁) showsL) (reads fits₂' (grow₂.trans more₂) showsU')
      (reads fits₂' (grow₂.trans more₂) showsL') h (le_refl s₁') h' (le_refl s₂')

/-- A call with nothing missing, made once more, has the same result and registers nothing. -/
theorem evaluate_again (hs : s.Canonical) (known : s.store.contains k) (hw : s.HasWorld w) :
    evaluate k w (evaluate k w s).2 = evaluate k w s := by
  have fits := ((settles_evaluate k w).additive s hs).2
  rcases h : evaluate k w s with ⟨e | b, s'⟩ <;> rw [h] at fits
  · exact (repeats_evaluate k w).refuses hs h (evaluate_refuses hs known hw h).there fits (.refl s')
  · exact (repeats_evaluate k w).again hs h fits (le_refl s')

/-- **Lax evaluation is a sound and monotone bound.**  Between a registered world and itself it is
evaluation: the result, value or error, is the same, also if one of the two calls follows the other.
What may hold between two worlds may hold between wider bounds, if both calls give a value.  So what
holds in a world may hold between any bounds around it. -/
theorem laxEvaluate_bounds (reached : s.Reachable) (known : s.store.contains k) :
    (∀ w, s.HasWorld w →
      laxEvaluate k w w s = evaluate k w s ∧
      evaluate k w (laxEvaluate k w w s).2 = laxEvaluate k w w s ∧
      laxEvaluate k w w (evaluate k w s).2 = evaluate k w s) ∧
    (∀ {upper upper' lower lower' : World} {s₁ s₁' s₂ s₂' : Session} {y : Bool},
      s.Within upper upper' → s.Within lower' lower → s₁.Reachable → s₂.Reachable → s ≤ s₁ →
      s ≤ s₂ → laxEvaluate k upper lower s₁ = (.ok true, s₁') →
      laxEvaluate k upper' lower' s₂ = (.ok y, s₂') →
      Comparable s s₁ s₁' s₂ s₂' [upper, lower, upper', lower'] → y = true) ∧
    ∀ {w upper lower : World} {s₁ s₁' s₂ s₂' : Session} {y : Bool},
      s.Within w upper → s.Within lower w → s₁.Reachable → s₂.Reachable → s ≤ s₁ → s ≤ s₂ →
      evaluate k w s₁ = (.ok true, s₁') → laxEvaluate k upper lower s₂ = (.ok y, s₂') →
      Comparable s s₁ s₁' s₂ s₂' [w, upper, lower] → y = true := by
  have hs := reached.canonical
  refine ⟨fun w hw => ?_, fun hu hl reached₁ reached₂ grow₁ grow₂ h h' calls => ?_,
    fun {w upper lower _ _ _ _ _} hu hl reached₁ reached₂ grow₁ grow₂ h h' calls => ?_⟩
  · rw [laxEvaluate_self]
    exact ⟨rfl, evaluate_again hs known hw, evaluate_again hs known hw⟩
  · exact laxEvaluate_mono hs known hu hl reached₁.canonical reached₂.canonical grow₁ grow₂ h h'
      calls
  · rw [← laxEvaluate_self] at h
    refine laxEvaluate_mono hs known hu hl reached₁.canonical reached₂.canonical grow₁ grow₂ h h'
      (calls.imp_right (Or.imp_right fun registered v hv => registered v ?_))
    simpa using hv

/-! ### Doors -/

/-- Some door is open and not locked; three worlds, one within the other. -/
def doors : Session := runAll
  [.makeWorld ["(open a)"] [("", ["a", "b"])],
    .parse "(exists (?d) (and (open ?d) (not (locked ?d))))",
    .makeWorld ["(open a)", "(locked b)"] [("", ["a", "b"])],
    .makeWorld [] [("", ["a", "b"])]] ∅

theorem laxEvaluate_bounds_doors :
    let passage := Key.ofKind .existential 7
    let least : World := ⟨.ofKind .world 10⟩
    let now : World := ⟨.ofKind .world 2⟩
    let most : World := ⟨.ofKind .world 9⟩
    doors.Reachable ∧ doors.store.contains passage ∧ doors.Within least now ∧
      doors.Within now most ∧ (evaluate passage now doors).1 = .ok true ∧
      (laxEvaluate passage now now doors).1 = .ok true ∧
      (laxEvaluate passage most least (evaluate passage now doors).2).1 = .ok true := by
  intro passage least now most
  have reached : doors.Reachable := Reachable.empty.runAll _
  -- together, so that the session is computed once
  obtain ⟨known, foundLeast, foundNow, foundMost, holds, ends⟩ :
      doors.store.contains passage ∧
      doors.store.find? least.key = some (.world ∅) ∧
      doors.store.find? now.key = some (.world (.ofList [Key.ofKind .atom 1])) ∧
      doors.store.find? most.key =
        some (.world (.ofList [Key.ofKind .atom 1, Key.ofKind .atom 8])) ∧
      (evaluate passage now doors).1 = .ok true ∧
      (laxEvaluate passage most least (evaluate passage now doors).2).1.isOk := by decide +kernel
  have low : doors.Within least now := ⟨_, _, foundLeast, foundNow, by simp⟩
  have high : doors.Within now most :=
    ⟨_, _, foundNow, foundMost, by simp [Std.ExtTreeSet.mem_ofList]⟩
  obtain ⟨same, -, bound⟩ := laxEvaluate_bounds reached known
  have after : (evaluate passage now doors).2.Reachable :=
    Stays.operation (.evaluate passage now) (fun _ => rfl) doors reached
  have grow := ((settles_evaluate passage now).additive doors reached.canonical).1
  obtain ⟨y, value⟩ := exists_of_isOk ends
  have lax := bound high low reached after (le_refl doors) grow (run_eq_of_result holds)
    (run_eq_of_result value) (.inl (le_refl _))
  refine ⟨reached, known, low, high, holds, ?_, by rw [value, lax]⟩
  rw [(same now ⟨_, foundNow⟩).1]
  exact holds

end Session

end ClassicalPlanner
