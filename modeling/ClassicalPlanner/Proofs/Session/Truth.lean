import ClassicalPlanner.Session.Evaluate
import ClassicalPlanner.Proofs.Session.Substitution
import ClassicalPlanner.Proofs.Session.World
import ClassicalPlanner.Proofs.Tree.Truth

/-!
# Truth in sessions

Deciding a key is deciding its tree (`answers_laxEvaluate`, `answers_evaluate`): the numbers of
expressions and worlds do not matter.  Both operations repeat.

Evaluation in a world is lax evaluation with this world as both bounds (`evaluateWithin_eq`), so
nothing about it is proved twice.
-/

namespace ClassicalPlanner

namespace Session

variable {s s' F : Session} {k : Key} {t : Tree} {w upper lower : World} {W U L : Finset Tree}

/-- **One recursion.**  Evaluation decides between a world and itself. -/
theorem evaluateWithin_eq (w : World) (n : Nat) (k : Key) :
    evaluateWithin w n k = laxEvaluateWithin n k w w := by
  have same : evaluateWithin w n = fun k => laxEvaluateWithin n k w w := by
    induction n with
    | zero => rfl
    | succ n ih =>
        funext k
        unfold evaluateWithin laxEvaluateWithin
        rw [ih]
  rw [same]

theorem repeats_laxEvaluateWithin {n m : Nat} (h : n ≤ m) :
    Repeats (laxEvaluateWithin n k upper lower) (laxEvaluateWithin m k upper lower) := by
  induction n generalizing m k upper lower with
  | zero => exact .circular k _
  | succ n ih =>
      obtain ⟨m, rfl⟩ : ∃ m', m = m' + 1 := ⟨m - 1, by omega⟩
      have inner (k : Key) (u l : World) :
          Repeats (laxEvaluateWithin n k u l) (laxEvaluateWithin m k u l) :=
        ih (Nat.le_of_succ_le_succ h)
      refine .bind (repeats_node k) fun node => ?_
      cases node with
      | atom p terms => exact repeats_holds upper k
      | and parts => exact .allM (fun k => inner k upper lower) parts
      | or parts => exact .anyM (fun k => inner k upper lower) parts
      | not part => exact .bind (inner part lower upper) fun _ => .pure _
      | equals a b => exact .pure _
      | imply a b =>
          refine .bind (inner a lower upper) fun holds => ?_
          cases holds with
          | true => exact inner b upper lower
          | false => exact .pure true
      | existential b body =>
          exact .bind (repeats_instances b body) fun ks =>
            .anyM (fun k => inner k upper lower) ks
      | universal b body =>
          exact .bind (repeats_instances b body) fun ks =>
            .allM (fun k => inner k upper lower) ks
      | _ => exact .throw (by simp)

theorem repeats_laxEvaluate (k : Key) (upper lower : World) :
    Repeats (laxEvaluate k upper lower) (laxEvaluate k upper lower) :=
  .withDepth fun _ _ h => repeats_laxEvaluateWithin h

theorem settles_laxEvaluate (k : Key) (upper lower : World) :
    Settles (laxEvaluate k upper lower) (laxEvaluate k upper lower) :=
  (repeats_laxEvaluate k upper lower).toSettles

theorem repeats_evaluate (k : Key) (w : World) : Repeats (evaluate k w) (evaluate k w) :=
  .withDepth fun n m h => by
    rw [evaluateWithin_eq, evaluateWithin_eq]
    exact repeats_laxEvaluateWithin h

theorem settles_evaluate (k : Key) (w : World) : Settles (evaluate k w) (evaluate k w) :=
  (repeats_evaluate k w).toSettles

theorem answers_laxEvaluateWithin {n : Nat} (hs : s.Canonical) (ht : s.store.Denotes k t)
    (hn : t.height ≤ n) (hu : Reads F s upper U) (hl : Reads F s lower L) :
    Answers F (laxEvaluateWithin n k upper lower) s
      fun _ r => r = Tree.laxWithin s.members n U L t := by
  induction n generalizing s k t upper lower U L with
  | zero => exact absurd hn t.not_height_le_zero
  | succ n ih =>
      have inner (u l : World) (k : Key) : Additive (laxEvaluateWithin n k u l) :=
        (repeats_laxEvaluateWithin (Nat.le_refl n)).additive
      have part {u l : World} {A B : Finset Tree} {k : Key} {t : Tree} {s' : Session}
          (ht : s'.store.Denotes k t) (hn : t.height ≤ n) (grow : s ≤ s') (fits : s'.Canonical)
          (hu : Reads F s u A) (hl : Reads F s l B) : Answers F (laxEvaluateWithin n k u l) s'
            fun _ r => r = Tree.laxWithin s.members n A B t := by
        rw [← funext grow.members]
        exact ih fits ht hn (hu.mono grow) (hl.mono grow)
      cases ht with
      | constant found | var found | world found =>
          exact answers_node_bind found (.of_result rfl)
      | @compound _ node ts found hnode hts =>
          have low := Tree.height_compound_le.mp hn
          refine answers_node_bind found ?_
          cases node with
          | constant | «variable» | world => exact absurd hnode Bool.false_ne_true
          | atom p terms => exact answers_holds (.compound found hnode hts) hu
          | and parts =>
              exact .allM hs (inner upper lower) hts fun ht grow fits hk =>
                part hk (low _ ht) grow fits hu hl
          | or parts =>
              exact .anyM hs (inner upper lower) hts fun ht grow fits hk =>
                part hk (low _ ht) grow fits hu hl
          | not a =>
              obtain _ | ⟨ha, ⟨⟩⟩ := hts
              exact .bind_eq hs (inner lower upper a) (fun _ => .pure _)
                (part ha (low _ List.mem_cons_self) (le_refl s) hs hl hu)
                fun _ _ _ => .pure rfl
          | equals a b =>
              obtain _ | ⟨ha, _ | ⟨hb, ⟨⟩⟩⟩ := hts
              refine .pure (congrArg Except.ok ?_)
              rw [Bool.eq_iff_iff, beq_iff_eq, decide_eq_true_eq]
              exact ⟨fun h => ha.unique (h ▸ hb), fun h => hs.denotes_injective ha (h ▸ hb)⟩
          | imply a b =>
              obtain _ | ⟨ha, _ | ⟨hb, ⟨⟩⟩⟩ := hts
              refine .bind_eq hs (inner lower upper a) (fun holds => ?_)
                (part ha (low _ List.mem_cons_self) (le_refl s) hs hl hu) ?_
              · cases holds with
                | true => exact inner upper lower b
                | false => exact .pure true
              · intro holds s' grow fits _
                cases holds with
                | true =>
                    exact part (hb.mono grow.store)
                      (low _ (List.mem_cons_of_mem _ List.mem_cons_self)) grow fits hu hl
                | false => exact .pure rfl
          | existential b body =>
              obtain ⟨_, _, v, g, t, ⟨⟩, rfl, hb, hbody⟩ := (hs.binder found).unfolds rfl hts
              exact answers_instances_bind hs (.var hb) hbody (low t (by simp))
                (fun ks => .anyM (inner upper lower) ks) fun grow fits hks low =>
                  .anyM fits (inner upper lower) hks fun ht grow' fits' hk =>
                    part hk (low _ ht) (grow.trans grow') fits' hu hl
          | universal b body =>
              obtain ⟨_, _, v, g, t, ⟨⟩, rfl, hb, hbody⟩ := (hs.binder found).unfolds rfl hts
              exact answers_instances_bind hs (.var hb) hbody (low t (by simp))
                (fun ks => .allM (inner upper lower) ks) fun grow fits hks low =>
                  .allM fits (inner upper lower) hks fun ht grow' fits' hk =>
                    part hk (low _ ht) (grow.trans grow') fits' hu hl
          | when guard effect => exact .of_result rfl

/-- **Lax evaluation** decides the tree of a key between two sets of atoms. -/
theorem answers_laxEvaluate (hs : s.Canonical) (ht : s.store.Denotes k t)
    (hu : Reads F s upper U) (hl : Reads F s lower L) :
    Answers F (laxEvaluate k upper lower) s fun _ r => r = Tree.lax s.members U L t := by
  have low : t.height ≤ s.size + 1 := Nat.le_succ_of_le (hs.height_le ht)
  have answer := answers_laxEvaluateWithin hs ht low hu hl
  rw [Tree.laxWithin_eq_lax low] at answer
  exact answers_withDepth answer

/-- **Evaluation** decides the tree of a key in a set of atoms. -/
theorem answers_evaluate (hs : s.Canonical) (ht : s.store.Denotes k t) (hw : Reads F s w W) :
    Answers F (evaluate k w) s fun _ r => r = Tree.truth s.members W t := by
  have answer := answers_laxEvaluate hs ht hw hw
  unfold evaluate
  simp only [evaluateWithin_eq]
  exact answer

/-- A key that has been decided is registered. -/
theorem contains_of_laxEvaluateWithin {n : Nat} {b : Bool}
    (h : laxEvaluateWithin n k upper lower s = (.ok b, s')) : s.store.contains k := by
  cases n with
  | zero => cases h
  | succ n =>
      obtain ⟨node, s₁, hnode, -⟩ := run_bind_eq_ok.mp h
      exact NodeStore.contains_iff.mpr ⟨node, (node_eq_ok hnode).1⟩

theorem contains_of_laxEvaluate {b : Bool} (h : laxEvaluate k upper lower s = (.ok b, s')) :
    s.store.contains k := by
  obtain ⟨n, s₁, hn, h⟩ := run_bind_eq_ok.mp h
  obtain ⟨-, rfl⟩ := Prod.mk.inj hn
  exact contains_of_laxEvaluateWithin h

theorem contains_of_evaluate {b : Bool} (h : evaluate k w s = (.ok b, s')) :
    s.store.contains k := by
  obtain ⟨n, s₁, hn, h⟩ := run_bind_eq_ok.mp h
  obtain ⟨-, rfl⟩ := Prod.mk.inj hn
  rw [evaluateWithin_eq] at h
  exact contains_of_laxEvaluateWithin h

theorem evaluate_eq_ok {b : Bool} (hs : s.Canonical) (ht : s.store.Denotes k t)
    (h : evaluate k w s = (.ok b, s')) (grow : s' ≤ F) (hw : Reads F s w W) :
    Tree.truth s.members W t = .ok b :=
  ((answers_evaluate hs ht hw).of_ok h grow).symm

theorem laxEvaluate_eq_ok {b : Bool} (hs : s.Canonical) (ht : s.store.Denotes k t)
    (h : laxEvaluate k upper lower s = (.ok b, s')) (grow : s' ≤ F) (hu : Reads F s upper U)
    (hl : Reads F s lower L) : Tree.lax s.members U L t = .ok b :=
  ((answers_laxEvaluate hs ht hu hl).of_ok h grow).symm

/-! ### Refusals -/

/-- A key that is not registered is refused, and nothing is registered. -/
theorem evaluate_of_not_contains (h : ¬s.store.contains k) (w : World) :
    evaluate k w s = (.error (.unknownExpression k), s) := by
  have missing : node k s = (.error (.unknownExpression k), s) := by
    rw [node, NodeStore.node, NodeStore.find?_eq_none h]
  change evaluateWithin w (s.size + 1) k s = _
  rw [evaluateWithin, run_bind, missing]

/-- When a registered key cannot be decided between two worlds, a part of it is no condition, or the
numbers have run out. -/
theorem laxEvaluate_refuses {e : FormulaError} (hs : s.Canonical) (hk : s.store.contains k)
    (hu : s.HasWorld upper) (hl : s.HasWorld lower)
    (h : laxEvaluate k upper lower s = (.error e, s')) : e.Refusal := by
  obtain ⟨-, fits⟩ := (settles_laxEvaluate k upper lower).additive.of_run hs h
  obtain ⟨t, ht, -⟩ := hs.exists_denotes hk
  obtain ⟨U, hU⟩ := hu.exists_reads fits
  obtain ⟨L, hL⟩ := hl.exists_reads fits
  rcases (answers_laxEvaluate hs ht hU hL).of_error h (le_refl s') with rfl | refused
  · exact .inr rfl
  · obtain ⟨kind, rfl⟩ := Tree.lax_eq_error refused.symm
    exact .inl trivial

/-- Evaluation decides between a world and itself. -/
theorem laxEvaluate_self (k : Key) (w : World) : laxEvaluate k w w = evaluate k w := by
  unfold evaluate
  simp only [evaluateWithin_eq]
  rfl

theorem evaluate_refuses {e : FormulaError} (hs : s.Canonical) (hk : s.store.contains k)
    (hw : s.HasWorld w) (h : evaluate k w s = (.error e, s')) : e.Refusal := by
  rw [← laxEvaluate_self] at h
  exact laxEvaluate_refuses hs hk hw hw h

end Session

end ClassicalPlanner
