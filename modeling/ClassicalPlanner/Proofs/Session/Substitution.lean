import ClassicalPlanner.Session.Substitute
import ClassicalPlanner.Proofs.Session.Replay

/-!
# Substitution in sessions

Substitution of keys is substitution of trees (`answers_substitute`), and it repeats.  So are the
instances of a quantifier the instances of its tree, one for each member of the group
(`answers_instances`).

The bound on the length of a chain of arguments is never met: a tree is no higher than the number of
expressions, and substitution does not make it higher.
-/

namespace ClassicalPlanner

namespace Session

variable {s F : Session} {k : Key} {t : Tree} {old new : SymbolId} {α β : Type}

/-! ### Reading the size and the groups -/

/-- The bound only grows with the session. -/
theorem Settles.withDepth {f g : Nat → SessionM α} (h : ∀ n m, n ≤ m → Settles (f n) (g m)) :
    Settles (liftM depth >>= f) (liftM depth >>= g) := by
  refine ⟨.bind (.reading _) fun n => (h n n (Nat.le_refl n)).additive, ?_⟩
  intro s a s' F hs hx hF grow
  obtain ⟨n, s₁, hn, hx⟩ := run_bind_eq_ok.mp hx
  obtain ⟨⟨⟩, rfl⟩ := Prod.mk.inj hn
  obtain ⟨more, -⟩ := (h (s.size + 1) _ (Nat.le_refl _)).additive.of_run hs hx
  have size : s.size + 1 ≤ F.size + 1 := Nat.succ_le_succ (more.trans grow).size
  exact (h _ _ size).again hs hx hF grow

theorem Settles.get_bind {f : Session → β} {x y : β → SessionM α}
    (hf : ∀ {s F : Session}, s ≤ F → f F = f s) (h : ∀ b, Settles (x b) (y b)) :
    Settles (get >>= fun s => x (f s)) (get >>= fun s => y (f s)) := by
  refine ⟨fun s hs => (h (f s)).additive s hs, fun {s a s' F} hs hx hF grow => ?_⟩
  obtain ⟨more, -⟩ := (h (f s)).additive.of_run hs hx
  show y (f F) F = _
  rw [hf (more.trans grow)]
  exact (h (f s)).again hs hx hF grow

theorem Repeats.withDepth {f g : Nat → SessionM α} (h : ∀ n m, n ≤ m → Repeats (f n) (g m)) :
    Repeats (liftM depth >>= f) (liftM depth >>= g) where
  toSettles := .withDepth fun n m le => (h n m le).toSettles
  symbols s := (h _ _ (Nat.le_refl (s.size + 1))).symbols s
  closed s := (h _ _ (Nat.le_refl (s.size + 1))).closed s
  refuses {s e s' F} hs hx there hF later := by
    obtain ⟨more, -⟩ := (h _ _ (Nat.le_refl (s.size + 1))).additive.of_run hs hx
    have size : s.size + 1 ≤ F.size + 1 := Nat.succ_le_succ (more.trans later.grow).size
    exact (h _ _ size).refuses hs hx there hF later
  full {s s'} hx := (h _ _ (Nat.le_refl (s.size + 1))).full hx

theorem Repeats.get_bind {f : Session → β} {x y : β → SessionM α}
    (hf : ∀ {s F : Session}, s ≤ F → f F = f s) (h : ∀ b, Repeats (x b) (y b)) :
    Repeats (get >>= fun s => x (f s)) (get >>= fun s => y (f s)) where
  toSettles := .get_bind hf fun b => (h b).toSettles
  symbols s := (h (f s)).symbols s
  closed s := (h (f s)).closed s
  refuses {s e s' F} hs hx there hF later := by
    obtain ⟨more, -⟩ := (h (f s)).additive.of_run hs hx
    show y (f F) F = _
    rw [hf (more.trans later.grow)]
    exact (h (f s)).refuses hs hx there hF later
  full {s s'} hx := (h (f s)).full hx

theorem answers_withDepth {f : Nat → SessionM α} {P : Session → Except FormulaError α → Prop}
    (h : Answers F (f (s.size + 1)) s P) : Answers F (liftM depth >>= f) s P := h

/-! ### Substitution repeats -/

theorem repeats_rebuild (kind : Kind) (before : List Key) (after : List Key) :
    Repeats (substituteWithin.rebuild k kind before after)
      (substituteWithin.rebuild k kind before after) := by
  unfold substituteWithin.rebuild
  split
  · exact .pure k
  · exact repeats_addCompound kind after

theorem repeats_substituteWithin {n m : Nat} (h : n ≤ m) :
    Repeats (substituteWithin old new n k) (substituteWithin old new m k) := by
  induction n generalizing m k with
  | zero => exact .circular k _
  | succ n ih =>
      obtain ⟨m, rfl⟩ : ∃ m', m = m' + 1 := ⟨m - 1, by omega⟩
      have inner (k : Key) := ih (k := k) (Nat.le_of_succ_le_succ h)
      refine .bind (repeats_node k) fun node => ?_
      cases node with
      | constant c =>
          simp only
          split
          · exact repeats_addConstantOf new
          · exact .pure k
      | «variable» v g =>
          simp only
          split
          · exact repeats_addConstantOf new
          · exact .pure k
      | world atoms => exact .pure k
      | existential b body | universal b body =>
          exact .bind (inner body) fun _ => repeats_rebuild _ _ _
      | _ => exact .bind (.mapM inner _) fun _ => repeats_rebuild _ _ _

theorem repeats_substitute (k : Key) (old new : SymbolId) :
    Repeats (substitute k old new) (substitute k old new) :=
  .withDepth fun _ _ h => repeats_substituteWithin h

theorem settles_substitute (k : Key) (old new : SymbolId) :
    Settles (substitute k old new) (substitute k old new) :=
  (repeats_substitute k old new).toSettles

theorem repeats_instances (binder body : Key) :
    Repeats (instances binder body) (instances binder body) := by
  refine .bind (repeats_node binder) fun node => ?_
  cases node with
  | «variable» v g =>
      exact .get_bind (fun grow => grow.members g) fun members =>
        .mapM (fun c => repeats_substitute body v c) members
  | _ => exact .throw (by simp)

theorem settles_instances (binder body : Key) :
    Settles (instances binder body) (instances binder body) :=
  (repeats_instances binder body).toSettles

/-! ### Substitution on trees -/

/-- The compound over the trees of its new arguments. -/
theorem answers_rebuild {n : Node} {after : List Key} {ts : List Tree} (hs : s.Canonical)
    (h : s.store.find? k = some n) (hn : n.IsCompound)
    (hts : List.Forall₂ s.store.Denotes after ts) (hlength : after.length = n.args.length)
    (hb : n.kind.isQuantifier → after.head? = n.args.head?) :
    Answers F (substituteWithin.rebuild k n.kind n.args after) s
      (IsKeyOf (.compound n.kind ts)) := by
  unfold substituteWithin.rebuild
  split
  · rename_i same
    subst same
    exact .pure ⟨k, rfl, .compound h hn hts⟩
  · obtain ⟨n', hn'⟩ := Node.ofKind_of_length hn hlength
    have registered : ∀ a ∈ n'.args, s.store.contains a := by
      rw [Node.args_of_ofKind hn']
      intro a ha
      obtain ⟨u, -, hu⟩ := NodeStore.forall₂_exists_right hts ha
      exact hu.contains
    have binds : s.store.BindsVariable n' := by
      intro hq
      rw [Node.kind_of_ofKind hn'] at hq
      obtain ⟨b, body, v, g, hargs, hfind⟩ := hs.binder h hq
      rw [hargs] at hlength
      obtain ⟨b', body', rfl⟩ := List.length_eq_two.mp hlength
      obtain rfl : b' = b := by simpa [hargs] using hb hq
      exact ⟨b', body', v, g, Node.args_of_ofKind hn', hfind⟩
    have allowed := NodeStore.check_eq_ok_iff.mpr ⟨registered, binds⟩
    refine answers_register (NodeStore.addCompound_eq_error hn' allowed) fun {k' store} added => ?_
    obtain ⟨-, grow, n'', hn'', found⟩ := NodeStore.Canonical.addCompound hs added
    obtain rfl : n' = n'' := Except.ok.inj (hn'.symm.trans hn'')
    refine ⟨k', rfl, ?_⟩
    rw [← Node.kind_of_ofKind hn']
    refine .compound found (Node.isCompound_of_ofKind hn') ?_
    rw [Node.args_of_ofKind hn']
    exact NodeStore.denotes_all_mono hts grow

theorem answers_substituteWithin {n : Nat} (hs : s.Canonical) (ht : s.store.Denotes k t)
    (hn : t.height ≤ n) :
    Answers F (substituteWithin old new n k) s (IsKeyOf (t.subst old new)) := by
  induction n generalizing s k t with
  | zero => exact absurd hn t.not_height_le_zero
  | succ n ih =>
      have inner (k : Key) : Additive (substituteWithin old new n k) :=
        (repeats_substituteWithin (Nat.le_refl n)).additive
      cases ht with
      | @constant _ c found =>
          refine answers_node_bind found ?_
          simp only [Tree.subst]
          split
          · exact answers_addConstantOf hs new
          · exact .pure ⟨k, rfl, .constant found⟩
      | @var _ v g found =>
          refine answers_node_bind found ?_
          simp only [Tree.subst]
          split
          · exact answers_addConstantOf hs new
          · exact .pure ⟨k, rfl, .var found⟩
      | world found =>
          rw [Tree.subst]
          exact answers_node_bind found (.pure ⟨k, rfl, .world found⟩)
      | @compound _ node ts found hnode hts =>
          have low := Tree.height_compound_le.mp hn
          have plain (hq : node.kind.isQuantifier = false) :
              Answers F (node.args.mapM (substituteWithin old new n) >>= fun after =>
                substituteWithin.rebuild k node.kind node.args after) s
                (IsKeyOf ((Tree.compound node.kind ts).subst old new)) := by
            have replaced : Answers F (node.args.mapM (substituteWithin old new n)) s
                (AreKeysOf (ts.map (Tree.subst old new))) := by
              refine .mapM (R := fun a u => ∃ t ∈ ts, s.store.Denotes a t ∧ u = t.subst old new)
                hs inner ?_ ?_
              · rw [List.forall₂_map_right_iff]
                exact NodeStore.forall₂_imp_mem hts fun a t ht ha => ⟨t, ht, ha, rfl⟩
              · rintro a _ s' ⟨t, ht, ha, rfl⟩ grow fits
                exact ih fits (ha.mono grow.store) (low t ht)
            rw [Tree.subst_compound hq]
            refine .bind hs (.mapM inner _) (fun _ => (repeats_rebuild _ _ _).additive) replaced
              (fun h => h.not_error.elim) ?_
            rintro after s' grow fits ⟨after, ⟨⟩, hafter⟩
            refine answers_rebuild fits (grow.store.nodes found) hnode hafter ?_
              fun h => absurd h (Bool.eq_false_iff.mp hq)
            rw [hafter.length_eq, List.length_map, hts.length_eq]
          cases node with
          | constant | «variable» | world => exact absurd hnode Bool.false_ne_true
          | existential b body | universal b body =>
              obtain _ | ⟨hb, _ | ⟨hbody, ⟨⟩⟩⟩ := hts
              rw [Tree.subst_quantifier rfl]
              refine answers_node_bind found (.bind hs (inner body)
                (fun _ => (repeats_rebuild _ _ _).additive)
                (ih hs hbody (low _ (List.mem_cons_of_mem _ List.mem_cons_self)))
                (fun h => h.not_error.elim) ?_)
              rintro body' s' grow fits ⟨body', ⟨⟩, hbody'⟩
              exact answers_rebuild fits (grow.store.nodes found) hnode
                (.cons (hb.mono grow.store) (.cons hbody' .nil)) rfl fun _ => rfl
          | _ => exact answers_node_bind found (plain rfl)

/-- **Substitution.**  The key that comes out denotes the tree with the substitution made. -/
theorem answers_substitute (hs : s.Canonical) (ht : s.store.Denotes k t) (old new : SymbolId) :
    Answers F (substitute k old new) s (IsKeyOf (t.subst old new)) :=
  answers_withDepth (answers_substituteWithin hs ht (Nat.le_succ_of_le (hs.height_le ht)))

/-- **Instances.**  A quantifier stands for its body with each member of the group put in. -/
theorem answers_instances {b : Key} {v g : SymbolId} (hs : s.Canonical)
    (hb : s.store.Denotes b (.var v g)) (ht : s.store.Denotes k t) :
    Answers F (instances b k) s (AreKeysOf ((s.members g).map (t.subst v))) := by
  cases hb with
  | var hb =>
      refine answers_node_bind hb (Answers.mapM (R := fun c u => u = t.subst v c) hs
        (fun c => (settles_substitute k v c).additive) ?_ ?_)
      · rw [List.forall₂_map_right_iff, List.forall₂_same]
        exact fun c _ => rfl
      · rintro c _ s' rfl grow fits
        exact answers_substitute fits (ht.mono grow.store) v c

/-- What is done with the instances of a quantifier is done with keys of their trees, which are no
higher than the body. -/
theorem answers_instances_bind {n : Nat} {b : Key} {v g : SymbolId} {f : List Key → SessionM α}
    {P : Session → Except FormulaError α → Prop} (hs : s.Canonical)
    (hb : s.store.Denotes b (.var v g)) (ht : s.store.Denotes k t) (hn : t.height ≤ n)
    (hf : ∀ ks, Additive (f ks))
    (h : ∀ {ks s'}, s ≤ s' → s'.Canonical →
      List.Forall₂ s'.store.Denotes ks ((s.members g).map (t.subst v)) →
      (∀ u ∈ (s.members g).map (t.subst v), u.height ≤ n) → Answers F (f ks) s' P) :
    Answers F (instances b k >>= f) s P := by
  have low : ∀ u ∈ (s.members g).map (t.subst v), u.height ≤ n :=
    List.forall_mem_map.mpr fun _ _ => t.height_subst.trans_le hn
  refine .bind hs (settles_instances b k).additive hf (answers_instances hs hb ht)
    (fun h => h.not_error.elim) ?_
  rintro _ s' grow fits ⟨ks, ⟨⟩, hks⟩
  exact h grow fits hks low

end Session

end ClassicalPlanner
