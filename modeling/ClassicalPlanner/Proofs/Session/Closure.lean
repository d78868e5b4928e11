import ClassicalPlanner.Session.Render
import ClassicalPlanner.Proofs.Session.Effect
import ClassicalPlanner.Proofs.Session.Registration
import ClassicalPlanner.Proofs.Session.Serve

/-!
# Closed sessions stay closed

Substitution, evaluation and the application of effects register instances and worlds as they go,
and may fail on the way.  Started in a closed session, they leave a closed one all the same
(`serves_substitute`, `serves_laxEvaluate`, `serves_collect`, `serves_apply`); for a substitution
the new symbol must have a word.

An expression can be printed if each chain of parts below it comes to an end, and if the symbols met
there have words (`exists_renderWithin`).  In a closed session this is so for every expression
(`Closed.exists_render`).
-/

namespace ClassicalPlanner

/-- The atoms that are added or removed. -/
def Changes.keys (c : Changes) : List Key := c.add.toList ++ c.remove.toList

namespace Session

variable {s s' : Session} {k : Key} {w upper lower : World} {old new : SymbolId} {n : Nat}
variable {α β : Type} {c : Changes}

/-- Any value, and any error. -/
abbrev Anything (s : Session) (r : Except FormulaError α) : Prop :=
  Gives (fun _ _ => True) (fun _ => True) s r

theorem anything (r : Except FormulaError α) : Anything s r := by
  cases r <;> trivial

/-- The parts of what is registered are registered. -/
theorem Closed.contains_part (h : s.Closed) {node : Node} (found : s.store.find? k = some node)
    {a : Key} (ha : a ∈ node.parts) : s.store.contains a := by
  have rooted := h.grounded (NodeStore.contains_iff.mpr ⟨node, found⟩)
  generalize s.store.size = d at rooted
  cases rooted with
  | node found' parts =>
      cases found.symm.trans found'
      -- the chain that starts at the node goes on at each of its parts
      cases parts a ha with
      | node found'' _ => exact NodeStore.contains_iff.mpr ⟨_, found''⟩

/-! ### Substitution -/

theorem serves_node (hs : s.Sound) (k : Key) : Serves (node k) s
    (Gives (fun s node => s.store.find? k = some node) fun _ => True) := by
  refine .reading hs ?_
  cases h : s.store.node k with
  | error e => trivial
  | ok node => exact NodeStore.node_eq_ok_iff.mp h

theorem serves_rebuild (hs : s.Sound) (k : Key) (kind : Kind) (before after : List Key) :
    Serves (substituteWithin.rebuild k kind before after) s Anything := by
  unfold substituteWithin.rebuild
  split
  · exact .pure hs trivial
  · exact (serves_addCompound hs fun _ => trivial).imp fun _ _ => anything _

theorem serves_substituteWithin (hs : s.Sound) (hnew : s.HasWord new) :
    Serves (substituteWithin old new n k) s Anything := by
  induction n generalizing s k with
  | zero => exact .throw hs trivial
  | succ n ih =>
      refine .bind (serves_node hs k) fun {node _} keeps sound _ _ => ?_
      have word := hnew.mono keeps
      cases node with
      | constant c =>
          simp only
          split
          · exact .lift ((serves_addConstantOf sound word).imp fun _ _ => trivial)
          · exact .pure sound trivial
      | «variable» v g =>
          simp only
          split
          · exact .lift ((serves_addConstantOf sound word).imp fun _ _ => trivial)
          · exact .pure sound trivial
      | world atoms => exact .pure sound trivial
      -- a binder stays as it is, so there is nothing to do for it
      | existential b body | universal b body =>
          exact .bind (ih sound word) fun _ sound' _ _ => serves_rebuild sound' k _ _ _
      | _ =>
          refine .bind (.mapM sound (fun _ _ => trivial) fun _ keeps' sound' _ =>
            ih sound' (word.mono keeps')) fun _ sound' _ _ => ?_
          exact serves_rebuild sound' k _ _ _

theorem serves_depth (hs : s.Sound) : Serves (liftM depth : SessionM Nat) s Anything :=
  ⟨hs, .refl s, id, trivial⟩

theorem serves_withDepth {f : Nat → SessionM α} {P : Session → Except FormulaError α → Prop}
    (h : Serves (f (s.size + 1)) s P) : Serves (liftM depth >>= f) s P :=
  ⟨h.sound, h.keeps, h.closed, h.result⟩

theorem serves_substitute (hs : s.Sound) (hnew : s.HasWord new) :
    Serves (substitute k old new) s Anything :=
  serves_withDepth (serves_substituteWithin hs hnew)

theorem serves_get_bind {f : Session → SessionM β} {P : Session → Except FormulaError β → Prop}
    (h : Serves (f s) s P) : Serves (get >>= f) s P := ⟨h.sound, h.keeps, h.closed, h.result⟩

/-- The members of a group have words, so they can be put in. -/
theorem serves_instances (hs : s.Sound) (hc : s.Closed) (b k : Key) :
    Serves (instances b k) s Anything := by
  refine .bind (serves_node hs b) fun {node _} _ sound closed _ => ?_
  cases node with
  | «variable» v g =>
      refine serves_get_bind ((Serves.mapM sound (fun _ _ => trivial) fun mem keeps sound' _ =>
        serves_substitute sound' ?_).imp fun _ _ => anything _)
      exact ((closed hc).members mem).mono keeps
  | _ => exact .throw sound trivial

/-! ### Evaluation -/

theorem serves_holds (hs : s.Sound) (w : World) (k : Key) : Serves (holds w k) s Anything :=
  .bind (.reading hs (anything _)) fun _ sound _ _ => .pure sound trivial

theorem serves_laxEvaluateWithin (hs : s.Sound) (hc : s.Closed) :
    Serves (laxEvaluateWithin n k upper lower) s Anything := by
  induction n generalizing s k upper lower with
  | zero => exact .throw hs trivial
  | succ n ih =>
      refine .bind (serves_node hs k) fun {node s₁} _ sound closed _ => ?_
      have hc := closed hc
      have inner (k : Key) (u l : World) {s' : Session} (sound : s'.Sound) (closed : s'.Closed) :
          Serves (laxEvaluateWithin n k u l) s' Anything := ih sound closed
      have all (ks : List Key) {s' : Session} (sound : s'.Sound) (closed : s'.Closed) :
          Serves (ks.allM (laxEvaluateWithin n · upper lower)) s' Anything :=
        .allM sound fun _ sound' closed' => inner _ upper lower sound' (closed' closed)
      have any (ks : List Key) {s' : Session} (sound : s'.Sound) (closed : s'.Closed) :
          Serves (ks.anyM (laxEvaluateWithin n · upper lower)) s' Anything :=
        .anyM sound fun _ sound' closed' => inner _ upper lower sound' (closed' closed)
      cases node with
      | atom p terms => exact serves_holds sound upper k
      | and parts => exact all parts sound hc
      | or parts => exact any parts sound hc
      | not part =>
          exact .bind (inner part lower upper sound hc) fun _ sound' _ _ => .pure sound' trivial
      | equals a b => exact .pure sound trivial
      | imply a b =>
          refine .bind (inner a lower upper sound hc) fun {holds _} _ sound' closed' _ => ?_
          cases holds with
          | true => exact inner b upper lower sound' (closed' hc)
          | false => exact .pure sound' trivial
      | existential b body =>
          exact .bind (serves_instances sound hc b body) fun _ sound' closed' _ =>
            any _ sound' (closed' hc)
      | universal b body =>
          exact .bind (serves_instances sound hc b body) fun _ sound' closed' _ =>
            all _ sound' (closed' hc)
      | _ => exact .throw sound trivial

theorem serves_laxEvaluate (hs : s.Sound) (hc : s.Closed) (k : Key) (upper lower : World) :
    Serves (laxEvaluate k upper lower) s Anything :=
  serves_withDepth (serves_laxEvaluateWithin hs hc)

theorem serves_evaluate (hs : s.Sound) (hc : s.Closed) (k : Key) (w : World) :
    Serves (evaluate k w) s Anything := laxEvaluate_self k w ▸ serves_laxEvaluate hs hc k w w

/-! ### Collecting changes -/

/-- Whatever becomes of the collection, the atoms that it has collected are registered. -/
def Hoards (good : Session → α → Prop) (s : Session) (r : Except FormulaError α × Changes) : Prop :=
  s.Knows r.2.keys ∧ ∀ a, r.1 = .ok a → good s a

section Hoarding

variable {good : Session → α → Prop} {good' : Session → β → Prop}

theorem serves_collecting {x : SessionM α} (known : s.Knows c.keys)
    (h : Serves x s (Gives good fun _ => True)) : Serves (collecting x c) s (Hoards good) := by
  refine ⟨h.sound, h.keeps, h.closed, ?_, fun a ha => ?_⟩
  · exact fun k hk => h.keeps.store.contains (known k hk)
  · have result := h.result
    rw [show (x s).1 = .ok a from ha] at result
    exact result

theorem serves_bind_carrying {x : ChangesM α} {f : α → ChangesM β}
    (h : Serves (x c) s (Hoards good))
    (hf : ∀ {a c' s'}, s'.Sound → (s.Closed → s'.Closed) → s'.Knows c'.keys → good s' a →
      Serves (f a c') s' (Hoards good')) : Serves ((x >>= f) c) s (Hoards good') := by
  obtain ⟨sound, keeps, closed, known, result⟩ := h
  rcases hx : x c s with ⟨⟨e | a, c'⟩, s₁⟩ <;> rw [hx] at sound keeps closed known result
  · have run : (x >>= f) c s = ((.error e, c'), s₁) := by rw [run_bind_carrying, hx]
    exact ⟨by rwa [run], by rwa [run], by rwa [run], by rwa [run],
      fun b hb => by rw [run] at hb; cases hb⟩
  · have rest := hf sound closed known (result a rfl)
    have run : (x >>= f) c s = f a c' s₁ := by rw [run_bind_carrying, hx]
    exact ⟨by rw [run]; exact rest.sound, by rw [run]; exact keeps.trans rest.keeps,
      fun h => by rw [run]; exact rest.closed (closed h), by rw [run]; exact rest.result.1,
      by rw [run]; exact rest.result.2⟩

theorem serves_pure_carrying {r : Except FormulaError α} (hs : s.Sound) (known : s.Knows c.keys)
    (h : ∀ a, r = .ok a → good s a) :
    Serves ((fun c s => ((r, c), s) : ChangesM α) c) s (Hoards good) :=
  ⟨hs, .refl s, id, known, h⟩

theorem knows_swap : s.Knows c.swap.keys ↔ s.Knows c.keys := by
  unfold Changes.keys Changes.swap
  rw [knows_append, knows_append, and_comm]

theorem serves_swapped {x : ChangesM Unit}
    (h : Serves (x c.swap) s (Hoards fun _ _ => True)) :
    Serves (swapped x c) s (Hoards fun _ _ => True) :=
  ⟨h.sound, h.keeps, h.closed, knows_swap.mpr h.result.1, fun _ _ => trivial⟩

theorem serves_addAtom (hs : s.Sound) (known : s.Knows c.keys) (hk : s.store.contains k) :
    Serves (addAtom k c) s (Hoards fun _ _ => True) := by
  refine ⟨hs, .refl s, id, fun a ha => ?_, fun _ _ => trivial⟩
  obtain ⟨add, remove⟩ := knows_append.mp known
  change a ∈ (c.add.insert k).toList ++ c.remove.toList at ha
  rcases List.mem_append.mp ha with ha | ha
  · rw [Std.ExtTreeSet.mem_toList, Std.ExtTreeSet.mem_insert,
      Std.LawfulEqOrd.compare_eq_iff_eq] at ha
    rcases ha with rfl | ha
    · exact hk
    · exact add a (Std.ExtTreeSet.mem_toList.mpr ha)
  · exact remove a ha

theorem serves_forM_carrying {f : Key → ChangesM Unit} {l : List Key} (hs : s.Sound)
    (hc : s.Closed) (known : s.Knows c.keys)
    (hf : ∀ {k c s}, s.Sound → s.Closed → s.Knows c.keys →
      Serves (f k c) s (Hoards fun _ _ => True)) :
    Serves (l.forM f c) s (Hoards fun _ _ => True) := by
  induction l generalizing s c with
  | nil => exact serves_pure_carrying hs known fun _ _ => trivial
  | cons k l ih =>
      exact serves_bind_carrying (hf hs hc known) fun sound closed known _ =>
        ih sound (closed hc) known

end Hoarding

theorem serves_collectWithin {g : Key → SessionM Bool}
    (hg : ∀ {k s}, s.Sound → s.Closed → Serves (g k) s Anything) (hs : s.Sound) (hc : s.Closed)
    (known : s.Knows c.keys) : Serves (collectWithin g n k c) s (Hoards fun _ _ => True) := by
  induction n generalizing s k c with
  | zero => exact serves_pure_carrying hs known fun _ _ => trivial
  | succ n ih =>
      refine serves_bind_carrying (serves_collecting known (serves_node hs k))
        fun {node c₁ s₁} sound closed known found => ?_
      have hc := closed hc
      cases node with
      | atom p terms =>
          exact serves_addAtom sound known (NodeStore.contains_iff.mpr ⟨_, found⟩)
      | and parts => exact serves_forM_carrying sound hc known ih
      | not part => exact serves_swapped (ih sound hc (knows_swap.mpr known))
      | when guard effect =>
          refine serves_bind_carrying (serves_collecting known (hg sound hc))
            fun {holds _ _} sound' closed' known' _ => ?_
          cases holds with
          | true => exact ih sound' (closed' hc) known'
          | false => exact serves_pure_carrying sound' known' fun _ _ => trivial
      | universal b body =>
          exact serves_bind_carrying (serves_collecting known (serves_instances sound hc b body))
            fun sound' closed' known' _ => serves_forM_carrying sound' (closed' hc) known' ih
      | _ => exact serves_pure_carrying sound known fun _ _ => trivial

/-- **Collecting** keeps a session closed, and what has been collected is registered, also if the
collection fails. -/
theorem serves_collect (hs : s.Sound) (hc : s.Closed) (known : s.Knows c.keys) (k : Key)
    (w : World) : Serves (collect k w c) s (Hoards fun _ _ => True) :=
  serves_bind_carrying (serves_collecting known (serves_depth hs))
    fun sound closed known _ =>
      serves_collectWithin (fun sound closed => serves_evaluate sound closed _ w) sound (closed hc)
        known

theorem serves_collectAll (hs : s.Sound) (hc : s.Closed) (known : s.Knows c.keys) (k : Key) :
    Serves (collectAll k c) s (Hoards fun _ _ => True) :=
  serves_bind_carrying (serves_collecting known (serves_depth hs))
    fun sound closed known _ =>
      serves_collectWithin (fun sound _ => .pure sound trivial) sound (closed hc) known

/-! ### Applying effects -/

theorem knows_empty : s.Knows (∅ : Changes).keys := fun k hk => by
  simp only [Changes.keys, List.mem_append, Std.ExtTreeSet.mem_toList] at hk
  rcases hk with hk | hk <;> exact absurd hk Std.ExtTreeSet.not_mem_empty

theorem serves_changesFrom {x : ChangesM Unit} (h : Serves (x c) s (Hoards fun _ _ => True)) :
    Serves (changesFrom c x) s (Gives (fun s c => s.Knows c.keys) fun _ => True) := by
  obtain ⟨sound, keeps, closed, known, -⟩ := h
  rcases hx : x c s with ⟨⟨e | ⟨⟩, c'⟩, s₁⟩ <;> rw [hx] at sound keeps closed known
  · have run : changesFrom c x s = (.error e, s₁) := by unfold changesFrom; rw [hx]
    exact ⟨by rwa [run], by rwa [run], by rwa [run], by rw [run]; trivial⟩
  · have run : changesFrom c x s = (.ok c', s₁) := by unfold changesFrom; rw [hx]
    exact ⟨by rwa [run], by rwa [run], by rwa [run], by rw [run]; exact known⟩

theorem serves_atoms (hs : s.Sound) (w : World) : Serves (atoms w) s
    (Gives (fun s a => s.store.find? w.key = some (.world a)) fun _ => True) := by
  refine .reading hs ?_
  rcases h : s.store.atoms w with e | a
  · trivial
  · exact (atoms_eq_ok_iff.mp (Prod.ext h rfl : atoms w s = (.ok a, s))).1

/-- **Applying an effect** keeps a session closed, since the next world has atoms of the world
before and atoms that have been collected. -/
theorem serves_apply (hs : s.Sound) (hc : s.Closed) (w : World) (k : Key) :
    Serves (apply w k) s (Gives HasWorld fun _ => True) := by
  refine .bind (serves_changesFrom (serves_collect hs hc knows_empty k w))
    fun {c s₁} _ sound closed known => ?_
  refine .bind (serves_atoms sound w) fun {a s₂} keeps sound' closed' found => ?_
  refine (serves_addWorld sound' (fun k hk => ?_) trivial).imp fun _ result =>
    result.imp fun found => ⟨_, found⟩
  rcases mem_applyTo.mp hk with ⟨old, -⟩ | new
  · exact (closed' (closed hc)).contains_part found (Std.ExtTreeSet.mem_toList.mpr old)
  · exact keeps.store.contains
      (known k (List.mem_append_left _ (Std.ExtTreeSet.mem_toList.mpr new)))

/-! ### Printing -/

theorem exists_mapM_eq_ok {ε : Type} {f : α → Except ε β} {l : List α}
    (h : ∀ a ∈ l, ∃ b, f a = .ok b) : ∃ bs, l.mapM f = .ok bs := by
  induction l with
  | nil => exact ⟨[], rfl⟩
  | cons a l ih =>
      obtain ⟨⟨b, hb⟩, rest⟩ := List.forall_mem_cons.mp h
      obtain ⟨bs, hbs⟩ := ih rest
      exact ⟨b :: bs, by rw [List.mapM_cons, hb, hbs]; rfl⟩

theorem word_of_word? {v : SymbolId} {word : String} (h : s.symbols.word? v = some word) :
    s.word v = .ok word := by
  simp [Session.word, h]

theorem HasWord.exists_word {v : SymbolId} (h : s.HasWord v) : ∃ word, s.word v = .ok word := by
  obtain ⟨word, found⟩ := h
  exact ⟨word, word_of_word? found⟩

/-- The expression itself, its parts, their parts, and so on. -/
def Below (s : Session) : Key → Key → Prop :=
  Relation.ReflTransGen fun k a => ∃ n, s.store.find? k = some n ∧ a ∈ n.parts

/-- All symbols of an expression have words. -/
def Worded (s : Session) (k : Key) : Prop :=
  ∀ {a n}, s.Below k a → s.store.find? a = some n → ∀ c ∈ n.symbols, s.HasWord c

theorem Worded.part {node : Node} (h : s.Worded k) (found : s.store.find? k = some node) {a : Key}
    (ha : a ∈ node.parts) : s.Worded a :=
  fun below => h (below.head ⟨node, found, ha⟩)

theorem exists_renderWithin (rooted : s.store.Rooted n k) (worded : s.Worded k) :
    ∃ text, s.renderWithin n k = .ok text := by
  -- the depth that is left is the length of the chain that is left
  induction rooted with
  | @node n k node found parts ih =>
      have words := worded .refl found
      have ih : ∀ a ∈ node.parts, ∃ text, s.renderWithin n a = .ok text :=
        fun a ha => ih a ha (worded.part found ha)
      have compound (hn : node.IsCompound) :
          ∃ texts, node.args.mapM (s.renderWithin n) = .ok texts := by
        rw [hn.parts] at ih
        exact exists_mapM_eq_ok ih
      unfold renderWithin
      rw [NodeStore.node_of_find? found]
      cases node with
      | constant c => exact (words c List.mem_cons_self).exists_word
      | «variable» v g =>
          obtain ⟨name, hname⟩ := (words v List.mem_cons_self).exists_word
          obtain ⟨group, hgroup⟩ :=
            (words g (List.mem_cons_of_mem _ List.mem_cons_self)).exists_word
          simp only [bind, Except.bind, hname, hgroup]
          split <;> exact ⟨_, rfl⟩
      | world atoms =>
          have members : ∀ a ∈ atoms.toList, ∃ text, s.renderWithin n a = .ok text := ih
          obtain ⟨texts, htexts⟩ := exists_mapM_eq_ok members
          exact ⟨_, by simp only [bind, Except.bind, htexts]; rfl⟩
      | _ =>
          obtain ⟨texts, htexts⟩ := compound rfl
          exact ⟨_, by simp only [bind, Except.bind, htexts]; rfl⟩

theorem exists_render_of_worded (grounded : s.store.Grounded) (known : s.store.contains k)
    (worded : s.Worded k) : ∃ text, s.render k = .ok text :=
  exists_renderWithin ((grounded known).mono id (Nat.le_succ _)) worded

/-- **Every expression** of a closed session can be printed. -/
theorem Closed.exists_render (hc : s.Closed) (known : s.store.contains k) :
    ∃ text, s.render k = .ok text :=
  exists_render_of_worded hc.grounded known fun _ => hc.worded

end Session

end ClassicalPlanner
