import ClassicalPlanner.Proofs.Formula.Spelling
import ClassicalPlanner.Proofs.Session.Replay

/-!
# What sessions keep

`Keeps s s'` says that the session `s'` has the expressions and the words of `s`, under the same
keys and numbers.  Groups may differ, since they can be replaced.

A session is `Closed` if nothing that it speaks of is missing: the symbols of nodes and the members
of groups have words, and each chain of parts, from a node to its arguments and from a world to its
atoms, stays among what is registered and comes to an end.

`Serves x s P` says that the operation `x`, run in `s`, leaves a session that keeps all of `s` and
is closed if `s` was, and that `P` holds of it and of the result.  There is one rule for each way in
which operations are put together, and one for each registration.
-/

namespace ClassicalPlanner

namespace Node

/-- The symbols of a node. -/
def symbols : Node → List SymbolId
  | .constant c => [c]
  | .variable v g => [v, g]
  | _ => []

/-- What a node is made of: its arguments, or the atoms of a world. -/
def parts : Node → List Key
  | .world atoms => atoms.toList
  | n => n.args

theorem IsCompound.parts {n : Node} (h : n.IsCompound) : n.parts = n.args := by
  cases n with
  | world atoms => exact absurd h (NodeStore.not_isCompound_world atoms)
  | _ => rfl

theorem IsCompound.symbols {n : Node} (h : n.IsCompound) : n.symbols = [] := by
  cases n with
  | constant c => exact absurd h (NodeStore.not_isCompound_constant c)
  | «variable» v g => exact absurd h (NodeStore.not_isCompound_variable v g)
  | _ => rfl

end Node

namespace NodeStore

variable {s s' s₁ : NodeStore} {k : Key} {n : Node} {d d' : Nat}

/-! ### Chains of parts -/

/-- Each chain of parts below a key stays in the store, and has at most `d` members. -/
inductive Rooted (s : NodeStore) : Nat → Key → Prop where
  | node {d : Nat} {k : Key} {n : Node} (found : s.find? k = some n)
      (parts : ∀ a ∈ n.parts, Rooted s d a) : Rooted s (d + 1) k

theorem Rooted.mono (h : s.Rooted d k) (nodes : ∀ {k n}, s.find? k = some n → s'.find? k = some n)
    (le : d ≤ d') : s'.Rooted d' k := by
  induction h generalizing d' with
  | node found _ ih =>
      obtain ⟨d', rfl⟩ := Nat.exists_eq_add_of_lt (Nat.lt_of_lt_of_le (Nat.succ_pos _) le)
      rw [Nat.zero_add] at le ⊢
      exact .node (nodes found) fun a ha => ih a ha (Nat.le_of_succ_le_succ le)

/-- All chains in the store are at most as long as there are nodes. -/
def Grounded (s : NodeStore) : Prop := ∀ {k}, s.contains k → s.Rooted s.size k

/-- The store `s'` has the node under the key, if there was none yet, and may have numbered one list
more than `s`. -/
def Adds (s : NodeStore) (k : Key) (n : Node) (s' : NodeStore) : Prop :=
  ∃ s₀ : NodeStore, s₀.find? = s.find? ∧ s₀.size = s.size ∧ s' = s₀.insertIfNew k n

theorem Adds.find?_eq (h : s.Adds k n s') (k' : Key) :
    s'.find? k' = if k = k' ∧ s.find? k = none then some n else s.find? k' := by
  obtain ⟨s₀, same, -, rfl⟩ := h
  rw [find?_insertIfNew, same]

theorem Adds.find? (h : s.Adds k n s') {k' : Key} {m : Node} (found : s'.find? k' = some m) :
    m = n ∨ s.find? k' = some m := by
  rw [h.find?_eq] at found
  split at found
  · exact .inl (Option.some.inj found).symm
  · exact .inr found

theorem Adds.known_iff (h : s.Adds k n s') {a : Key} :
    s'.contains a ↔ s.contains a ∨ a = k := by
  simp only [contains_iff, h.find?_eq]
  split
  · rename_i new
    simp [new.1.symm]
  · rename_i old
    refine ⟨.inl, ?_⟩
    rintro (known | rfl)
    · exact known
    · exact Option.ne_none_iff_exists'.mp fun none => old ⟨rfl, none⟩

theorem Adds.grounded (h : s.Adds k n s') (hs : s.Grounded) (parts : ∀ a ∈ n.parts, s.contains a) :
    s'.Grounded := by
  obtain ⟨s₀, same, size, rfl⟩ := h
  have grow := s₀.le_insertIfNew k n
  have old {k' : Key} {d : Nat} (hk : s.contains k') (le : s.size ≤ d) :
      (s₀.insertIfNew k n).Rooted d k' :=
    (hs hk).mono (fun found => grow.nodes (by rw [same]; exact found)) le
  intro k' hk
  obtain ⟨m, found⟩ := contains_iff.mp hk
  have found' := found
  rw [find?_insertIfNew, same] at found'
  split at found'
  -- the node is new, so there is room for one more member in front of the chains of its parts
  · rename_i new
    cases found'
    rw [size_insertIfNew, same, if_pos new.2, size]
    exact .node found fun a ha => old (parts a ha) (Nat.le_refl _)
  · exact old (contains_iff.mpr ⟨m, found'⟩) (size ▸ grow.size)

theorem adds_addConstant (s : NodeStore) (c : SymbolId) :
    s.Adds (.ofKind .constant c.index) (.constant c) (s.addConstant c).2 := ⟨s, rfl, rfl, rfl⟩

theorem adds_addVariable {v g : SymbolId} (h : s.addVariable v g = .ok (k, s₁)) :
    s.Adds k (.variable v g) s₁ := by
  rcases addVariable_eq_ok h with ⟨-, -, rfl⟩ | ⟨-, i, s', hi, -, rfl⟩
  · exact ⟨s, rfl, rfl, rfl⟩
  · obtain ⟨find, size⟩ := find?_number hi
    exact ⟨s', find, size, rfl⟩

theorem adds_addCompound {kind : Kind} {args : List Key}
    (h : s.addCompound kind args = .ok (k, s₁)) :
    ∃ n, Node.ofKind kind args = .ok n ∧ (∀ a ∈ n.args, s.contains a) ∧ s.Adds k n s₁ := by
  obtain ⟨n, i, s', hn, hc, hi, -, rfl⟩ := addCompound_eq_ok h
  obtain ⟨find, size⟩ := find?_number hi
  exact ⟨n, hn, (check_eq_ok_iff.mp hc).1, s', find, size, rfl⟩

theorem adds_addWorld {atoms : AtomSet} {w : World} (h : s.addWorld atoms = .ok (w, s₁)) :
    s.Adds w.key (.world atoms) s₁ := by
  obtain ⟨i, s', hi, -, rfl⟩ := addWorld_eq_ok h
  obtain ⟨find, size⟩ := find?_number hi
  exact ⟨s', find, size, rfl⟩

end NodeStore

namespace Session

variable {s s' : Session} {α β : Type} {k : Key} {c : SymbolId}

/-! ### Sound, closed and kept -/

/-- The expressions of the session are canonical, and its words sound. -/
structure Sound (s : Session) : Prop where
  canonical : s.Canonical
  words : s.symbols.Sound

/-- The session `s'` has the expressions and the words of `s`. -/
structure Keeps (s s' : Session) : Prop where
  store : s.store ≤ s'.store
  words : s.symbols ≤ s'.symbols

theorem Keeps.refl (s : Session) : Keeps s s := ⟨le_refl _, le_refl _⟩

theorem Keeps.trans {s₂ : Session} (h : Keeps s s') (h' : Keeps s' s₂) : Keeps s s₂ :=
  ⟨h.store.trans h'.store, le_trans h.words h'.words⟩

/-- The symbol has a word. -/
def HasWord (s : Session) (c : SymbolId) : Prop := ∃ word, s.symbols.word? c = some word

theorem HasWord.mono (h : s.HasWord c) (keeps : Keeps s s') : s'.HasWord c := by
  obtain ⟨word, found⟩ := h
  exact ⟨word, keeps.words.words found⟩

/-- Nothing is missing that the session speaks of. -/
structure Closed (s : Session) : Prop where
  worded : ∀ {k n}, s.store.find? k = some n → ∀ c ∈ n.symbols, s.HasWord c
  grounded : s.store.Grounded
  members : ∀ {group c}, c ∈ s.members group → s.HasWord c

theorem sound_empty : (∅ : Session).Sound := ⟨canonical_empty, SymbolTable.sound_empty⟩

theorem closed_empty : (∅ : Session).Closed := by
  have none (k : Key) : (∅ : Session).store.find? k = Option.none :=
    Std.ExtTreeMap.getElem?_empty
  refine ⟨fun found => ?_, fun known => ?_, fun mem => ?_⟩
  · rw [none] at found
    cases found
  · obtain ⟨n, found⟩ := NodeStore.contains_iff.mp known
    rw [none] at found
    cases found
  · exact absurd mem List.not_mem_nil

/-- A node over what is there leaves a session closed. -/
theorem Closed.adds {n : Node} {store : NodeStore} (h : s.Closed) (added : s.store.Adds k n store)
    (parts : ∀ a ∈ n.parts, s.store.contains a) (words : ∀ c ∈ n.symbols, s.HasWord c) :
    { s with store }.Closed where
  worded found := by
    rcases added.find? found with rfl | old
    · exact words
    · exact h.worded old
  grounded := added.grounded h.grounded parts
  members := h.members

/-! ### Serving -/

/-- Run in `s`, the operation leaves a sound session that keeps all of `s` and is closed if `s` was,
and `P` holds of it and of the result. -/
structure Serves (x : Session → β × Session) (s : Session) (P : Session → β → Prop) : Prop where
  sound : (x s).2.Sound
  keeps : Keeps s (x s).2
  closed : s.Closed → (x s).2.Closed
  result : P (x s).2 (x s).1

/-- A value is as `good` says, and an error as `bad` says. -/
def Gives (good : Session → α → Prop) (bad : FormulaError → Prop) (s : Session) :
    Except FormulaError α → Prop
  | .ok a => good s a
  | .error e => bad e

theorem Gives.imp {good good' : Session → α → Prop} {bad : FormulaError → Prop}
    {r : Except FormulaError α} (h : Gives good bad s r) (hgood : ∀ {a}, good s a → good' s a) :
    Gives good' bad s r := by
  cases r with
  | ok a => exact hgood h
  | error e => exact h

theorem Gives.imp_error {good : Session → α → Prop} {bad bad' : FormulaError → Prop}
    {r : Except FormulaError α} (h : Gives good bad s r) (hbad : ∀ {e}, bad e → bad' e) :
    Gives good bad' s r := by
  cases r with
  | ok a => exact h
  | error e => exact hbad h

namespace Serves

variable {P Q : Session → β → Prop} {good : Session → α → Prop} {good' : Session → β → Prop}
variable {bad : FormulaError → Prop}

theorem imp {x : Session → β × Session} (h : Serves x s P)
    (hPQ : ∀ {s' b}, Keeps s s' → P s' b → Q s' b) : Serves x s Q :=
  ⟨h.sound, h.keeps, h.closed, hPQ h.keeps h.result⟩

theorem reading {f : Session → β} (hs : s.Sound) (h : P s (f s)) : Serves (fun s => (f s, s)) s P :=
  ⟨hs, .refl s, id, h⟩

theorem pure {a : α} (hs : s.Sound) (h : good s a) :
    Serves (pure a : SessionM α) s (Gives good bad) := reading (f := fun _ => Except.ok a) hs h

theorem throw {e : FormulaError} (hs : s.Sound) (h : bad e) :
    Serves (throw e : SessionM α) s (Gives good bad) :=
  reading (f := fun _ => Except.error e) hs h

theorem bind {x : SessionM α} {f : α → SessionM β} (h : Serves x s (Gives good bad))
    (hf : ∀ {a s'}, Keeps s s' → s'.Sound → (s.Closed → s'.Closed) → good s' a →
      Serves (f a) s' (Gives good' bad)) : Serves (x >>= f) s (Gives good' bad) := by
  obtain ⟨sound, keeps, closed, result⟩ := h
  rcases hx : x s with ⟨e | a, s₁⟩ <;> rw [hx] at sound keeps closed result
  -- an operation that fails half-way leaves what its first half has left
  · have run : (x >>= f) s = (.error e, s₁) := run_bind_eq_error.mpr (.inl hx)
    exact ⟨by rwa [run], by rwa [run], by rwa [run], by rw [run]; exact result⟩
  · have rest := hf keeps sound closed result
    have run : (x >>= f) s = f a s₁ := by rw [run_bind, hx]
    exact ⟨by rw [run]; exact rest.sound, by rw [run]; exact keeps.trans rest.keeps,
      fun h => by rw [run]; exact rest.closed (closed h), by rw [run]; exact rest.result⟩

theorem bindState {x : StateM Session α} {f : α → StateM Session β} (h : Serves x s good)
    (hf : ∀ {a s'}, Keeps s s' → s'.Sound → (s.Closed → s'.Closed) → good s' a →
      Serves (f a) s' P) : Serves (x >>= f : StateM Session β) s P :=
  have rest := hf h.keeps h.sound h.closed h.result
  ⟨rest.sound, h.keeps.trans rest.keeps, fun hc => rest.closed (h.closed hc), rest.result⟩

theorem lift {x : StateM Session α} (h : Serves x s good) :
    Serves (liftM x : SessionM α) s (Gives good bad) := ⟨h.sound, h.keeps, h.closed, h.result⟩

theorem mapM {f : α → SessionM β} {l : List α} (hs : s.Sound)
    (mono : ∀ {b s s'}, Keeps s s' → good' s b → good' s' b)
    (hf : ∀ {a s'}, a ∈ l → Keeps s s' → s'.Sound → (s.Closed → s'.Closed) →
      Serves (f a) s' (Gives good' bad)) :
    Serves (l.mapM f) s (Gives (fun s bs => ∀ b ∈ bs, good' s b) bad) := by
  induction l generalizing s with
  | nil => exact pure hs fun b hb => absurd hb List.not_mem_nil
  | cons a l ih =>
      rw [List.mapM_cons]
      refine bind (hf List.mem_cons_self (.refl s) hs id) fun keeps sound closed hb => ?_
      refine bind (ih sound fun ha keeps' sound' closed' => hf (List.mem_cons_of_mem _ ha)
        (keeps.trans keeps') sound' (closed' ∘ closed)) fun keeps' sound' _ hbs => ?_
      exact pure sound' (List.forall_mem_cons.mpr ⟨mono keeps' hb, hbs⟩)

theorem foldlM {f : β → α → SessionM β} {l : List α} {b : β} (hs : s.Sound) (hb : good' s b)
    (hf : ∀ {b a s'}, a ∈ l → Keeps s s' → s'.Sound → (s.Closed → s'.Closed) → good' s' b →
      Serves (f b a) s' (Gives good' bad)) : Serves (l.foldlM f b) s (Gives good' bad) := by
  induction l generalizing s b with
  | nil => exact pure hs hb
  | cons a l ih =>
      refine bind (hf List.mem_cons_self (.refl s) hs id hb) fun keeps sound closed hb => ?_
      exact ih sound hb fun mem keeps' sound' closed' => hf (List.mem_cons_of_mem _ mem)
        (keeps.trans keeps') sound' (closed' ∘ closed)

theorem allM {f : α → SessionM Bool} {l : List α} (hs : s.Sound)
    (hf : ∀ {a s'}, Keeps s s' → s'.Sound → (s.Closed → s'.Closed) →
      Serves (f a) s' (Gives (fun _ _ => True) bad)) :
    Serves (l.allM f) s (Gives (fun _ _ => True) bad) := by
  induction l generalizing s with
  | nil => exact pure hs trivial
  | cons a l ih =>
      refine bind (hf (.refl s) hs id) fun {b _} keeps sound closed _ => ?_
      cases b with
      | true =>
          refine ih sound fun keeps' sound' closed' => ?_
          exact hf (keeps.trans keeps') sound' (closed' ∘ closed)
      | false => exact pure sound trivial

theorem anyM {f : α → SessionM Bool} {l : List α} (hs : s.Sound)
    (hf : ∀ {a s'}, Keeps s s' → s'.Sound → (s.Closed → s'.Closed) →
      Serves (f a) s' (Gives (fun _ _ => True) bad)) :
    Serves (l.anyM f) s (Gives (fun _ _ => True) bad) := by
  induction l generalizing s with
  | nil => exact pure hs trivial
  | cons a l ih =>
      refine bind (hf (.refl s) hs id) fun {b _} keeps sound closed _ => ?_
      cases b with
      | true => exact pure sound trivial
      | false =>
          refine ih sound fun keeps' sound' closed' => ?_
          exact hf (keeps.trans keeps') sound' (closed' ∘ closed)

end Serves

/-! ### Registrations -/

variable {good : Session → α → Prop} {bad : FormulaError → Prop}

/-- The number of a word stands for a word, which is the right one if there are enough numbers. -/
structure Named (text : String) (s : Session) (c : SymbolId) : Prop where
  hasWord : s.HasWord c
  word : s.symbols.Enough → s.symbols.word? c = some text

theorem Named.mono {text : String} (h : Named text s c) (keeps : Keeps s s') : Named text s' c :=
  ⟨h.hasWord.mono keeps, fun enough => keeps.words.words (h.word (enough.of_le keeps.words))⟩

theorem serves_intern (hs : s.Sound) (text : String) : Serves (intern text) s (Named text) where
  sound := ⟨hs.canonical, hs.words.intern text⟩
  keeps := ⟨le_refl _, s.symbols.le_intern text⟩
  closed h :=
    have keeps : Keeps s (intern text s).2 := ⟨le_refl _, s.symbols.le_intern text⟩
    ⟨fun found c hc => (h.worded found c hc).mono keeps, h.grounded,
      fun mem => (h.members mem).mono keeps⟩
  result := ⟨hs.words.exists_word text, hs.words.word?_intern text⟩

/-- A word that has a number keeps it. -/
theorem run_intern {word : String} {c : SymbolId} (hs : s.Sound) (enough : s.symbols.Enough)
    (h : s.symbols.word? c = some word) : intern word s = (c, s) := by
  simp only [intern, SymbolTable.intern_of_find? (hs.words.found enough h)]

theorem serves_register {f : NodeStore → Except FormulaError (α × NodeStore)} (hs : s.Sound)
    (ok : ∀ {a store}, f s.store = .ok (a, store) → (store.Canonical ∧ s.store ≤ store ∧
      ∃ k n, s.store.Adds k n store ∧ (∀ a ∈ n.parts, s.store.contains a) ∧
        ∀ c ∈ n.symbols, s.HasWord c) ∧ good { s with store } a)
    (error : ∀ {e}, f s.store = .error e → bad e) : Serves (register f) s (Gives good bad) := by
  cases h : f s.store with
  -- where the store refuses, it does not change
  | error e =>
      have run : register f s = (.error e, s) := by unfold register; rw [h]
      exact ⟨by rwa [run], by rw [run]; exact .refl s, by rw [run]; exact id,
        by rw [run]; exact error h⟩
  | ok placed =>
      obtain ⟨a, store⟩ := placed
      have run : register f s = (.ok a, { s with store }) := by unfold register; rw [h]
      obtain ⟨⟨fits, grow, k, n, added, parts, words⟩, result⟩ := ok h
      exact ⟨by rw [run]; exact ⟨fits, hs.words⟩, by rw [run]; exact ⟨grow, le_refl _⟩,
        by rw [run]; exact fun hc => hc.adds added parts words, by rw [run]; exact result⟩

theorem serves_addConstantOf (hs : s.Sound) (hc : s.HasWord c) :
    Serves (addConstantOf c) s fun s k => s.store.find? k = some (.constant c) := by
  obtain ⟨fits, grow, found⟩ := NodeStore.Canonical.addConstant hs.canonical c
  refine ⟨⟨fits, hs.words⟩, ⟨grow, le_refl _⟩, fun h => ?_, found⟩
  exact h.adds (s.store.adds_addConstant c) (fun a ha => absurd ha List.not_mem_nil)
    (List.forall_mem_singleton.mpr hc)

theorem serves_addVariableOf {v g : SymbolId} (hs : s.Sound) (hv : s.HasWord v) (hg : s.HasWord g)
    (none : bad .outOfNumbers) : Serves (register (·.addVariable v g)) s
      (Gives (fun s k => s.store.find? k = some (.variable v g)) bad) := by
  refine serves_register hs (fun h => ?_) fun h => NodeStore.addVariable_eq_error h ▸ none
  obtain ⟨fits, grow, found⟩ := NodeStore.Canonical.addVariable hs.canonical h
  refine ⟨⟨fits, grow, _, _, NodeStore.adds_addVariable h,
    fun a ha => absurd ha List.not_mem_nil, ?_⟩, found⟩
  exact List.forall_mem_cons.mpr ⟨hv, List.forall_mem_singleton.mpr hg⟩

theorem serves_addCompound {kind : Kind} {args : List Key} (hs : s.Sound)
    (error : ∀ {e}, s.store.addCompound kind args = .error e → bad e) :
    Serves (addCompound kind args) s (Gives (fun s k => ∃ n, Node.ofKind kind args = .ok n ∧
      s.store.find? k = some n) bad) := by
  refine serves_register hs (fun h => ?_) error
  obtain ⟨fits, grow, found⟩ := NodeStore.Canonical.addCompound hs.canonical h
  obtain ⟨n, hn, registered, added⟩ := NodeStore.adds_addCompound h
  have compound := Node.isCompound_of_ofKind hn
  refine ⟨⟨fits, grow, _, n, added, ?_, ?_⟩, found⟩
  · rwa [compound.parts]
  · rw [compound.symbols]
    exact fun c hc => absurd hc List.not_mem_nil

theorem serves_addWorld {atoms : AtomSet} (hs : s.Sound)
    (registered : ∀ k ∈ atoms, s.store.contains k) (none : bad .outOfNumbers) :
    Serves (addWorld atoms) s
      (Gives (fun s w => s.store.find? w.key = some (.world atoms)) bad) := by
  refine serves_register hs (fun h => ?_) fun h => NodeStore.addWorld_eq_error h ▸ none
  obtain ⟨fits, grow, found⟩ := NodeStore.Canonical.addWorld hs.canonical h
  refine ⟨⟨fits, grow, _, _, NodeStore.adds_addWorld h, fun a ha => ?_,
    fun c hc => absurd hc List.not_mem_nil⟩, found⟩
  exact registered a (Std.ExtTreeSet.mem_toList.mp ha)

end Session

end ClassicalPlanner
