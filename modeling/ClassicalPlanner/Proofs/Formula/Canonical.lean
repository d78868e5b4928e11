import ClassicalPlanner.Proofs.Formula.Denotation

/-!
# Canonical stores

A store is canonical if each node stands under the key that its structure calls for, arguments are
registered before what they are arguments of, and quantifiers bind variables.  The empty store is
canonical and every registration keeps a store so, whatever keys it is given.

In a canonical store each key denotes a tree no higher than the number of nodes
(`Canonical.denotes`), and no two keys denote one tree (`Denotes.injective`).
-/

namespace ClassicalPlanner

/-! ### Keys of nodes -/

theorem Kind.tag_injective {i j : Kind} (h : i.tag = j.tag) : i = j := by
  cases i <;> cases j <;> first | rfl | exact absurd h (by decide)

namespace Key

theorem ofKind_inj {i j : Kind} {m n : UInt32} (h : ofKind i m = ofKind j n) : i = j ∧ m = n := by
  obtain ⟨ht, hm⟩ := Key.mk.inj h
  exact ⟨Kind.tag_injective ht, hm⟩

theorem ofSymbol_inj {v w : SymbolId} (h : ofSymbol v = ofSymbol w) : v = w := by
  cases v; cases w
  exact congrArg SymbolId.mk (Key.mk.inj h).2

theorem ofSymbol_ne_ofKind {v : SymbolId} {i : Kind} {m : UInt32} : ofSymbol v ≠ ofKind i m := by
  intro h
  have := (Key.mk.inj h).1
  cases i <;> exact absurd this (by decide)

end Key

namespace Node

/-- The list of keys that numbers a node. -/
def signature : Node → List Key
  | .variable v g => [Key.ofSymbol v, Key.ofSymbol g]
  | .world atoms => atoms.toList
  | n => n.args

/-- Constants and ungrouped variables go by their symbol, all other nodes by a number. -/
def IsNumbered : Node → Prop
  | .constant _ => False
  | .variable _ g => g ≠ .none
  | _ => True

theorem IsCompound.isNumbered {n : Node} (h : n.IsCompound) : n.IsNumbered := by
  cases n with
  | constant c => exact absurd h (NodeStore.not_isCompound_constant c)
  | «variable» v g => exact absurd h (NodeStore.not_isCompound_variable v g)
  | _ => trivial

theorem IsCompound.signature {n : Node} (h : n.IsCompound) : n.signature = n.args := by
  cases n with
  | «variable» v g => exact absurd h (NodeStore.not_isCompound_variable v g)
  | world atoms => exact absurd h (NodeStore.not_isCompound_world atoms)
  | _ => rfl

theorem isCompound_of_ofKind {kind : Kind} {args : List Key} {n : Node}
    (h : ofKind kind args = .ok n) : n.IsCompound := by
  rw [IsCompound, kind_of_ofKind h]
  unfold ofKind at h
  split at h <;> first | rfl | cases h

/-- Which argument lists a kind takes depends on their length alone. -/
theorem ofKind_of_length {n : Node} {args : List Key} (hn : n.IsCompound)
    (h : args.length = n.args.length) : ∃ n', ofKind n.kind args = .ok n' := by
  cases n with
  | constant | «variable» | world => exact absurd hn Bool.false_ne_true
  | atom p ts =>
      obtain ⟨a, as, rfl⟩ := List.exists_cons_of_length_eq_add_one h
      exact ⟨_, rfl⟩
  | and parts | or parts => exact ⟨_, rfl⟩
  | not part =>
      obtain ⟨a, rfl⟩ := List.length_eq_one_iff.mp h
      exact ⟨_, rfl⟩
  | _ =>
      obtain ⟨a, b, rfl⟩ := List.length_eq_two.mp h
      exact ⟨_, rfl⟩

/-- A numbered node is determined by its kind and its list of keys. -/
theorem eq_of_signature {n n' : Node} (hn : n.IsNumbered) (hk : n.kind = n'.kind)
    (hs : n.signature = n'.signature) : n = n' := by
  by_cases hc : n.IsCompound
  · have hc' : n'.IsCompound := by rw [IsCompound, ← hk]; exact hc
    rw [hc.signature, hc'.signature] at hs
    exact Except.ok.inj ((ofKind_kind_args hc).symm.trans (hk ▸ hs ▸ ofKind_kind_args hc'))
  · cases n with
    | constant c => exact hn.elim
    | «variable» v g =>
        cases n' with
        | «variable» w h =>
            simp only [Node.signature, List.cons.injEq, and_true] at hs
            rw [Key.ofSymbol_inj hs.1, Key.ofSymbol_inj hs.2]
        | _ => simp [kind] at hk
    | world atoms =>
        cases n' with
        | world atoms' => rw [Std.ExtTreeSet.toList_inj.mp hs]
        | _ => simp [kind] at hk
    | _ => exact absurd rfl hc

end Node

namespace NodeStore

variable {s s' s₁ : NodeStore} {k : Key} {n : Node}

/-- `k` is the key that the structure of `n` calls for. -/
inductive Names (s : NodeStore) : Key → Node → Prop where
  | constant (c : SymbolId) : Names s (.ofKind .constant c.index) (.constant c)
  | var (v : SymbolId) : Names s (.ofSymbol v) (.variable v .none)
  | numbered {n : Node} {i : UInt32} (hn : n.IsNumbered) (hi : s.signatures[n.signature]? = some i) :
      Names s (.ofKind n.kind i) n

theorem Names.mono (h : Names s k n) (hs : s ≤ s') : Names s' k n := by
  cases h with
  | constant c => exact .constant c
  | var v => exact .var v
  | numbered hn hi => exact .numbered hn (hs.signatures hi)

theorem Names.key_eq {k' : Key} (h : Names s k n) (h' : Names s k' n) : k = k' := by
  cases h with
  | constant c => cases h' with | constant | numbered hn _ => first | rfl | exact hn.elim
  | var v => cases h' with | var | numbered hn _ => first | rfl | exact absurd rfl hn
  | numbered hn hi =>
      cases h' with
      | constant => exact hn.elim
      | var => exact absurd rfl hn
      | numbered _ hi' => rw [Option.some.inj (hi.symm.trans hi')]

/-- If `n` is a quantifier, it binds a variable. -/
def BindsVariable (s : NodeStore) (n : Node) : Prop :=
  n.kind.isQuantifier → ∃ b body v g, n.args = [b, body] ∧ s.find? b = some (.variable v g)

theorem BindsVariable.mono (h : s.BindsVariable n) (hs : s ≤ s') : s'.BindsVariable n := by
  intro hq
  obtain ⟨b, body, v, g, hargs, hfind⟩ := h hq
  exact ⟨b, body, v, g, hargs, hs.nodes hfind⟩

/-- A quantifier unfolds to the variable that it binds and to the tree of its body. -/
theorem BindsVariable.unfolds {ts : List Tree} (h : s.BindsVariable n)
    (hq : n.kind.isQuantifier) (hts : List.Forall₂ s.Denotes n.args ts) :
    ∃ b body v g t, n.args = [b, body] ∧ ts = [.var v g, t] ∧
      s.find? b = some (.variable v g) ∧ s.Denotes body t := by
  obtain ⟨b, body, v, g, hargs, hfind⟩ := h hq
  rw [hargs] at hts
  obtain _ | ⟨hb, _ | ⟨hbody, ⟨⟩⟩⟩ := hts
  obtain rfl := hb.eq_var hfind
  exact ⟨b, body, v, g, _, hargs, rfl, hfind, hbody⟩

/-- Each node stands under its own key, over registered arguments. -/
structure Canonical (s : NodeStore) : Prop where
  injective : ∀ {l l' : List Key} {i : UInt32},
    s.signatures[l]? = some i → s.signatures[l']? = some i → l = l'
  issued : ∀ {l : List Key} {i : UInt32}, s.signatures[l]? = some i → i ≤ s.issued
  names : ∀ {k n}, s.find? k = some n → s.Names k n
  binder : ∀ {k n}, s.find? k = some n → s.BindsVariable n
  denotes : ∀ {k n}, s.find? k = some n → ∃ t, s.Denotes k t ∧ t.height ≤ s.size

theorem canonical_empty : Canonical ∅ := by
  have none (k : Key) : find? ∅ k = Option.none := Std.ExtTreeMap.getElem?_empty
  have unsigned (l : List Key) : (∅ : NodeStore).signatures[l]? = Option.none :=
    Std.ExtTreeMap.getElem?_empty
  constructor
  · intro l l' i h; rw [unsigned] at h; cases h
  · intro l i h; rw [unsigned] at h; cases h
  · intro k n h; rw [none] at h; cases h
  · intro k n h; rw [none] at h; cases h
  · intro k n h; rw [none] at h; cases h

/-- A key names one node. -/
theorem Canonical.names_unique (hs : s.Canonical) {n' : Node} (h : s.Names k n)
    (h' : s.Names k n') : n = n' := by
  cases h with
  | constant c =>
      generalize hk : Key.ofKind .constant c.index = k at h'
      cases h' with
      | constant c' => rw [show c = c' from congrArg SymbolId.mk (Key.ofKind_inj hk).2]
      | var v => exact absurd hk.symm Key.ofSymbol_ne_ofKind
      | numbered hn hi =>
          have := (Key.ofKind_inj hk).1
          cases n' <;> first | exact hn.elim | exact absurd this (by simp [Node.kind])
  | var v =>
      generalize hk : Key.ofSymbol v = k at h'
      cases h' with
      | constant c' => exact absurd hk Key.ofSymbol_ne_ofKind
      | var w => rw [Key.ofSymbol_inj hk]
      | numbered => exact absurd hk Key.ofSymbol_ne_ofKind
  | @numbered n i hn hi =>
      generalize hk : Key.ofKind n.kind i = k at h'
      cases h' with
      | constant c' =>
          have := (Key.ofKind_inj hk).1
          cases n <;> first | exact hn.elim | exact absurd this (by simp [Node.kind])
      | var w => exact absurd hk.symm Key.ofSymbol_ne_ofKind
      | numbered hn' hi' =>
          obtain ⟨hkind, rfl⟩ := Key.ofKind_inj hk
          exact Node.eq_of_signature hn hkind (hs.injective hi hi')

/-- **Two keys of one tree are one key.** -/
theorem Canonical.denotes_injective (hs : s.Canonical) {t : Tree} {k' : Key} (h : s.Denotes k t)
    (h' : s.Denotes k' t) : k = k' := by
  have same : ∀ {k k' n}, s.find? k = some n → s.find? k' = some n → k = k' :=
    fun hk hk' => (hs.names hk).key_eq (hs.names hk')
  induction t generalizing k k' with
  | constant c =>
      cases h with | constant h => cases h' with | constant h' => exact same h h'
  | var v g => cases h with | var h => cases h' with | var h' => exact same h h'
  | world w => cases h; cases h'; rfl
  | compound kind ts ih =>
      cases h with
      | @compound _ n _ h hn hts =>
          generalize hkind : n.kind = kind at h'
          cases h' with
          | @compound _ n' _ h' hn' hts' =>
              have hargs := forall₂_left_eq hts hts' fun _ _ u hu _ hk hk' => ih u hu hk hk'
              obtain rfl : n = n' := Node.eq_of_signature hn.isNumbered hkind
                (by rw [hn.signature, hn'.signature, hargs])
              exact same h h'

/-! ### Registration -/

theorem find?_insertIfNew (s : NodeStore) (k : Key) (n : Node) (k' : Key) :
    (s.insertIfNew k n).find? k' =
      if k = k' ∧ s.find? k = none then some n else s.find? k' := by
  unfold insertIfNew
  by_cases hk : s.contains k
  · obtain ⟨m, hm⟩ := contains_iff.mp hk
    simp [hk, hm]
  · have hnone := find?_eq_none hk
    rw [if_neg hk]
    simp only [hnone, and_true]
    simp only [find?, Std.ExtTreeMap.getElem?_insert, Std.LawfulEqOrd.compare_eq_iff_eq]

theorem size_insertIfNew (s : NodeStore) (k : Key) (n : Node) :
    (s.insertIfNew k n).size = if s.find? k = none then s.size + 1 else s.size := by
  unfold insertIfNew
  by_cases hk : s.contains k
  · obtain ⟨m, hm⟩ := contains_iff.mp hk
    simp [hk, hm]
  · have hnone := find?_eq_none hk
    have hk' : s.nodes.contains k = false := Bool.eq_false_iff.mpr hk
    simp [hk, hnone, size, Std.ExtTreeMap.size_insert, hk']

theorem le_insertIfNew (s : NodeStore) (k : Key) (n : Node) : s ≤ s.insertIfNew k n := by
  refine ⟨fun {k' m} h => ?_, fun {l i} h => ?_, ?_⟩
  · rw [find?_insertIfNew, if_neg]
    · exact h
    · rintro ⟨rfl, hnone⟩
      rw [h] at hnone
      cases hnone
  · unfold insertIfNew
    split <;> exact h
  · rw [size_insertIfNew]
    split <;> simp

theorem Canonical.denotes_all (hs : s.Canonical) {ks : List Key} (hk : ∀ k ∈ ks, s.contains k) :
    ∃ ts, List.Forall₂ s.Denotes ks ts ∧ ∀ t ∈ ts, t.height ≤ s.size := by
  induction ks with
  | nil => exact ⟨[], .nil, by simp⟩
  | cons k ks ih =>
      obtain ⟨n, hn⟩ := contains_iff.mp (hk k List.mem_cons_self)
      obtain ⟨t, ht, hheight⟩ := hs.denotes hn
      obtain ⟨ts, hts, hheights⟩ := ih fun k' h => hk k' (List.mem_cons_of_mem _ h)
      exact ⟨t :: ts, .cons ht hts, List.forall_mem_cons.mpr ⟨hheight, hheights⟩⟩

/-- A registered key denotes a tree. -/
theorem Canonical.exists_denotes (hs : s.Canonical) (hk : s.contains k) :
    ∃ t, s.Denotes k t ∧ t.height ≤ s.size := by
  obtain ⟨n, hn⟩ := contains_iff.mp hk
  exact hs.denotes hn

theorem Denotes.contains {t : Tree} (h : s.Denotes k t) : s.contains k := by
  obtain ⟨n, hn, -⟩ := h.find?
  exact contains_iff.mpr ⟨n, hn⟩

/-- The tree of a key is no higher than the number of nodes. -/
theorem Canonical.height_le (hs : s.Canonical) {t : Tree} (h : s.Denotes k t) :
    t.height ≤ s.size := by
  obtain ⟨t', ht', hle⟩ := hs.exists_denotes h.contains
  rwa [h.unique ht']

/-- **A node under its key.**  It may be new or not. -/
theorem Canonical.insertIfNew (hs : s.Canonical) (hn : s.Names k n)
    (hargs : ∀ a ∈ n.args, s.contains a) (hb : s.BindsVariable n) :
    (s.insertIfNew k n).Canonical ∧ (s.insertIfNew k n).find? k = some n := by
  have grow := s.le_insertIfNew k n
  have signatures : (s.insertIfNew k n).signatures = s.signatures := by
    unfold NodeStore.insertIfNew; split <;> rfl
  have issued : (s.insertIfNew k n).issued = s.issued := by
    unfold NodeStore.insertIfNew; split <;> rfl
  have found : (s.insertIfNew k n).find? k = some n := by
    rw [find?_insertIfNew]
    cases hk : s.find? k with
    | none => simp
    | some m => simp [hs.names_unique (hs.names hk) hn]
  have old : ∀ {k' m}, (s.insertIfNew k n).find? k' = some m →
      (k' = k ∧ m = n ∧ s.find? k = none) ∨ s.find? k' = some m := by
    intro k' m h
    rw [find?_insertIfNew] at h
    split at h
    · rename_i hk
      exact .inl ⟨hk.1.symm, (Option.some.inj h).symm, hk.2⟩
    · exact .inr h
  refine ⟨⟨?_, ?_, ?_, ?_, ?_⟩, found⟩
  · rw [signatures]; exact hs.injective
  · rw [signatures, issued]; exact hs.issued
  · intro k' m h
    rcases old h with ⟨rfl, rfl, -⟩ | h
    · exact hn.mono grow
    · exact (hs.names h).mono grow
  · intro k' m h
    rcases old h with ⟨rfl, rfl, -⟩ | h
    · exact hb.mono grow
    · exact (hs.binder h).mono grow
  · intro k' m h
    rcases old h with ⟨rfl, rfl, hnone⟩ | h
    · have larger : (s.insertIfNew k' m).size = s.size + 1 := by
        rw [size_insertIfNew, if_pos hnone]
      rw [larger]
      cases m with
      | constant c => exact ⟨.constant c, .constant found, by simp [Tree.height]⟩
      | «variable» v g => exact ⟨.var v g, .var found, by simp [Tree.height]⟩
      | world atoms => exact ⟨.world k', .world found, by simp [Tree.height]⟩
      | _ =>
          obtain ⟨ts, hts, hheights⟩ := hs.denotes_all hargs
          exact ⟨_, .compound found rfl (denotes_all_mono hts grow),
            Tree.height_compound_le.mpr hheights⟩
    · obtain ⟨t, ht, hle⟩ := hs.denotes h
      exact ⟨t, ht.mono grow, Nat.le_trans hle grow.size⟩

theorem number_eq_error {l : List Key} {e : FormulaError} (h : s.number l = .error e) :
    e = .outOfNumbers := by
  unfold number at h
  split at h
  · cases h
  · simp only at h
    split at h <;> cases h
    rfl

theorem find?_number {l : List Key} {i : UInt32} (h : s.number l = .ok (i, s₁)) :
    s₁.find? = s.find? ∧ s₁.size = s.size := by
  unfold number at h
  split at h
  · cases h; exact ⟨rfl, rfl⟩
  · simp only at h
    split at h <;> cases h
    exact ⟨rfl, rfl⟩

/-- A number that has not wrapped round is larger than the one before. -/
theorem lt_add_one_of_ne_zero {i : UInt32} (h : i + 1 ≠ 0) : i < i + 1 := by
  rw [UInt32.lt_iff_toNat_lt, UInt32.toNat_add]
  have : (i + 1).toNat ≠ 0 := fun h' => h (UInt32.toNat_inj.mp h')
  rw [UInt32.toNat_add] at this
  have := i.toNat_lt
  simp only [UInt32.reduceToNat] at *
  omega

/-- **A list of arguments gets a number of its own.** -/
theorem Canonical.number (hs : s.Canonical) {l : List Key} {i : UInt32}
    (h : s.number l = .ok (i, s₁)) : s₁.Canonical ∧ s ≤ s₁ ∧ s₁.signatures[l]? = some i := by
  unfold NodeStore.number at h
  split at h
  · rename_i found
    cases h
    exact ⟨hs, le_refl s, found⟩
  · rename_i new
    simp only at h
    split at h <;> cases h
    rename_i hne
    have lookup (l' : List Key) : (s.signatures.insert l (s.issued + 1))[l']? =
        if l = l' then some (s.issued + 1) else s.signatures[l']? := by
      simp only [Std.ExtTreeMap.getElem?_insert, Std.LawfulEqOrd.compare_eq_iff_eq]
    have fresh : ∀ {l' : List Key}, s.signatures[l']? ≠ some (s.issued + 1) := fun h' =>
      absurd (lt_add_one_of_ne_zero hne) (UInt32.not_lt.mpr (hs.issued h'))
    have grow : s ≤ { s with signatures := s.signatures.insert l (s.issued + 1),
                             issued := s.issued + 1 } := by
      refine ⟨id, fun {l' j} h' => ?_, Nat.le_refl _⟩
      rw [lookup, if_neg]
      · exact h'
      · rintro rfl
        rw [new] at h'
        cases h'
    refine ⟨⟨?_, ?_, fun h' => (hs.names h').mono grow, hs.binder, ?_⟩, grow, by simp⟩
    · intro l₁ l₂ j h₁ h₂
      rw [lookup] at h₁ h₂
      split at h₁ <;> split at h₂
      · simp_all
      · cases h₁; exact absurd h₂ fresh
      · cases h₂; exact absurd h₁ fresh
      · exact hs.injective h₁ h₂
    · intro l' j h'
      rw [lookup] at h'
      split at h'
      · cases h'; exact UInt32.le_refl _
      · exact UInt32.le_trans (hs.issued h') (UInt32.le_of_lt (lt_add_one_of_ne_zero hne))
    · intro k' m h'
      obtain ⟨t, ht, hle⟩ := hs.denotes h'
      exact ⟨t, ht.mono grow, hle⟩

/-! ### What is registered, and under which number -/

/-- A variable over a group has a number for its two words. -/
theorem addVariable_eq_ok {v g : SymbolId} (h : s.addVariable v g = .ok (k, s₁)) :
    (g = .none ∧ k = .ofSymbol v ∧ s₁ = s.insertIfNew k (.variable v g)) ∨
    (g ≠ .none ∧ ∃ i s', s.number [.ofSymbol v, .ofSymbol g] = .ok (i, s') ∧
      k = .ofKind .variable i ∧ s₁ = s'.insertIfNew k (.variable v g)) := by
  unfold addVariable at h
  split at h
  · cases h
    exact .inl ⟨‹_›, rfl, rfl⟩
  · cases hi : s.number [Key.ofSymbol v, Key.ofSymbol g] with
    | error e => rw [hi] at h; cases h
    | ok numbered =>
        rw [hi] at h
        cases h
        exact .inr ⟨‹_›, _, _, rfl, rfl, rfl⟩

/-- A world has a number for its atoms. -/
theorem addWorld_eq {atoms : AtomSet} : s.addWorld atoms = (s.number atoms.toList).map
    fun (i, s) => (⟨.ofKind .world i⟩, s.insertIfNew (.ofKind .world i) (.world atoms)) := by
  unfold addWorld
  cases s.number atoms.toList <;> rfl

theorem addWorld_eq_ok {atoms : AtomSet} {w : World} (h : s.addWorld atoms = .ok (w, s₁)) :
    ∃ i s', s.number atoms.toList = .ok (i, s') ∧ w.key = .ofKind .world i ∧
      s₁ = s'.insertIfNew w.key (.world atoms) := by
  rw [addWorld_eq] at h
  cases hi : s.number atoms.toList with
  | error e => rw [hi] at h; cases h
  | ok numbered =>
      rw [hi] at h
      cases h
      exact ⟨_, _, rfl, rfl, rfl⟩

/-- A compound that may be registered is, unless its arguments get no number. -/
theorem addCompound_eq {kind : Kind} {args : List Key} (h : Node.ofKind kind args = .ok n)
    (hc : s.check n = .ok ()) : s.addCompound kind args =
      (s.number args).map fun (i, s) => (.ofKind kind i, s.insertIfNew (.ofKind kind i) n) := by
  unfold addCompound
  rw [h]
  simp only [bind, Except.bind, hc]
  cases s.number args <;> rfl

theorem check_of_addCompound {kind : Kind} {args : List Key}
    (h : s.addCompound kind args = .ok (k, s₁)) :
    ∃ n, Node.ofKind kind args = .ok n ∧ s.check n = .ok () := by
  unfold addCompound at h
  cases hn : Node.ofKind kind args with
  | error e => rw [hn] at h; cases h
  | ok n =>
      rw [hn] at h
      cases hc : s.check n with
      | error e => simp only [bind, Except.bind, hc] at h; cases h
      | ok _ => exact ⟨n, rfl, hc⟩

theorem addCompound_eq_ok {kind : Kind} {args : List Key}
    (h : s.addCompound kind args = .ok (k, s₁)) :
    ∃ n i s', Node.ofKind kind args = .ok n ∧ s.check n = .ok () ∧ s.number args = .ok (i, s') ∧
      k = .ofKind kind i ∧ s₁ = s'.insertIfNew k n := by
  obtain ⟨n, hn, hc⟩ := check_of_addCompound h
  rw [addCompound_eq hn hc] at h
  cases hi : s.number args with
  | error e => rw [hi] at h; cases h
  | ok numbered =>
      rw [hi] at h
      cases h
      exact ⟨n, _, _, hn, hc, rfl, rfl, rfl⟩

/-! ### Registering operations -/

theorem Canonical.addConstant (hs : s.Canonical) (c : SymbolId) :
    (s.addConstant c).2.Canonical ∧ s ≤ (s.addConstant c).2 ∧
      (s.addConstant c).2.find? (s.addConstant c).1 = some (.constant c) := by
  have fits := hs.insertIfNew (.constant c) (by simp [Node.args])
    fun h => absurd h Bool.false_ne_true
  exact ⟨fits.1, s.le_insertIfNew _ _, fits.2⟩

theorem Canonical.addVariable (hs : s.Canonical) {v g : SymbolId}
    (h : s.addVariable v g = .ok (k, s₁)) :
    s₁.Canonical ∧ s ≤ s₁ ∧ s₁.find? k = some (.variable v g) := by
  rcases addVariable_eq_ok h with ⟨rfl, rfl, rfl⟩ | ⟨hg, i, s', hi, rfl, rfl⟩
  · have fits := hs.insertIfNew (.var v) (by simp [Node.args])
      fun h => absurd h Bool.false_ne_true
    exact ⟨fits.1, s.le_insertIfNew _ _, fits.2⟩
  · obtain ⟨fits, grow, found⟩ := hs.number hi
    have named : s'.Names (.ofKind .variable i) (.variable v g) :=
      .numbered (n := .variable v g) hg found
    have fits' := fits.insertIfNew named (by simp [Node.args])
      fun h => absurd h Bool.false_ne_true
    exact ⟨fits'.1, grow.trans (le_insertIfNew _ _ _), fits'.2⟩

theorem Canonical.addWorld (hs : s.Canonical) {atoms : AtomSet} {w : World}
    (h : s.addWorld atoms = .ok (w, s₁)) :
    s₁.Canonical ∧ s ≤ s₁ ∧ s₁.find? w.key = some (.world atoms) := by
  obtain ⟨i, s', hi, key, rfl⟩ := addWorld_eq_ok h
  obtain ⟨fits, grow, found⟩ := hs.number hi
  have named : s'.Names w.key (.world atoms) := by
    rw [key]
    exact .numbered (n := .world atoms) trivial found
  have fits' := fits.insertIfNew named (by simp [Node.args])
    fun h => absurd h Bool.false_ne_true
  exact ⟨fits'.1, grow.trans (le_insertIfNew _ _ _), fits'.2⟩

/-- Nothing forbids a node whose arguments are registered and whose binder is a variable. -/
theorem check_eq_ok_iff :
    s.check n = .ok () ↔ (∀ a ∈ n.args, s.contains a) ∧ s.BindsVariable n := by
  unfold check
  cases missing : n.args.find? (!s.contains ·) with
  | some a =>
      refine iff_of_false (by intro h; cases h) fun h => ?_
      have := h.1 a (List.mem_of_find?_eq_some missing)
      have := List.find?_some missing
      simp_all
  | none =>
      have registered : ∀ a ∈ n.args, s.contains a := by simpa using missing
      have found : ∀ {b body : Key}, n.args = [b, body] → ∃ m, s.find? b = some m := fun h =>
        contains_iff.mp (registered _ (h ▸ List.mem_cons_self))
      cases n with
      | existential b body | universal b body =>
          obtain ⟨m, hm⟩ := found rfl
          simp only [node_of_find? hm]
          cases m with
          | «variable» v g =>
              exact iff_of_true rfl ⟨registered, fun _ => ⟨b, body, v, g, rfl, hm⟩⟩
          | _ =>
              refine iff_of_false (by intro h; cases h) fun h => ?_
              obtain ⟨b', body', v, g, hargs, hfind⟩ := h.2 rfl
              cases hargs
              rw [hm] at hfind
              cases hfind
      | _ => exact iff_of_true rfl ⟨registered, fun h => absurd h Bool.false_ne_true⟩

theorem Canonical.addCompound (hs : s.Canonical) {kind : Kind} {args : List Key}
    (h : s.addCompound kind args = .ok (k, s₁)) :
    s₁.Canonical ∧ s ≤ s₁ ∧ ∃ n, Node.ofKind kind args = .ok n ∧ s₁.find? k = some n := by
  obtain ⟨n, i, s', hn, hc, hi, rfl, rfl⟩ := addCompound_eq_ok h
  obtain ⟨registered, binds⟩ := check_eq_ok_iff.mp hc
  obtain ⟨fits, grow, found⟩ := hs.number hi
  have compound := Node.isCompound_of_ofKind hn
  have named : s'.Names (.ofKind kind i) n := by
    rw [← Node.kind_of_ofKind hn]
    refine .numbered compound.isNumbered ?_
    rwa [compound.signature, Node.args_of_ofKind hn]
  have fits' := fits.insertIfNew named
    (fun a ha => grow.contains (registered a ha)) (binds.mono grow)
  exact ⟨fits'.1, grow.trans (le_insertIfNew _ _ _), n, hn, fits'.2⟩

theorem addCompound_eq_error {kind : Kind} {args : List Key} {e : FormulaError}
    (hn : Node.ofKind kind args = .ok n) (hc : s.check n = .ok ())
    (h : s.addCompound kind args = .error e) : e = .outOfNumbers := by
  rw [addCompound_eq hn hc] at h
  cases hi : s.number args with
  | error e' => rw [hi] at h; cases h; exact number_eq_error hi
  | ok numbered => rw [hi] at h; cases h

/-- A variable is refused only if its two words get no number. -/
theorem number_of_addVariable_error {v g : SymbolId} {e : FormulaError}
    (h : s.addVariable v g = .error e) : s.number [.ofSymbol v, .ofSymbol g] = .error e := by
  unfold addVariable at h
  split at h
  · cases h
  · cases hi : s.number [Key.ofSymbol v, Key.ofSymbol g] with
    | error e' => rw [hi] at h; cases h; rfl
    | ok numbered => rw [hi] at h; cases h

theorem addVariable_eq_error {v g : SymbolId} {e : FormulaError}
    (h : s.addVariable v g = .error e) : e = .outOfNumbers :=
  number_eq_error (number_of_addVariable_error h)

/-- A world is refused exactly if its atoms get no number. -/
theorem addWorld_eq_error_iff {atoms : AtomSet} {e : FormulaError} :
    s.addWorld atoms = .error e ↔ s.number atoms.toList = .error e := by
  rw [addWorld_eq]
  cases s.number atoms.toList <;> simp [Except.map]

theorem addWorld_eq_error {atoms : AtomSet} {e : FormulaError}
    (h : s.addWorld atoms = .error e) : e = .outOfNumbers :=
  number_eq_error (addWorld_eq_error_iff.mp h)

/-! ### Registering again -/

theorem insertIfNew_of_find? (h : s.find? k = some n) (m : Node) : s.insertIfNew k m = s := by
  unfold insertIfNew
  rw [if_pos (contains_iff.mpr ⟨n, h⟩)]

theorem number_of_signature {l : List Key} {i : UInt32} (h : s.signatures[l]? = some i) :
    s.number l = .ok (i, s) := by
  unfold number
  rw [h]

theorem Canonical.number_of_find? (hs : s.Canonical) (h : s.find? k = some n)
    (hn : n.IsNumbered) : ∃ i, k = .ofKind n.kind i ∧ s.number n.signature = .ok (i, s) := by
  cases hs.names h with
  | constant c => exact hn.elim
  | var v => exact absurd rfl hn
  | @numbered _ i _ hi => exact ⟨i, rfl, number_of_signature hi⟩

/-- **Registering a constant again** gives its key and leaves the store as it is. -/
theorem Canonical.addConstant_of_find? (hs : s.Canonical) {c : SymbolId}
    (h : s.find? k = some (.constant c)) : s.addConstant c = (k, s) := by
  obtain rfl := (hs.names h).key_eq (.constant c)
  exact congrArg _ (insertIfNew_of_find? h _)

/-- **Registering a variable again** gives its key and leaves the store as it is. -/
theorem Canonical.addVariable_of_find? (hs : s.Canonical) {v g : SymbolId}
    (h : s.find? k = some (.variable v g)) : s.addVariable v g = .ok (k, s) := by
  unfold NodeStore.addVariable
  split
  · rename_i hg
    subst hg
    obtain rfl := (hs.names h).key_eq (.var v)
    exact congrArg Except.ok (congrArg _ (insertIfNew_of_find? h _))
  · rename_i hg
    obtain ⟨i, rfl, hi⟩ := hs.number_of_find? h hg
    rw [show s.number [Key.ofSymbol v, Key.ofSymbol g] = .ok (i, s) from hi]
    exact congrArg Except.ok (congrArg _ (insertIfNew_of_find? h _))

/-- **Registering a compound again** gives its key and leaves the store as it is. -/
theorem Canonical.addCompound_of_find? (hs : s.Canonical) (h : s.find? k = some n)
    (hn : n.IsCompound) : s.addCompound n.kind n.args = .ok (k, s) := by
  have registered : ∀ a ∈ n.args, s.contains a := by
    intro a ha
    obtain ⟨t, ht, -⟩ := hs.denotes h
    obtain ⟨ts, -, hts⟩ := ht.eq_compound h hn
    obtain ⟨u, -, hu⟩ := forall₂_exists_right hts ha
    exact hu.contains
  obtain ⟨i, rfl, hi⟩ := hs.number_of_find? h hn.isNumbered
  rw [addCompound_eq (Node.ofKind_kind_args hn) (check_eq_ok_iff.mpr ⟨registered, hs.binder h⟩),
    ← hn.signature, hi]
  exact congrArg Except.ok (congrArg _ (insertIfNew_of_find? h _))

/-- **Registering a world again** gives its key and leaves the store as it is. -/
theorem Canonical.addWorld_of_find? (hs : s.Canonical) {w : World} {atoms : AtomSet}
    (h : s.find? w.key = some (.world atoms)) : s.addWorld atoms = .ok (w, s) := by
  obtain ⟨i, hk, hi⟩ := hs.number_of_find? h trivial
  obtain ⟨key⟩ := w
  subst hk
  unfold NodeStore.addWorld
  rw [show s.number atoms.toList = .ok (i, s) from hi]
  exact congrArg Except.ok (congrArg _ (insertIfNew_of_find? h _))

end NodeStore

end ClassicalPlanner
