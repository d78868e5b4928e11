import ClassicalPlanner.Proofs.Session.Answer
import Mathlib.Data.List.Nodup
import Mathlib.Data.List.Perm.Subperm

/-!
# Histories of registrations

A request asks for a structure: a constant, a variable over a group, a compound of keys, or a world
of atoms that come in any order and any number of times.  `History.after events` is the session
that requests leave, with the store emptied any number of times in between, and beside it the
requests granted since it was last emptied, each with its key.

In every history a key goes with a structure and a structure with a key
(`History.keys_identify_structures`).  Constants and variables without a group go by their symbol
under tags of their own, all else by lists of keys that share one counter.  The counter counts
these lists (`NodeStore.Counted`), so it runs out when there are `2 ^ 32 - 1` of them and not
before.
-/

namespace ClassicalPlanner

/-- Keys are ordered as the numbers they stand for. -/
theorem Key.compare_eq_lt_iff {a b : Key} : compare a b = .lt ↔ a.toNat < b.toNat := by
  -- the tag is the high half, so the index matters only where the tags are the same
  have lex : compare a b = (compare a.tag b.tag).then (compare a.index b.index) := rfl
  have ha := a.index.toNat_lt
  have hb := b.index.toNat_lt
  rw [lex, Ordering.then_eq_lt, Std.LawfulEqOrd.compare_eq_iff_eq,
    UInt32.compare_eq_toNat_compare_toNat, UInt32.compare_eq_toNat_compare_toNat, Nat.compare_eq_lt,
    Nat.compare_eq_lt, ← UInt32.toNat_inj]
  unfold toNat UInt32.size
  omega

namespace Node

/-- A compound is built from as many arguments as its kind takes. -/
theorem exists_ofKind_iff {kind : Kind} {args : List Key} :
    (∃ n, ofKind kind args = .ok n) ↔ ∃ arity ∈ arity? kind, arity.allows args.length := by
  constructor
  · rintro ⟨n, hn⟩
    unfold ofKind at hn
    split at hn <;> cases hn <;> exact ⟨_, rfl, by simp [Arity.allows]⟩
  · rintro ⟨arity, hkind, hlength⟩
    cases kind <;> cases hkind
    · obtain ⟨a, as, rfl⟩ := List.exists_cons_of_length_pos (of_decide_eq_true hlength)
      exact ⟨_, rfl⟩
    · exact ⟨_, rfl⟩
    · exact ⟨_, rfl⟩
    · obtain ⟨a, rfl⟩ := List.length_eq_one_iff.mp (beq_iff_eq.mp hlength)
      exact ⟨_, rfl⟩
    all_goals
      obtain ⟨a, b, rfl⟩ := List.length_eq_two.mp (beq_iff_eq.mp hlength)
      exact ⟨_, rfl⟩

end Node

namespace NodeStore

/-! ### How many numbers are left -/

variable {s s₁ : NodeStore} {l : List Key} {i : UInt32}

/-- The last number given is the number of lists that have one. -/
def Counted (s : NodeStore) : Prop := s.signatures.size = s.issued.toNat

/-- The list has a number, or there is one left for it. -/
def HasNumber (s : NodeStore) (l : List Key) : Prop :=
  l ∈ s.signatures ∨ s.signatures.size + 1 < UInt32.size

theorem counted_empty : Counted ∅ := rfl

theorem Counted.insertIfNew (hs : s.Counted) (k : Key) (n : Node) :
    (s.insertIfNew k n).Counted := by
  unfold NodeStore.insertIfNew
  split <;> exact hs

theorem add_one_ne_zero_iff {i : UInt32} : i + 1 ≠ 0 ↔ i.toNat + 1 < UInt32.size := by
  rw [ne_eq, ← UInt32.toNat_inj, UInt32.toNat_add]
  have := i.toNat_lt
  simp only [UInt32.reduceToNat, UInt32.size]
  omega

theorem Counted.number (hs : s.Counted) (h : s.number l = .ok (i, s₁)) : s₁.Counted := by
  unfold NodeStore.number at h
  split at h
  · cases h
    exact hs
  · rename_i new
    simp only at h
    split at h <;> cases h
    rename_i room
    have fresh : ¬s.signatures.contains l := by
      simp [Std.ExtTreeMap.contains_eq_isSome_getElem?, new]
    have next : (s.issued + 1).toNat = s.issued.toNat + 1 :=
      UInt32.toNat_add _ _ ▸ Nat.mod_eq_of_lt (add_one_ne_zero_iff.mp room)
    rw [Counted, Std.ExtTreeMap.size_insert, if_neg fresh, hs, next]

theorem Counted.exists_number_iff (hs : s.Counted) :
    (∃ p, s.number l = .ok p) ↔ s.HasNumber l := by
  unfold NodeStore.number HasNumber
  rw [hs, ← add_one_ne_zero_iff]
  cases h : s.signatures[l]? with
  | some i => simp [Std.ExtTreeMap.mem_iff_isSome_getElem?, h]
  | none => by_cases room : s.issued + 1 = 0 <;>
      simp [Std.ExtTreeMap.mem_iff_isSome_getElem?, h, room]

/-- Two nodes of one kind with one list of keys stand under one key. -/
theorem Names.eq_of_signature {k k' : Key} {n n' : Node} (h : s.Names k n) (h' : s.Names k' n')
    (hn : n.IsNumbered) (kind : n.kind = n'.kind) (list : n.signature = n'.signature) : k = k' :=
  (Node.eq_of_signature hn kind list ▸ h).key_eq h'

/-- The list that numbers a node has a number. -/
theorem Names.mem_signatures {k : Key} {n : Node} (h : s.Names k n) (hn : n.IsNumbered) :
    n.signature ∈ s.signatures := by
  cases h with
  | constant c => exact hn.elim
  | var v => exact absurd rfl hn
  | numbered _ hi => exact Std.ExtTreeMap.mem_iff_isSome_getElem?.mpr (hi ▸ rfl)

/-- There are fewer compounds of a kind than numbers of 32 bits. -/
theorem Canonical.length_lt (hs : s.Canonical) (counted : s.Counted) {ks : List Key} (kind : Kind)
    (compound : (Node.arity? kind).isSome) (nodup : ks.Nodup)
    (each : ∀ k ∈ ks, ∃ n, s.find? k = some n ∧ n.kind = kind) : ks.length < UInt32.size := by
  have numbered {n : Node} (h : n.kind = kind) : n.IsNumbered :=
    Node.IsCompound.isNumbered (by rwa [Node.IsCompound, h])
  let list (k : Key) : List Key := ((s.find? k).map Node.signature).getD []
  have apart : (ks.map list).Nodup := by
    refine nodup.map_on fun k hk k' hk' same => ?_
    obtain ⟨n, found, hkind⟩ := each k hk
    obtain ⟨n', found', hkind'⟩ := each k' hk'
    simp only [list, found, found', Option.map_some, Option.getD_some] at same
    exact (hs.names found).eq_of_signature (hs.names found') (numbered hkind)
      (hkind.trans hkind'.symm) same
  have listed : ks.map list ⊆ s.signatures.keys := by
    refine fun l hl => ?_
    obtain ⟨k, hk, rfl⟩ := List.mem_map.mp hl
    obtain ⟨n, found, hkind⟩ := each k hk
    simp only [list, found, Option.map_some, Option.getD_some]
    exact Std.ExtTreeMap.mem_keys.mpr ((hs.names found).mem_signatures (numbered hkind))
  calc
    ks.length = (ks.map list).length := (List.length_map list).symm
    _ ≤ s.signatures.keys.length := (apart.subperm listed).length_le
    _ = s.issued.toNat := Std.ExtTreeMap.length_keys.trans counted
    _ < UInt32.size := s.issued.toNat_lt

end NodeStore

namespace Session

/-! ### Requests -/

/-- A structure that is asked for. -/
inductive Request where
  | constant (symbol : SymbolId)
  /-- The group may be empty. -/
  | variable (symbol group : SymbolId)
  | compound (kind : Kind) (args : List Key)
  /-- The atoms come in any order, each any number of times. -/
  | world (atoms : List Key)
deriving DecidableEq

namespace Request

/-- Asks the session for the key of the structure. -/
def run : Request → SessionM Key
  | .constant c => liftM (addConstantOf c)
  | .variable v g => register (·.addVariable v g)
  | .compound kind args => addCompound kind args
  | .world atoms => World.key <$> addWorld (.ofList atoms)

/-- Both ask for the same structure. -/
def Same : Request → Request → Prop
  | .world atoms, .world atoms' => ∀ k, k ∈ atoms ↔ k ∈ atoms'
  | r, r' => r = r'

/-- The node has the structure asked for.  A world lists its atoms by their keys, each once. -/
def Describes : Request → Node → Prop
  | .constant c, n => n = .constant c
  | .variable v g, n => n = .variable v g
  | .compound kind args, n => n.IsCompound ∧ n.kind = kind ∧ n.args = args
  | .world atoms, n => ∃ set : AtomSet, n = .world set ∧ (∀ k, k ∈ set ↔ k ∈ atoms) ∧
      set.toList.Pairwise fun a b => a.toNat < b.toNat

/-- A compound has as many arguments as its kind takes, all of them registered, and a quantifier
binds a variable. -/
def Allowed (s : NodeStore) : Request → Prop
  | .compound kind args =>
      (∃ arity ∈ Node.arity? kind, arity.allows args.length) ∧ (∀ a ∈ args, s.contains a) ∧
        (kind.isQuantifier → ∃ b ∈ args.head?, ∃ v g, s.find? b = some (.variable v g))
  | _ => True

/-- The list of keys that numbers the structure; some go by their symbol instead. -/
def signature? : Request → Option (List Key)
  | .constant _ => none
  | .variable v g => if g = .none then none else some [Key.ofSymbol v, Key.ofSymbol g]
  | .compound _ args => some args
  | .world atoms => some (Std.ExtTreeSet.ofList atoms).toList

/-- What the request does to a store. -/
def place : Request → NodeStore → Except FormulaError (Key × NodeStore)
  | .constant c, s => .ok (s.addConstant c)
  | .variable v g, s => s.addVariable v g
  | .compound kind args, s => s.addCompound kind args
  | .world atoms, s => (s.addWorld (.ofList atoms)).map fun (w, s) => (w.key, s)

variable {r r' : Request} {s s₁ : NodeStore} {k : Key} {n : Node}

theorem run_eq (r : Request) : r.run = register r.place := by
  cases r with
  | constant c => rfl
  | «variable» v g => rfl
  | compound kind args => rfl
  | world atoms =>
      funext s
      rw [run, map_eq_pure_bind, run_bind]
      simp only [addWorld, register, place]
      cases s.store.addWorld (.ofList atoms) <;> rfl

/-! ### Requests and nodes -/

theorem describes_constant {c : SymbolId} : r.Describes (.constant c) ↔ r = .constant c := by
  cases r <;> simp [Describes, NodeStore.not_isCompound_constant, eq_comm]

theorem describes_variable {v g : SymbolId} :
    r.Describes (.variable v g) ↔ r = .variable v g := by
  cases r <;> simp [Describes, NodeStore.not_isCompound_variable, eq_comm]

theorem describes_compound (hn : n.IsCompound) :
    r.Describes n ↔ r = .compound n.kind n.args := by
  cases r with
  | constant c =>
      refine iff_of_false ?_ (by simp)
      rintro rfl
      exact NodeStore.not_isCompound_constant c hn
  | «variable» v g =>
      refine iff_of_false ?_ (by simp)
      rintro rfl
      exact NodeStore.not_isCompound_variable v g hn
  | compound kind args => simp [Describes, hn, eq_comm]
  | world atoms =>
      refine iff_of_false ?_ (by simp)
      rintro ⟨set, rfl, -⟩
      exact NodeStore.not_isCompound_world set hn

theorem pairwise_toNat (set : AtomSet) : set.toList.Pairwise fun a b => a.toNat < b.toNat :=
  Std.ExtTreeSet.ordered_toList.imp Key.compare_eq_lt_iff.mp

theorem describes_world {set : AtomSet} :
    r.Describes (.world set) ↔ ∃ atoms, r = .world atoms ∧ ∀ k, k ∈ set ↔ k ∈ atoms := by
  cases r with
  | world atoms =>
      constructor
      · rintro ⟨_, ⟨⟩, members, -⟩
        exact ⟨atoms, rfl, members⟩
      · rintro ⟨_, ⟨⟩, members⟩
        exact ⟨set, rfl, members, pairwise_toNat set⟩
  | _ => simp [Describes, NodeStore.not_isCompound_world]

/-- Requests that one node answers ask for one structure. -/
theorem Describes.same (h : r.Describes n) (h' : r'.Describes n) : r.Same r' := by
  by_cases hn : n.IsCompound
  · rw [describes_compound hn] at h h'
    rw [h, h']
    rfl
  · cases n with
    | constant c =>
        rw [describes_constant] at h h'
        rw [h, h']
        rfl
    | «variable» v g =>
        rw [describes_variable] at h h'
        rw [h, h']
        rfl
    | world set =>
        obtain ⟨atoms, rfl, members⟩ := describes_world.mp h
        obtain ⟨atoms', rfl, members'⟩ := describes_world.mp h'
        exact fun k => (members k).symm.trans (members' k)
    | _ => exact absurd rfl hn

/-- Requests for one structure are answered by one node. -/
theorem Same.node_eq {n' : Node} (h : r.Same r') (hn : r.Describes n) (hn' : r'.Describes n') :
    n = n' := by
  cases r with
  | constant c => cases r' <;> cases h; exact hn.trans hn'.symm
  | «variable» v g => cases r' <;> cases h; exact hn.trans hn'.symm
  | compound kind args =>
      cases r' <;> cases h
      obtain ⟨compound, hkind, hargs⟩ := hn
      obtain ⟨compound', hkind', hargs'⟩ := hn'
      refine Node.eq_of_signature compound.isNumbered (hkind.trans hkind'.symm) ?_
      rw [compound.signature, compound'.signature, hargs, hargs']
  | world atoms =>
      cases r' with
      | world atoms' =>
          obtain ⟨set, rfl, members, -⟩ := hn
          obtain ⟨set', rfl, members', -⟩ := hn'
          refine congrArg Node.world (Std.ExtTreeSet.ext_mem fun k => ?_)
          rw [members, members', h]
      | _ => cases h

/-! ### Granting -/

theorem allowed_compound_iff {kind : Kind} {args : List Key} :
    (Request.compound kind args).Allowed s ↔
      ∃ n, Node.ofKind kind args = .ok n ∧ s.check n = .ok () := by
  constructor
  · rintro ⟨takes, registered, binds⟩
    obtain ⟨n, hn⟩ := Node.exists_ofKind_iff.mpr takes
    obtain rfl := Node.kind_of_ofKind hn
    obtain rfl := Node.args_of_ofKind hn
    refine ⟨n, hn, NodeStore.check_eq_ok_iff.mpr ⟨registered, fun hq => ?_⟩⟩
    obtain ⟨b, first, v, g, found⟩ := binds hq
    cases n with
    | existential b' body | universal b' body =>
        cases first
        exact ⟨b, body, v, g, rfl, found⟩
    | _ => cases hq
  · rintro ⟨n, hn, hc⟩
    obtain ⟨registered, binds⟩ := NodeStore.check_eq_ok_iff.mp hc
    obtain rfl := Node.kind_of_ofKind hn
    obtain rfl := Node.args_of_ofKind hn
    refine ⟨Node.exists_ofKind_iff.mp ⟨n, hn⟩, registered, fun hq => ?_⟩
    obtain ⟨b, body, v, g, hargs, found⟩ := binds hq
    exact ⟨b, by rw [hargs]; rfl, v, g, found⟩

/-- A request that is allowed puts one node under a key, made from the number of its list. -/
theorem place_eq (h : r.Allowed s) : ∃ (key : UInt32 → Key) (n : Node), r.place s =
    match r.signature? with
    | none => .ok (key 0, s.insertIfNew (key 0) n)
    | some l => (s.number l).map fun (i, s) => (key i, s.insertIfNew (key i) n) := by
  cases r with
  | constant c => exact ⟨fun _ => .ofKind .constant c.index, .constant c, rfl⟩
  | «variable» v g =>
      by_cases hg : g = .none
      · refine ⟨fun _ => .ofSymbol v, .variable v g, ?_⟩
        simp only [place, signature?, NodeStore.addVariable, if_pos hg]
        rfl
      · refine ⟨.ofKind .variable, .variable v g, ?_⟩
        simp only [place, signature?, NodeStore.addVariable, if_neg hg]
        cases s.number [Key.ofSymbol v, Key.ofSymbol g] <;> rfl
  | compound kind args =>
      -- what can be wrong with a compound is found before its list gets a number
      obtain ⟨n, hn, hc⟩ := allowed_compound_iff.mp h
      exact ⟨.ofKind kind, n, NodeStore.addCompound_eq hn hc⟩
  | world atoms =>
      refine ⟨.ofKind .world, .world (.ofList atoms), ?_⟩
      simp only [place, signature?, NodeStore.addWorld]
      cases s.number (Std.ExtTreeSet.ofList atoms).toList <;> rfl

theorem allowed_of_place (h : r.place s = .ok (k, s₁)) : r.Allowed s := by
  cases r with
  | compound kind args => exact allowed_compound_iff.mpr (NodeStore.check_of_addCompound h)
  | _ => trivial

theorem exists_place_iff (hs : s.Counted) : (∃ p, r.place s = .ok p) ↔
    r.Allowed s ∧ ∀ l ∈ r.signature?, s.HasNumber l := by
  by_cases allowed : r.Allowed s
  · obtain ⟨key, n, eq⟩ := place_eq allowed
    rw [eq, and_iff_right allowed]
    cases r.signature? with
    | none => simp
    | some l =>
        simp only [Option.mem_some_iff, forall_eq']
        rw [← hs.exists_number_iff]
        cases s.number l <;> simp [Except.map]
  · refine iff_of_false ?_ fun h => allowed h.1
    rintro ⟨p, h⟩
    exact allowed (allowed_of_place h)

theorem place_counted (hs : s.Counted) (h : r.place s = .ok (k, s₁)) : s₁.Counted := by
  obtain ⟨key, n, eq⟩ := place_eq (allowed_of_place h)
  rw [eq] at h
  cases hl : r.signature? with
  | none =>
      rw [hl] at h
      cases h
      exact hs.insertIfNew _ n
  | some l =>
      rw [hl] at h
      cases hi : s.number l with
      | error e => simp only [hi] at h; cases h
      | ok numbered =>
          simp only [hi] at h
          cases h
          exact (hs.number hi).insertIfNew _ n

/-- **A key that is granted** stands for the structure asked for. -/
theorem place_described (hs : s.Canonical) (h : r.place s = .ok (k, s₁)) :
    s₁.Canonical ∧ s ≤ s₁ ∧ ∃ n, s₁.find? k = some n ∧ r.Describes n := by
  cases r with
  | constant c =>
      cases h
      obtain ⟨fits, grow, found⟩ := hs.addConstant c
      exact ⟨fits, grow, _, found, rfl⟩
  | «variable» v g =>
      obtain ⟨fits, grow, found⟩ := hs.addVariable h
      exact ⟨fits, grow, _, found, rfl⟩
  | compound kind args =>
      obtain ⟨fits, grow, n, hn, found⟩ := hs.addCompound h
      exact ⟨fits, grow, n, found, Node.isCompound_of_ofKind hn, Node.kind_of_ofKind hn,
        Node.args_of_ofKind hn⟩
  | world atoms =>
      simp only [place] at h
      cases hw : s.addWorld (.ofList atoms) with
      | error e => rw [hw] at h; cases h
      | ok placed =>
          rw [hw] at h
          cases h
          obtain ⟨fits, grow, found⟩ := hs.addWorld hw
          refine ⟨fits, grow, _, found, describes_world.mpr ⟨atoms, rfl, fun k => ?_⟩⟩
          rw [Std.ExtTreeSet.mem_ofList, List.contains_iff_mem]

end Request

variable {r : Request} {k : Key} {s s' : Session}

theorem Request.run_eq_ok (hr : r.run s = (.ok k, s')) :
    ∃ store, r.place s.store = .ok (k, store) ∧ s' = { s with store } :=
  register_eq_ok (r.run_eq ▸ hr)

theorem Request.run_of_place {store : NodeStore} (h : r.place s.store = .ok (k, store)) :
    r.run s = (.ok k, { s with store }) := by
  rw [Request.run_eq, register, h]

/-- A request that is refused changes nothing. -/
theorem Request.run_eq_error {e : FormulaError} (hr : r.run s = (.error e, s')) : s' = s := by
  rw [Request.run_eq, register] at hr
  split at hr <;> cases hr
  rfl

/-! ### Histories -/

/-- A session, and the requests granted since its store was last emptied, with their keys. -/
structure History where
  session : Session := ∅
  granted : List (Request × Key) := []

namespace History

/-- A request, or the store is emptied. -/
inductive Event where
  | request (r : Request)
  | clear

/-- One event after a history. -/
def step (h : History) : Event → History
  | .clear => { session := { h.session with store := ∅ } }
  | .request r =>
    match r.run h.session with
    | (.ok k, s) => { session := s, granted := h.granted ++ [(r, k)] }
    | (.error _, s) => { h with session := s }

/-- All events, from the session that knows nothing. -/
def after (events : List Event) : History := events.foldl step {}

/-- What was granted stands in the store. -/
structure Faithful (h : History) : Prop where
  canonical : h.session.Canonical
  counted : h.session.store.Counted
  described : ∀ {r k}, (r, k) ∈ h.granted →
    ∃ n, h.session.store.find? k = some n ∧ r.Describes n

variable {h : History}

theorem faithful_empty (words : SymbolTable) (groups : Groups) :
    Faithful { session := { symbols := words, groups := groups } } where
  canonical := NodeStore.canonical_empty
  counted := NodeStore.counted_empty
  described mem := absurd mem List.not_mem_nil

theorem step_of_ok (hr : r.run h.session = (.ok k, s)) :
    h.step (.request r) = { session := s, granted := h.granted ++ [(r, k)] } := by
  simp only [step, hr]

theorem step_of_error {e : FormulaError} (hr : r.run h.session = (.error e, s)) :
    h.step (.request r) = h := by
  simp only [step, hr, Request.run_eq_error hr]

theorem Faithful.step (hh : h.Faithful) (event : Event) : (h.step event).Faithful := by
  cases event with
  | clear => exact faithful_empty _ _
  | request r =>
      rcases hr : r.run h.session with ⟨e | k, s'⟩
      · rwa [step_of_error hr]
      · rw [step_of_ok hr]
        obtain ⟨store, placed, rfl⟩ := Request.run_eq_ok hr
        obtain ⟨fits, grow, n, found, describes⟩ := Request.place_described hh.canonical placed
        refine ⟨fits, Request.place_counted hh.counted placed, fun {r' k'} mem => ?_⟩
        rcases List.mem_append.mp mem with old | new
        -- a node stays under its key, whatever is registered after it
        · obtain ⟨n', found', describes'⟩ := hh.described old
          exact ⟨n', grow.nodes found', describes'⟩
        · cases List.mem_singleton.mp new
          exact ⟨n, found, describes⟩

/-- **Every history is faithful**, by induction on its events. -/
theorem faithful_after (events : List Event) : (after events).Faithful := by
  have run : ∀ {h : History}, h.Faithful → (events.foldl History.step h).Faithful := by
    induction events with
    | nil => exact id
    | cons event events ih => exact fun hh => ih (hh.step event)
  exact run (faithful_empty _ _)

/-- **Keys identify structures.**  Whatever was asked for before, and however often the store was
emptied: since it last was, two requests were given one key exactly if they ask for one structure,
and under the key stands this structure.  A request is granted exactly if it is allowed and its
list of keys has a number or can get one, and a request that is refused leaves everything as it
was. -/
theorem keys_identify_structures {events : List Event} (reached : after events = h) :
    (∀ (r r' : Request) (k k' : Key), (r, k) ∈ h.granted → (r', k') ∈ h.granted →
      (k = k' ↔ r.Same r')) ∧
    (∀ (r : Request) (k : Key), (r, k) ∈ h.granted →
      ∃ n, h.session.store.node k = .ok n ∧ r.Describes n) ∧
    (∀ r : Request, (∃ k s, r.run h.session = (.ok k, s)) ↔
      r.Allowed h.session.store ∧ ∀ l ∈ r.signature?, h.session.store.HasNumber l) ∧
    ∀ (r : Request) (e : FormulaError) (s : Session),
      r.run h.session = (.error e, s) → s = h.session := by
  have hh : h.Faithful := reached ▸ faithful_after events
  refine ⟨fun r r' k k' mem mem' => ?_, fun r k mem => ?_, fun r => ?_,
    fun r e s => Request.run_eq_error⟩
  · obtain ⟨n, found, describes⟩ := hh.described mem
    obtain ⟨n', found', describes'⟩ := hh.described mem'
    constructor
    -- a key finds one node, and in a canonical store a node stands under one key
    · rintro rfl
      obtain rfl := Option.some.inj (found.symm.trans found')
      exact describes.same describes'
    · intro same
      obtain rfl := same.node_eq describes describes'
      exact (hh.canonical.names found).key_eq (hh.canonical.names found')
  · obtain ⟨n, found, describes⟩ := hh.described mem
    exact ⟨n, NodeStore.node_of_find? found, describes⟩
  · rw [← Request.exists_place_iff hh.counted]
    constructor
    · rintro ⟨k, s, hr⟩
      obtain ⟨store, placed, -⟩ := Request.run_eq_ok hr
      exact ⟨_, placed⟩
    · rintro ⟨⟨k, store⟩, placed⟩
      exact ⟨k, _, Request.run_of_place placed⟩

/-- Two atoms, and a world of them twice; the store has been emptied before, and a negation of two
arguments is refused on the way. -/
def twoWorlds : List Event :=
  [.request (.constant ⟨7⟩), .request (.compound .and []), .clear,
    .request (.constant ⟨1⟩), .request (.constant ⟨2⟩),
    .request (.compound .atom [.ofKind .constant 2]),
    .request (.compound .not [.ofKind .constant 1, .ofKind .constant 2]),
    .request (.compound .atom [.ofKind .constant 1]),
    .request (.world [.ofKind .atom 2, .ofKind .atom 1, .ofKind .atom 2]),
    .request (.world [.ofKind .atom 1, .ofKind .atom 2])]

theorem keys_identify_structures_two_worlds :
    (after twoWorlds).granted.map Prod.snd = [.ofKind .constant 1, .ofKind .constant 2,
      .ofKind .atom 1, .ofKind .atom 2, .ofKind .world 3, .ofKind .world 3] ∧
    Request.Same (.world [.ofKind .atom 2, .ofKind .atom 1, .ofKind .atom 2])
      (.world [.ofKind .atom 1, .ofKind .atom 2]) ∧
    (∃ n, (after twoWorlds).session.store.node (.ofKind .world 3) = .ok n ∧
      Request.Describes (.world [.ofKind .atom 1, .ofKind .atom 2]) n) ∧
    (∃ k s, Request.run (.world []) (after twoWorlds).session = (.ok k, s)) ∧
    (Request.run (.compound .not []) (after twoWorlds).session).2 = (after twoWorlds).session := by
  obtain ⟨same, found, granted, refused⟩ := keys_identify_structures (h := after twoWorlds) rfl
  refine ⟨by decide, ?_, ?_, ?_, ?_⟩
  · exact (same _ _ (.ofKind .world 3) _ (by decide) (by decide)).mp rfl
  · exact found _ _ (by decide)
  · exact (granted _).mpr ⟨trivial, fun l _ => .inr (by decide)⟩
  · exact refused _ (.arity .not .one 0) _ (run_eq_of_result (by decide))

end History

end Session
end ClassicalPlanner
