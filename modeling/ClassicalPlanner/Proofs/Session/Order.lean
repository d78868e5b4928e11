import ClassicalPlanner.Proofs.Session.Grants

/-!
# The order of registration

Every run of operations has a log: the requests granted since the last reset, in order, each with
its key (`Logged`).  One key was registered before another if there was a time when it was in the
log and the other was not (`Log.Before`).

The arguments of a compound were always registered before it.  The atoms of a world need not have
been: a world that is asked for by its atoms may list a key that is not registered, or its own
(`world_of_itself`).  That is the only way to disorder (`Dangles`).  Without it each node was
registered after its parts, so the nodes are in order, and each expression whose symbols have words
can be printed (`registered_in_order`).
-/

namespace ClassicalPlanner

namespace Session

variable {s s' : Session} {store store' : NodeStore} {k a : Key} {stray : Prop} {r : Request}
variable {Q : Node → Prop} {op : Operation} {ops : List Operation}

/-! ### Logs -/

/-- Requests that have been granted, each with its key. -/
abbrev Log := List (Request × Key)

variable {log more : Log}

/-- There was a time when `a` was registered and `k` was not. -/
def Log.Before (log : Log) (a k : Key) : Prop :=
  ∃ earlier, earlier <+: log ∧ a ∈ earlier.map Prod.snd ∧ k ∉ earlier.map Prod.snd

namespace Log.Before

theorem mem (h : log.Before a k) : a ∈ log.map Prod.snd := by
  obtain ⟨earlier, first, mem, -⟩ := h
  exact (first.map Prod.snd).subset mem

theorem append (h : log.Before a k) (more : Log) : Log.Before (log ++ more) a k := by
  obtain ⟨earlier, first, rest⟩ := h
  exact ⟨earlier, first.trans (List.prefix_append log more), rest⟩

theorem irrefl (h : log.Before k k) : False := by
  obtain ⟨_, -, mem, fresh⟩ := h
  exact fresh mem

/-- What is logged later does not matter for a key that is there. -/
theorem of_append (h : Log.Before (log ++ more) a k) (known : k ∈ log.map Prod.snd) :
    log.Before a k := by
  obtain ⟨earlier, first, mem, fresh⟩ := h
  rcases List.prefix_or_prefix_of_prefix first (List.prefix_append log more) with within | beyond
  · exact ⟨earlier, within, mem, fresh⟩
  · exact absurd ((beyond.map Prod.snd).subset known) fresh

end Log.Before

/-- The log names what is registered, and each node of the kind was registered after its parts. -/
structure Sorted (Q : Node → Prop) (log : Log) (store : NodeStore) : Prop where
  registered : ∀ {k}, store.contains k ↔ k ∈ log.map Prod.snd
  before : ∀ {k n}, store.find? k = some n → Q n → ∀ a ∈ n.parts, log.Before a k

theorem sorted_empty : Sorted Q [] ∅ := by
  have none (k : Key) : (∅ : NodeStore).find? k = Option.none := Std.ExtTreeMap.getElem?_empty
  refine ⟨fun {k} => ⟨fun known => ?_, fun mem => absurd mem List.not_mem_nil⟩, fun found => ?_⟩
  · obtain ⟨n, found⟩ := NodeStore.contains_iff.mp known
    rw [none] at found
    cases found
  · rw [none] at found
    cases found

/-- A request that is founded, or makes no node of the kind but compounds, keeps the order. -/
theorem Sorted.place (h : Sorted Q log store) (granted : r.place store = .ok (k, store'))
    (founded : r.Founded store ∨ ∀ n, Q n → n.IsCompound) : Sorted Q (log ++ [(r, k)]) store' := by
  obtain ⟨n, adds, parts, compound⟩ := Request.place_adds granted
  refine ⟨fun {k'} => ?_, fun {k' m} found kind a ha => ?_⟩
  · rw [adds.known_iff, h.registered, List.map_append, List.mem_append]
    simp
  · rw [adds.find?_eq] at found
    split at found
    -- a new node comes after all that was registered, and so after its parts
    · rename_i new
      obtain ⟨rfl, none⟩ := new
      cases found
      have known := (founded.elim id fun only => compound (only _ kind)) a ((parts a).mp ha)
      refine ⟨log, List.prefix_append _ _, h.registered.mp known, fun mem => ?_⟩
      obtain ⟨_, found⟩ := NodeStore.contains_iff.mp (h.registered.mpr mem)
      cases none.symm.trans found
    · exact (h.before found kind a ha).append _

theorem Sorted.grants (h : Sorted Q log store) (grants : Grants stray store more store')
    (safe : ¬stray ∨ ∀ n, Q n → n.IsCompound) : Sorted Q (log ++ more) store' := by
  induction grants generalizing log with
  | nil => rwa [List.append_nil]
  | cons granted founded _ ih =>
      rw [List.append_cons]
      refine ih (h.place granted ?_)
      rcases safe with never | only
      · exact .inl (founded.resolve_right never)
      · exact .inr only

/-- What was in disorder stays so. -/
theorem Sorted.of_append (h : Sorted Q (log ++ more) store')
    (registered : ∀ {k}, store.contains k ↔ k ∈ log.map Prod.snd) (grow : store ≤ store') :
    Sorted Q log store where
  registered := registered
  before found kind a ha := (h.before (grow.nodes found) kind a ha).of_append
    (registered.mp (NodeStore.contains_iff.mpr ⟨_, found⟩))

theorem Sorted.intact (h : Sorted (fun _ => True) log store) : store.Intact :=
  fun found a ha => h.registered.mpr (h.before found trivial a ha).mem

/-- Each chain of parts comes to an end if all requests were founded. -/
theorem Grants.grounded (h : Grants False store more store') (grounded : store.Grounded) :
    store'.Grounded := by
  induction h with
  | nil => exact grounded
  | cons granted founded _ ih =>
      obtain ⟨n, adds, parts, -⟩ := Request.place_adds granted
      exact ih (adds.grounded grounded fun a ha =>
        founded.resolve_right id a ((parts a).mp ha))

/-! ### Runs -/

theorem runAll_concat (ops : List Operation) (op : Operation) (s : Session) :
    runAll (ops ++ [op]) s = op.run (runAll ops s) := by
  simp [runAll]

/-- The requests granted since the last reset, in order. -/
inductive Logged : List Operation → Log → Prop where
  | nil : Logged [] []
  | reset {ops : List Operation} {log : Log} (h : Logged ops log) : Logged (ops ++ [.reset]) []
  | step {ops : List Operation} {op : Operation} {log more : Log} (h : Logged ops log)
      (kept : op ≠ .reset) (granted : Grants True (runAll ops ∅).store more
        (runAll (ops ++ [op]) ∅).store) : Logged (ops ++ [op]) (log ++ more)

/-- Since the last reset, a world has been registered with an atom that was not registered. -/
inductive Dangles : List Operation → Prop where
  | here {ops : List Operation} {op : Operation} (h : op.Strays (runAll ops ∅)) :
      Dangles (ops ++ [op])
  | later {ops : List Operation} {op : Operation} (h : Dangles ops) (kept : op ≠ .reset) :
      Dangles (ops ++ [op])

theorem not_strays_reset : ¬Operation.reset.Strays s := id

theorem not_dangles_nil : ¬Dangles [] := by
  generalize h : ([] : List Operation) = ops
  rintro (_ | _) <;> simp at h

theorem dangles_concat : Dangles (ops ++ [op]) ↔
    op.Strays (runAll ops ∅) ∨ Dangles ops ∧ op ≠ .reset := by
  constructor
  · generalize h : ops ++ [op] = whole
    rintro (strays | ⟨dangles, kept⟩)
    · obtain ⟨rfl, same⟩ := List.append_inj' h rfl
      cases same
      exact .inl strays
    · obtain ⟨rfl, same⟩ := List.append_inj' h rfl
      cases same
      exact .inr ⟨dangles, kept⟩
  · rintro (strays | ⟨dangles, kept⟩)
    · exact .here strays
    · exact .later dangles kept

/-- Nothing dangles if no world is asked for by its atoms. -/
theorem not_dangles_of_ne (h : ∀ op ∈ ops, ∀ atoms, op ≠ .addWorld atoms) : ¬Dangles ops := by
  intro dangles
  induction dangles with
  | @here _ op strays =>
      cases op with
      | addWorld atoms => exact h _ List.mem_concat_self atoms rfl
      | _ => exact strays
  | later _ _ ih => exact ih fun op hop => h op (List.mem_append_left _ hop)

/-- A world with an atom that was not registered is out of order: the atom is still not registered,
unless it is the world itself. -/
theorem not_sorted_of_strays (hs : s.Canonical) (strays : op.Strays s) :
    ¬Sorted (fun _ => True) log (op.run s).store := by
  intro sorted
  cases op with
  | addWorld atoms =>
      obtain ⟨granted, a, ha, missing⟩ := strays
      rcases run : addWorld atoms s with ⟨e | w, s'⟩
      · rw [run] at granted
        cases granted
      · have found := addWorld_eq_ok hs run
        obtain ⟨store, added, rfl⟩ := register_eq_ok run
        rw [Operation.run, run] at sorted
        have before := sorted.before found trivial a (Std.ExtTreeSet.mem_toList.mpr ha)
        rcases (NodeStore.adds_addWorld added).known_iff.mp (sorted.registered.mpr before.mem)
          with known | rfl
        · exact missing known
        · exact before.irrefl
  | _ => exact strays

/-- What is known of the log of a run. -/
structure Ledger (ops : List Operation) (log : Log) : Prop where
  logged : Logged ops log
  compounds : Sorted Node.IsCompound log (runAll ops ∅).store
  ordered : ¬Dangles ops →
    Sorted (fun _ => True) log (runAll ops ∅).store ∧ (runAll ops ∅).store.Grounded
  disordered : Dangles ops → ¬Sorted (fun _ => True) log (runAll ops ∅).store

theorem ledger_nil : Ledger [] [] :=
  ⟨.nil, sorted_empty, fun _ => ⟨sorted_empty, closed_empty.grounded⟩,
    fun dangles => absurd dangles not_dangles_nil⟩

theorem Ledger.reset (h : Ledger ops log) : Ledger (ops ++ [.reset]) [] := by
  have none : runAll (ops ++ [.reset]) ∅ = ∅ := runAll_concat ops .reset ∅
  refine ⟨.reset h.logged, ?_, fun _ => ?_, fun dangles => ?_⟩
  · rw [none]
    exact sorted_empty
  · rw [none]
    exact ⟨sorted_empty, closed_empty.grounded⟩
  · rcases dangles_concat.mp dangles with strays | ⟨-, kept⟩
    · exact absurd strays not_strays_reset
    · exact absurd rfl kept

/-- One operation more, by the requests that it makes. -/
theorem Ledger.step (h : Ledger ops log) (kept : op ≠ .reset) :
    ∃ more, Ledger (ops ++ [op]) (log ++ more) := by
  have reached : (runAll ops ∅).Reachable := Reachable.empty.runAll ops
  have grow := (op.keeps kept reached.sound).2.store
  by_cases dangles : Dangles (ops ++ [op])
  · obtain ⟨more, grants⟩ : Asks True (runAll ops ∅) (op.run (runAll ops ∅)) :=
      op.asks kept reached.canonical (.inr trivial)
    refine ⟨more, .step h.logged kept ?_, ?_, fun order => absurd dangles order, fun _ => ?_⟩ <;>
      rw [runAll_concat]
    · exact grants
    · exact h.compounds.grants grants (.inr fun _ => id)
    · rcases dangles_concat.mp dangles with strays | ⟨before, -⟩
      · exact not_sorted_of_strays reached.canonical strays
      · exact fun sorted => h.disordered before (sorted.of_append h.compounds.registered grow)
  · have sure := mt dangles_concat.mpr dangles
    obtain ⟨sorted, grounded⟩ := h.ordered fun before => sure (.inr ⟨before, kept⟩)
    obtain ⟨more, grants⟩ : Asks False (runAll ops ∅) (op.run (runAll ops ∅)) :=
      op.asks kept reached.canonical (.inl ⟨sorted.intact, fun strays => sure (.inl strays)⟩)
    refine ⟨more, .step h.logged kept ?_, ?_, fun _ => ?_, fun other => absurd other dangles⟩ <;>
      rw [runAll_concat]
    · exact grants.mono False.elim
    · exact h.compounds.grants grants (.inl id)
    · exact ⟨sorted.grants grants (.inl id), grants.grounded grounded⟩

/-- **Every run has a log,** by induction on its operations. -/
theorem exists_ledger (ops : List Operation) : ∃ log, Ledger ops log := by
  induction ops using List.reverseRecOn with
  | nil => exact ⟨[], ledger_nil⟩
  | append_singleton ops op ih =>
      obtain ⟨log, h⟩ := ih
      by_cases reset : op = .reset
      · subst reset
        exact ⟨[], h.reset⟩
      · obtain ⟨more, h⟩ := h.step reset
        exact ⟨log ++ more, h⟩

/-- **Registration goes in order,** whatever keys are passed in.  The requests granted since the
last reset register the keys that there are, and the arguments of a compound were registered before
it.  All parts of all nodes were registered before them exactly if no world dangles, that is, if no
world was asked for with an atom that was not registered.  Then each expression can be printed if
its symbols have words. -/
theorem registered_in_order (ops : List Operation) : ∃ log, Logged ops log ∧
    (∀ k, (runAll ops ∅).store.contains k ↔ k ∈ log.map Prod.snd) ∧
    (∀ k n, (runAll ops ∅).store.find? k = some n → n.IsCompound →
      ∀ a ∈ n.parts, log.Before a k) ∧
    ((∀ k n, (runAll ops ∅).store.find? k = some n → ∀ a ∈ n.parts, log.Before a k) ↔
      ¬Dangles ops) ∧
    (¬Dangles ops → ∀ k, (runAll ops ∅).store.contains k → (runAll ops ∅).Worded k →
      ∃ text, (runAll ops ∅).render k = .ok text) := by
  obtain ⟨log, h⟩ := exists_ledger ops
  refine ⟨log, h.logged, fun k => h.compounds.registered,
    fun k n found compound => h.compounds.before found compound, ⟨fun order dangles => ?_,
      fun order k n found => (h.ordered order).1.before found trivial⟩,
    fun order k known worded => exists_render_of_worded (h.ordered order).2 known worded⟩
  exact h.disordered dangles ⟨h.compounds.registered, fun found _ => order _ _ found⟩

/-- An atom is read, and a world is asked for by it. -/
def gate : List Operation :=
  [.parse "(open gate)"] ++ [.addWorld (.ofList [Key.ofKind .atom 1])]

theorem registered_in_order_gate :
    (∃ log, Logged gate log ∧ log.Before (.ofKind .atom 1) (.ofKind .world 2)) ∧
    ∃ text, (runAll gate ∅).render (.ofKind .world 2) = .ok text := by
  have found : (runAll gate ∅).store.find? (.ofKind .world 2) =
      some (.world (.ofList [Key.ofKind .atom 1])) := by decide +kernel
  have atom : (runAll [.parse "(open gate)"] ∅).store.contains (.ofKind .atom 1) := by
    decide +kernel
  have known : ∀ a ∈ (.ofList [Key.ofKind .atom 1] : AtomSet),
      (runAll [.parse "(open gate)"] ∅).store.contains a := by
    intro a ha
    obtain rfl : Key.ofKind .atom 1 = a := by simpa [Std.ExtTreeSet.mem_ofList] using ha
    exact atom
  have sure : ¬Dangles gate := by
    rw [gate, dangles_concat]
    rintro (⟨-, a, ha, missing⟩ | ⟨before, -⟩)
    · exact missing (known a ha)
    · exact not_dangles_of_ne (by simp) before
  have read : (runAll [.parse "(open gate)"] ∅).Closed :=
    (serves_parse sound_empty "(open gate)").closed closed_empty
  have sound := (Reachable.empty.runAll [.parse "(open gate)"]).sound
  have closed : (runAll gate ∅).Closed := by
    have served : Serves (addWorld _) _ (Gives _ (· = .outOfNumbers)) :=
      serves_addWorld sound known rfl
    rw [gate, runAll_concat]
    exact served.closed read
  obtain ⟨log, logged, -, -, order, prints⟩ := registered_in_order gate
  refine ⟨⟨log, logged, order.mpr sure _ _ found _ ?_⟩,
    prints sure _ (NodeStore.contains_iff.mpr ⟨_, found⟩) fun _ => closed.worded⟩
  simp [Node.parts]

/-- A world of an atom that is not there, and a world of itself: neither can be printed. -/
theorem world_of_itself :
    let dangling := runAll [.addWorld (.ofList [Key.ofKind .atom 1])] ∅
    let circular := runAll [.addWorld (.ofList [Key.ofKind .world 1])] ∅
    dangling.store.find? (.ofKind .world 1) = some (.world (.ofList [Key.ofKind .atom 1])) ∧
    ¬dangling.store.contains (.ofKind .atom 1) ∧
    dangling.render (.ofKind .world 1) = .error (.unknownExpression (.ofKind .atom 1)) ∧
    circular.store.find? (.ofKind .world 1) = some (.world (.ofList [Key.ofKind .world 1])) ∧
    circular.render (.ofKind .world 1) = .error (.circular (.ofKind .world 1)) := by
  decide +kernel

end Session

end ClassicalPlanner
