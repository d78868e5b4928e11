import ClassicalPlanner.Proofs.Session.Closure
import ClassicalPlanner.Proofs.Session.History
import ClassicalPlanner.Proofs.Session.Reachable

/-!
# Operations as chains of requests

Whatever an operation does to the store, it does by requests that are granted one after the other
(`Grants`).  A request is `Founded` if the keys it lists are registered when it is granted.  A
compound that is granted is founded, for the store looks at its arguments.  It does not look at the
atoms of a world, so whether those are registered depends on the operation.

A world that is read from text is founded.  So is the world after an effect, if the store is
`Intact`, that is, if all parts of its nodes are registered.  Only a world that is asked for by its
atoms need not be; then the operation `Strays` (`Operation.asks`).
-/

namespace ClassicalPlanner

/-- The parts of all nodes are registered. -/
def NodeStore.Intact (store : NodeStore) : Prop :=
  ∀ {k n}, store.find? k = some n → ∀ a ∈ n.parts, store.contains a

namespace Session

variable {s s' : Session} {store store' : NodeStore} {α β : Type} {k a : Key} {stray : Prop}
variable {r : Request} {old new : SymbolId} {n : Nat} {w upper lower : World} {c : Changes}

namespace Request

/-- The keys that the request lists. -/
def parts : Request → List Key
  | .compound _ args => args
  | .world atoms => atoms
  | _ => []

/-- The keys that the request lists are registered. -/
def Founded (store : NodeStore) (r : Request) : Prop := ∀ a ∈ r.parts, store.contains a

/-- What is granted has the node, made of the keys listed, put under the key. -/
theorem place_adds (h : r.place store = .ok (k, store')) : ∃ n, store.Adds k n store' ∧
    (∀ a, a ∈ n.parts ↔ a ∈ r.parts) ∧ (n.IsCompound → r.Founded store) := by
  cases r with
  | constant c =>
      cases h
      exact ⟨_, store.adds_addConstant c, fun _ => Iff.rfl,
        fun compound => absurd compound (NodeStore.not_isCompound_constant c)⟩
  | «variable» v g =>
      exact ⟨_, NodeStore.adds_addVariable h, fun _ => Iff.rfl,
        fun compound => absurd compound (NodeStore.not_isCompound_variable v g)⟩
  | compound kind args =>
      obtain ⟨n, hn, registered, adds⟩ := NodeStore.adds_addCompound h
      have parts := (Node.isCompound_of_ofKind hn).parts
      rw [Node.args_of_ofKind hn] at registered parts
      exact ⟨n, adds, fun a => by rw [parts]; rfl, fun _ => registered⟩
  | world atoms =>
      simp only [place] at h
      cases hw : store.addWorld (.ofList atoms) with
      | error e => rw [hw] at h; cases h
      | ok placed =>
          rw [hw] at h
          cases h
          refine ⟨_, NodeStore.adds_addWorld hw, fun a => ?_,
            fun compound => absurd compound (NodeStore.not_isCompound_world _)⟩
          rw [Node.parts, Std.ExtTreeSet.mem_toList, Std.ExtTreeSet.mem_ofList,
            List.contains_iff_mem]
          rfl

end Request

/-- Requests granted one after the other, each with its key.  All are founded, unless requests may
stray. -/
inductive Grants (stray : Prop) : NodeStore → List (Request × Key) → NodeStore → Prop where
  | nil (store : NodeStore) : Grants stray store [] store
  | cons {store store₁ store' : NodeStore} {r : Request} {k : Key} {log : List (Request × Key)}
      (granted : r.place store = .ok (k, store₁)) (founded : r.Founded store ∨ stray)
      (rest : Grants stray store₁ log store') : Grants stray store ((r, k) :: log) store'

theorem Grants.trans {store₁ : NodeStore} {log log' : List (Request × Key)}
    (h : Grants stray store log store₁) (h' : Grants stray store₁ log' store') :
    Grants stray store (log ++ log') store' := by
  induction h with
  | nil => exact h'
  | cons granted founded _ ih => exact .cons granted founded (ih h')

theorem Grants.mono {stray' : Prop} {log : List (Request × Key)} (h : Grants stray store log store')
    (imp : stray → stray') : Grants stray' store log store' := by
  induction h with
  | nil => exact .nil _
  | cons granted founded _ ih => exact .cons granted (founded.imp_right imp) ih

/-- The store of the second session is reached from that of the first by requests. -/
def Asks (stray : Prop) (s s' : Session) : Prop := ∃ log, Grants stray s.store log s'.store

instance : IsPreorder Session (Asks stray) where
  refl s := ⟨[], .nil s.store⟩
  trans _ _ _ := fun ⟨_, h⟩ ⟨_, h'⟩ => ⟨_, h.trans h'⟩

theorem asks_of_store (h : s'.store = s.store) : Asks stray s s' :=
  ⟨[], by rw [h]; exact .nil s.store⟩

/-! ### Requests -/

theorem asks_run (r : Request) (s : Session)
    (founded : ∀ {k store}, r.place s.store = .ok (k, store) → r.Founded s.store ∨ stray) :
    Asks stray s (r.run s).2 := by
  rcases hr : r.run s with ⟨e | k, s'⟩
  · exact asks_of_store (congrArg Session.store (Request.run_eq_error hr))
  · obtain ⟨store, granted, rfl⟩ := Request.run_eq_ok hr
    exact ⟨_, .cons granted (founded granted) (.nil _)⟩

theorem moves_addConstantOf (c : SymbolId) :
    Moves (Asks stray) (liftM (addConstantOf c) : SessionM Key) :=
  fun s => asks_run (.constant c) s fun _ => .inl fun _ h => absurd h List.not_mem_nil

theorem moves_addVariableOf (v g : SymbolId) :
    Moves (Asks stray) (register (·.addVariable v g)) :=
  fun s => asks_run (.variable v g) s fun _ => .inl fun _ h => absurd h List.not_mem_nil

/-- A compound that is granted is founded. -/
theorem moves_addCompound (kind : Kind) (args : List Key) :
    Moves (Asks stray) (addCompound kind args) :=
  fun s => asks_run (.compound kind args) s fun granted =>
    .inl (Request.allowed_of_place granted).2.1

/-- A world is as founded as its atoms are. -/
theorem asks_addWorld {atoms : AtomSet} (s : Session)
    (founded : (addWorld atoms s).1.isOk → (∀ a ∈ atoms, s.store.contains a) ∨ stray) :
    Asks stray s (addWorld atoms s).2 := by
  have same : Std.ExtTreeSet.ofList atoms.toList = atoms := Std.ExtTreeSet.ext_mem fun a => by
    rw [Std.ExtTreeSet.mem_ofList, List.contains_iff_mem, Std.ExtTreeSet.mem_toList]
  have run : Request.run (.world atoms.toList) s =
      ((addWorld atoms s).1.map World.key, (addWorld atoms s).2) := by
    rw [Request.run, same, run_map]
  have asks : Asks stray s (Request.run (.world atoms.toList) s).2 := by
    refine asks_run _ s fun {k store} granted => ?_
    have ok := Request.run_of_place granted
    rw [run] at ok
    refine (founded ?_).imp_left fun registered a ha =>
      registered a (Std.ExtTreeSet.mem_toList.mp ha)
    cases added : (addWorld atoms s).1 with
    | ok w => rfl
    | error e => rw [added] at ok; cases ok
  rwa [run] at asks

/-! ### Words and texts -/

theorem moves_intern (text : String) : Moves (Asks stray) (intern text) :=
  fun _ => asks_of_store rfl

theorem moves_addConstant (text : String) : Moves (Asks stray) (addConstant text) :=
  .bindState (moves_intern text) fun c => moves_addConstantOf c

theorem moves_addVariable (text group : String) : Moves (Asks stray) (addVariable text group) :=
  .bind (.lift (moves_intern text)) fun v => .bind (.lift (moves_intern group)) fun g =>
    moves_addVariableOf v g

theorem moves_addFormula (kind : Kind) (args : List Key) (sawVariable : Bool) :
    Moves (Asks stray) (addFormula kind args sawVariable) := by
  unfold addFormula
  split
  · exact moves_addCompound _ _
  · exact moves_addCompound _ _
  · split
    · exact .result _
    · exact moves_addCompound _ _
  · exact moves_addCompound _ _

mutual

theorem moves_addFragment : ∀ fragment : Fragment, Moves (Asks stray) (addFragment fragment)
  | .word word => moves_addConstant word
  | .group _ (.word word :: rest) => by
      unfold addFragment
      split
      · exact .bind (moves_addArguments rest) fun _ => moves_addFormula _ _ _
      · exact .bind (moves_addArguments (.word word :: rest)) fun _ => moves_addFormula _ _ _
  | .group _ [] => by
      unfold addFragment
      exact .bind (moves_addArguments []) fun _ => moves_addFormula _ _ _
  | .group _ (.group text parts :: rest) => by
      unfold addFragment
      exact .bind (moves_addArguments (.group text parts :: rest)) fun _ => moves_addFormula _ _ _

theorem moves_addArguments : ∀ fragments : List Fragment,
    Moves (Asks stray) (addArguments fragments)
  | [] => .result _
  | fragment :: rest => by
      unfold addArguments
      split
      · rename_i after _
        exact .bind (moves_addVariable _ _) fun _ => .bind (moves_addArguments after) fun _ =>
          .result _
      · exact .bind (moves_addVariable _ _) fun _ => .result _
      · rename_i rest _ _ _ _ _ _
        exact .bind (moves_addVariable _ _) fun _ => .bind (moves_addArguments rest) fun _ =>
          .result _
      · rename_i rest _ _ _
        exact .bind (moves_addFragment fragment) fun _ => .bind (moves_addArguments rest) fun _ =>
          .result _

end

theorem moves_parse (text : String) : Moves (Asks stray) (parse text) := by
  unfold parse
  split
  · exact moves_addFragment _
  · exact .result _

/-! ### Substitution -/

theorem moves_node (k : Key) : Moves (Asks stray) (node k) := .reading _

theorem moves_withDepth {f : Nat → SessionM α} (h : ∀ n, Moves (Asks stray) (f n)) :
    Moves (Asks stray) (liftM depth >>= f) := .bind (fun _ => asks_of_store rfl) h

theorem moves_substituteWithin : Moves (Asks stray) (substituteWithin old new n k) := by
  have rebuild (k : Key) (kind : Kind) (before after : List Key) :
      Moves (Asks stray) (substituteWithin.rebuild k kind before after) := by
    unfold substituteWithin.rebuild
    split
    · exact .result _
    · exact moves_addCompound _ _
  induction n generalizing k with
  | zero => exact .result _
  | succ n ih =>
      refine .bind (moves_node k) fun node => ?_
      cases node with
      | constant c =>
          simp only
          split
          · exact moves_addConstantOf new
          · exact .result _
      | «variable» v g =>
          simp only
          split
          · exact moves_addConstantOf new
          · exact .result _
      | world atoms => exact .result _
      | existential b body | universal b body => exact .bind ih fun _ => rebuild _ _ _ _
      | _ => exact .bind (.mapM (fun _ => ih) _) fun _ => rebuild _ _ _ _

theorem moves_substitute (k : Key) (old new : SymbolId) :
    Moves (Asks stray) (substitute k old new) := moves_withDepth fun _ => moves_substituteWithin

theorem moves_instances (b k : Key) : Moves (Asks stray) (instances b k) := by
  refine .bind (moves_node b) fun node => ?_
  cases node with
  | «variable» v g =>
      exact .bind (fun _ => asks_of_store rfl) fun s => .mapM (fun _ => moves_substitute k v _) _
  | _ => exact .result _

/-! ### Evaluation -/

theorem moves_holds (w : World) (k : Key) : Moves (Asks stray) (holds w k) :=
  .bind (.reading _) fun _ => .result _

theorem moves_laxEvaluateWithin : Moves (Asks stray) (laxEvaluateWithin n k upper lower) := by
  induction n generalizing k upper lower with
  | zero => exact .result _
  | succ n ih =>
      have all (ks : List Key) :
          Moves (Asks stray) (ks.allM (laxEvaluateWithin n · upper lower)) := .allM (fun _ => ih) ks
      have any (ks : List Key) :
          Moves (Asks stray) (ks.anyM (laxEvaluateWithin n · upper lower)) := .anyM (fun _ => ih) ks
      refine .bind (moves_node k) fun node => ?_
      cases node with
      | atom p terms => exact moves_holds upper k
      | and parts => exact all parts
      | or parts => exact any parts
      | not part => exact .bind ih fun _ => .result _
      | equals a b => exact .result _
      | imply a b =>
          refine .bind ih fun holds => ?_
          cases holds with
          | true => exact ih
          | false => exact .result _
      | existential b body => exact .bind (moves_instances b body) fun ks => any ks
      | universal b body => exact .bind (moves_instances b body) fun ks => all ks
      | _ => exact .result _

theorem moves_laxEvaluate (k : Key) (upper lower : World) :
    Moves (Asks stray) (laxEvaluate k upper lower) :=
  moves_withDepth fun _ => moves_laxEvaluateWithin

theorem moves_evaluate (k : Key) (w : World) : Moves (Asks stray) (evaluate k w) :=
  laxEvaluate_self k w ▸ moves_laxEvaluate k w w

/-! ### Effects -/

theorem moves_collectWithin {g : Key → SessionM Bool} (hg : ∀ k, Moves (Asks stray) (g k)) :
    Moves (Asks stray) (changesFrom c (collectWithin g n k)) := by
  induction n generalizing k c with
  | zero => exact .result _
  | succ n ih =>
      rw [changesFrom_collectWithin]
      refine .bind (moves_node k) fun node => ?_
      cases node with
      | atom p terms => exact .result _
      | and parts => exact .foldlM (fun _ _ => ih) parts c
      | not part => exact .bind ih fun _ => .result _
      | when guard effect =>
          refine .bind (hg guard) fun holds => ?_
          cases holds with
          | true => exact ih
          | false => exact .result _
      | universal b body =>
          exact .bind (moves_instances b body) fun ks => .foldlM (fun _ _ => ih) ks c
      | _ => exact .result _

theorem moves_collect (c : Changes) (k : Key) (w : World) :
    Moves (Asks stray) (changesFrom c (collect k w)) := by
  rw [changesFrom_collect]
  exact moves_withDepth fun _ => moves_collectWithin fun k => moves_evaluate k w

theorem moves_collectAll (c : Changes) (k : Key) :
    Moves (Asks stray) (changesFrom c (collectAll k)) := by
  rw [changesFrom_collectAll]
  exact moves_withDepth fun _ => moves_collectWithin fun _ => .result _

/-! ### What is collected -/

theorem registers_node {K : List Key} (k : Key) : Registers K (node k) fun _ => [k] := by
  refine ⟨additive_node k, fun _ _ h => ?_⟩
  obtain ⟨found, rfl⟩ := node_eq_ok h
  exact contains_of_find? found

theorem keys_swap_subset : c.swap.keys ⊆ c.keys :=
  List.append_subset.mpr ⟨List.subset_append_right _ _, List.subset_append_left _ _⟩

/-- What is collected is registered. -/
theorem registers_collectWithin {g : Key → SessionM Bool} (hg : ∀ k, Additive (g k)) :
    Registers c.keys (changesFrom c (collectWithin g n k)) Changes.keys := by
  induction n generalizing k c with
  | zero => exact .throw _
  | succ n ih =>
      rw [changesFrom_collectWithin]
      refine .bind (registers_node k) fun node => ?_
      have all (ks : List Key) : Registers (c.keys ++ [k])
          (ks.foldlM (fun c k => changesFrom c (collectWithin g n k)) c) Changes.keys :=
        (Registers.foldlM (K := []) fun _ _ _ => ih).weaken (List.subset_append_left _ _)
      have inner (k' : Key) : Registers (c.keys ++ [k])
          (changesFrom c (collectWithin g n k')) Changes.keys :=
        ih.weaken (List.subset_append_left _ _)
      cases node with
      | atom p terms =>
          refine .pure fun a ha => ?_
          simp only [Changes.keys, List.mem_append, Std.ExtTreeSet.mem_toList, List.mem_singleton,
            Std.ExtTreeSet.mem_insert, Std.LawfulEqOrd.compare_eq_iff_eq] at ha ⊢
          tauto
      | and parts => exact all parts
      | not part =>
          refine .bind (ih.weaken (List.Subset.trans keys_swap_subset
            (List.subset_append_left _ _))) fun c' => .pure ?_
          exact List.Subset.trans keys_swap_subset (List.subset_append_right _ _)
      | when guard effect =>
          refine .seq (hg guard) fun holds => ?_
          cases holds with
          | true => exact inner effect
          | false => exact .pure (List.subset_append_left _ _)
      | universal b body => exact .seq (settles_instances b body).additive fun ks => all ks
      | _ => exact .throw _

theorem registers_collect (c : Changes) (k : Key) (w : World) :
    Registers c.keys (changesFrom c (collect k w)) Changes.keys := by
  rw [changesFrom_collect]
  exact .seq (fun s hs => ⟨le_refl s, hs⟩) fun _ =>
    registers_collectWithin fun k => (settles_evaluate k w).additive

/-! ### Operations -/

/-- An operation that does not stray asks for no less than one that may. -/
theorem Asks.mono (h : Asks False s s') : Asks stray s s' :=
  h.imp fun _ grants => grants.mono False.elim

/-- A founded request leaves an intact store. -/
theorem Request.place_intact (h : store.Intact) (founded : r.Founded store)
    (granted : r.place store = .ok (k, store')) : store'.Intact := by
  obtain ⟨n, adds, parts, -⟩ := place_adds granted
  intro k' m found a ha
  refine adds.known_iff.mpr (.inl ?_)
  rcases adds.find? found with rfl | old
  · exact founded a ((parts a).mp ha)
  · exact h old a ha

theorem Grants.intact {log : List (Request × Key)} (h : Grants False store log store')
    (intact : store.Intact) : store'.Intact := by
  induction h with
  | nil => exact intact
  | cons granted founded _ ih =>
      exact ih (Request.place_intact intact (founded.resolve_right id) granted)

/-- Granting requests keeps count of the numbers given. -/
theorem Grants.counted {log : List (Request × Key)} (h : Grants stray store log store')
    (counted : store.Counted) : store'.Counted := by
  induction h with
  | nil => exact counted
  | cons granted _ _ ih => exact ih (Request.place_counted counted granted)

/-- A world that is read from text is founded. -/
theorem asks_makeWorld (hs : s.Canonical) (atoms : List String)
    (groups : List (String × List String)) : Asks stray s (makeWorld atoms groups s).2 := by
  rw [makeWorld_eq]
  refine trans_of _ (asks_of_store (store_setGroups groups s)) ?_
  have fits := canonical_setGroups hs groups
  have registers := Registers.mapM (K := []) (registers_parse ·) atoms
  have read := Moves.mapM (R := Asks stray) moves_parse atoms (setGroups groups s).2
  rw [run_bind]
  rcases hkeys : atoms.mapM parse (setGroups groups s).2 with ⟨e | keys, s₁⟩ <;>
    rw [hkeys] at read
  · exact read
  · have known := registers.knows fits (fun k hk => absurd hk List.not_mem_nil) hkeys
    refine trans_of _ read (asks_addWorld s₁ fun _ => .inl fun k hk => known k ?_)
    rw [Std.ExtTreeSet.mem_ofList, List.contains_iff_mem] at hk
    simpa using hk

/-- The world after an effect is founded if the store is intact. -/
theorem asks_apply (hs : s.Canonical) (intact : s.store.Intact) (w : World) (k : Key) :
    Asks False s (apply w k s).2 := by
  have collected : Asks False s (changesFrom ∅ (collect k w) s).2 := moves_collect ∅ k w s
  rw [apply, run_bind]
  rcases hc : changesFrom ∅ (collect k w) s with ⟨e | c, s₁⟩ <;> rw [hc] at collected
  · exact collected
  · have known := (registers_collect ∅ k w).knows hs knows_empty hc
    obtain ⟨log, grants⟩ := collected
    have intact₁ : s₁.store.Intact := grants.intact intact
    refine trans_of (Asks False) ⟨log, grants⟩ ?_
    change Asks False s₁ ((atoms w >>= fun a => addWorld (c.applyTo a)) s₁).2
    rw [run_bind]
    rcases ha : atoms w s₁ with ⟨e | a, s₂⟩
    · obtain ⟨-, rfl⟩ := Prod.mk.inj ha
      exact refl_of _ _
    · obtain ⟨found, rfl⟩ := atoms_eq_ok_iff.mp ha
      refine asks_addWorld s₂ fun _ => .inl fun k hk => ?_
      rcases mem_applyTo.mp hk with ⟨old, -⟩ | new
      · exact intact₁ found k (Std.ExtTreeSet.mem_toList.mpr old)
      · exact known k (List.mem_append_left _ (Std.ExtTreeSet.mem_toList.mpr new))

/-- The operation registers a world with an atom that is not registered. -/
def Operation.Strays : Operation → Session → Prop
  | .addWorld atoms, s =>
      (Session.addWorld atoms s).1.isOk ∧ ∃ a ∈ atoms, ¬s.store.contains a
  | _, _ => False

/-- **Every operation but a reset** is a chain of requests.  They are founded if the store is intact
and the operation does not stray. -/
theorem Operation.asks {op : Operation} (hop : op ≠ .reset) (hs : s.Canonical)
    (h : s.store.Intact ∧ ¬op.Strays s ∨ stray) : Asks stray s (op.run s) := by
  cases op with
  | reset => exact absurd rfl hop
  | intern text => exact moves_intern text s
  | addConstant text => exact moves_addConstant text s
  | addVariable text group => exact moves_addVariable text group s
  | addCompound kind args => exact moves_addCompound kind args s
  | addWorld atoms =>
      refine asks_addWorld s fun granted => h.imp_left fun ⟨_, sure⟩ a ha => ?_
      by_contra missing
      exact sure ⟨granted, a, ha, missing⟩
  | setGroups groups => exact asks_of_store (store_setGroups groups s)
  | makeWorld atoms groups => exact asks_makeWorld hs atoms groups
  | parse text => exact moves_parse text s
  | substitute k old new => exact moves_substitute k old new s
  | substituteAll k bindings =>
      exact Moves.foldlM (R := Asks stray) (fun k (old, new) => moves_substitute k old new)
        bindings k s
  | evaluate k w => exact moves_evaluate k w s
  | laxEvaluate k upper lower => exact moves_laxEvaluate k upper lower s
  | collect c k w =>
      have moved : Asks stray s (changesFrom c (Session.collect k w) s).2 := moves_collect c k w s
      rwa [session_changesFrom] at moved
  | collectAll c k =>
      have moved : Asks stray s (changesFrom c (Session.collectAll k) s).2 := moves_collectAll c k s
      rwa [session_changesFrom] at moved
  | apply w k =>
      rcases h with ⟨intact, -⟩ | stray
      · exact (asks_apply hs intact w k).mono
      · refine Moves.bind (R := Asks _) (moves_collect ∅ k w) (fun c => ?_) s
        exact .bind (.reading _) fun a s => asks_addWorld s fun _ => .inr stray

/-- In every session there can be, the last number given is how many lists have one. -/
theorem Reachable.counted (h : s.Reachable) : s.store.Counted := by
  induction h with
  | empty => exact NodeStore.counted_empty
  | step h op ih =>
      by_cases hop : op = .reset
      · rw [hop]
        exact NodeStore.counted_empty
      · obtain ⟨log, grants⟩ : Asks True _ _ := Operation.asks hop h.canonical (.inr trivial)
        exact grants.counted ih

end Session

end ClassicalPlanner
