import ClassicalPlanner.Proofs.Session.Client
import ClassicalPlanner.Proofs.Tree.Replacement

/-!
# Trees registered from the bottom up

`Tree.register` registers all nodes of a tree, arguments before what they are arguments of.  It
knows nothing of keys: it goes through the whole tree, shared parts again and again.

Registering the tree of a key gives the key, and leaves the session as it is
(`register_of_denotes`).  So substitution, which leaves alone the nodes whose arguments do not
change, does to the session what registering the new tree does, error or not
(`substitute_eq_register`).
-/

namespace ClassicalPlanner

open Session

/-- Registers all nodes of a tree, arguments first.  A world is registered by its atoms. -/
def Tree.register : Tree → SessionM Key
  | .constant c => liftM (addConstantOf c)
  | .var v g => Session.register (·.addVariable v g)
  | .world k => do return (← addWorld (← atoms ⟨k⟩)).key
  | .compound kind args => do addCompound kind (← args.mapM register)

namespace Session

variable {s s' : Session} {k : Key} {t : Tree} {n : Node} {old new : SymbolId} {α β γ : Type}

/-! ### Loops over arguments -/

/-- Two loops run alike if their steps do in every session that they come by. -/
theorem run_mapM_congr {f : α → SessionM β} {g : γ → SessionM β} {l : List α} {m : List γ}
    (hs : s.Canonical) (hf : ∀ a, Additive (f a))
    (h : List.Forall₂ (fun a c => ∀ s', s ≤ s' → s'.Canonical → f a s' = g c s') l m) :
    l.mapM f s = m.mapM g s := by
  induction l generalizing s m with
  | nil => cases h; rfl
  | cons a l ih =>
      cases h with
      | cons first rest =>
          rw [List.mapM_cons, List.mapM_cons, run_bind, run_bind, ← first s (le_refl s) hs]
          rcases ha : f a s with ⟨e | b, s₁⟩
          · rfl
          · obtain ⟨grow, fits⟩ := (hf a).of_run hs ha
            have same : l.mapM f s₁ = _ := ih fits <| rest.imp fun _ _ same s' grow' fits' =>
              same s' (grow.trans grow') fits'
            simp only [run_bind, same]

/-- A loop whose steps leave the session as it is does so, too. -/
theorem run_mapM_steady {f : α → SessionM β} {l : List α} {bs : List β}
    (h : List.Forall₂ (fun b a => f a s = (.ok b, s)) bs l) : l.mapM f s = (.ok bs, s) := by
  induction h with
  | nil => rfl
  | @cons b a bs l ha _ ih =>
      rw [List.mapM_cons]
      exact run_bind_eq_ok.mpr ⟨b, s, ha, run_bind_eq_ok.mpr ⟨bs, s, ih, rfl⟩⟩

theorem run_mapM_pair {f : α → SessionM β} {a a' : α} {b : β} (h : f a s = (.ok b, s)) :
    [a, a'].mapM f s = (f a' >>= fun b' => pure [b, b']) s := by
  rw [List.mapM_cons, run_bind, h, List.mapM_cons, List.mapM_nil]
  simp only [run_bind]
  rcases f a' s with ⟨e | b', s₁⟩ <;> rfl

/-! ### Registering what is there -/

/-- **Registering the tree of a key** gives the key and adds nothing. -/
theorem register_of_denotes (hs : s.Canonical) (ht : s.store.Denotes k t) :
    t.register s = (.ok k, s) := by
  induction t generalizing k with
  | constant c =>
      cases ht with
      | constant found =>
          rw [Tree.register]
          exact run_addConstantOf hs found
  | var v g =>
      cases ht with
      | var found =>
          rw [Tree.register]
          exact run_register (NodeStore.Canonical.addVariable_of_find? hs found)
  | world w =>
      cases ht with
      | @world _ a found =>
          have listed : atoms ⟨w⟩ s = (.ok a, s) := atoms_eq_ok_iff.mpr ⟨found, rfl⟩
          have again : addWorld a s = (.ok ⟨w⟩, s) :=
            run_register (NodeStore.Canonical.addWorld_of_find? hs found)
          rw [Tree.register]
          exact run_bind_eq_ok.mpr ⟨a, s, listed, run_bind_eq_ok.mpr ⟨⟨w⟩, s, again, rfl⟩⟩
  | compound kind ts ih =>
      cases ht with
      | @compound _ n _ found hn hts =>
          have args : ts.mapM Tree.register s = (.ok n.args, s) :=
            run_mapM_steady (NodeStore.forall₂_imp_mem hts fun a t mem ha => ih t mem ha)
          rw [Tree.register]
          exact run_bind_eq_ok.mpr ⟨n.args, s, args, run_addCompound hs found hn⟩

/-! ### Substitution -/

/-- Where the arguments have not changed, the compound over them is the one that was there. -/
theorem rebuild_eq_addCompound (hs : s.Canonical) (found : s.store.find? k = some n)
    (hn : n.IsCompound) (after : List Key) :
    substituteWithin.rebuild k n.kind n.args after s = addCompound n.kind after s := by
  unfold substituteWithin.rebuild
  split
  · rename_i same
    rw [same, run_addCompound hs found hn]
    rfl
  · rfl

/-- So it is after an operation that gives the new arguments. -/
theorem bind_rebuild_eq {x : SessionM α} (hs : s.Canonical) (hx : Additive x)
    (found : s.store.find? k = some n) (hn : n.IsCompound) (after : α → List Key) :
    (x >>= fun a => substituteWithin.rebuild k n.kind n.args (after a)) s =
      (x >>= fun a => addCompound n.kind (after a)) s := by
  obtain ⟨grow, fits⟩ := hx s hs
  rw [run_bind, run_bind]
  generalize x s = out at grow fits
  rcases out with ⟨e | a, s₁⟩
  · rfl
  · exact rebuild_eq_addCompound fits (grow.store.nodes found) hn (after a)

theorem substituteWithin_eq_register {d : Nat} (hs : s.Canonical) (ht : s.store.Denotes k t)
    (hd : t.height ≤ d) : substituteWithin old new d k s = (t.subst old new).register s := by
  induction d generalizing s k t with
  | zero => exact absurd hd t.not_height_le_zero
  | succ d ih =>
      have inner (k : Key) : Additive (substituteWithin old new d k) :=
        (repeats_substituteWithin (Nat.le_refl d)).additive
      cases ht with
      | @constant _ c found =>
          rw [substituteWithin, run_node_bind found, Tree.subst]
          by_cases same : c = old
          · simp only [if_pos same]
            rw [Tree.register]
          · simp only [if_neg same]
            rw [register_of_denotes hs (.constant found)]
            rfl
      | @var _ v g found =>
          rw [substituteWithin, run_node_bind found, Tree.subst]
          by_cases same : g = .none ∧ v = old
          · simp only [if_pos same]
            rw [Tree.register]
          · simp only [if_neg same]
            rw [register_of_denotes hs (.var found)]
            rfl
      | world found =>
          rw [substituteWithin, run_node_bind found, Tree.subst,
            register_of_denotes hs (.world found)]
          rfl
      | @compound _ n ts found hn hts =>
          have low := Tree.height_compound_le.mp hd
          have plain (hq : n.kind.isQuantifier = false) :
              (n.args.mapM (substituteWithin old new d) >>= fun after =>
                substituteWithin.rebuild k n.kind n.args after) s =
                ((Tree.compound n.kind ts).subst old new).register s := by
            have args : n.args.mapM (substituteWithin old new d) s =
                (ts.map (Tree.subst old new)).mapM Tree.register s := by
              refine run_mapM_congr hs inner ?_
              rw [List.forall₂_map_right_iff]
              exact NodeStore.forall₂_imp_mem hts fun a t mem ha s' grow' fits' =>
                ih fits' (ha.mono grow'.store) (low t mem)
            refine (bind_rebuild_eq hs (.mapM inner n.args) found hn id).trans ?_
            rw [Tree.subst_compound hq, Tree.register, run_bind, run_bind, args]
            rfl
          rw [substituteWithin, run_node_bind found]
          cases n with
          | constant | «variable» | world => exact absurd hn Bool.false_ne_true
          -- the binder of a quantifier is registered again, which does nothing
          | existential b body | universal b body =>
              obtain _ | @⟨_, tb, _, _, hb, _ | @⟨_, tbody, _, _, hbody, ⟨⟩⟩⟩ := hts
              have replaced := ih hs hbody (low _ (List.mem_cons_of_mem _ List.mem_cons_self))
              refine (bind_rebuild_eq hs (inner body) found hn fun body' => [b, body']).trans ?_
              rw [Tree.subst_quantifier rfl, Tree.register, run_bind, run_bind,
                run_mapM_pair (register_of_denotes hs hb), run_bind, replaced]
              rcases (Tree.subst old new tbody).register s with ⟨e | body', s₁⟩ <;> rfl
          | _ => exact plain rfl

/-- **Substitution does what registering the new tree does**, to the session as well. -/
theorem substitute_eq_register (hs : s.Canonical) (ht : s.store.Denotes k t) (old new : SymbolId) :
    substitute k old new s = (t.subst old new).register s :=
  substituteWithin_eq_register hs ht (Nat.le_succ_of_le (hs.height_le ht))

/-- Where there is nothing to replace, substitution gives the key and adds nothing. -/
theorem substitute_eq_self (hs : s.Canonical) (ht : s.store.Denotes k t) (h : old ∉ t.names) :
    substitute k old new s = (.ok k, s) := by
  rw [substitute_eq_register hs ht, Tree.subst_eq_self h]
  exact register_of_denotes hs ht

/-- **Substitution on shared nodes is substitution on trees.**  Take a session there can be, a key
that it has, and any two symbols.  Replacing the one by the other in the key does what registering
the new tree from the bottom up does, to the session as well, and fails only when the numbers have
run out.  The key that comes out is that of the new tree, registering this tree again gives it and
adds nothing, and it is the old key exactly if the tree has not changed.  If the symbol has no place
in the tree where it could be replaced, nothing is registered. -/
theorem substitution_rebuilds (reached : s.Reachable) (hk : s.store.contains k)
    (old new : SymbolId) :
    ∃ t, s.store.Denotes k t ∧
      substitute k old new s = (t.subst old new).register s ∧
      Succeeds (substitute k old new) s ∧
      (∀ k' s', substitute k old new s = (.ok k', s') →
        s'.store.Denotes k' (t.subst old new) ∧ (t.subst old new).register s' = (.ok k', s') ∧
          (k' = k ↔ t.subst old new = t)) ∧
      (old ∉ t.names → substitute k old new s = (.ok k, s)) := by
  have hs := reached.canonical
  obtain ⟨t, ht, -⟩ := hs.exists_denotes hk
  refine ⟨t, ht, substitute_eq_register hs ht old new,
    (repeats_substitute k old new).succeeds_of_error
      (answers_substitute hs ht old new).eq_outOfNumbers,
    fun k' s' h => ?_, substitute_eq_self hs ht⟩
  obtain ⟨grow, fits⟩ := (settles_substitute k old new).additive.of_run hs h
  have ht' := (answers_substitute hs ht old new).denotes h
  refine ⟨ht', register_of_denotes fits ht', ?_⟩
  constructor
  · rintro rfl
    exact ht'.unique (ht.mono grow.store)
  · intro same
    rw [same] at ht'
    exact fits.denotes_injective ht' (ht.mono grow.store)

namespace Twins

/-- Two doors are open. -/
def session : Session := (parse "(and (open a) (open b))" ∅).2

def whole : Key := .ofKind .and 3

/-- The first of the two, twice. -/
def merged : Key := .ofKind .and 4

end Twins

/-- The second door becomes the first, whose atom is there already. -/
theorem substitution_rebuilds_twins : ∃ t, Twins.session.store.Denotes Twins.whole t ∧
    ((t.subst ⟨3⟩ ⟨2⟩).register Twins.session).1 = .ok Twins.merged ∧ t.subst ⟨3⟩ ⟨2⟩ ≠ t := by
  have reached : Twins.session.Reachable := .step .empty (.parse "(and (open a) (open b))")
  have known : Twins.session.store.contains Twins.whole := by decide +kernel
  have given : (substitute Twins.whole ⟨3⟩ ⟨2⟩ Twins.session).1 = .ok Twins.merged := by
    decide +kernel
  obtain ⟨t, ht, same, -, result, -⟩ := substitution_rebuilds reached known ⟨3⟩ ⟨2⟩
  obtain ⟨-, -, stays⟩ := result _ _ (run_eq_of_result given)
  refine ⟨t, ht, by rw [← same, given], fun unchanged => ?_⟩
  exact absurd (stays.mpr unchanged) (by decide)

end Session

end ClassicalPlanner
