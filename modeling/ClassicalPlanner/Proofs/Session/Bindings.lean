import ClassicalPlanner.Proofs.Session.Rebuild

/-!
# Substitution of several symbols

`substituteAll` replaces one symbol after the other, over keys that are different for each order.
The trees of these keys do not show it in the end: if no symbol is bound twice, and none that is put
in is bound, the last one is the tree with all symbols replaced at once.  So the last key is the
same for every order, and replacing the symbols again changes nothing (`substitution_order`).
-/

namespace ClassicalPlanner

namespace Tree

variable {bindings order : List (SymbolId × SymbolId)}

theorem Separate.perm (h : Separate bindings) (perm : order.Perm bindings) : Separate order := by
  intro b hb mem
  exact h b (perm.mem_iff.mp hb) ((perm.map Prod.fst).mem_iff.mp mem)

/-- Every order of the bindings replaces all symbols at once. -/
theorem foldl_subst_perm (separate : Separate bindings) (distinct : (bindings.map Prod.fst).Nodup)
    (perm : order.Perm bindings) (t : Tree) :
    order.foldl (fun t b => t.subst b.1 b.2) t = t.replace (bindings.lookup ·) := by
  rw [foldl_subst (separate.perm perm), funext (lookup_perm distinct perm)]

end Tree

namespace Session

variable {s s' F : Session} {k : Key} {t : Tree} {bindings : List (SymbolId × SymbolId)}

/-- **Substitution of several symbols** is substitution on trees, one after the other. -/
theorem answers_substituteAll (hs : s.Canonical) (ht : s.store.Denotes k t)
    (bindings : List (SymbolId × SymbolId)) : Answers F (substituteAll k bindings) s
      (IsKeyOf (bindings.foldl (fun t b => t.subst b.1 b.2) t)) := by
  induction bindings generalizing s k t with
  | nil => exact .pure ⟨k, rfl, ht⟩
  | cons b bindings ih =>
      obtain ⟨old, new⟩ := b
      refine .bind hs (repeats_substitute k old new).additive
        (fun k => (repeats_substituteAll k bindings).additive) (answers_substitute hs ht old new)
        (fun h => h.not_error.elim) ?_
      rintro k' s' - fits ⟨_, ⟨⟩, ht'⟩
      exact ih fits ht'

/-- Symbols that have no place where they could be replaced can all be substituted, and nothing is
registered. -/
theorem substituteAll_eq_self (hs : s.Canonical) (ht : s.store.Denotes k t)
    (h : ∀ b ∈ bindings, b.1 ∉ t.names) : substituteAll k bindings s = (.ok k, s) := by
  induction bindings with
  | nil => rfl
  | cons b bindings ih =>
      obtain ⟨first, rest⟩ := List.forall_mem_cons.mp h
      exact run_bind_eq_ok.mpr ⟨k, s, substitute_eq_self hs ht first, ih rest⟩

/-- Put in in any order, the symbols are replaced all at once. -/
theorem substituteAll_at_once {order : List (SymbolId × SymbolId)} (hs : s.Canonical)
    (ht : s.store.Denotes k t) (distinct : (bindings.map Prod.fst).Nodup)
    (separate : Tree.Separate bindings) (perm : order.Perm bindings) :
    Succeeds (substituteAll k order) s ∧ ∀ k' s', substituteAll k order s = (.ok k', s') →
      s.store ≤ s'.store ∧ s'.Canonical ∧
        s'.store.Denotes k' (t.replace (bindings.lookup ·)) := by
  have answer {F : Session} : Answers F (substituteAll k order) s
      (IsKeyOf (t.replace (bindings.lookup ·))) := by
    rw [← Tree.foldl_subst_perm separate distinct perm]
    exact answers_substituteAll hs ht order
  have again := repeats_substituteAll k order
  refine ⟨again.succeeds_of_error answer.eq_outOfNumbers, fun k' s' h => ?_⟩
  obtain ⟨grow, fits⟩ := again.additive.of_run hs h
  exact ⟨grow.store, fits, answer.denotes h⟩

/-- **The order of bindings does not matter.**  Take a session there can be, a key that it has, and
bindings of different symbols, such that no symbol that is put in is bound.  In every order they can
all be put in, unless the numbers run out, and what comes out is the key of the tree with all
symbols replaced at once.  From then on, whatever else is registered, every order gives this same
key, and every order of the same bindings leaves this key, and the session, as it is. -/
theorem substitution_order (reached : s.Reachable) (hk : s.store.contains k)
    (distinct : (bindings.map Prod.fst).Nodup) (separate : Tree.Separate bindings) :
    ∃ t, s.store.Denotes k t ∧ ∀ order, order.Perm bindings →
      Succeeds (substituteAll k order) s ∧
      ∀ k' s', substituteAll k order s = (.ok k', s') →
        s'.store.Denotes k' (t.replace (bindings.lookup ·)) ∧
        ∀ F, F.Reachable → s'.store ≤ F.store → ∀ order', order'.Perm bindings →
          Succeeds (substituteAll k order') F ∧
          (∀ k'' F', substituteAll k order' F = (.ok k'', F') → k'' = k') ∧
          substituteAll k' order' F = (.ok k', F) := by
  have hs := reached.canonical
  obtain ⟨t, ht, -⟩ := hs.exists_denotes hk
  refine ⟨t, ht, fun order perm => ?_⟩
  obtain ⟨succeeds, given⟩ := substituteAll_at_once hs ht distinct separate perm
  refine ⟨succeeds, fun k' s' h => ?_⟩
  obtain ⟨grow, -, ht'⟩ := given k' s' h
  refine ⟨ht', fun F reached' later order' perm' => ?_⟩
  have hF := reached'.canonical
  have replaced := ht'.mono later
  obtain ⟨succeeds', given'⟩ :=
    substituteAll_at_once hF (ht.mono (grow.trans later)) distinct separate perm'
  refine ⟨succeeds', fun k'' F' h' => ?_, ?_⟩
  · obtain ⟨grow', fits, ht''⟩ := given' k'' F' h'
    exact fits.denotes_injective ht'' (replaced.mono grow')
  · refine substituteAll_eq_self hF replaced fun b hb mem => ?_
    have unbound := Tree.lookup_eq_none_iff.mp (Tree.lookup_names_replace separate mem)
    exact unbound (List.mem_map_of_mem (perm'.mem_iff.mp hb))

namespace Road

/-- A road between any two places, and one between two that have names. -/
def session : Session := runAll [.parse "(linked ?x ?y)", .parse "(linked a b)"] ∅

def pattern : Key := .ofKind .atom 1

def road : Key := .ofKind .atom 2

/-- The one name for `?x`, and the other for `?y`. -/
def ends : List (SymbolId × SymbolId) := [(⟨2⟩, ⟨4⟩), (⟨3⟩, ⟨5⟩)]

end Road

/-- Over two different roads with one end open, both orders come to the road between the names. -/
theorem substitution_order_road : ∃ s', substituteAll Road.pattern Road.ends Road.session =
      (.ok Road.road, s') ∧
    (∀ k F, substituteAll Road.pattern Road.ends.reverse s' = (.ok k, F) → k = Road.road) ∧
    substituteAll Road.road Road.ends.reverse s' = (.ok Road.road, s') := by
  have reached : Road.session.Reachable := Reachable.empty.runAll _
  obtain ⟨known, given⟩ : Road.session.store.contains Road.pattern ∧
      (substituteAll Road.pattern Road.ends Road.session).1 = .ok Road.road := by decide +kernel
  have distinct : (Road.ends.map Prod.fst).Nodup := by decide
  have separate : Tree.Separate Road.ends := by decide
  obtain ⟨t, -, each⟩ := substitution_order reached known distinct separate
  have run := run_eq_of_result given
  have reached' : (substituteAll Road.pattern Road.ends Road.session).2.Reachable :=
    Stays.operation (.substituteAll Road.pattern Road.ends) (fun _ => rfl) _ reached
  generalize (substituteAll Road.pattern Road.ends Road.session).2 = s' at run reached'
  obtain ⟨-, after⟩ := each Road.ends (List.Perm.refl _)
  obtain ⟨-, same, again⟩ :=
    (after _ _ run).2 s' reached' (le_refl _) Road.ends.reverse (List.reverse_perm _)
  exact ⟨s', run, same, again⟩

end Session

end ClassicalPlanner
