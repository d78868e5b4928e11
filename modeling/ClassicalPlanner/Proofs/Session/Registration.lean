import ClassicalPlanner.Session.Parse
import ClassicalPlanner.Proofs.Session.Substitution
import ClassicalPlanner.Proofs.Session.World

/-!
# What operations register

`Registers K x keys` says that `x` only adds and that, where the keys in `K` are registered,
so are afterwards the keys in its result.  A formula that is read registers the key it gives
(`registers_parse`), so a world made of formulas shows a set of trees (`makeWorld_eq_ok`).
-/

namespace ClassicalPlanner

namespace Session

variable {s s' : Session} {k : Key} {α β : Type} {K : List Key}

/-- All keys in the list are registered. -/
def Knows (s : Session) (ks : List Key) : Prop := ∀ k ∈ ks, s.store.contains k

theorem Knows.mono {ks : List Key} (h : s.Knows ks) (grow : s ≤ s') : s'.Knows ks :=
  fun k hk => grow.store.contains (h k hk)

theorem knows_append {ks ls : List Key} : s.Knows (ks ++ ls) ↔ s.Knows ks ∧ s.Knows ls :=
  List.forall_mem_append

/-- The operation only adds, and if the keys in `K` are registered then so are those in its
result. -/
structure Registers (K : List Key) (x : SessionM α) (keys : α → List Key) : Prop where
  additive : Additive x
  knows : ∀ {s a s'}, s.Canonical → s.Knows K → x s = (.ok a, s') → s'.Knows (keys a)

namespace Registers

variable {keys : α → List Key} {keys' : β → List Key}

theorem ofAdditive {x : SessionM α} (h : Additive x) : Registers K x fun _ => [] :=
  ⟨h, fun _ _ _ _ hk => absurd hk List.not_mem_nil⟩

theorem pure {a : α} (h : keys a ⊆ K) : Registers K (pure a) keys :=
  ⟨.pure a, fun {s _ s'} _ hn h' => by
    cases h'
    exact fun k hk => hn k (h hk)⟩

theorem throw (e : FormulaError) : Registers K (throw e) keys :=
  ⟨.throw e, fun _ _ h => by cases h⟩

theorem weaken {x : SessionM α} {K' : List Key} (h : Registers K x keys)
    (hn : K ⊆ K') : Registers K' x keys :=
  ⟨h.additive, fun hs hk => h.knows hs fun k hk' => hk k (hn hk')⟩

theorem bind {x : SessionM α} {f : α → SessionM β} (hx : Registers K x keys)
    (hf : ∀ a, Registers (K ++ keys a) (f a) keys') : Registers K (x >>= f) keys' := by
  refine ⟨.bind hx.additive fun a => (hf a).additive, fun {s b s'} hs hn h => ?_⟩
  obtain ⟨a, s₁, h₁, h₂⟩ := run_bind_eq_ok.mp h
  obtain ⟨grow, fits⟩ := hx.additive.of_run hs h₁
  exact (hf a).knows fits (knows_append.mpr ⟨hn.mono grow, hx.knows hs hn h₁⟩) h₂

/-- An operation that gives no key. -/
theorem seq {x : SessionM α} {f : α → SessionM β} (hx : Additive x)
    (hf : ∀ a, Registers K (f a) keys') : Registers K (x >>= f) keys' :=
  bind (ofAdditive hx) fun a => (hf a).weaken (List.subset_append_left _ _)

theorem mapM {f : α → SessionM β} (hf : ∀ a, Registers K (f a) keys') (l : List α) :
    Registers K (l.mapM f) fun bs => bs.flatMap keys' := by
  induction l with
  | nil => exact pure (List.nil_subset _)
  | cons a l ih =>
      rw [List.mapM_cons]
      refine bind (hf a) fun b => bind (ih.weaken (List.subset_append_left _ _)) fun bs => pure ?_
      rw [List.flatMap_cons, List.append_assoc]
      exact List.subset_append_right _ _

theorem foldlM {f : β → α → SessionM β} {l : List α} {b : β}
    (hf : ∀ b, ∀ a ∈ l, Registers (K ++ keys' b) (f b a) keys') :
    Registers (K ++ keys' b) (l.foldlM f b) keys' := by
  induction l generalizing b with
  | nil => exact pure (List.subset_append_right _ _)
  | cons a l ih =>
      refine bind (hf b a List.mem_cons_self) fun b' => ?_
      refine (ih fun b a ha => hf b a (List.mem_cons_of_mem _ ha)).weaken ?_
      rw [List.append_assoc]
      exact List.append_subset.mpr ⟨List.subset_append_left _ _,
        List.Subset.trans (List.subset_append_right _ _) (List.subset_append_right _ _)⟩

end Registers

/-! ### Formulas -/

theorem contains_of_find? {n : Node} (h : s.store.find? k = some n) : s.Knows [k] :=
  List.forall_mem_singleton.mpr (NodeStore.contains_iff.mpr ⟨n, h⟩)

theorem registers_substitute (old new : SymbolId) :
    Registers [k] (substitute k old new) fun k => [k] := by
  refine ⟨(settles_substitute k old new).additive, fun {s k' s'} hs hn h => ?_⟩
  obtain ⟨t, ht, -⟩ := hs.exists_denotes (hn k List.mem_cons_self)
  exact List.forall_mem_singleton.mpr ((answers_substitute hs ht old new).denotes h).contains

theorem registers_addConstant (text : String) :
    Registers K (liftM (addConstant text)) fun k => [k] := by
  have additive : Additive (addConstant text) :=
    .bindState (additive_intern text) fun c => (settles_addConstantOf c).additive
  refine ⟨additive.lift, fun {s k s'} hs _ h => ?_⟩
  obtain ⟨-, -, found⟩ := NodeStore.Canonical.addConstant hs (intern text s).1
  obtain ⟨⟨⟩, rfl⟩ := Prod.mk.inj h
  exact contains_of_find? found

theorem registers_addVariable (text group : String) :
    Registers K (addVariable text group) fun k => [k] := by
  refine .seq (.lift (additive_intern text)) fun v => .seq (.lift (additive_intern group)) fun g =>
    ⟨(settles_addVariableOf v g).additive, fun {s k s'} hs _ h => ?_⟩
  obtain ⟨store, added, rfl⟩ := register_eq_ok h
  obtain ⟨-, -, found⟩ := NodeStore.Canonical.addVariable hs added
  exact contains_of_find? found

theorem registers_addCompound (kind : Kind) (args : List Key) :
    Registers K (addCompound kind args) fun k => [k] := by
  refine ⟨(settles_addCompound kind args).additive, fun {s k s'} hs _ h => ?_⟩
  obtain ⟨store, added, rfl⟩ := register_eq_ok h
  obtain ⟨-, -, n, -, found⟩ := NodeStore.Canonical.addCompound hs added
  exact contains_of_find? found

theorem registers_addFormula (kind : Kind) (args : List Key) (sawVariable : Bool) :
    Registers args (addFormula kind args sawVariable) fun k => [k] := by
  unfold addFormula
  split
  · exact registers_addCompound _ _
  · exact registers_addCompound _ _
  · split
    · exact .pure (List.Subset.refl _)
    · exact registers_addCompound _ _
  · exact registers_addCompound _ _

theorem registers_consArguments {x : SessionM Key} {rest : SessionM (List Key × Bool)}
    (sawVariable : Bool → Bool) (hx : Registers K x fun k => [k])
    (hrest : Registers K rest Prod.fst) :
    Registers K (do
      let arg ← x
      let (args, saw) ← rest
      return (arg :: args, sawVariable saw)) Prod.fst := by
  refine .bind hx fun arg => .bind (hrest.weaken (List.subset_append_left _ _)) fun result => ?_
  refine .pure (List.cons_subset.mpr ⟨?_, List.subset_append_right _ _⟩)
  exact List.mem_append_left _ (List.mem_append_right _ List.mem_cons_self)

mutual

theorem registers_addFragment : ∀ fragment : Fragment,
    Registers K (addFragment fragment) fun k => [k]
  | .word word => registers_addConstant word
  | .group _ (.word word :: rest) => by
      unfold addFragment
      split
      · refine .bind (registers_addArguments rest) fun result => ?_
        exact (registers_addFormula _ _ _).weaken (List.subset_append_right _ _)
      · refine .bind (registers_addArguments (.word word :: rest)) fun result => ?_
        exact (registers_addFormula _ _ _).weaken (List.subset_append_right _ _)
  | .group _ [] => by
      unfold addFragment
      refine .bind (registers_addArguments []) fun result => ?_
      exact (registers_addFormula _ _ _).weaken (List.subset_append_right _ _)
  | .group _ (.group text parts :: rest) => by
      unfold addFragment
      refine .bind (registers_addArguments (.group text parts :: rest)) fun result => ?_
      exact (registers_addFormula _ _ _).weaken (List.subset_append_right _ _)

theorem registers_addArguments : ∀ fragments : List Fragment,
    Registers K (addArguments fragments) Prod.fst
  | [] => .pure (List.nil_subset _)
  | fragment :: rest => by
      unfold addArguments
      split
      · rename_i name group after _
        exact registers_consArguments (fun _ => true) (registers_addVariable name group.text)
          (registers_addArguments after)
      · rename_i name _
        exact .bind (registers_addVariable name "") fun _ => .pure (List.subset_append_right _ _)
      · rename_i rest _ _ name _ _ _
        exact registers_consArguments (fun _ => true) (registers_addVariable name "")
          (registers_addArguments rest)
      · rename_i rest _ _ _
        exact registers_consArguments id (registers_addFragment fragment)
          (registers_addArguments rest)

end

/-- A formula that is read is registered. -/
theorem registers_parse (text : String) : Registers K (parse text) fun k => [k] := by
  unfold parse
  split
  · exact registers_addFragment _
  · exact .throw _

/-! ### Groups and worlds -/

/-- Groups are no expressions. -/
theorem store_setGroups (groups : List (String × List String)) (s : Session) :
    (setGroups groups s).2.store = s.store := by
  have interned : ∀ (words : List String) (s : Session),
      (words.mapM intern s).2.store = s.store := by
    intro words
    induction words with
    | nil => intro s; rfl
    | cons word words ih =>
        intro s
        rw [List.mapM_cons]
        exact ih (intern word s).2
  have added : ∀ (l : List (String × List String)) (s : Session),
      (l.forM (fun entry => addMembers entry.1 entry.2) s).2.store = s.store := by
    intro l
    induction l with
    | nil => intro s; rfl
    | cons entry l ih =>
        intro s
        exact (ih _).trans (interned entry.2 _)
  exact added groups { s with groups := ∅ }

theorem canonical_setGroups (hs : s.Canonical) (groups : List (String × List String)) :
    (setGroups groups s).2.Canonical := by
  rw [Canonical, store_setGroups]
  exact hs

theorem makeWorld_eq (atoms : List String) (groups : List (String × List String)) (s : Session) :
    makeWorld atoms groups s =
      (atoms.mapM parse >>= fun keys => addWorld (.ofList keys)) (setGroups groups s).2 := rfl

/-- **A world of formulas** shows a set of trees. -/
theorem makeWorld_eq_ok {atoms : List String} {groups : List (String × List String)} {w : World}
    (hs : s.Canonical) (h : makeWorld atoms groups s = (.ok w, s')) :
    s'.Canonical ∧ ∃ W, s'.Shows w W := by
  rw [makeWorld_eq] at h
  obtain ⟨keys, s₁, hkeys, hw⟩ := run_bind_eq_ok.mp h
  have registers := Registers.mapM (K := []) (registers_parse ·) atoms
  obtain ⟨-, fits⟩ := registers.additive.of_run (canonical_setGroups hs groups) hkeys
  have known := registers.knows (canonical_setGroups hs groups)
    (fun k hk => absurd hk List.not_mem_nil) hkeys
  obtain ⟨grow, fits'⟩ := (settles_addWorld _).additive.of_run fits hw
  obtain ⟨W, lists⟩ := exists_lists (a := .ofList keys) fits fun k hk => by
    rw [Std.ExtTreeSet.mem_ofList, List.contains_iff_mem] at hk
    exact known k (by simpa using hk)
  exact ⟨fits', W, _, addWorld_eq_ok fits hw, lists.mono grow⟩

end Session

end ClassicalPlanner
