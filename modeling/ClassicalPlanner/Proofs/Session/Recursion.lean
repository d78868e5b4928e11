import ClassicalPlanner.Proofs.Session.Reachable

/-!
# Recursion without a bound

The operations of a session stop at a bound on the length of a chain of arguments.  Here the same
recursions are written without a bound, so that a call may come to no result, and each is shown to
end as the bounded one does (`recursions_halt`).  The key may be any, registered or not.

What they recurse on are keys, and the instances of a quantifier are keys that the call itself
registers.  The measure is the height of the tree that a key denotes: every registered key has a
finite one, an argument has a smaller one, and substitution keeps it (`noHigher_instances`).
-/

namespace ClassicalPlanner

namespace Session

/-- An operation on a session that may also run for ever. -/
abbrev UnboundedM := ExceptT FormulaError (StateT Session Option)

/-- An operation that collects changes and may also run for ever. -/
abbrev UnboundedChangesM := ExceptT FormulaError (StateT Changes (StateT Session Option))

namespace Unbounded

/-- An operation that ends. -/
def ending {α : Type} (x : SessionM α) : UnboundedM α := fun s => some (x s)

/-- Runs an operation on a session while changes are being collected. -/
def collecting {α : Type} (x : UnboundedM α) : UnboundedChangesM α :=
  fun changes s => do
    let (result, s) ← x s
    return ((result, changes), s)

end Unbounded

end Session

namespace Key

open Session Unbounded

/-- Replaces `old` by `new`, as long as there are arguments. -/
def substituteUnbounded (key : Key) (old new : SymbolId) : UnboundedM Key := do
  match ← ending (node key) with
  | .constant symbol => if symbol = old then ending (liftM (addConstantOf new)) else pure key
  | .variable symbol group =>
    if group = .none ∧ symbol = old then ending (liftM (addConstantOf new)) else pure key
  | .world _ => pure key
  | .existential binder body =>
    let body' ← body |>.substituteUnbounded old new
    ending (substituteWithin.rebuild key .existential [binder, body] [binder, body'])
  | .universal binder body =>
    let body' ← body |>.substituteUnbounded old new
    ending (substituteWithin.rebuild key .universal [binder, body] [binder, body'])
  | node =>
    let args ← node.args.mapM (· |>.substituteUnbounded old new)
    ending (substituteWithin.rebuild key node.kind node.args args)
partial_fixpoint

/-- The bodies that a quantifier stands for. -/
def instancesUnbounded (binder body : Key) : UnboundedM (List Key) := do
  match ← ending (node binder) with
  | .variable symbol group =>
    let members := (← get).members group
    members.mapM (body.substituteUnbounded symbol ·)
  | other => throw (.misplaced other.kind .quantifierVariable)

/-- Whether a condition holds in a world. -/
def evaluateUnbounded (key : Key) (world : World) : UnboundedM Bool := do
  match ← ending (node key) with
  | .atom _ _ => ending (holds world key)
  | .and parts => parts.allM (· |>.evaluateUnbounded world)
  | .or parts => parts.anyM (· |>.evaluateUnbounded world)
  | .not part => return !(← part |>.evaluateUnbounded world)
  | .equals left right => return left == right
  | .imply antecedent consequent =>
    if ← antecedent |>.evaluateUnbounded world then consequent |>.evaluateUnbounded world
    else pure true
  | .existential binder body =>
    (← binder.instancesUnbounded body).anyM (· |>.evaluateUnbounded world)
  | .universal binder body =>
    (← binder.instancesUnbounded body).allM (· |>.evaluateUnbounded world)
  | other => throw (.misplaced other.kind .condition)
partial_fixpoint

/-- Whether a condition may hold in a world between `lower` and `upper`. -/
def laxEvaluateUnbounded (key : Key) (upper lower : World) : UnboundedM Bool := do
  match ← ending (node key) with
  | .atom _ _ => ending (holds upper key)
  | .and parts => parts.allM (· |>.laxEvaluateUnbounded upper lower)
  | .or parts => parts.anyM (· |>.laxEvaluateUnbounded upper lower)
  | .not part => return !(← part |>.laxEvaluateUnbounded lower upper)
  | .equals left right => return left == right
  | .imply antecedent consequent =>
    if ← antecedent |>.laxEvaluateUnbounded lower upper then
      consequent |>.laxEvaluateUnbounded upper lower
    else pure true
  | .existential binder body =>
    (← binder.instancesUnbounded body).anyM (· |>.laxEvaluateUnbounded upper lower)
  | .universal binder body =>
    (← binder.instancesUnbounded body).allM (· |>.laxEvaluateUnbounded upper lower)
  | other => throw (.misplaced other.kind .condition)
partial_fixpoint

/-- Collects what an effect changes, given which guards hold. -/
def collectGivenUnbounded (guardHolds : Key → UnboundedM Bool) (key : Key) :
    UnboundedChangesM Unit := do
  match ← collecting (ending (node key)) with
  | .atom _ _ =>
    (modify fun changes => { changes with add := changes.add.insert key } : UnboundedChangesM Unit)
  | .and parts => parts.forM (· |>.collectGivenUnbounded guardHolds)
  | .not part => fun changes s => do
    let ((result, changes), s) ← part |>.collectGivenUnbounded guardHolds changes.swap s
    return ((result, changes.swap), s)
  | .when guard effect =>
    if ← collecting (guardHolds guard) then effect |>.collectGivenUnbounded guardHolds
  | .universal binder body =>
    (← collecting (binder.instancesUnbounded body)).forM (· |>.collectGivenUnbounded guardHolds)
  | other => throw (.misplaced other.kind .effect)
partial_fixpoint

/-- Collects what an effect changes in a world. -/
def collectUnbounded (effect : Key) (world : World) : UnboundedChangesM Unit :=
  effect.collectGivenUnbounded (·.evaluateUnbounded world)

/-- Collects what an effect may change in any world. -/
def collectAllUnbounded (effect : Key) : UnboundedChangesM Unit :=
  effect.collectGivenUnbounded fun _ => pure true

end Key

namespace Session

variable {s s' : Session} {k : Key} {n : Nat} {old new : SymbolId} {w upper lower : World}
variable {α β : Type}

/-! ### Ending as a bounded operation does -/

/-- From `s`, the recursion without a bound ends as `x` does. -/
def HaltsAs (x : SessionM α) (y : UnboundedM α) (s : Session) : Prop := y s = some (x s)

namespace HaltsAs

open Unbounded

variable {x : SessionM α} {y : UnboundedM α} {f : α → SessionM β} {g : α → UnboundedM β}

theorem ending (x : SessionM α) (s : Session) : HaltsAs x (ending x) s := rfl

theorem pure (a : α) (s : Session) : HaltsAs (pure a) (pure a) s := rfl

theorem throw (e : FormulaError) (s : Session) :
    HaltsAs (throw e : SessionM α) (throw e) s := rfl

theorem bind (hx : HaltsAs x y s)
    (hf : ∀ a s', x s = (.ok a, s') → HaltsAs (f a) (g a) s') :
    HaltsAs (x >>= f) (y >>= g) s := by
  have unfolded : (y >>= g) s = y s >>= fun (r, s') => ExceptT.bindCont g r s' := rfl
  unfold HaltsAs at hx ⊢
  rw [unfolded, hx, run_bind]
  rcases h : x s with ⟨e | a, s'⟩
  · rfl
  · exact hf a s' h

/-- After an operation that only adds. -/
theorem bind_additive (hs : s.Canonical) (additive : Additive x) (hx : HaltsAs x y s)
    (hf : ∀ a s', s ≤ s' → s'.Canonical → x s = (.ok a, s') → HaltsAs (f a) (g a) s') :
    HaltsAs (x >>= f) (y >>= g) s :=
  .bind hx fun a s' h =>
    have ⟨grow, fits⟩ := additive.of_run hs h
    hf a s' grow fits h

/-- At a key, whatever is registered under it. -/
theorem node {f : Node → SessionM β} {g : Node → UnboundedM β}
    (h : ∀ node, s.store.find? k = some node → HaltsAs (f node) (g node) s) :
    HaltsAs (node k >>= f) (Unbounded.ending (Session.node k) >>= g) s :=
  .bind (.ending _ s) fun node s' found => by
    obtain ⟨found, rfl⟩ := node_eq_ok found
    exact h node found

section Lists

variable {f : α → SessionM β} {g : α → UnboundedM β} {l : List α}

theorem mapM (hs : s.Canonical) (additive : ∀ a, Additive (f a))
    (h : ∀ a ∈ l, ∀ s', s ≤ s' → s'.Canonical → HaltsAs (f a) (g a) s') :
    HaltsAs (l.mapM f) (l.mapM g) s := by
  induction l generalizing s with
  | nil => exact .pure [] s
  | cons a l ih =>
      obtain ⟨first, rest⟩ := List.forall_mem_cons.mp h
      rw [List.mapM_cons, List.mapM_cons]
      refine .bind_additive hs (additive a) (first s (le_refl s) hs) fun b s₁ grow fits _ => ?_
      exact .bind (ih fits fun a ha s₂ grow' => rest a ha s₂ (grow.trans grow'))
        fun bs s₂ _ => .pure _ s₂

variable {f : α → SessionM Bool} {g : α → UnboundedM Bool}

theorem allM (hs : s.Canonical) (additive : ∀ a, Additive (f a))
    (h : ∀ a ∈ l, ∀ s', s ≤ s' → s'.Canonical → HaltsAs (f a) (g a) s') :
    HaltsAs (l.allM f) (l.allM g) s := by
  induction l generalizing s with
  | nil => exact .pure true s
  | cons a l ih =>
      obtain ⟨first, rest⟩ := List.forall_mem_cons.mp h
      refine .bind_additive hs (additive a) (first s (le_refl s) hs) fun b s₁ grow fits _ => ?_
      cases b with
      | false => exact .pure false s₁
      | true => exact ih fits fun a ha s₂ grow' => rest a ha s₂ (grow.trans grow')

theorem anyM (hs : s.Canonical) (additive : ∀ a, Additive (f a))
    (h : ∀ a ∈ l, ∀ s', s ≤ s' → s'.Canonical → HaltsAs (f a) (g a) s') :
    HaltsAs (l.anyM f) (l.anyM g) s := by
  induction l generalizing s with
  | nil => exact .pure false s
  | cons a l ih =>
      obtain ⟨first, rest⟩ := List.forall_mem_cons.mp h
      refine .bind_additive hs (additive a) (first s (le_refl s) hs) fun b s₁ grow fits _ => ?_
      cases b with
      | true => exact .pure true s₁
      | false => exact ih fits fun a ha s₂ grow' => rest a ha s₂ (grow.trans grow')

end Lists

end HaltsAs

/-! ### The height of what a key denotes -/

/-- The key denotes a tree of at most this height. -/
def NoHigher (s : Session) (n : Nat) (k : Key) : Prop :=
  ∃ t, s.store.Denotes k t ∧ t.height ≤ n

theorem NoHigher.mono (h : s.NoHigher n k) (grow : s ≤ s') : s'.NoHigher n k := by
  obtain ⟨t, ht, low⟩ := h
  exact ⟨t, ht.mono grow.store, low⟩

theorem not_noHigher_zero : ¬s.NoHigher 0 k := fun ⟨t, _, low⟩ => t.not_height_le_zero low

/-- Arguments are lower. -/
theorem NoHigher.args {node : Node} (h : s.NoHigher (n + 1) k)
    (found : s.store.find? k = some node) : ∀ a ∈ node.args, s.NoHigher n a := by
  obtain ⟨t, ht, low⟩ := h
  intro a ha
  -- only compounds have arguments
  have hn : node.IsCompound := by cases node <;> first | rfl | cases ha
  obtain ⟨ts, rfl, hts⟩ := ht.eq_compound found hn
  obtain ⟨t, mem, hat⟩ := NodeStore.forall₂_exists_right hts ha
  exact ⟨t, hat, Tree.height_compound_le.mp low t mem⟩

/-- **Instances are no higher** than the body. -/
theorem noHigher_instances {b : Key} {ks : List Key} (hs : s.Canonical) (hk : s.NoHigher n k)
    (h : instances b k s = (.ok ks, s')) : ∀ k' ∈ ks, s'.NoHigher n k' := by
  obtain ⟨t, ht, low⟩ := hk
  obtain ⟨node, s₁, found, rest⟩ := run_bind_eq_ok.mp h
  obtain ⟨found, rfl⟩ := node_eq_ok found
  cases node with
  | «variable» v g =>
      obtain ⟨_, ⟨⟩, hks⟩ := (answers_instances hs (.var found) ht).of_ok h (le_refl s')
      intro k' hk'
      obtain ⟨t', mem, ht'⟩ := NodeStore.forall₂_exists_right hks hk'
      obtain ⟨c, -, rfl⟩ := List.mem_map.mp mem
      exact ⟨_, ht', t.height_subst.trans_le low⟩
  | _ => cases rest

/-- What holds of a key with one argument more in a chain, once it holds of all lower keys in every
later session, holds of any key when the chain may be as long as there are expressions.  The key
need not be registered. -/
theorem induction_of_height {P : Nat → Key → Session → Prop}
    (step : ∀ {n k s}, s.Canonical → (∀ a s', s ≤ s' → s'.Canonical → s'.NoHigher n a → P n a s') →
      (∀ node, s.store.find? k = some node → ∀ a ∈ node.args, s.NoHigher n a) → P (n + 1) k s)
    (hs : s.Canonical) (k : Key) : P (s.size + 1) k s := by
  -- a key that is no higher than `n` is registered, and so are its arguments, which are lower
  have lower (n : Nat) : ∀ a s', s ≤ s' → s'.Canonical → s'.NoHigher n a → P n a s' := by
    induction n with
    | zero => exact fun a s' _ _ ha => absurd ha not_noHigher_zero
    | succ n ih =>
        exact fun a s' grow fits ha => step fits
          (fun a' s'' grow' => ih a' s'' (grow.trans grow')) fun node found => ha.args found
  refine step hs (lower s.size) fun node found => ?_
  obtain ⟨t, ht, low⟩ := hs.exists_denotes (NodeStore.contains_iff.mpr ⟨node, found⟩)
  exact NoHigher.args ⟨t, ht, Nat.le_succ_of_le low⟩ found

/-! ### The recursions end -/

theorem halts_substitute (hs : s.Canonical) (k : Key) (old new : SymbolId) :
    HaltsAs (substitute k old new) (k.substituteUnbounded old new) s := by
  refine induction_of_height (P := fun n k =>
    HaltsAs (substituteWithin old new n k) (k.substituteUnbounded old new)) ?_ hs k
  intro n k s hs below args
  rw [Key.substituteUnbounded, substituteWithin]
  refine .node fun node found => ?_
  have low := args node found
  have inner (k : Key) : Additive (substituteWithin old new n k) :=
    (repeats_substituteWithin (Nat.le_refl n)).additive
  cases node with
  | constant c =>
      simp only
      split
      · exact .ending _ s
      · exact .pure k s
  | «variable» v g =>
      simp only
      split
      · exact .ending _ s
      · exact .pure k s
  | world atoms => exact .pure k s
  | existential b body | universal b body =>
      exact .bind (below body s (le_refl s) hs (low body (by simp [Node.args])))
        fun _ s' _ => .ending _ s'
  | _ =>
      exact .bind (.mapM hs inner fun a ha s' grow fits =>
        below a s' grow fits ((low a ha).mono grow)) fun _ s' _ => .ending _ s'

theorem halts_instances (hs : s.Canonical) (b k : Key) :
    HaltsAs (instances b k) (b.instancesUnbounded k) s := by
  refine .node fun node found => ?_
  cases node with
  | «variable» v g =>
      exact .bind rfl fun t s₁ ht => by
        cases ht
        exact .mapM hs (fun c => (settles_substitute k v c).additive)
          fun c _ s' _ fits => halts_substitute fits k v c
  | _ => exact .throw _ s

/-- The body of a quantifier that is decided is in the range of its instances. -/
theorem HaltsAs.instances_bind {b body : Key} {f : List Key → SessionM β}
    {g : List Key → UnboundedM β} (hs : s.Canonical) (low : s.NoHigher n body)
    (h : ∀ ks s', s ≤ s' → s'.Canonical → (∀ k ∈ ks, s'.NoHigher n k) →
      HaltsAs (f ks) (g ks) s') :
    HaltsAs (instances b body >>= f) (b.instancesUnbounded body >>= g) s :=
  .bind_additive hs (settles_instances b body).additive (halts_instances hs b body)
    fun ks s' grow fits found => h ks s' grow fits (noHigher_instances hs low found)

/-- One turn of deciding a condition: `holds` looks up an atom, `positive` decides a part, and
`negative` a part that is negated or an antecedent. -/
def condition {m : Type → Type} [Monad m] [MonadExcept FormulaError m] (holds : Key → m Bool)
    (instances : Key → Key → m (List Key)) (positive negative : Key → m Bool) (key : Key) :
    Node → m Bool
  | .atom _ _ => holds key
  | .and parts => parts.allM positive
  | .or parts => parts.anyM positive
  | .not part => return !(← negative part)
  | .equals left right => return left == right
  | .imply antecedent consequent => do
    if ← negative antecedent then positive consequent else pure true
  | .existential binder body => do (← instances binder body).anyM positive
  | .universal binder body => do (← instances binder body).allM positive
  | other => throw (.misplaced other.kind .condition)

theorem laxEvaluateWithin_succ (n : Nat) (k : Key) (upper lower : World) :
    laxEvaluateWithin (n + 1) k upper lower = node k >>= condition (holds upper) instances
      (laxEvaluateWithin n · upper lower) (laxEvaluateWithin n · lower upper) k := by
  rw [laxEvaluateWithin]
  rfl

theorem laxEvaluateUnbounded_eq (k : Key) (upper lower : World) :
    k.laxEvaluateUnbounded upper lower = Unbounded.ending (node k) >>=
      condition (fun k => Unbounded.ending (holds upper k)) Key.instancesUnbounded
        (·.laxEvaluateUnbounded upper lower) (·.laxEvaluateUnbounded lower upper) k := by
  rw [Key.laxEvaluateUnbounded]
  rfl

theorem evaluateUnbounded_eq (k : Key) (w : World) :
    k.evaluateUnbounded w = Unbounded.ending (node k) >>=
      condition (fun k => Unbounded.ending (holds w k)) Key.instancesUnbounded
        (·.evaluateUnbounded w) (·.evaluateUnbounded w) k := by
  rw [Key.evaluateUnbounded]
  rfl

theorem HaltsAs.condition {node : Node} {x x' : Key → SessionM Bool} {y y' : Key → UnboundedM Bool}
    (hs : s.Canonical) (low : ∀ a ∈ node.args, s.NoHigher n a)
    (additive : ∀ a, Additive (x a)) (additive' : ∀ a, Additive (x' a))
    (positive : ∀ a s', s ≤ s' → s'.Canonical → s'.NoHigher n a → HaltsAs (x a) (y a) s')
    (negative : ∀ a s', s ≤ s' → s'.Canonical → s'.NoHigher n a → HaltsAs (x' a) (y' a) s') :
    HaltsAs (condition (holds w) instances x x' k node)
      (Session.condition (fun k => Unbounded.ending (holds w k)) Key.instancesUnbounded y y' k node)
      s := by
  have parts {ks : List Key} {s' : Session} (grow : s ≤ s') (low : ∀ a ∈ ks, s'.NoHigher n a) :
      ∀ a ∈ ks, ∀ s'', s' ≤ s'' → s''.Canonical → HaltsAs (x a) (y a) s'' :=
    fun a ha s'' grow' fits => positive a s'' (grow.trans grow') fits ((low a ha).mono grow')
  cases node with
  | atom p terms => exact .ending _ s
  | and ks => exact .allM hs additive (parts (le_refl s) low)
  | or ks => exact .anyM hs additive (parts (le_refl s) low)
  | not a =>
      exact .bind (negative a s (le_refl s) hs (low a List.mem_cons_self)) fun _ s' _ => .pure _ s'
  | equals a b => exact .pure _ s
  | imply a b =>
      obtain ⟨lowA, lowB⟩ := List.forall_mem_cons.mp low
      refine .bind_additive hs (additive' a) (negative a s (le_refl s) hs lowA)
        fun holds s' grow fits _ => ?_
      cases holds with
      | true => exact parts (le_refl s) lowB b List.mem_cons_self s' grow fits
      | false => exact .pure true s'
  | existential b body =>
      exact .instances_bind hs (low body (List.mem_cons_of_mem _ List.mem_cons_self))
        fun ks s' grow fits level => .anyM fits additive (parts grow level)
  | universal b body =>
      exact .instances_bind hs (low body (List.mem_cons_of_mem _ List.mem_cons_self))
        fun ks s' grow fits level => .allM fits additive (parts grow level)
  | _ => exact .throw _ s

theorem halts_laxEvaluate (hs : s.Canonical) (k : Key) (upper lower : World) :
    HaltsAs (laxEvaluate k upper lower) (k.laxEvaluateUnbounded upper lower) s := by
  refine induction_of_height (P := fun n k s => ∀ upper lower,
    HaltsAs (laxEvaluateWithin n k upper lower) (k.laxEvaluateUnbounded upper lower) s) ?_
    hs k upper lower
  intro n k s hs below args upper lower
  rw [laxEvaluateUnbounded_eq, laxEvaluateWithin_succ]
  have additive (u l : World) (a : Key) : Additive (laxEvaluateWithin n a u l) :=
    (repeats_laxEvaluateWithin (Nat.le_refl n)).additive
  exact .node fun node found => .condition hs (args node found) (additive upper lower)
    (additive lower upper) (fun a s' grow fits low => below a s' grow fits low upper lower)
    fun a s' grow fits low => below a s' grow fits low lower upper

theorem halts_evaluate (hs : s.Canonical) (k : Key) (w : World) :
    HaltsAs (evaluate k w) (k.evaluateUnbounded w) s := by
  refine induction_of_height (P := fun n k =>
    HaltsAs (evaluateWithin w n k) (k.evaluateUnbounded w)) ?_ hs k
  intro n k s hs below args
  simp only [evaluateWithin_eq] at below ⊢
  rw [evaluateUnbounded_eq, laxEvaluateWithin_succ]
  have additive (a : Key) : Additive (laxEvaluateWithin n a w w) :=
    (repeats_laxEvaluateWithin (Nat.le_refl n)).additive
  exact .node fun node found => .condition hs (args node found) additive additive below below

/-! ### Collections end -/

/-- From `c` and `s`, the collection without a bound ends as `x` does. -/
def CollectsAs (x : ChangesM α) (y : UnboundedChangesM α) (c : Changes) (s : Session) : Prop :=
  y c s = some (x c s)

/-- Whatever has been collected, the collection only adds to the session. -/
def AdditiveFrom (x : ChangesM Unit) : Prop := ∀ c, Additive (changesFrom c x)

theorem AdditiveFrom.of_run {x : ChangesM Unit} {c : Changes} (hx : AdditiveFrom x)
    (hs : s.Canonical) : s ≤ (x c s).2 ∧ (x c s).2.Canonical := by
  have both := hx c s hs
  rwa [session_changesFrom] at both

namespace CollectsAs

variable {c : Changes}

theorem bind {x : ChangesM α} {y : UnboundedChangesM α} {f : α → ChangesM β}
    {g : α → UnboundedChangesM β} (hx : CollectsAs x y c s)
    (hf : ∀ a c' s', x c s = ((.ok a, c'), s') → CollectsAs (f a) (g a) c' s') :
    CollectsAs (x >>= f) (y >>= g) c s := by
  have unfolded : (y >>= g) c s = y c s >>= fun (r, s') => ExceptT.bindCont g r.1 r.2 s' := rfl
  unfold CollectsAs at hx ⊢
  rw [unfolded, hx, run_bind_carrying]
  rcases h : x c s with ⟨⟨e | a, c'⟩, s'⟩
  · rfl
  · exact hf a c' s' h

theorem collecting {x : SessionM α} {y : UnboundedM α} (h : HaltsAs x y s) (c : Changes) :
    CollectsAs (collecting x) (Unbounded.collecting y) c s := by
  have unfolded : Unbounded.collecting y c s = y s >>= fun (r, s') => some ((r, c), s') := rfl
  unfold CollectsAs
  unfold HaltsAs at h
  rw [unfolded, h]
  rfl

theorem collecting_bind {x : SessionM α} {y : UnboundedM α} {f : α → ChangesM β}
    {g : α → UnboundedChangesM β} (hs : s.Canonical) (additive : Additive x) (hx : HaltsAs x y s)
    (hf : ∀ a s', s ≤ s' → s'.Canonical → x s = (.ok a, s') → CollectsAs (f a) (g a) c s') :
    CollectsAs (Session.collecting x >>= f) (Unbounded.collecting y >>= g) c s := by
  refine .bind (.collecting hx c) fun a c' s' collected => ?_
  obtain ⟨h, rfl⟩ : x s = (.ok a, s') ∧ c = c' := by
    rcases hx : x s with ⟨r, s₁⟩
    unfold Session.collecting at collected
    rw [hx] at collected
    cases collected
    exact ⟨rfl, rfl⟩
  obtain ⟨grow, fits⟩ := additive.of_run hs h
  exact hf a s' grow fits h

theorem forM {f : Key → ChangesM Unit} {g : Key → UnboundedChangesM Unit} {ks : List Key}
    (hs : s.Canonical) (additive : ∀ k, AdditiveFrom (f k))
    (h : ∀ k ∈ ks, ∀ c s', s ≤ s' → s'.Canonical → CollectsAs (f k) (g k) c s') :
    CollectsAs (ks.forM f) (ks.forM g) c s := by
  induction ks generalizing c s with
  | nil => rfl
  | cons k ks ih =>
      obtain ⟨first, rest⟩ := List.forall_mem_cons.mp h
      refine .bind (first c s (le_refl s) hs) fun _ c' s' h => ?_
      obtain ⟨grow, fits⟩ := (additive k).of_run (c := c) hs
      rw [h] at grow fits
      exact ih fits fun k hk c s'' grow' => rest k hk c s'' (grow.trans grow')

theorem swapped {x : ChangesM Unit} {y : UnboundedChangesM Unit} (h : CollectsAs x y c.swap s) :
    CollectsAs (swapped x) (fun changes s => do
      let ((result, changes), s) ← y changes.swap s
      return ((result, changes.swap), s)) c s := by
  unfold CollectsAs at h ⊢
  simp only [h]
  rfl

end CollectsAs

theorem halts_collectGiven {f : Key → SessionM Bool} {g : Key → UnboundedM Bool}
    (again : ∀ k, Repeats (f k) (f k)) (hg : ∀ k s, s.Canonical → HaltsAs (f k) (g k) s)
    (hs : s.Canonical) (k : Key) (c : Changes) :
    CollectsAs (collectWithin f (s.size + 1) k) (k.collectGivenUnbounded g) c s := by
  refine induction_of_height (P := fun n k s => ∀ c,
    CollectsAs (collectWithin f n k) (k.collectGivenUnbounded g) c s) ?_ hs k c
  intro n k s hs below args c
  rw [Key.collectGivenUnbounded, collectWithin]
  have additive (k : Key) : AdditiveFrom (collectWithin f n k) :=
    fun _ => (repeats_collectWithin again (Nat.le_refl n)).additive
  refine .collecting_bind hs (additive_node k) (.ending _ s) fun node s' _ _ found => ?_
  obtain ⟨found, rfl⟩ := node_eq_ok found
  have low := args node found
  have parts {s'' : Session} {ks : List Key} (grow : s' ≤ s'') (low : ∀ a ∈ ks, s''.NoHigher n a) :
      ∀ a ∈ ks, ∀ c s₃, s'' ≤ s₃ → s₃.Canonical →
        CollectsAs (collectWithin f n a) (a.collectGivenUnbounded g) c s₃ :=
    fun a ha c s₃ grow' fits => below a s₃ (grow.trans grow') fits ((low a ha).mono grow') c
  cases node with
  | atom p terms => rfl
  | and ks => exact .forM hs additive (parts (le_refl s') low)
  | not a =>
      exact .swapped (parts (le_refl s') low a List.mem_cons_self c.swap s' (le_refl s') hs)
  | when guard effect =>
      refine .collecting_bind hs (again guard).additive (hg guard s' hs)
        fun holds s'' grow fits _ => ?_
      cases holds with
      | true =>
          exact parts (le_refl s') low effect (List.mem_cons_of_mem _ List.mem_cons_self) c s'' grow
            fits
      | false => rfl
  | universal b body =>
      have lowBody := low body (List.mem_cons_of_mem _ List.mem_cons_self)
      exact .collecting_bind hs (settles_instances b body).additive (halts_instances hs b body)
        fun ks s'' grow fits found =>
          .forM fits additive (parts grow (noHigher_instances hs lowBody found))
  | _ => rfl

/-- **Every recursion ends**, on any key and in any world, registered or not, in every session there
can be: without a bound on the length of a chain of arguments it comes to the result and the session
that it comes to with the bound.  The height of a registered expression is finite, and substitution
does not increase it. -/
theorem recursions_halt (reached : s.Reachable) (k : Key) (w upper lower : World)
    (old new : SymbolId) (c : Changes) :
    k.evaluateUnbounded w s = some (evaluate k w s) ∧
    k.laxEvaluateUnbounded upper lower s = some (laxEvaluate k upper lower s) ∧
    k.collectUnbounded w c s = some (collect k w c s) ∧
    k.collectAllUnbounded c s = some (collectAll k c s) ∧
    k.substituteUnbounded old new s = some (substitute k old new s) ∧
    (s.store.contains k → ∃ t, s.store.Denotes k t ∧ ∀ k' s',
      substitute k old new s = (.ok k', s') →
        ∃ t', s'.store.Denotes k' t' ∧ t'.height ≤ t.height) := by
  have hs := reached.canonical
  refine ⟨halts_evaluate hs k w, halts_laxEvaluate hs k upper lower,
    halts_collectGiven (fun k => repeats_evaluate k w) (fun k s hs => halts_evaluate hs k w) hs k c,
    halts_collectGiven (fun _ => .pure true) (fun _ s _ => .pure true s) hs k c,
    halts_substitute hs k old new, fun there => ?_⟩
  obtain ⟨t, ht, -⟩ := hs.exists_denotes there
  refine ⟨t, ht, fun k' s' h => ⟨_, (answers_substitute hs ht old new).denotes h, ?_⟩⟩
  exact Nat.le_of_eq t.height_subst

/-- Two rooms with a door between them.  It is asked whether each room has a door, and each room
with a door loses the one into itself. -/
def corridor : Session := runAll
  [.makeWorld ["(door hall bath)", "(door bath hall)"] [("room", ["hall", "bath"])],
    .parse "(forall (?x - room) (exists (?y - room) (door ?x ?y)))",
    .parse "(forall (?x - room) (when (exists (?y - room) (door ?x ?y)) (not (door ?x ?x))))"] ∅

/-- Both formulas instantiate bodies with quantifiers in them; nothing is registered under the
last key. -/
theorem recursions_halt_corridor :
    corridor.Reachable ∧
    (evaluate (.ofKind .universal 8) ⟨.ofKind .world 3⟩ corridor).1 = .ok true ∧
    corridor.size < (evaluate (.ofKind .universal 8) ⟨.ofKind .world 3⟩ corridor).2.size ∧
    Key.evaluateUnbounded (.ofKind .universal 8) ⟨.ofKind .world 3⟩ corridor =
      some (evaluate (.ofKind .universal 8) ⟨.ofKind .world 3⟩ corridor) ∧
    (collect (.ofKind .universal 12) ⟨.ofKind .world 3⟩ ∅ corridor).1.1.isOk ∧
    Key.collectUnbounded (.ofKind .universal 12) ⟨.ofKind .world 3⟩ ∅ corridor =
      some (collect (.ofKind .universal 12) ⟨.ofKind .world 3⟩ ∅ corridor) ∧
    ¬corridor.store.contains (.ofKind .and 99) ∧
    Key.evaluateUnbounded (.ofKind .and 99) ⟨.ofKind .world 3⟩ corridor =
      some (.error (.unknownExpression (.ofKind .and 99)), corridor) := by
  have reached : corridor.Reachable := Reachable.empty.runAll _
  have halts (k : Key) := recursions_halt reached k ⟨.ofKind .world 3⟩ ⟨.ofKind .world 3⟩
    ⟨.ofKind .world 3⟩ ⟨1⟩ ⟨2⟩ ∅
  -- together, so that the session is computed once
  have facts : (evaluate (.ofKind .universal 8) ⟨.ofKind .world 3⟩ corridor).1 = .ok true ∧
      corridor.size < (evaluate (.ofKind .universal 8) ⟨.ofKind .world 3⟩ corridor).2.size ∧
      (collect (.ofKind .universal 12) ⟨.ofKind .world 3⟩ ∅ corridor).1.1.isOk ∧
      ¬corridor.store.contains (.ofKind .and 99) := by decide +kernel
  obtain ⟨holds, more, collects, absent⟩ := facts
  exact ⟨reached, holds, more, (halts _).1, collects, (halts _).2.2.1, absent,
    evaluate_of_not_contains absent _ ▸ (halts (.ofKind .and 99)).1⟩

end Session

end ClassicalPlanner
