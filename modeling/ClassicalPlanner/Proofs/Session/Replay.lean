import ClassicalPlanner.Proofs.Session.World

/-!
# Operations that repeat

`Repeats x y` says more than that `x` and `y` settle: what `x` has once given, a value or an error,
`y` gives in every later session, and adds nothing.  Two kinds of errors need care.

* What is not there may be there later, so an error that says so need not come again
  (`FormulaError.Missing`).
* When the numbers have run out, a list without a number stays without one.  So a later session is
  one that has all expressions and, once the numbers have run out, no new lists (`Later`).

Like settling, repeating is kept by everything that operations are put together with.
-/

namespace ClassicalPlanner

/-- The error is that something is not there: a symbol, an expression, or an end to the chain of
arguments. -/
def FormulaError.Missing : FormulaError → Prop
  | .unknownSymbol _ | .unknownExpression _ | .circular _ => True
  | _ => False

/-- The error is that a formula is rejected: a part of it has the wrong number of arguments, or
cannot be used as it is. -/
def FormulaError.Rejection : FormulaError → Prop
  | .arity _ _ _ | .misplaced _ _ => True
  | _ => False

/-- The error is that a formula is rejected, or that the numbers have run out. -/
def FormulaError.Refusal (e : FormulaError) : Prop := e.Rejection ∨ e = .outOfNumbers

theorem FormulaError.Refusal.there {e : FormulaError} (h : e.Refusal) : ¬e.Missing := by
  rcases h with h | rfl
  · cases e <;> first | exact id | cases h
  · exact id

namespace NodeStore

variable {s s' s₁ : NodeStore} {l : List Key} {i : UInt32} {n : Node} {e : FormulaError}
variable {kind : Kind} {args : List Key} {k : Key} {w : World} {atoms : AtomSet}

/-- No list can get a new number. -/
def Full (s : NodeStore) : Prop := s.issued + 1 = 0

instance (s : NodeStore) : Decidable s.Full := inferInstanceAs (Decidable (_ = _))

/-- The same lists have a number. -/
structure SameNumbers (s s' : NodeStore) : Prop where
  signatures : s'.signatures = s.signatures
  issued : s'.issued = s.issued

theorem SameNumbers.trans {s₂ : NodeStore} (h : SameNumbers s s₁) (h' : SameNumbers s₁ s₂) :
    SameNumbers s s₂ :=
  ⟨h'.signatures.trans h.signatures, h'.issued.trans h.issued⟩

theorem SameNumbers.full (h : SameNumbers s s') (full : s.Full) : s'.Full := by
  rw [Full, h.issued]
  exact full

theorem sameNumbers_insertIfNew (s : NodeStore) (k : Key) (n : Node) :
    SameNumbers s (s.insertIfNew k n) := by
  unfold insertIfNew
  split <;> exact ⟨rfl, rfl⟩

/-! ### When the numbers have run out -/

/-- The only reason to refuse a number is that none is left. -/
theorem number_eq_error_iff :
    s.number l = .error e ↔ s.signatures[l]? = none ∧ s.Full ∧ e = .outOfNumbers := by
  unfold number Full
  cases s.signatures[l]? with
  | some i => exact iff_of_false (fun h => by cases h) fun h => by cases h.1
  | none =>
      by_cases full : s.issued + 1 = 0
      · simp [full, eq_comm]
      · simp [full]

theorem number_eq_ok_of_full (full : s.Full) (h : s.number l = .ok (i, s₁)) : s₁ = s := by
  unfold number at h
  split at h
  · cases h; rfl
  · simp only [show s.issued + 1 = 0 from full, if_true] at h
    cases h

theorem sameNumbers_addCompound (full : s.Full) (h : s.addCompound kind args = .ok (k, s₁)) :
    SameNumbers s s₁ := by
  obtain ⟨n, i, s', -, -, hi, -, rfl⟩ := addCompound_eq_ok h
  rw [number_eq_ok_of_full full hi]
  exact sameNumbers_insertIfNew _ _ _

theorem sameNumbers_addWorld (full : s.Full) (h : s.addWorld atoms = .ok (w, s₁)) :
    SameNumbers s s₁ := by
  obtain ⟨i, s', hi, -, rfl⟩ := addWorld_eq_ok h
  rw [number_eq_ok_of_full full hi]
  exact sameNumbers_insertIfNew _ _ _

/-! ### Refusals that last -/

/-- The store has all that `s` has, and no new lists if no number was left. -/
structure Later (s s' : NodeStore) : Prop where
  grow : s ≤ s'
  closed : s.Full → SameNumbers s s'

theorem Later.number (h : Later s s') (hn : s.number l = .error e) : s'.number l = .error e := by
  obtain ⟨new, full, rfl⟩ := number_eq_error_iff.mp hn
  have same := h.closed full
  exact number_eq_error_iff.mpr ⟨same.signatures ▸ new, same.full full, rfl⟩

theorem atoms_error_lasts (h : s.atoms w = .error e) (there : ¬e.Missing) (grow : s ≤ s') :
    s'.atoms w = .error e := by
  unfold NodeStore.atoms at h ⊢
  cases found : s.find? w.key with
  | none =>
      rw [node, found] at h
      cases h
      exact absurd trivial there
  | some n =>
      rw [node_of_find? found] at h
      rw [node_of_find? (grow.nodes found)]
      exact h

theorem atoms_ne_outOfNumbers : s.atoms w ≠ .error .outOfNumbers := by
  intro h
  unfold NodeStore.atoms at h
  cases found : s.find? w.key with
  | none => rw [node, found] at h; cases h
  | some n => rw [node_of_find? found] at h; cases n <;> cases h

theorem check_error_lasts (h : s.check n = .error e) (there : ¬e.Missing) (grow : s ≤ s') :
    s'.check n = .error e := by
  unfold check at h ⊢
  cases missing : n.args.find? (!s.contains ·) with
  | some a =>
      rw [missing] at h
      cases h
      exact absurd trivial there
  | none =>
      have registered : ∀ a ∈ n.args, s.contains a := by simpa using missing
      have complete : n.args.find? (!s'.contains ·) = none := by
        simpa using fun a ha => grow.contains (registered a ha)
      rw [missing] at h
      rw [complete]
      have found : ∀ {b body : Key}, n.args = [b, body] → ∃ m, s.find? b = some m := fun hb =>
        contains_iff.mp (registered _ (hb ▸ List.mem_cons_self))
      cases n with
      | existential b body | universal b body =>
          obtain ⟨m, hm⟩ := found rfl
          simp only [node_of_find? hm] at h
          simp only [node_of_find? (grow.nodes hm)]
          exact h
      | _ => exact h

/-- The reasons to refuse a compound, in the order in which they are looked for. -/
theorem addCompound_eq_error_iff : s.addCompound kind args = .error e ↔
    Node.ofKind kind args = .error e ∨ ∃ n, Node.ofKind kind args = .ok n ∧
      (s.check n = .error e ∨ s.check n = .ok () ∧ s.number args = .error e) := by
  cases hn : Node.ofKind kind args with
  | error e' =>
      rw [or_iff_left (by rintro ⟨_, h, _⟩; cases h)]
      unfold addCompound
      simp [hn, bind, Except.bind]
  | ok n =>
      simp only [reduceCtorEq, false_or, Except.ok.injEq, exists_eq_left']
      cases hc : s.check n with
      | error e' =>
          unfold addCompound
          rw [hn]
          simp [bind, Except.bind, hc]
      | ok _ =>
          rw [addCompound_eq hn hc]
          cases s.number args <;> simp [Except.map]

theorem addCompound_error_lasts (h : s.addCompound kind args = .error e) (there : ¬e.Missing)
    (later : Later s s') : s'.addCompound kind args = .error e := by
  rw [addCompound_eq_error_iff] at h ⊢
  rcases h with h | ⟨n, hn, hc | ⟨hc, hi⟩⟩
  · exact .inl h
  · exact .inr ⟨n, hn, .inl (check_error_lasts hc there later.grow)⟩
  · obtain ⟨registered, binds⟩ := check_eq_ok_iff.mp hc
    have still : s'.check n = .ok () := check_eq_ok_iff.mpr
      ⟨fun a ha => later.grow.contains (registered a ha), binds.mono later.grow⟩
    exact .inr ⟨n, hn, .inr ⟨still, later.number hi⟩⟩

theorem addWorld_error_lasts (h : s.addWorld atoms = .error e) (later : Later s s') :
    s'.addWorld atoms = .error e :=
  addWorld_eq_error_iff.mpr (later.number (addWorld_eq_error_iff.mp h))

/-- The error is that a quantifier binds what is no variable. -/
def Misbinds (s : NodeStore) (kind : Kind) (args : List Key) (e : FormulaError) : Prop :=
  kind.isQuantifier = true ∧ ∃ binder body n, args = [binder, body] ∧ s.find? binder = some n ∧
    n.kind ≠ .variable ∧ e = .misplaced n.kind .quantifierVariable

theorem Misbinds.rejection (h : s.Misbinds kind args e) : e.Rejection := by
  obtain ⟨-, _, _, _, -, -, -, rfl⟩ := h
  trivial

/-- A compound is refused for an argument that is not there, or for what it binds. -/
theorem check_eq_error (h : s.check n = .error e) :
    (∃ a ∈ n.args, ¬s.contains a ∧ e = .unknownExpression a) ∨ s.Misbinds n.kind n.args e := by
  unfold check at h
  cases missing : n.args.find? (!s.contains ·) with
  | some a =>
      rw [missing] at h
      cases h
      have absent := List.find?_some missing
      exact .inl ⟨a, List.mem_of_find?_eq_some missing, by simpa using absent, rfl⟩
  | none =>
      rw [missing] at h
      have registered : ∀ a ∈ n.args, s.contains a := by simpa using missing
      cases n with
      | existential b body | universal b body =>
          obtain ⟨m, hm⟩ := contains_iff.mp (registered b List.mem_cons_self)
          simp only [node_of_find? hm] at h
          cases m with
          | «variable» v g => cases h
          | _ =>
              cases h
              exact .inr ⟨rfl, b, body, _, rfl, hm, Kind.noConfusion, rfl⟩
      | _ => cases h

theorem addCompound_full (h : s.addCompound kind args = .error .outOfNumbers) : s.Full := by
  rcases addCompound_eq_error_iff.mp h with h | ⟨n, hn, hc | ⟨hc, hi⟩⟩
  · unfold Node.ofKind at h
    split at h <;> cases h
  · rcases check_eq_error hc with ⟨_, _, _, h⟩ | misbinds
    · cases h
    · cases misbinds.rejection
  · exact (number_eq_error_iff.mp hi).2.1

theorem addVariable_full {v g : SymbolId} (h : s.addVariable v g = .error e) : s.Full :=
  (number_eq_error_iff.mp (number_of_addVariable_error h)).2.1

theorem addWorld_full (h : s.addWorld atoms = .error e) : s.Full :=
  (number_eq_error_iff.mp (addWorld_eq_error_iff.mp h)).2.1

end NodeStore

namespace Session

variable {s s' F : Session} {α β : Type} {k : Key} {w : World}

/-- The session has all expressions of `s`, its groups, and no new lists if no number was left. -/
structure Later (s s' : Session) : Prop where
  grow : s ≤ s'
  closed : s.store.Full → s.store.SameNumbers s'.store

theorem Later.refl (s : Session) : Later s s := ⟨le_refl s, fun _ => ⟨rfl, rfl⟩⟩

theorem Later.trans {s₂ : Session} (h : Later s s') (h' : Later s' s₂) : Later s s₂ :=
  ⟨h.grow.trans h'.grow, fun full =>
    have same := h.closed full
    same.trans (h'.closed (same.full full))⟩

theorem Later.store (h : Later s s') : s.store.Later s'.store := ⟨h.grow.store, h.closed⟩

/-- Once `x` has given a result, `y` gives it in every session from there on. -/
structure Repeats (x y : SessionM α) : Prop extends Settles x y where
  /-- No word is added. -/
  symbols : ∀ s : Session, (x s).2.symbols = s.symbols
  closed : ∀ s : Session, s.store.Full → s.store.SameNumbers (x s).2.store
  refuses : ∀ {s : Session} {e s' F}, s.Canonical → x s = (.error e, s') → ¬e.Missing →
    F.Canonical → Later s' F → y F = (.error e, F)
  full : ∀ {s s' : Session}, x s = (.error .outOfNumbers, s') → s'.store.Full

namespace Repeats

theorem later {x y : SessionM α} (h : Repeats x y) (hs : s.Canonical) : Later s (x s).2 :=
  ⟨(h.additive s hs).1, h.closed s⟩

/-- An operation that only reads repeats if it settles and its refusals last. -/
theorem reading {f : Session → Except FormulaError α}
    (settled : Settles (fun s => (f s, s)) fun s => (f s, s))
    (refuses : ∀ {s F e}, f s = .error e → ¬e.Missing → s ≤ F → f F = .error e)
    (full : ∀ {s}, f s ≠ .error .outOfNumbers) :
    Repeats (fun s => (f s, s)) fun s => (f s, s) where
  toSettles := settled
  symbols _ := rfl
  closed _ _ := ⟨rfl, rfl⟩
  refuses _ h there _ later := by
    obtain ⟨refused, rfl⟩ := Prod.mk.inj h
    exact Prod.ext (refuses refused there later.grow) rfl
  full h := absurd (Prod.mk.inj h).1 full

theorem pure (a : α) : Repeats (pure a : SessionM α) (pure a) :=
  reading (.pure a) (fun h => by cases h) fun h => by cases h

theorem throw {e : FormulaError} (he : e ≠ .outOfNumbers) :
    Repeats (throw e : SessionM α) (throw e) :=
  reading (.throw e _) (fun h _ _ => h) fun h => he (Except.error.inj h)

/-- A chain of arguments that was not followed to its end may be followed further. -/
theorem circular (k : Key) (y : SessionM α) :
    Repeats (MonadExcept.throw (FormulaError.circular k) : SessionM α) y where
  toSettles := .throw _ _
  symbols _ := rfl
  closed _ _ := ⟨rfl, rfl⟩
  refuses _ h there _ _ := by cases h; exact absurd trivial there
  full h := by cases h

theorem bind {x y : SessionM α} {f g : α → SessionM β} (hx : Repeats x y)
    (hf : ∀ a, Repeats (f a) (g a)) : Repeats (x >>= f) (y >>= g) where
  toSettles := hx.toSettles.bind fun a => (hf a).toSettles
  symbols s := by
    rw [run_bind]
    have first := hx.symbols s
    generalize x s = out at first
    rcases out with ⟨e | a, s₁⟩
    · exact first
    · exact ((hf a).symbols s₁).trans first
  closed s full := by
    rw [run_bind]
    have first := hx.closed s full
    generalize x s = out at first
    rcases out with ⟨e | a, s₁⟩
    · exact first
    · exact first.trans ((hf a).closed s₁ (first.full full))
  refuses {s e s' F} hs h there hF later := by
    rcases run_bind_eq_error.mp h with h₁ | ⟨a, s₁, h₁, h₂⟩
    · exact run_bind_eq_error.mpr (.inl (hx.refuses hs h₁ there hF later))
    · obtain ⟨-, fits⟩ := hx.additive.of_run hs h₁
      obtain ⟨grow, -⟩ := (hf a).additive.of_run fits h₂
      exact run_bind_eq_error.mpr (.inr ⟨a, F, hx.again hs h₁ hF (grow.trans later.grow),
        (hf a).refuses fits h₂ there hF later⟩)
  full h := by
    rcases run_bind_eq_error.mp h with h₁ | ⟨a, s₁, -, h₂⟩
    · exact hx.full h₁
    · exact (hf a).full h₂

theorem mapM {f g : α → SessionM β} (hf : ∀ a, Repeats (f a) (g a)) (l : List α) :
    Repeats (l.mapM f) (l.mapM g) := by
  induction l with
  | nil => exact pure []
  | cons a l ih =>
      rw [List.mapM_cons, List.mapM_cons]
      exact bind (hf a) fun b => bind ih fun bs => pure (b :: bs)

theorem allM {f g : α → SessionM Bool} (hf : ∀ a, Repeats (f a) (g a)) (l : List α) :
    Repeats (l.allM f) (l.allM g) := by
  induction l with
  | nil => exact pure true
  | cons a l ih =>
      refine bind (hf a) fun b => ?_
      cases b with
      | true => exact ih
      | false => exact pure false

theorem anyM {f g : α → SessionM Bool} (hf : ∀ a, Repeats (f a) (g a)) (l : List α) :
    Repeats (l.anyM f) (l.anyM g) := by
  induction l with
  | nil => exact pure false
  | cons a l ih =>
      refine bind (hf a) fun b => ?_
      cases b with
      | true => exact pure true
      | false => exact ih

theorem foldlM {f g : β → α → SessionM β} (hf : ∀ b a, Repeats (f b a) (g b a)) (l : List α)
    (b : β) : Repeats (l.foldlM f b) (l.foldlM g b) := by
  induction l generalizing b with
  | nil => exact pure b
  | cons a l ih => exact bind (hf b a) ih

end Repeats

/-! ### Reading and registering -/

theorem repeats_node (k : Key) : Repeats (node k) (node k) := by
  refine .reading (settles_node k) (fun h there _ => ?_) fun h => ?_
  all_goals
    unfold NodeStore.node at h
    split at h <;> cases h
  exact absurd trivial there

theorem repeats_atoms (w : World) : Repeats (atoms w) (atoms w) :=
  .reading (settles_atoms w)
    (fun h there grow => NodeStore.atoms_error_lasts h there grow.store)
    NodeStore.atoms_ne_outOfNumbers

theorem repeats_holds (w : World) (k : Key) : Repeats (holds w k) (holds w k) :=
  .bind (repeats_atoms w) fun _ => .pure _

theorem repeats_addConstantOf (c : SymbolId) :
    Repeats (liftM (addConstantOf c) : SessionM Key) (liftM (addConstantOf c)) where
  toSettles := settles_addConstantOf c
  symbols _ := rfl
  closed _ _ := NodeStore.sameNumbers_insertIfNew _ _ _
  refuses _ h := by cases (Prod.mk.inj h).1
  full h := by cases (Prod.mk.inj h).1

/-- A registration that settles repeats if its refusals last, and if it makes no new list when no
number is left. -/
theorem repeats_register {f : NodeStore → Except FormulaError (α × NodeStore)}
    (settled : Settles (register f) (register f))
    (closed : ∀ {store a store'}, NodeStore.Full store → f store = .ok (a, store') →
      store.SameNumbers store')
    (refuses : ∀ {store store' e}, f store = .error e → ¬e.Missing → store.Later store' →
      f store' = .error e)
    (full : ∀ {store}, f store = .error .outOfNumbers → store.Full) :
    Repeats (register f) (register f) where
  toSettles := settled
  symbols s := by unfold register; split <;> rfl
  closed s h := by
    unfold register
    split
    · rename_i placed
      exact closed h placed
    · exact ⟨rfl, rfl⟩
  refuses {s e s' F} _ h there _ later := by
    unfold register at h ⊢
    split at h <;> cases h
    rename_i refused
    rw [refuses refused there later.store]
  full {s s'} h := by
    unfold register at h
    split at h <;> cases h
    rename_i refused
    exact full refused

theorem repeats_addCompound (kind : Kind) (args : List Key) :
    Repeats (addCompound kind args) (addCompound kind args) :=
  repeats_register (settles_addCompound kind args) NodeStore.sameNumbers_addCompound
    NodeStore.addCompound_error_lasts NodeStore.addCompound_full

theorem repeats_addWorld (atoms : AtomSet) : Repeats (addWorld atoms) (addWorld atoms) :=
  repeats_register (settles_addWorld atoms) NodeStore.sameNumbers_addWorld
    (fun h _ later => NodeStore.addWorld_error_lasts h later) NodeStore.addWorld_full

end Session

end ClassicalPlanner
