import ClassicalPlanner.Proofs.Session.Growth

/-!
# Answers of operations

`Answers F x s P` says what an operation gives when it is run in the session `s`: it runs out of
numbers, or `P` holds of the session that it leaves and of its result.  `F` is a session that has
all that the operation registers.  With it `P` may speak of expressions that are registered later
than `s`, as the atoms of a world may be.
-/

namespace ClassicalPlanner

namespace Session

variable {s s' F : Session} {α β : Type}

/-- Run in `s`, `x` runs out of numbers or does as `P` says. -/
def Answers (F : Session) (x : SessionM α) (s : Session)
    (P : Session → Except FormulaError α → Prop) : Prop :=
  (x s).2 ≤ F → (x s).1 = .error .outOfNumbers ∨ P (x s).2 (x s).1

/-- The result is the key of a tree. -/
def IsKeyOf (t : Tree) (s : Session) (r : Except FormulaError Key) : Prop :=
  ∃ k, r = .ok k ∧ s.store.Denotes k t

/-- The result is a list of keys of some trees. -/
def AreKeysOf (ts : List Tree) (s : Session) (r : Except FormulaError (List Key)) : Prop :=
  ∃ ks, r = .ok ks ∧ List.Forall₂ s.store.Denotes ks ts

theorem IsKeyOf.not_error {t : Tree} {e : FormulaError} (h : IsKeyOf t s (.error e)) : False := by
  obtain ⟨_, h, -⟩ := h
  cases h

theorem AreKeysOf.not_error {ts : List Tree} {e : FormulaError} (h : AreKeysOf ts s (.error e)) :
    False := by
  obtain ⟨_, h, -⟩ := h
  cases h

namespace Answers

variable {x : SessionM α} {f : α → SessionM β} {P : Session → Except FormulaError α → Prop}
variable {Q : Session → Except FormulaError β → Prop}

theorem of_result (h : P (x s).2 (x s).1) : Answers F x s P := fun _ => .inr h

theorem pure {a : α} (h : P s (.ok a)) : Answers F (pure a) s P := .of_result h

theorem imp {P' : Session → Except FormulaError α → Prop} (h : Answers F x s P)
    (hP : ∀ {s' r}, P s' r → P' s' r) : Answers F x s P' :=
  fun hF => (h hF).imp_right hP

/-- If the operation succeeds, it does as `P` says. -/
theorem of_ok (h : Answers F x s P) {a : α} (hx : x s = (.ok a, s')) (grow : s' ≤ F) :
    P s' (.ok a) := by
  unfold Answers at h
  rw [hx] at h
  rcases h grow with h | h
  · cases h
  · exact h

/-- If the operation fails, it has run out of numbers or does as `P` says. -/
theorem of_error (h : Answers F x s P) {e : FormulaError} (hx : x s = (.error e, s'))
    (grow : s' ≤ F) : e = .outOfNumbers ∨ P s' (.error e) := by
  unfold Answers at h
  rw [hx] at h
  exact (h grow).imp_left Except.error.inj

/-- An operation that gives the key of some tree fails only when the numbers have run out. -/
theorem eq_outOfNumbers {x : SessionM Key} {t : Tree} {e : FormulaError}
    (h : Answers s' x s (IsKeyOf t)) (hx : x s = (.error e, s')) : e = .outOfNumbers :=
  (h.of_error hx (le_refl s')).resolve_right (·.not_error)

theorem denotes {x : SessionM Key} {t : Tree} {k : Key} (h : Answers s' x s (IsKeyOf t))
    (hx : x s = (.ok k, s')) : s'.store.Denotes k t := by
  obtain ⟨_, ⟨⟩, ht⟩ := h.of_ok hx (le_refl s')
  exact ht

/-- What the parts of a composed operation answer makes up its answer. -/
theorem bind (hs : s.Canonical) (hx : Additive x) (hf : ∀ a, Additive (f a)) (h : Answers F x s P)
    (error : ∀ {e s'}, P s' (.error e) → Q s' (.error e))
    (ok : ∀ {a s'}, s ≤ s' → s'.Canonical → P s' (.ok a) → Answers F (f a) s' Q) :
    Answers F (x >>= f) s Q := by
  unfold Answers at h ⊢
  obtain ⟨grow, fits⟩ := hx s hs
  rw [run_bind]
  generalize x s = out at h grow fits
  rcases out with ⟨e | a, s₁⟩
  · intro hF
    rcases h hF with h | h
    · exact .inl (congrArg Except.error (Except.error.inj h))
    · exact .inr (error h)
  · intro hF
    obtain ⟨grow', -⟩ := hf a s₁ fits
    rcases h (grow'.trans hF) with h | h
    · cases h
    · exact ok grow fits h hF

/-- Operations whose results are known compose as the results do. -/
theorem bind_eq {r : Except FormulaError α} {g : α → Except FormulaError β} (hs : s.Canonical)
    (hx : Additive x) (hf : ∀ a, Additive (f a)) (h : Answers F x s fun _ r' => r' = r)
    (ok : ∀ {a s'}, s ≤ s' → s'.Canonical → r = .ok a →
      Answers F (f a) s' fun _ r' => r' = g a) :
    Answers F (x >>= f) s fun _ r' => r' = r >>= g := by
  refine .bind hs hx hf h (fun h => ?_) fun {a s'} grow fits h => ?_
  · rw [← h]; rfl
  · rw [← h]; exact ok grow fits h.symm

theorem mapM {R : α → Tree → Prop} {f : α → SessionM Key} (hs : s.Canonical)
    (hf : ∀ a, Additive (f a)) {l : List α} {ts : List Tree} (hl : List.Forall₂ R l ts)
    (h : ∀ {a t s'}, R a t → s ≤ s' → s'.Canonical → Answers F (f a) s' (IsKeyOf t)) :
    Answers F (l.mapM f) s (AreKeysOf ts) := by
  induction hl generalizing s with
  | nil => exact .pure ⟨[], rfl, .nil⟩
  | @cons a t l ts hat hl ih =>
      rw [List.mapM_cons]
      refine .bind hs (hf a) (fun b => .bind (.mapM hf l) fun _ => .pure _)
        (h hat (le_refl s) hs) (fun h => h.not_error.elim) ?_
      rintro b s₁ grow fits ⟨b, ⟨⟩, hb⟩
      refine .bind fits (.mapM hf l) (fun _ => .pure _)
        (ih fits fun hR grow' => h hR (grow.trans grow')) (fun h => h.not_error.elim) ?_
      rintro bs s₂ grow' - ⟨bs, ⟨⟩, hbs⟩
      exact .pure ⟨b :: bs, rfl, .cons (hb.mono grow'.store) hbs⟩

variable {ks : List Key} {ts : List Tree} {f : Key → SessionM Bool}
variable {g : Tree → Except FormulaError Bool}

theorem allM (hs : s.Canonical) (hf : ∀ k, Additive (f k))
    (hk : List.Forall₂ s.store.Denotes ks ts)
    (h : ∀ {k t s'}, t ∈ ts → s ≤ s' → s'.Canonical → s'.store.Denotes k t →
      Answers F (f k) s' fun _ r => r = g t) :
    Answers F (ks.allM f) s fun _ r => r = ts.allM g := by
  induction ks generalizing s ts with
  | nil => cases hk; exact .pure rfl
  | cons k ks ih =>
      cases hk with
      | @cons _ t _ ts hkt hk =>
          refine .bind_eq hs (hf k) (fun b => ?_) (h List.mem_cons_self (le_refl s) hs hkt) ?_
          · cases b with
            | true => exact .allM hf ks
            | false => exact .pure false
          · intro b s₁ grow fits _
            cases b with
            | true =>
                exact ih fits (NodeStore.denotes_all_mono hk grow.store)
                  fun ht grow' => h (List.mem_cons_of_mem _ ht) (grow.trans grow')
            | false => exact .pure rfl

theorem anyM (hs : s.Canonical) (hf : ∀ k, Additive (f k))
    (hk : List.Forall₂ s.store.Denotes ks ts)
    (h : ∀ {k t s'}, t ∈ ts → s ≤ s' → s'.Canonical → s'.store.Denotes k t →
      Answers F (f k) s' fun _ r => r = g t) :
    Answers F (ks.anyM f) s fun _ r => r = ts.anyM g := by
  induction ks generalizing s ts with
  | nil => cases hk; exact .pure rfl
  | cons k ks ih =>
      cases hk with
      | @cons _ t _ ts hkt hk =>
          refine .bind_eq hs (hf k) (fun b => ?_) (h List.mem_cons_self (le_refl s) hs hkt) ?_
          · cases b with
            | true => exact .pure true
            | false => exact .anyM hf ks
          · intro b s₁ grow fits _
            cases b with
            | true => exact .pure rfl
            | false =>
                exact ih fits (NodeStore.denotes_all_mono hk grow.store)
                  fun ht grow' => h (List.mem_cons_of_mem _ ht) (grow.trans grow')

end Answers

/-! ### Reading and registering -/

theorem run_node {k : Key} {n : Node} (h : s.store.find? k = some n) : node k s = (.ok n, s) := by
  unfold node
  rw [NodeStore.node_of_find? h]

theorem run_node_bind {k : Key} {n : Node} (h : s.store.find? k = some n) (f : Node → SessionM α) :
    (node k >>= f) s = f n s := by
  rw [run_bind, run_node h]

theorem answers_node_bind {k : Key} {n : Node} {f : Node → SessionM α}
    {P : Session → Except FormulaError α → Prop} (h : s.store.find? k = some n)
    (hf : Answers F (f n) s P) : Answers F (node k >>= f) s P := by
  unfold Answers
  rw [run_node_bind h]
  exact hf

theorem node_eq_ok {k : Key} {n : Node} (h : node k s = (.ok n, s')) :
    s.store.find? k = some n ∧ s' = s := by
  obtain ⟨h₁, rfl⟩ := Prod.mk.inj h
  exact ⟨NodeStore.node_eq_ok_iff.mp h₁, rfl⟩

theorem additive_node (k : Key) : Additive (node k) := .reading _

theorem settles_node (k : Key) : Settles (node k) (node k) :=
  ⟨additive_node k, fun _ h _ grow => by
    obtain ⟨found, rfl⟩ := node_eq_ok h
    exact run_node (grow.store.nodes found)⟩

theorem run_addConstantOf {k : Key} {c : SymbolId} (hs : s.Canonical)
    (h : s.store.find? k = some (.constant c)) :
    (liftM (addConstantOf c) : SessionM Key) s = (.ok k, s) := by
  have again := NodeStore.Canonical.addConstant_of_find? hs h
  exact Prod.ext (congrArg (Except.ok ∘ Prod.fst) again)
    (congrArg (fun p => { s with store := p.2 }) again)

theorem settles_addConstantOf (c : SymbolId) :
    Settles (liftM (addConstantOf c) : SessionM Key) (liftM (addConstantOf c)) := by
  refine ⟨fun s hs => ?_, fun {s k s' F} hs h hF grow => ?_⟩
  · obtain ⟨fits, more, -⟩ := NodeStore.Canonical.addConstant hs c
    exact ⟨⟨more, rfl⟩, fits⟩
  · obtain ⟨-, -, found⟩ := NodeStore.Canonical.addConstant hs c
    obtain ⟨⟨⟩, rfl⟩ := Prod.mk.inj h
    exact run_addConstantOf hF (grow.store.nodes found)

theorem answers_addConstantOf (hs : s.Canonical) (c : SymbolId) :
    Answers F (liftM (addConstantOf c)) s (IsKeyOf (.constant c)) := by
  obtain ⟨-, -, found⟩ := NodeStore.Canonical.addConstant hs c
  exact .of_result ⟨_, rfl, .constant found⟩

theorem register_eq_ok {f : NodeStore → Except FormulaError (α × NodeStore)} {a : α}
    (h : register f s = (.ok a, s')) : ∃ store, f s.store = .ok (a, store) ∧
      s' = { s with store } := by
  unfold register at h
  split at h
  · rename_i a' store hf
    obtain ⟨⟨⟩, rfl⟩ := Prod.mk.inj h
    exact ⟨store, hf, rfl⟩
  · cases (Prod.mk.inj h).1

theorem run_register {f : NodeStore → Except FormulaError (α × NodeStore)} {a : α}
    (h : f s.store = .ok (a, s.store)) : register f s = (.ok a, s) := by
  unfold register
  rw [h]

/-- A compound that is there is found again by its kind and its arguments. -/
theorem run_addCompound {k : Key} {n : Node} (hs : s.Canonical) (h : s.store.find? k = some n)
    (hn : n.IsCompound) : addCompound n.kind n.args s = (.ok k, s) :=
  run_register (NodeStore.Canonical.addCompound_of_find? hs h hn)

theorem answers_register {f : NodeStore → Except FormulaError (α × NodeStore)}
    {P : Session → Except FormulaError α → Prop}
    (error : ∀ {e}, f s.store = .error e → e = .outOfNumbers)
    (ok : ∀ {a store}, f s.store = .ok (a, store) → P { s with store } (.ok a)) :
    Answers F (register f) s P := by
  intro _
  unfold register
  split
  · rename_i hf
    exact .inr (ok hf)
  · rename_i e hf
    exact .inl (congrArg Except.error (error hf))

theorem additive_register {f : NodeStore → Except FormulaError (α × NodeStore)}
    (h : ∀ {store a store'}, NodeStore.Canonical store → f store = .ok (a, store') →
      store'.Canonical ∧ store ≤ store') : Additive (register f) := by
  intro s hs
  unfold register
  split
  · rename_i hf
    obtain ⟨fits, grow⟩ := h hs hf
    exact ⟨⟨grow, rfl⟩, fits⟩
  · exact ⟨le_refl s, hs⟩

theorem settles_addVariableOf (v g : SymbolId) :
    Settles (register (·.addVariable v g)) (register (·.addVariable v g)) := by
  refine ⟨additive_register fun hs h => ?_, fun hs h hF grow => ?_⟩
  · obtain ⟨fits, grow, -⟩ := hs.addVariable h
    exact ⟨fits, grow⟩
  · obtain ⟨store, added, rfl⟩ := register_eq_ok h
    obtain ⟨-, -, found⟩ := NodeStore.Canonical.addVariable hs added
    exact run_register (NodeStore.Canonical.addVariable_of_find? hF (grow.store.nodes found))

theorem settles_addCompound (kind : Kind) (args : List Key) :
    Settles (addCompound kind args) (addCompound kind args) := by
  refine ⟨additive_register fun hs h => ?_, fun hs h hF grow => ?_⟩
  · obtain ⟨fits, grow, -⟩ := hs.addCompound h
    exact ⟨fits, grow⟩
  · obtain ⟨store, added, rfl⟩ := register_eq_ok h
    obtain ⟨-, -, n, hn, found⟩ := NodeStore.Canonical.addCompound hs added
    have again := run_addCompound hF (grow.store.nodes found) (Node.isCompound_of_ofKind hn)
    rwa [Node.kind_of_ofKind hn, Node.args_of_ofKind hn] at again

theorem settles_addWorld (atoms : AtomSet) : Settles (addWorld atoms) (addWorld atoms) := by
  refine ⟨additive_register fun hs h => ?_, fun hs h hF grow => ?_⟩
  · obtain ⟨fits, grow, -⟩ := hs.addWorld h
    exact ⟨fits, grow⟩
  · obtain ⟨store, added, rfl⟩ := register_eq_ok h
    obtain ⟨-, -, found⟩ := NodeStore.Canonical.addWorld hs added
    exact run_register (hF.addWorld_of_find? (grow.store.nodes found))

theorem additive_intern (text : String) : Additive (intern text) := fun _ hs =>
  ⟨⟨le_refl _, rfl⟩, hs⟩

end Session

end ClassicalPlanner
