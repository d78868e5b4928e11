import ClassicalPlanner.Session.Basic
import ClassicalPlanner.Proofs.Formula.Canonical

/-!
# Growth of sessions

`s ≤ s'` says that the session `s'` has all expressions of `s` and the same groups.  The words are
left out: no meaning depends on how they are spelled.

`Moves R x` says that the operation `x` takes each state to one that `R` relates to it, where `R` is
reflexive and transitive.  This is kept by everything that operations are put together with.

An operation is `Additive` if it takes a canonical session to a canonical one that has all that was
there before.  `Settles x y` says that `x` is additive and that, once `x` has given a result, `y`
gives this result in every session from there on and adds nothing.
-/

namespace ClassicalPlanner

namespace Session

/-- The session `s'` has all expressions of `s`, and its groups. -/
structure Extends (s s' : Session) : Prop where
  store : s.store ≤ s'.store
  groups : s'.groups = s.groups

instance : LE Session := ⟨Extends⟩

instance : Preorder Session where
  le_refl s := ⟨le_refl s.store, rfl⟩
  le_trans _ _ _ h h' := ⟨h.store.trans h'.store, h'.groups.trans h.groups⟩

/-- The expressions of the session are canonical. -/
def Canonical (s : Session) : Prop := s.store.Canonical

theorem canonical_empty : (∅ : Session).Canonical := NodeStore.canonical_empty

variable {s s' F : Session} {α β γ ε : Type}

theorem Extends.size (h : s ≤ s') : s.size ≤ s'.size := h.store.size

theorem Extends.members (h : s ≤ s') (group : SymbolId) : s'.members group = s.members group := by
  unfold Session.members
  rw [h.groups]

/-! ### Runs of composed operations -/

section Runs

variable {σ τ : Type} {c c' : σ}

@[simp] theorem run_pure (a : α) (c : σ) : (pure a : ExceptT ε (StateM σ) α) c = (.ok a, c) := rfl

@[simp] theorem run_throw (e : ε) (c : σ) :
    (throw e : ExceptT ε (StateM σ) α) c = (.error e, c) := rfl

theorem run_bind (x : ExceptT ε (StateM σ) α) (f : α → ExceptT ε (StateM σ) β) (c : σ) :
    (x >>= f) c =
      match x c with
      | (.ok a, c') => f a c'
      | (.error e, c') => (.error e, c') := by
  change ExceptT.bindCont f (x c).1 (x c).2 = _
  rcases x c with ⟨_ | _, _⟩ <;> rfl

theorem run_map (f : α → β) (x : ExceptT ε (StateM σ) α) (c : σ) :
    (f <$> x) c = ((x c).1.map f, (x c).2) := by
  rw [map_eq_pure_bind, run_bind]
  rcases x c with ⟨_ | _, _⟩ <;> rfl

/-- The same of operations that carry something along. -/
theorem run_bind_carrying (x : ExceptT ε (StateT σ (StateM τ)) α)
    (f : α → ExceptT ε (StateT σ (StateM τ)) β) (c : σ) (s : τ) : (x >>= f) c s =
      match x c s with
      | ((.ok a, c'), s') => f a c' s'
      | ((.error e, c'), s') => ((.error e, c'), s') := by
  change ExceptT.bindCont f (x c s).1.1 (x c s).1.2 (x c s).2 = _
  rcases x c s with ⟨⟨_ | _, _⟩, _⟩ <;> rfl

/-- A composed operation succeeds if both parts do, one after the other. -/
theorem run_bind_eq_ok {x : ExceptT ε (StateM σ) α} {f : α → ExceptT ε (StateM σ) β} {b : β} :
    (x >>= f) c = (.ok b, c') ↔ ∃ a c₁, x c = (.ok a, c₁) ∧ f a c₁ = (.ok b, c') := by
  rw [run_bind]
  rcases x c with ⟨e | a, c₁⟩
  · exact iff_of_false (fun h => by cases h) fun ⟨a, c₁, h, _⟩ => by cases h
  · exact ⟨fun h => ⟨a, c₁, rfl, h⟩, fun ⟨a', c₁', h, h'⟩ => by cases h; exact h'⟩

/-- A composed operation fails if its first part does, or the second after it. -/
theorem run_bind_eq_error {x : ExceptT ε (StateM σ) α} {f : α → ExceptT ε (StateM σ) β} {e : ε} :
    (x >>= f) c = (.error e, c') ↔
      x c = (.error e, c') ∨ ∃ a c₁, x c = (.ok a, c₁) ∧ f a c₁ = (.error e, c') := by
  rw [run_bind]
  rcases x c with ⟨e' | a, c₁⟩
  · refine ⟨fun h => .inl (by cases h; rfl), ?_⟩
    rintro (h | ⟨_, _, h, _⟩)
    · cases h; rfl
    · cases h
  · refine ⟨fun h => .inr ⟨a, c₁, rfl, h⟩, ?_⟩
    rintro (h | ⟨_, _, h, h'⟩)
    · cases h
    · cases h; exact h'

theorem run_map_eq_ok {x : ExceptT ε (StateM σ) α} {f : α → β} {b : β} :
    (f <$> x) c = (.ok b, c') ↔ ∃ a, x c = (.ok a, c') ∧ f a = b := by
  rw [run_map]
  rcases x c with ⟨e | a, c₁⟩
  · exact iff_of_false (fun h => by cases h) fun ⟨a, h, _⟩ => by cases h
  · exact ⟨fun h => by cases h; exact ⟨a, rfl, rfl⟩, fun ⟨a', h, h'⟩ => by cases h; rw [← h']; rfl⟩

theorem run_eq_of_result {x : ExceptT ε (StateM σ) α} {result : Except ε α}
    (h : (x c).1 = result) : x c = (result, (x c).2) := Prod.ext h rfl

theorem exists_of_isOk {result : Except ε α} (h : result.isOk = true) : ∃ a, result = .ok a := by
  cases result with
  | ok a => exact ⟨a, rfl⟩
  | error e => cases h

/-- What every step keeps, a fold keeps. -/
theorem foldlM_keeps {P : β → Prop} {f : β → α → ExceptT ε (StateM σ) β} {l : List α} {b b' : β}
    (step : ∀ {b a c b' c'}, a ∈ l → P b → f b a c = (.ok b', c') → P b') (hb : P b)
    (h : l.foldlM f b c = (.ok b', c')) : P b' := by
  induction l generalizing b c with
  | nil => cases h; exact hb
  | cons a l ih =>
      obtain ⟨b₁, c₁, h₁, h₂⟩ := run_bind_eq_ok.mp h
      exact ih (fun mem => step (List.mem_cons_of_mem a mem)) (step List.mem_cons_self hb h₁) h₂

/-- What only some steps bring about holds after a fold if it held before, or if there was such a
step. -/
theorem foldlM_iff {P : β → Prop} {Q : α → Prop} {f : β → α → ExceptT ε (StateM σ) β} {l : List α}
    {b b' : β} (step : ∀ {b a c b' c'}, a ∈ l → f b a c = (.ok b', c') → (P b' ↔ P b ∨ Q a))
    (h : l.foldlM f b c = (.ok b', c')) : P b' ↔ P b ∨ ∃ a ∈ l, Q a := by
  induction l generalizing b c with
  | nil => cases h; simp
  | cons a l ih =>
      obtain ⟨b₁, c₁, h₁, h₂⟩ := run_bind_eq_ok.mp h
      rw [ih (fun mem => step (List.mem_cons_of_mem a mem)) h₂, step List.mem_cons_self h₁,
        or_assoc, List.exists_mem_cons_iff]

/-- A fold fails at some step.  What each step takes from the members left before it to those left
after it holds there. -/
theorem foldlM_eq_error {I : List α → β → Prop} {f : β → α → ExceptT ε (StateM σ) β} {l : List α}
    {b : β} {e : ε}
    (step : ∀ {a rest b c b' c'}, I (a :: rest) b → f b a c = (.ok b', c') → I rest b')
    (hb : I l b) (h : l.foldlM f b c = (.error e, c')) :
    ∃ a rest b₁ c₁, I (a :: rest) b₁ ∧ f b₁ a c₁ = (.error e, c') := by
  induction l generalizing b c with
  | nil => cases h
  | cons a l ih =>
      rw [List.foldlM_cons, run_bind] at h
      rcases h₁ : f b a c with ⟨e' | b₁, c₁⟩ <;> rw [h₁] at h
      · cases h
        exact ⟨a, l, b, c, hb, h₁⟩
      · exact ih (step hb h₁) h

end Runs

/-! ### Operations that move along a relation -/

/-- Whether it fails or not, the operation leaves a state that `R` relates to the one before. -/
def Moves {σ : Type} (R : σ → σ → Prop) (x : σ → β × σ) : Prop := ∀ c, R c (x c).2

namespace Moves

variable {σ : Type} {R : σ → σ → Prop}

theorem lift {x : StateM σ α} (hx : Moves R x) : Moves R (liftM x : ExceptT ε (StateM σ) α) := hx

variable [IsPreorder σ R]

theorem reading (f : σ → β) : Moves R fun c => (f c, c) := fun c => refl_of R c

theorem result (b : β) : Moves R fun c => (b, c) := reading fun _ => b

theorem bindState {x : StateM σ α} {f : α → StateM σ β} (hx : Moves R x)
    (hf : ∀ a, Moves R (f a)) : Moves R (x >>= f : StateM σ β) :=
  fun c => trans_of R (hx c) (hf (x c).1 (x c).2)

theorem bind {x : ExceptT ε (StateM σ) α} {f : α → ExceptT ε (StateM σ) β} (hx : Moves R x)
    (hf : ∀ a, Moves R (f a)) : Moves R (x >>= f) := by
  intro c
  have first := hx c
  rw [run_bind]
  rcases hxc : x c with ⟨e | a, c₁⟩ <;> rw [hxc] at first
  · exact first
  · exact trans_of R first (hf a c₁)

theorem mapM {f : α → ExceptT ε (StateM σ) β} (hf : ∀ a, Moves R (f a)) (l : List α) :
    Moves R (l.mapM f) := by
  induction l with
  | nil => exact result _
  | cons a l ih =>
      rw [List.mapM_cons]
      exact bind (hf a) fun _ => bind ih fun _ => result _

theorem foldlM {f : β → α → ExceptT ε (StateM σ) β} (hf : ∀ b a, Moves R (f b a)) (l : List α)
    (b : β) : Moves R (l.foldlM f b) := by
  induction l generalizing b with
  | nil => exact result _
  | cons a l ih => exact bind (hf b a) ih

theorem allM {f : α → ExceptT ε (StateM σ) Bool} (hf : ∀ a, Moves R (f a)) (l : List α) :
    Moves R (l.allM f) := by
  induction l with
  | nil => exact result _
  | cons a l ih =>
      refine bind (hf a) fun b => ?_
      cases b with
      | true => exact ih
      | false => exact result _

theorem anyM {f : α → ExceptT ε (StateM σ) Bool} (hf : ∀ a, Moves R (f a)) (l : List α) :
    Moves R (l.anyM f) := by
  induction l with
  | nil => exact result _
  | cons a l ih =>
      refine bind (hf a) fun b => ?_
      cases b with
      | true => exact result _
      | false => exact ih

end Moves

/-! ### Operations that only add -/

/-- From a canonical session, the operation only adds to what is there. -/
def Additive (x : Session → β × Session) : Prop :=
  ∀ s, s.Canonical → s ≤ (x s).2 ∧ (x s).2.Canonical

/-- A canonical session is followed by a canonical one that has all that was there. -/
abbrev Adding (s s' : Session) : Prop := s.Canonical → s ≤ s' ∧ s'.Canonical

instance : IsPreorder Session Adding where
  refl s hs := ⟨le_refl s, hs⟩
  trans _ _ _ h h' hs := ⟨(h hs).1.trans (h' (h hs).2).1, (h' (h hs).2).2⟩

namespace Additive

theorem of_run {x : Session → β × Session} (hx : Additive x) (hs : s.Canonical) {b : β}
    (h : x s = (b, s')) : s ≤ s' ∧ s'.Canonical := by
  have both := hx s hs
  rwa [h] at both

theorem bindState {x : StateM Session α} {f : α → StateM Session β} (hx : Additive x)
    (hf : ∀ a, Additive (f a)) : Additive (x >>= f : StateM Session β) :=
  Moves.bindState (R := Adding) hx hf

theorem result (b : β) : Additive fun s => (b, s) := Moves.result (R := Adding) b

theorem reading (f : Session → β) : Additive fun s => (f s, s) := Moves.reading (R := Adding) f

theorem pure (a : α) : Additive (pure a : ExceptT ε (StateM Session) α) := result _

theorem throw (e : ε) : Additive (throw e : ExceptT ε (StateM Session) α) := result _

theorem lift {x : StateM Session α} (hx : Additive x) :
    Additive (liftM x : ExceptT ε (StateM Session) α) := hx

theorem bind {x : ExceptT ε (StateM Session) α} {f : α → ExceptT ε (StateM Session) β}
    (hx : Additive x) (hf : ∀ a, Additive (f a)) : Additive (x >>= f) :=
  Moves.bind (R := Adding) hx hf

theorem mapM {f : α → ExceptT ε (StateM Session) β} (hf : ∀ a, Additive (f a)) (l : List α) :
    Additive (l.mapM f) := Moves.mapM (R := Adding) hf l

theorem allM {f : α → ExceptT ε (StateM Session) Bool} (hf : ∀ a, Additive (f a)) (l : List α) :
    Additive (l.allM f) := Moves.allM (R := Adding) hf l

theorem anyM {f : α → ExceptT ε (StateM Session) Bool} (hf : ∀ a, Additive (f a)) (l : List α) :
    Additive (l.anyM f) := Moves.anyM (R := Adding) hf l

theorem foldlM {f : β → α → ExceptT ε (StateM Session) β} (hf : ∀ b a, Additive (f b a))
    (l : List α) (b : β) : Additive (l.foldlM f b) := Moves.foldlM (R := Adding) hf l b

end Additive

/-! ### Operations that settle -/

/-- `x` only adds, and once it has given a result `y` gives the same, and adds nothing, in every
session from there on. -/
structure Settles (x y : ExceptT ε (StateM Session) α) : Prop where
  additive : Additive x
  again : ∀ {s a s' F}, s.Canonical → x s = (.ok a, s') → F.Canonical → s' ≤ F → y F = (.ok a, F)

namespace Settles

theorem pure (a : α) : Settles (pure a : ExceptT ε (StateM Session) α) (pure a) :=
  ⟨.pure a, fun _ h _ _ => by cases h; rfl⟩

theorem throw (e : ε) (y : ExceptT ε (StateM Session) α) : Settles (throw e) y :=
  ⟨.throw e, fun _ h _ _ => by cases h⟩

theorem bind {x y : ExceptT ε (StateM Session) α} {f g : α → ExceptT ε (StateM Session) β}
    (hx : Settles x y) (hf : ∀ a, Settles (f a) (g a)) : Settles (x >>= f) (y >>= g) := by
  refine ⟨.bind hx.additive fun a => (hf a).additive, fun {s b s' F} hs h hF grow => ?_⟩
  obtain ⟨a, s₁, h₁, h₂⟩ := run_bind_eq_ok.mp h
  obtain ⟨-, fits⟩ := hx.additive.of_run hs h₁
  obtain ⟨grow', -⟩ := (hf a).additive.of_run fits h₂
  exact run_bind_eq_ok.mpr
    ⟨a, F, hx.again hs h₁ hF (grow'.trans grow), (hf a).again fits h₂ hF grow⟩

end Settles

end Session

end ClassicalPlanner
