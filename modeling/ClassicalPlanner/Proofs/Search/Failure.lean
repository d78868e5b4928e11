import ClassicalPlanner.Search.AStar
import ClassicalPlanner.Proofs.Session.Growth

/-!
# How searches fail

A space that remembers things may have answers about some states only.  A search asks about the
start, and about states that an edge has led to, and about no others.  So if the space answers
about each state that it knows as it should, knows the states that its own edges lead to, and never
forgets one, then the search fails in no other way than these answers do (`Space.Reliable.search`).
-/

namespace ClassicalPlanner

open Session

variable {ε σ α β State ι : Type}

/-- What a space has to know: a fact `holds` of what it remembers, it `knows` some states, and an
answer `fails` with some errors only, which may depend on what it remembers then. -/
structure Terms (ε σ State : Type) where
  holds : σ → Prop
  knows : σ → State → Prop
  fails : σ → ε → Prop

/-- No state is forgotten. -/
def Terms.Grows (T : Terms ε σ State) (c c' : σ) : Prop := ∀ s, T.knows c s → T.knows c' s

/-- Run where `c` is remembered, the operation forgets no state, keeps to the terms, and if it gives
a result then `P` holds of it. -/
structure Terms.Keeps (T : Terms ε σ State) (x : ExceptT ε (StateM σ) α) (c : σ)
    (P : σ → α → Prop) : Prop where
  holds : T.holds (x c).2
  grows : T.Grows c (x c).2
  result : ∀ {a}, (x c).1 = .ok a → P (x c).2 a
  fails : ∀ {e}, (x c).1 = .error e → T.fails (x c).2 e

namespace Terms.Keeps

variable {T : Terms ε σ State} {c : σ} {P : σ → α → Prop} {Q : σ → β → Prop}

theorem of_error {x : ExceptT ε (StateM σ) α} {e : ε} {c' : σ} (h : T.Keeps x c P)
    (run : x c = (.error e, c')) : T.fails c' e := by
  have fails := h.fails (congrArg Prod.fst run)
  rwa [run] at fails

theorem pure {a : α} (hc : T.holds c) (h : P c a) : T.Keeps (pure a) c P :=
  ⟨hc, fun _ => id, fun same => by cases same; exact h, fun same => by cases same⟩

theorem bind {x : ExceptT ε (StateM σ) α} {f : α → ExceptT ε (StateM σ) β} (hx : T.Keeps x c P)
    (hf : ∀ {a c'}, T.holds c' → T.Grows c c' → P c' a →
      T.Keeps (f a) c' Q) : T.Keeps (x >>= f) c Q := by
  obtain ⟨holds, grows, result, fails⟩ := hx
  rcases hxc : x c with ⟨e | a, c'⟩ <;> rw [hxc] at holds grows result fails
  · have run : (x >>= f) c = (.error e, c') := by rw [run_bind, hxc]
    refine ⟨by rwa [run], by rwa [run], ?_, ?_⟩ <;> rw [run]
    · exact fun same => by cases same
    · exact fun same => by cases same; exact fails rfl
  · have run : (x >>= f) c = f a c' := by rw [run_bind, hxc]
    have rest := hf holds grows (result rfl)
    refine ⟨?_, fun s known => ?_, ?_, ?_⟩ <;> rw [run]
    · exact rest.holds
    · exact rest.grows s (grows s known)
    · exact rest.result
    · exact rest.fails

theorem foldlM {f : β → α → ExceptT ε (StateM σ) β} {I : σ → α → Prop} {l : List α} {b : β}
    (hc : T.holds c) (hb : Q c b) (hl : ∀ a ∈ l, I c a)
    (mono : ∀ {c c' a}, T.Grows c c' → I c a → I c' a)
    (hf : ∀ {b a c}, T.holds c → Q c b → I c a → T.Keeps (f b a) c Q) :
    T.Keeps (l.foldlM f b) c Q := by
  induction l generalizing b c with
  | nil => exact pure hc hb
  | cons a l ih =>
      obtain ⟨ha, hl⟩ := List.forall_mem_cons.mp hl
      exact bind (hf hc hb ha) fun hc' grows hb' => ih hc' hb' fun a mem => mono grows (hl a mem)

end Terms.Keeps

/-- The space answers about the states that it knows as the terms say, and its edges lead to states
that it knows then. -/
structure Space.Reliable (space : Space ε (StateM σ) State ι) (T : Terms ε σ State) : Prop where
  isGoal : ∀ {c s}, T.holds c → T.knows c s → T.Keeps (space.isGoal s) c fun _ _ => True
  estimate : ∀ {c s}, T.holds c → T.knows c s → T.Keeps (space.estimate s) c fun _ _ => True
  successors : ∀ {c s}, T.holds c → T.knows c s →
    T.Keeps (space.successors s) c fun c edges => ∀ e ∈ edges, T.knows c e.state

namespace Search

variable [Ord ι] [Std.TransOrd ι] {T : Terms ε σ State} {c c' : σ}
variable {space : Space ε (StateM σ) State ι} {p : Progress State ι} {i : ι} {r : Record State ι}
variable {limit : Option Nat}

/-! ### The states met -/

/-- The space knows all states that the search has met. -/
def Progress.Remembered (T : Terms ε σ State) (c : σ) (p : Progress State ι) : Prop :=
  ∀ (i : ι) (r : Record State ι), p.known[i]? = some r → T.knows c r.state

theorem Progress.Remembered.mono (h : p.Remembered T c) (grows : T.Grows c c') :
    p.Remembered T c' := fun i r found => grows r.state (h i r found)

theorem Progress.Remembered.note (h : p.Remembered T c) (hr : T.knows c r.state) :
    (p.note i r).Remembered T c := by
  intro j r' found
  unfold Progress.note at found
  rw [Std.ExtTreeMap.getElem?_insert] at found
  split at found
  · cases found
    exact hr
  · exact h j r' found

end Search

namespace Space.Reliable

open Search

variable [Ord ι] [Std.TransOrd ι] {T : Terms ε σ State} {c : σ}
variable {space : Space ε (StateM σ) State ι} {p : Progress State ι} {r : Record State ι}
variable {limit : Option Nat}

/-! ### Steps of the search -/

theorem relax (h : space.Reliable T) (hc : T.holds c) (hp : p.Remembered T c) {e : Edge State}
    (he : T.knows c e.state) (i : ι) (cost : UInt32) :
    T.Keeps (Search.relax space i cost p e) c fun c p => p.Remembered T c := by
  unfold Search.relax
  simp only
  split
  · exact .bind (h.estimate hc he) fun hc' grows _ =>
      .pure hc' ((hp.mono grows).note (grows _ he))
  · rename_i r found
    split
    · exact .pure hc hp
    · exact .pure hc (hp.note (hp _ r found))

theorem expand (h : space.Reliable T) (hc : T.holds c) (hp : p.Remembered T c)
    (hr : T.knows c r.state) (i : ι) :
    T.Keeps (Search.expand space p i r) c fun c p => p.Remembered T c := by
  refine .bind (h.successors hc hr) fun {edges c'} hc' grows hedges => ?_
  have opened : Progress.Remembered T c' { p.note i { r with visited := true } with
      expanded := p.expanded + 1, visited := p.visited + edges.length } :=
    (hp.mono grows).note (grows _ hr)
  exact .foldlM (I := fun c e => T.knows c e.state) hc' opened hedges
    (fun {_ _ e} grows he => grows e.state he) fun hc hp he => h.relax hc hp he i r.cost

/-- A search that goes on has met states only that the space knows. -/
abbrev Goes (T : Terms ε σ State) (c : σ) (out : (Path State × Counters) ⊕ Progress State ι) :
    Prop := ∀ p, out = .inr p → p.Remembered T c

theorem turn (h : space.Reliable T) (hc : T.holds c) (hp : p.Remembered T c) :
    T.Keeps (Search.turn space limit p) c (Goes T) := by
  have ends {result : Path State × Counters} {c : σ} : Goes (ι := ι) T c (.inl result) :=
    fun _ same => by cases same
  have goes {p : Progress State ι} {c : σ} (hp : p.Remembered T c) : Goes T c (.inr p) :=
    fun _ same => Sum.inr.inj same ▸ hp
  unfold Search.turn
  split
  · exact .pure hc ends
  · simp only
    split
    · exact .pure hc (goes hp)
    · rename_i priority i _ _ r found
      refine .bind (h.isGoal hc (hp i r found)) fun {goal c'} hc' grows _ => ?_
      have hp' : Progress.Remembered T c' { p with frontier := p.frontier.erase priority } :=
        hp.mono grows
      cases goal with
      | true => exact .pure hc' ends
      | false =>
          simp only [Bool.false_eq_true, if_false]
          split
          · exact .pure hc' (goes hp')
          · split
            · exact .pure hc' ends
            · exact .bind (h.expand hc' hp' (hp' i r found) i) fun hc'' _ hp'' =>
                .pure hc'' (goes hp'')

theorem run (h : space.Reliable T) (turns : Nat) (hc : T.holds c) (hp : p.Remembered T c) :
    T.Keeps (Search.run space limit turns p) c (Goes T) := by
  induction turns generalizing c p with
  | zero => exact .pure hc fun _ same => Sum.inr.inj same ▸ hp
  | succ turns ih =>
      refine .bind (h.turn hc hp) fun {out _} hc' _ goes => ?_
      cases out with
      | inl result => exact .pure hc' fun _ same => by cases same
      | inr p => exact ih hc' (goes p rfl)

theorem runRounds (h : space.Reliable T) (rounds turns : Nat) (hc : T.holds c)
    (hp : p.Remembered T c) :
    T.Keeps (Search.runRounds space limit rounds turns p) c fun _ _ => True := by
  induction rounds generalizing c p turns with
  | zero => exact .pure hc trivial
  | succ rounds ih =>
      refine .bind (h.run turns hc hp) fun {out _} hc' _ goes => ?_
      cases out with
      | inl result => exact .pure hc' trivial
      | inr p => exact ih (2 * turns) hc' (goes p rfl)

theorem start (h : space.Reliable T) {s : State} (hc : T.holds c) (hs : T.knows c s) :
    T.Keeps (Search.start space s) c fun c p => p.Remembered T c := by
  have empty {c : σ} : Progress.Remembered T c ({} : Progress State ι) := by
    intro i r found
    cases Std.ExtTreeMap.getElem?_empty.symm.trans found
  exact .bind (h.estimate hc hs) fun hc' grows _ => .pure hc' (empty.note (grows s hs))

/-- **A search of a reliable space** fails in no other way than its answers do. -/
theorem search (h : space.Reliable T) (rounds : Nat) {s : State} (hc : T.holds c)
    (hs : T.knows c s) :
    T.Keeps (ClassicalPlanner.search space limit rounds s) c fun _ _ => True :=
  .bind (h.start hc hs) fun hc' _ hp => h.runRounds rounds 1 hc' hp

end Space.Reliable

end ClassicalPlanner
