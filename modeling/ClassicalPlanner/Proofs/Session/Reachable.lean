import ClassicalPlanner.Proofs.Session.Effect
import ClassicalPlanner.Proofs.Session.Reading

/-!
# Reachable sessions

The operations that change a session, and the sessions that they reach from the one that knows
nothing.  Any key, symbol or text may be passed in, also a key that was never given out.

Every operation but a reset keeps a session sound, and all its expressions and words
(`Operation.keeps`).  So every reachable session is sound, and what holds of canonical sessions
holds of every session there can be (`Reachable.canonical`).
-/

namespace ClassicalPlanner

namespace Session

/-- An operation that changes a session. -/
inductive Operation where
  | reset
  | intern (text : String)
  | addConstant (text : String)
  | addVariable (text group : String)
  | addCompound (kind : Kind) (args : List Key)
  | addWorld (atoms : AtomSet)
  | setGroups (groups : List (String × List String))
  | makeWorld (atoms : List String) (groups : List (String × List String))
  | parse (text : String)
  | substitute (key : Key) (old new : SymbolId)
  | substituteAll (key : Key) (bindings : List (SymbolId × SymbolId))
  | evaluate (key : Key) (world : World)
  | laxEvaluate (key : Key) (upper lower : World)
  | collect (changes : Changes) (effect : Key) (world : World)
  | collectAll (changes : Changes) (effect : Key)
  | apply (world : World) (effect : Key)

/-- The session that an operation leaves, whether it succeeds or fails. -/
def Operation.run : Operation → Session → Session
  | .reset, _ => ∅
  | .intern text, s => (Session.intern text s).2
  | .addConstant text, s => (Session.addConstant text s).2
  | .addVariable text group, s => (Session.addVariable text group s).2
  | .addCompound kind args, s => (Session.addCompound kind args s).2
  | .addWorld atoms, s => (Session.addWorld atoms s).2
  | .setGroups groups, s => (Session.setGroups groups s).2
  | .makeWorld atoms groups, s => (Session.makeWorld atoms groups s).2
  | .parse text, s => (Session.parse text s).2
  | .substitute key old new, s => (Session.substitute key old new s).2
  | .substituteAll key bindings, s => (Session.substituteAll key bindings s).2
  | .evaluate key world, s => (Session.evaluate key world s).2
  | .laxEvaluate key upper lower, s => (Session.laxEvaluate key upper lower s).2
  | .collect changes effect world, s => (Session.collect effect world changes s).2
  | .collectAll changes effect, s => (Session.collectAll effect changes s).2
  | .apply world effect, s => (Session.apply world effect s).2

/-- The sessions there can be. -/
inductive Reachable : Session → Prop where
  | empty : Reachable ∅
  | step {s : Session} (h : Reachable s) (op : Operation) : Reachable (op.run s)

variable {s s' : Session} {α β : Type}

/-- Operations one after the other. -/
def runAll (ops : List Operation) (s : Session) : Session := ops.foldl (fun s op => op.run s) s

theorem Reachable.runAll (h : s.Reachable) (ops : List Operation) : (runAll ops s).Reachable := by
  induction ops generalizing s with
  | nil => exact h
  | cons op ops ih => exact ih (h.step op)

/-- What is collected does not matter for the session that a collection leaves. -/
theorem session_changesFrom (c : Changes) (x : ChangesM Unit) (s : Session) :
    (changesFrom c x s).2 = (x c s).2 := by
  unfold changesFrom
  rcases x c s with ⟨⟨_ | ⟨⟩, _⟩, _⟩ <;> rfl

/-! ### What operations keep -/

theorem repeats_substituteAll (k : Key) (bindings : List (SymbolId × SymbolId)) :
    Repeats (substituteAll k bindings) (substituteAll k bindings) :=
  .foldlM (fun k (old, new) => repeats_substitute k old new) bindings k

theorem Repeats.keeps {x y : SessionM α} (h : Repeats x y) (hs : s.Sound) :
    (x s).2.Sound ∧ Keeps s (x s).2 := by
  obtain ⟨grow, canonical⟩ := h.additive s hs.canonical
  have same := h.symbols s
  exact ⟨⟨canonical, same ▸ hs.words⟩, ⟨grow.store, le_of_eq same.symm⟩⟩

/-- **Every operation but a reset** keeps all expressions and words, whatever is passed in. -/
theorem Operation.keeps {op : Operation} (hop : op ≠ .reset) (hs : s.Sound) :
    (op.run s).Sound ∧ Keeps s (op.run s) := by
  have served {β : Type} {x : Session → β × Session} {P : Session → β → Prop}
      (h : Serves x s P) : (x s).2.Sound ∧ Keeps s (x s).2 := ⟨h.sound, h.keeps⟩
  cases op with
  | reset => exact absurd rfl hop
  | intern text => exact served (serves_intern hs text)
  | addConstant text => exact served (serves_addConstant hs text)
  | addVariable text group =>
      exact served (P := Gives _ (¬·.Missing)) (serves_addVariable hs text group id)
  | addCompound kind args => exact (repeats_addCompound kind args).keeps hs
  | addWorld atoms => exact (repeats_addWorld atoms).keeps hs
  | setGroups groups => exact served (serves_setGroups hs groups)
  | makeWorld atoms groups => exact served (serves_makeWorld hs atoms groups)
  | parse text => exact served (serves_parse hs text)
  | substitute k old new => exact (repeats_substitute k old new).keeps hs
  | substituteAll k bindings => exact (repeats_substituteAll k bindings).keeps hs
  | evaluate k w => exact (repeats_evaluate k w).keeps hs
  | laxEvaluate k upper lower => exact (repeats_laxEvaluate k upper lower).keeps hs
  | collect c k w =>
      have kept := (repeats_collect c k w).keeps hs
      rwa [session_changesFrom] at kept
  | collectAll c k =>
      have kept := (repeats_collectAll c k).keeps hs
      rwa [session_changesFrom] at kept
  | apply w k => exact (repeats_apply w k).keeps hs

/-- As long as it is not reset, a session keeps all that it has. -/
theorem keeps_runAll {ops : List Operation} (hs : s.Sound) (kept : ∀ op ∈ ops, op ≠ .reset) :
    Keeps s (runAll ops s) := by
  induction ops generalizing s with
  | nil => exact .refl s
  | cons op ops ih =>
      obtain ⟨hop, rest⟩ := List.forall_mem_cons.mp kept
      obtain ⟨sound, keeps⟩ := op.keeps hop hs
      exact keeps.trans (ih sound rest)

theorem Reachable.sound (h : s.Reachable) : s.Sound := by
  induction h with
  | empty => exact sound_empty
  | step _ op ih =>
      by_cases hop : op = .reset
      · subst hop
        exact sound_empty
      · exact (op.keeps hop ih).1

/-- **Every session there can be is canonical.** -/
theorem Reachable.canonical (h : s.Reachable) : s.Canonical := h.sound.canonical

/-! ### Programs of operations -/

/-- From a session there can be, the program leaves one. -/
def Stays (x : Session → β × Session) : Prop := ∀ s, s.Reachable → (x s).2.Reachable

/-- If there can be the first session, there can be the second. -/
abbrev Leading (s s' : Session) : Prop := s.Reachable → s'.Reachable

instance : IsPreorder Session Leading where
  refl _ := id
  trans _ _ _ h h' := h' ∘ h

namespace Stays

theorem operation {x : Session → β × Session} (op : Operation) (h : ∀ s, (x s).2 = op.run s) :
    Stays x := by
  intro s hs
  rw [h]
  exact hs.step op

theorem result (b : β) : Stays fun s => (b, s) := fun _ hs => hs

theorem reading (f : Session → β) : Stays fun s => (f s, s) := fun _ hs => hs

theorem bind {x : SessionM α} {f : α → SessionM β} (hx : Stays x) (hf : ∀ a, Stays (f a)) :
    Stays (x >>= f) := Moves.bind (R := Leading) hx hf

theorem foldlM {f : β → α → SessionM β} (hf : ∀ b a, Stays (f b a)) (l : List α) (b : β) :
    Stays (l.foldlM f b) := Moves.foldlM (R := Leading) hf l b

theorem collectAll (c : Changes) (k : Key) : Stays (changesFrom c (Session.collectAll k)) :=
  operation (.collectAll c k) fun s => session_changesFrom c _ s

theorem addWorld (a : AtomSet) : Stays (Session.addWorld a) := operation (.addWorld a) fun _ => rfl

theorem laxEvaluate (k : Key) (upper lower : World) : Stays (Session.laxEvaluate k upper lower) :=
  operation (.laxEvaluate k upper lower) fun _ => rfl

end Stays

end Session

end ClassicalPlanner
