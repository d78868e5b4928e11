import ClassicalPlanner.Proofs.Session.Reachable

/-!
# Operations that leave all that there is

An operation `Retains` if a sound session is followed by a sound one that has all its expressions,
all its words and its groups, whether the operation succeeds or fails.

An operation `Recurs` if moreover it gives the result that it has given once again, and adds
nothing, in every session that follows.  The words are part of this: a text that is read again comes
out as the same formula, as long as there is a number for every word (`recurs_parse`).
-/

namespace ClassicalPlanner

namespace Session

variable {s s' F : Session} {α β : Type}

/-! ### Operations that retain -/

/-- A sound session is followed by a sound one that has all of it, the groups included. -/
structure Follows (s s' : Session) : Prop where
  sound : s'.Sound
  keeps : Keeps s s'
  groups : s'.groups = s.groups

theorem Follows.refl (hs : s.Sound) : s.Follows s := ⟨hs, .refl s, rfl⟩

theorem Follows.trans {s₂ : Session} (h : s.Follows s') (h' : s'.Follows s₂) : s.Follows s₂ :=
  ⟨h'.sound, h.keeps.trans h'.keeps, h'.groups.trans h.groups⟩

theorem Follows.grow (h : s.Follows s') : s ≤ s' := ⟨h.keeps.store, h.groups⟩

/-- From a sound session, the operation leaves all that there is, the groups included. -/
abbrev Retains (x : Session → β × Session) : Prop := Moves (fun s s' => s.Sound → s.Follows s') x

instance : IsPreorder Session fun s s' => s.Sound → s.Follows s' where
  refl _ hs := .refl hs
  trans _ _ _ h h' hs := (h hs).trans (h' (h hs).sound)

theorem Moves.follows {x : Session → β × Session} {b : β} (hx : Retains x) (hs : s.Sound)
    (h : x s = (b, s')) : s.Follows s' := by
  have after := hx s hs
  rwa [h] at after

theorem retains_intern (text : String) : Retains (liftM (intern text) : SessionM SymbolId) :=
  fun _ hs => ⟨(serves_intern hs text).sound, (serves_intern hs text).keeps, rfl⟩

theorem retains_parse (text : String) : Retains (parse text) := fun s hs =>
  have served := serves_parse hs text
  ⟨served.sound, served.keeps,
    ((registers_parse (K := []) text).additive s hs.canonical).1.groups⟩

/-! ### Operations that recur -/

/-- The operation only adds, and the result that it has given it gives again, and adds nothing, in
every session that follows and has a number for every word. -/
structure Recurs (x : SessionM α) : Prop where
  retains : Retains x
  again : ∀ {s a s' F}, s.Sound → x s = (.ok a, s') → s'.Follows F → F.symbols.Enough →
    x F = (.ok a, F)

namespace Recurs

theorem pure (a : α) : Recurs (pure a : SessionM α) :=
  ⟨.result _, fun _ h _ _ => by cases h; rfl⟩

theorem throw (e : FormulaError) : Recurs (throw e : SessionM α) :=
  ⟨.result _, fun _ h _ _ => by cases h⟩

theorem bind {x : SessionM α} {f : α → SessionM β} (hx : Recurs x) (hf : ∀ a, Recurs (f a)) :
    Recurs (x >>= f) := by
  refine ⟨.bind hx.retains fun a => (hf a).retains, fun {s b s' F} hs h later enough => ?_⟩
  obtain ⟨a, s₁, h₁, h₂⟩ := run_bind_eq_ok.mp h
  have sound := (hx.retains.follows hs h₁).sound
  have first := ((hf a).retains.follows sound h₂).trans later
  exact run_bind_eq_ok.mpr ⟨a, F, hx.again hs h₁ first enough, (hf a).again sound h₂ later enough⟩

theorem result (r : Except FormulaError α) : Recurs (liftM r : SessionM α) :=
  ⟨.result _, fun _ h _ _ => Prod.ext (Prod.mk.inj h).1 rfl⟩

theorem foldlM {f : β → α → SessionM β} (hf : ∀ b a, Recurs (f b a)) (l : List α) (b : β) :
    Recurs (l.foldlM f b) := by
  induction l generalizing b with
  | nil => exact .pure b
  | cons a l ih => exact .bind (hf b a) ih

/-- Where a composed operation adds nothing, neither do its parts. -/
theorem of_bind {x : SessionM α} {f : α → SessionM β} {b : β} (hx : Recurs x)
    (hf : ∀ a, Recurs (f a)) (hs : s.Sound) (enough : s.symbols.Enough)
    (h : (x >>= f) s = (.ok b, s)) : ∃ a, x s = (.ok a, s) ∧ f a s = (.ok b, s) := by
  obtain ⟨a, s₁, h₁, h₂⟩ := run_bind_eq_ok.mp h
  have later := (hf a).retains.follows (hx.retains.follows hs h₁).sound h₂
  -- the first part would have given the last session the second time
  obtain ⟨⟩ := h₁.symm.trans (hx.again hs h₁ later enough)
  exact ⟨a, h₁, h₂⟩

end Recurs

/-- An operation that settles and leaves the words alone. -/
theorem Settles.recurs {x : SessionM α} (h : Settles x x)
    (symbols : ∀ s, (x s).2.symbols = s.symbols) : Recurs x where
  retains s hs := by
    obtain ⟨grow, canonical⟩ := h.additive s hs.canonical
    have same := symbols s
    exact ⟨⟨canonical, same ▸ hs.words⟩, ⟨grow.store, le_of_eq same.symm⟩, grow.groups⟩
  again hs hx later _ := h.again hs.canonical hx later.sound.canonical later.grow

theorem Repeats.recurs {x : SessionM α} (h : Repeats x x) : Recurs x :=
  h.toSettles.recurs h.symbols

theorem Repeats.retains {x : SessionM α} (h : Repeats x x) : Retains x := h.recurs.retains

theorem recurs_intern (text : String) : Recurs (liftM (intern text) : SessionM SymbolId) := by
  refine ⟨retains_intern text, fun {s c s' F} hs h later enough => ?_⟩
  obtain ⟨rfl, rfl⟩ : (intern text s).1 = c ∧ (intern text s).2 = s' := by
    obtain ⟨hc, hs'⟩ := Prod.mk.inj h
    exact ⟨Except.ok.inj hc, hs'⟩
  have known := hs.words.word?_intern text (enough.of_le later.keeps.words)
  have same : intern text F = ((intern text s).1, F) :=
    run_intern later.sound enough (later.keeps.words.words known)
  show (Except.ok (intern text F).1, (intern text F).2) = _
  rw [same]

theorem recurs_addConstant (text : String) : Recurs (liftM (addConstant text) : SessionM Key) :=
  .bind (recurs_intern text) fun c => (repeats_addConstantOf c).recurs

theorem recurs_addVariable (text group : String) : Recurs (addVariable text group) := by
  refine .bind (recurs_intern text) fun v => .bind (recurs_intern group) fun g =>
    (settles_addVariableOf v g).recurs fun s => ?_
  unfold register
  split <;> rfl

theorem recurs_addFormula (kind : Kind) (args : List Key) (sawVariable : Bool) :
    Recurs (addFormula kind args sawVariable) := by
  unfold addFormula
  split
  · exact (repeats_addCompound _ _).recurs
  · exact (repeats_addCompound _ _).recurs
  · split
    · exact .pure _
    · exact (repeats_addCompound _ _).recurs
  · exact (repeats_addCompound _ _).recurs

mutual

theorem recurs_addFragment : ∀ fragment : Fragment, Recurs (addFragment fragment)
  | .word word => recurs_addConstant word
  | .group _ (.word word :: rest) => by
      unfold addFragment
      split
      · exact .bind (recurs_addArguments rest) fun _ => recurs_addFormula _ _ _
      · exact .bind (recurs_addArguments (.word word :: rest)) fun _ => recurs_addFormula _ _ _
  | .group _ [] => by
      unfold addFragment
      exact .bind (recurs_addArguments []) fun _ => recurs_addFormula _ _ _
  | .group _ (.group text parts :: rest) => by
      unfold addFragment
      exact .bind (recurs_addArguments (.group text parts :: rest)) fun _ =>
        recurs_addFormula _ _ _

theorem recurs_addArguments : ∀ fragments : List Fragment, Recurs (addArguments fragments)
  | [] => .pure _
  | fragment :: rest => by
      unfold addArguments
      split
      · rename_i name group after _
        exact .bind (recurs_addVariable name group.text) fun _ =>
          .bind (recurs_addArguments after) fun _ => .pure _
      · rename_i name _
        exact .bind (recurs_addVariable name "") fun _ => .pure _
      · rename_i rest _ _ name _ _ _
        exact .bind (recurs_addVariable name "") fun _ =>
          .bind (recurs_addArguments rest) fun _ => .pure _
      · rename_i rest _ _ _
        exact .bind (recurs_addFragment fragment) fun _ =>
          .bind (recurs_addArguments rest) fun _ => .pure _

end

/-- **A text that is read again** comes out as the same formula. -/
theorem recurs_parse (text : String) : Recurs (parse text) := by
  unfold parse
  split
  · exact recurs_addFragment _
  · exact .throw _

end Session

end ClassicalPlanner
