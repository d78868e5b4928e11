import ClassicalPlanner.Proofs.Session.Reachable
import ClassicalPlanner.Proofs.Tree.Environment

/-!
# Evaluation is first-order truth

A formula that is read from text keeps the names of its variables apart from its constants: the
words of variables start with `?`, and those of constants do not (`Tree.Spelled.constants_free`).
If moreover no quantifier binds a name again and no member of a group goes by a bound name, then
evaluation decides whether the world satisfies the formula (`evaluate_first_order`).
-/

namespace ClassicalPlanner

/-! ### Bound names -/

namespace Tree

variable {t : Tree} {words : SymbolTable} {v c : SymbolId}

theorem Spelled.constant_plain (h : t.Spelled words) (hc : c ∈ t.constants) :
    ∃ word, words.word? c = some word ∧ word.toList.head? ≠ some '?' := by
  induction h with
  | @constant d word found _ plain =>
      rw [constants, List.mem_singleton] at hc
      exact ⟨word, hc ▸ found, plain⟩
  | var _ _ _ _ => simp [constants] at hc
  | compound _ _ ih =>
      obtain ⟨a, ha, hc⟩ := mem_constants_compound.mp hc
      exact ih a ha hc

theorem Spelled.boundName_marked (h : t.Spelled words) (hv : v ∈ t.boundNames) :
    ∃ word, words.word? v = some word ∧ word.toList.head? = some '?' := by
  induction h with
  | constant _ _ _ => simp [boundNames] at hv
  | var _ _ _ _ => simp [boundNames] at hv
  | @compound kind args parts _ ih =>
      rcases mem_boundNames_compound.mp hv with binds | ⟨a, ha, hv⟩
      · obtain ⟨g, binder⟩ := exists_var_of_binder? binds
        cases parts _ binder with
        | var found _ marked _ => exact ⟨_, found, marked⟩
      · exact ih a ha hv

/-- No constant of a formula goes by a name that is bound in it. -/
theorem Spelled.constants_free (h : t.Spelled words) (hc : c ∈ t.constants) : c ∉ t.boundNames := by
  intro bound
  obtain ⟨word, found, plain⟩ := h.constant_plain hc
  obtain ⟨word', found', marked⟩ := h.boundName_marked bound
  cases found.symm.trans found'
  exact plain marked

end Tree

namespace Session

variable {s₀ s₁ s : Session} {text : String} {ops : List Operation} {k : Key} {w : World}
variable {a : AtomSet} {t : Tree}

/-- **Evaluation is first-order truth.**  Take a formula that has been read in any session there can
be, while there was a number for every word, and a world in the session after any operations but
resets.  If the formula is a condition, no quantifier binds a name that is bound around it, and no
member of a group goes by a name that the formula binds, then its value in the world is its truth
under the empty environment: quantifiers range over the members of groups, only variables without a
group get values, an atom holds if its instance is one of the atoms of the world, and equality is
that of instances.  The one way to fail is that numbers for new instances run out. -/
theorem evaluate_first_order (reached : s₀.Reachable) (read : parse text s₀ = (.ok k, s₁))
    (enough : s₁.symbols.Enough) (kept : ∀ op ∈ ops, op ≠ .reset) (later : runAll ops s₁ = s)
    (hw : s.store.find? w.key = some (.world a)) (ht : s.store.Denotes k t)
    (condition : t.IsCondition) (afresh : t.BindsAfresh)
    (others : ∀ g, ∀ c ∈ s.members g, c ∉ t.boundNames) :
    (evaluate k w s).1 = .error .outOfNumbers ∧ (evaluate k w s).2.store.Full ∨
    ∃ b, (evaluate k w s).1 = .ok b ∧ (b = true ↔ t.Satisfies s.members
      (fun u => ∃ key ∈ a, (evaluate k w s).2.store.Denotes key u) fun _ => none) := by
  have reached₁ : s₁.Reachable := by
    have step := reached.step (.parse text)
    rwa [Operation.run, read] at step
  have hs : s.Canonical := (later ▸ reached₁.runAll ops).canonical
  -- the tree was there when the formula had been read, so its names are spelled as text spells them
  have spelled : t.Spelled s₁.symbols := by
    have formula := (serves_parse reached.sound text).result
    rw [read] at formula
    obtain ⟨t', ht', spelled⟩ := formula
    have keeps : Keeps s₁ s := later ▸ keeps_runAll reached₁.sound kept
    exact ht.unique (ht'.mono keeps.store) ▸ spelled enough
  obtain ⟨-, fits⟩ := (settles_evaluate k w).additive s hs
  -- the atoms of the world, as trees of the session that evaluation leaves
  obtain ⟨W, trees⟩ := exists_trees fits a
  have holds : (fun u => ∃ key ∈ a, (evaluate k w s).2.store.Denotes key u) = (· ∈ W) := by
    funext u
    rw [← trees]
  rw [holds]
  rcases answers_evaluate hs ht ⟨a, hw, depicts_of_trees fits trees⟩ (le_refl _) with h | h
  · exact .inl ⟨h, (repeats_evaluate k w).full (Prod.ext h rfl)⟩
  · rw [h]
    exact .inr (Tree.truth_iff_satisfies condition afresh (fun _ => spelled.constants_free) others)

/-! ### A tower -/

/-- Three blocks on each other, of which two count as blocks. -/
def tower : Session := runAll
  [.makeWorld ["(on a b)", "(on b c)"] [("", ["a", "b", "c"]), ("block", ["a", "b"])]] ∅

/-- Whether every block is on something. -/
def question : String := "(forall (?x - block) (exists (?y) (on ?x ?y)))"

/-- The question has been asked, and another word was looked up. -/
def asked : Session := runAll [.intern "d"] (parse question tower).2

/-- The question as a tree. -/
def supported : Tree :=
  .compound .universal [.var ⟨6⟩ ⟨4⟩, .compound .existential [.var ⟨7⟩ .none,
    .compound .atom [.constant ⟨5⟩, .var ⟨6⟩ .none, .var ⟨7⟩ .none]]]

theorem denotes_supported : asked.store.Denotes (.ofKind .universal 7) supported := by
  obtain ⟨predicate, above, below, atom, inner, binder, outer⟩ :
      asked.store.find? (.ofKind .constant 5) = some (.constant ⟨5⟩) ∧
      asked.store.find? (.ofSymbol ⟨6⟩) = some (.variable ⟨6⟩ .none) ∧
      asked.store.find? (.ofSymbol ⟨7⟩) = some (.variable ⟨7⟩ .none) ∧
      asked.store.find? (.ofKind .atom 5) =
        some (.atom (.ofKind .constant 5) [.ofSymbol ⟨6⟩, .ofSymbol ⟨7⟩]) ∧
      asked.store.find? (.ofKind .existential 6) =
        some (.existential (.ofSymbol ⟨7⟩) (.ofKind .atom 5)) ∧
      asked.store.find? (.ofKind .variable 4) = some (.variable ⟨6⟩ ⟨4⟩) ∧
      asked.store.find? (.ofKind .universal 7) =
        some (.universal (.ofKind .variable 4) (.ofKind .existential 6)) := by decide +kernel
  have onAtom := NodeStore.Denotes.compound atom rfl
    (.cons (.constant predicate) (.cons (.var above) (.cons (.var below) .nil)))
  have someBelow := NodeStore.Denotes.compound inner rfl (.cons (.var below) (.cons onAtom .nil))
  exact .compound outer rfl (.cons (.var binder) (.cons someBelow .nil))

/-- No object goes by a name that the question binds. -/
theorem members_asked (g : SymbolId) : ∀ c ∈ asked.members g, c ∉ supported.boundNames := by
  have all : ∀ group ∈ asked.groups.toList, ∀ c ∈ group.2.toList, c ∉ [⟨6⟩, ⟨7⟩] := by
    decide +kernel
  have bound : supported.boundNames = [⟨6⟩, ⟨7⟩] := by
    simp [supported, Tree.boundNames, Tree.binder?, Kind.isQuantifier]
  intro c hc
  obtain ⟨set, found, mem⟩ := mem_members.mp hc
  rw [bound]
  exact all (g, set) (Std.ExtTreeMap.mem_toList_iff_getElem?_eq_some.mpr found) c
    (Std.ExtTreeSet.mem_toList.mpr mem)

theorem evaluate_first_order_tower :
    (parse question tower).1 = .ok (.ofKind .universal 7) ∧
    asked.store.Denotes (.ofKind .universal 7) supported ∧
    (evaluate (.ofKind .universal 7) ⟨.ofKind .world 3⟩ asked).1 = .ok true ∧
    supported.Satisfies asked.members (fun u =>
      ∃ key ∈ (.ofList [Key.ofKind .atom 1, Key.ofKind .atom 2] : AtomSet),
        (evaluate (.ofKind .universal 7) ⟨.ofKind .world 3⟩ asked).2.store.Denotes key u)
      fun _ => none := by
  have reached : tower.Reachable := Reachable.empty.runAll _
  -- together, so that the session is computed once
  obtain ⟨given, enough, found, holds⟩ :
      (parse question tower).1 = .ok (.ofKind .universal 7) ∧
      (parse question tower).2.symbols.Enough ∧
      asked.store.find? (.ofKind .world 3) =
        some (.world (.ofList [Key.ofKind .atom 1, Key.ofKind .atom 2])) ∧
      (evaluate (.ofKind .universal 7) ⟨.ofKind .world 3⟩ asked).1 = .ok true := by decide +kernel
  have condition : supported.IsCondition := .universal (.existential (.atom _))
  have afresh : supported.BindsAfresh := by
    simp [supported, Tree.BindsAfresh, Tree.boundNames, Tree.binder?, Kind.isQuantifier]
  have decided := evaluate_first_order (s := asked) (w := ⟨.ofKind .world 3⟩) reached
    (run_eq_of_result given) enough (by simp) rfl found denotes_supported condition afresh
    members_asked
  rw [holds] at decided
  rcases decided with ⟨⟨⟩, -⟩ | ⟨_, ⟨⟩, satisfied⟩
  exact ⟨given, denotes_supported, holds, satisfied.mp rfl⟩

end Session

end ClassicalPlanner
