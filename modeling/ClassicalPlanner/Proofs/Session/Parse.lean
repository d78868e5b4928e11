import ClassicalPlanner.Session.Parse
import ClassicalPlanner.Proofs.Formula.Fragment

/-!
# How fragments are read

A group is read by its opening, which tells the kind of the formula and which of its fragments are
arguments (`addFragment_group_eq`).  The text of the group does not matter once it has been cut into
fragments (`addFragment_group`).

An argument is one fragment, or the name of a variable, `-` and one more fragment, or that name and
a `-` with nothing behind it.  `induct_arguments` is the induction on fragments that goes along with
this; there is an equation of `addArguments` for each of its cases.
-/

namespace ClassicalPlanner.Session

variable {f : Fragment} {rest parts : List Fragment} {word : String} {kind : Kind}

/-! ### Names of variables -/

theorem marked_of_variableWord? {fragment : Fragment} {name : String}
    (h : variableWord? fragment = some name) :
    fragment = .word name ∧ name.toList.head? = some '?' := by
  unfold variableWord? at h
  split at h
  · split at h <;> cases h
    exact ⟨rfl, ‹_›⟩
  · cases h

theorem plain_of_variableWord? {word : String} (h : variableWord? (.word word) = none) :
    word.toList.head? ≠ some '?' := by
  intro marked
  simp [variableWord?, marked] at h

theorem variableWord?_of_marked (h : word.toList.head? = some '?') :
    variableWord? (.word word) = some word := if_pos h

/-! ### Arguments -/

/-- What is read first: an argument that is one fragment, or one that begins with the name of a
variable. -/
theorem addArguments_cons (f : Fragment) (rest : List Fragment) :
    addArguments (f :: rest) =
      match variableWord? f, rest with
      | some name, .word "-" :: group :: rest => do
        let arg ← addVariable name group.text
        let (args, _) ← addArguments rest
        return (arg :: args, true)
      | some name, [.word "-"] => do
        let arg ← addVariable name ""
        return ([arg], true)
      | some name, rest => do
        let arg ← addVariable name ""
        let (args, _) ← addArguments rest
        return (arg :: args, true)
      | none, rest => do
        let arg ← addFragment f
        let (args, saw) ← addArguments rest
        return (arg :: args, saw) :=
  addArguments.eq_def (f :: rest)

theorem addArguments_fragment (plain : variableWord? f = none) :
    addArguments (f :: rest) = do
      let arg ← addFragment f
      let (args, saw) ← addArguments rest
      return (arg :: args, saw) := by
  rw [addArguments_cons, plain]

theorem addArguments_grouped (marked : word.toList.head? = some '?') :
    addArguments (.word word :: .word "-" :: f :: rest) = do
      let arg ← addVariable word f.text
      let (args, _) ← addArguments rest
      return (arg :: args, true) := by
  rw [addArguments_cons, variableWord?_of_marked marked]
  rfl

theorem addArguments_dangling (marked : word.toList.head? = some '?') :
    addArguments [.word word, .word "-"] = do
      let arg ← addVariable word ""
      return ([arg], true) := by
  rw [addArguments_cons, variableWord?_of_marked marked]
  rfl

theorem addArguments_free (marked : word.toList.head? = some '?')
    (other : rest.head? ≠ some (.word "-")) :
    addArguments (.word word :: rest) = do
      let arg ← addVariable word ""
      let (args, _) ← addArguments rest
      return (arg :: args, true) := by
  rw [addArguments_cons, variableWord?_of_marked marked]
  split
  · exact absurd rfl other
  · exact absurd rfl other
  · rename_i same _ _
    cases same
    rfl
  · rename_i same
    cases same

/-- Induction on the arguments that fragments make up. -/
theorem induct_arguments {P : List Fragment → Prop} (nil : P [])
    (fragment : ∀ {f rest}, variableWord? f = none → P rest → P (f :: rest))
    (grouped : ∀ {word group rest}, word.toList.head? = some '?' → P rest →
      P (.word word :: .word "-" :: group :: rest))
    (dangling : ∀ {word}, word.toList.head? = some '?' → P [.word word, .word "-"])
    (free : ∀ {word rest}, word.toList.head? = some '?' → rest.head? ≠ some (.word "-") →
      P rest → P (.word word :: rest)) (fragments : List Fragment) : P fragments := by
  induction hn : fragments.length using Nat.strongRecOn generalizing fragments with
  | _ n ih =>
      subst hn
      rcases fragments with _ | ⟨f, rest⟩
      · exact nil
      cases named : variableWord? f with
      | none => exact fragment named (ih rest.length (Nat.lt_succ_self _) rest rfl)
      | some name =>
          obtain ⟨rfl, marked⟩ := marked_of_variableWord? named
          by_cases dash : rest.head? = some (.word "-")
          · obtain ⟨after, rfl⟩ := List.head?_eq_some_iff.mp dash
            rcases after with _ | ⟨group, after⟩
            · exact dangling marked
            · refine grouped marked (ih after.length ?_ after rfl)
              simp only [List.length_cons]
              omega
          · exact free marked dash (ih rest.length (Nat.lt_succ_self _) rest rfl)

/-! ### Groups -/

/-- The kind of a formula, and the fragments of its arguments. -/
def opening : List Fragment → Kind × List Fragment
  | .word word :: rest =>
    match Kind.ofOperator? word with
    | some kind => (kind, rest)
    | none => (.atom, .word word :: rest)
  | parts => (.atom, parts)

theorem opening_word (word : String) (rest : List Fragment) :
    opening (.word word :: rest) =
      match Kind.ofOperator? word with
      | some kind => (kind, rest)
      | none => (.atom, .word word :: rest) := rfl

theorem opening_subset (parts : List Fragment) : (opening parts).2 ⊆ parts := by
  unfold opening
  split
  · split
    · exact List.subset_cons_self _ _
    · exact List.Subset.refl _
  · exact List.Subset.refl _

theorem opening_operator {op : String} (h : kind.operator? = some op) :
    opening (.word op :: rest) = (kind, rest) := by
  rw [opening_word, Kind.ofOperator?_eq_some_iff.mpr h]

theorem opening_atom (h : ∀ op, parts.head? = some (.word op) → Kind.ofOperator? op = none) :
    opening parts = (.atom, parts) := by
  rcases parts with _ | ⟨op | _, rest⟩
  · rfl
  · rw [opening_word, h op rfl]
  · rfl

/-- **A group is read** by its opening and its arguments. -/
theorem addFragment_group_eq (inside : String) (parts : List Fragment) :
    addFragment (.group inside parts) = addArguments (opening parts).2 >>= fun (args, saw) =>
      addFormula (opening parts).1 args saw := by
  rcases parts with _ | ⟨word | _, rest⟩
  · rfl
  · rw [addFragment.eq_def]
    cases h : Kind.ofOperator? word <;> simp only [opening_word, h]
  · rfl

/-- The text of a group does not matter once it has been cut into fragments. -/
theorem addFragment_group (inside inside' : String) :
    addFragment (.group inside parts) = addFragment (.group inside' parts) :=
  (addFragment_group_eq inside parts).trans (addFragment_group_eq inside' parts).symm

end ClassicalPlanner.Session
