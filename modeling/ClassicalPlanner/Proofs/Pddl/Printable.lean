import ClassicalPlanner.Proofs.Pddl.Line
import ClassicalPlanner.Proofs.Pddl.Reading
import ClassicalPlanner.Proofs.Pddl.TypedList

/-!
# Definitions that can be printed

A definition is printable if its names are words, none of which is taken for a dash or for a
comment, and if its formulas are single pieces on one line.  What is read from a plain text is
printable (`printable_readDomain`, `printable_readProblem`): its pieces are `Legible`, and each
section adds only what is in its pieces.
-/

namespace ClassicalPlanner

open Text Session

/-! ### Names and formulas -/

/-- A word that no comment hides in. -/
structure Pddl.Token (text : String) : Prop where
  word : Word text.toList
  bare : ';' ∉ text.toList

/-- A text on one line that is one piece. -/
structure Pddl.Flat (text : String) : Prop where
  piece : ∃ p : Piece, p.Proper ∧ p.text = text
  flat : flatten text = text
  bare : ';' ∉ text.toList

open Pddl

/-- The names in the sets, and those of the sets but for the empty one, are words; no set is
empty. -/
structure NameSets.Printable (sets : NameSets) : Prop where
  group : ∀ {group}, group ∈ sets → group ≠ "" → Token group
  name : ∀ {group name}, name ∈ sets.getD group ∅ → Token name ∧ name ≠ "-"
  filled : ∀ {group}, group ∈ sets → group ≠ "" → ∃ name, name ∈ sets.getD group ∅

/-- The names of the action are words, and its formulas are single pieces; parameters without a type
come last. -/
structure Schema.Printable (a : Schema) : Prop where
  name : Token a.name
  parameters : ∃ typed untyped,
    a.parameters = (typed ++ untyped.map (·, "")).map (fun pair => ⟨pair.1, pair.2⟩) ∧
      Typed Token typed untyped
  precondition : a.precondition = "" ∨ Flat a.precondition
  effect : a.effect = "" ∨ Flat a.effect

/-- The names of the domain are words, and its formulas are single pieces. -/
structure Domain.Printable (d : Domain) : Prop where
  requirements : ∀ r ∈ d.requirements, Token r
  type : ∀ {type}, type ∈ d.types → Token type ∧ type ≠ "-"
  parent : ∀ {type parent}, parent ∈ d.parents type → Token parent
  constants : d.constants.Printable
  predicates : ∀ p ∈ d.predicates, Flat p
  actions : ∀ a ∈ d.actions, a.Printable

namespace Pddl

/-! ### Legible pieces -/

/-- A text without comments, where no blank goes unnoticed. -/
structure Legible (text : String) : Prop where
  plain : Plain text.toList
  bare : ';' ∉ text.toList

theorem Legible.subset {a b : String} (h : Legible a) (sub : b.toList ⊆ a.toList) : Legible b :=
  ⟨h.plain.subset sub, fun mem => h.bare (sub mem)⟩

/-- A piece of a legible text. -/
structure Piece.Legible (p : Piece) : Prop where
  proper : p.Proper
  text : Pddl.Legible p.text

theorem Piece.legible_split {text : String} {pieces : List Piece} (ht : Pddl.Legible text)
    (h : split text = .ok pieces) : ∀ p ∈ pieces, p.Legible := fun p mem =>
  have ⟨proper, sub⟩ := proper_split h p mem
  ⟨proper, ht.subset sub⟩

theorem Piece.Legible.inside {inside : String} (h : (Piece.group inside).Legible) :
    Pddl.Legible inside := by
  refine h.text.subset fun c mem => ?_
  rw [Piece.text, String.toList_append, String.toList_append]
  exact List.mem_append_left _ (List.mem_append_right _ mem)

theorem Piece.Legible.token {word : String} (h : (Piece.word word).Legible) : Token word :=
  ⟨h.proper, h.text.bare⟩

/-- **A formula is one piece** again when it has been put on one line. -/
theorem Piece.Legible.flat {p : Piece} (h : p.Legible) : Flat (flatten p.text) := by
  have bare : ';' ∉ (flatten p.text).toList := by
    intro mem
    rcases mem_flatten mem with h' | ⟨h', -⟩
    · cases h'
    · exact h.text.bare h'
  refine ⟨?_, flatten_flatten _, bare⟩
  cases p with
  | word text =>
      have ink : ∀ c ∈ text.toList, isInk c := fun c mem =>
        isInk_of_wordChar (h.text.plain c mem) (h.proper.chars c mem)
      rw [Piece.text, flatten_of_isInk ink]
      exact ⟨.word text, h.proper, rfl⟩
  | group inside =>
      have shape : (Piece.group inside).text.toList = '(' :: inside.toList ++ [')'] := by
        simp [Piece.text]
      obtain ⟨inside', same, ink⟩ := exists_flatten_group shape
      refine ⟨.group inside', ?_, ?_⟩
      · obtain ⟨pieces, found⟩ := h.proper
        obtain ⟨fragments, written, -⟩ := Piece.split_eq_ok_iff.mp found
        have paired : Paired inside'.toList := by
          rw [Paired, ← nest_ink, ink, nest_ink]
          exact written.paired
        obtain ⟨fragments', written'⟩ := Fragment.exists_written paired
        exact ⟨_, Piece.split_eq_ok_iff.mpr ⟨fragments', written', rfl⟩⟩
      · rw [← String.toList_inj, same]
        simp [Piece.text]

theorem legible_stripComments {text : String} (h : Plain text.toList) :
    Legible (stripComments text) :=
  ⟨plain_stripComments h, not_mem_stripComments text⟩

theorem legible_sections {text : String} {all : List (List Piece)} (ht : Legible text)
    (h : sections text = .ok all) : ∀ pieces ∈ all, ∀ p ∈ pieces, p.Legible :=
  forall_sections Piece.legible_split Piece.Legible.inside ht h

variable {pieces : List Piece} {pairs : List (String × String)} {ws ws' : List Warning}
  {d d' : Domain} {named named' : Bool}

theorem words_of_legible (h : ∀ p ∈ pieces, p.Legible) : Words Token pieces :=
  fun _ mem => (h _ mem).token

theorem Token.ne_empty {text : String} (h : Token text) : text ≠ "" := by
  rintro rfl
  exact h.word.ne_nil rfl

/-! ### Actions -/

theorem printable_readFields {a b : Schema} (ha : a.Printable) (hp : ∀ p ∈ pieces, p.Legible)
    (h : readFields a pieces ws = (.ok b, ws')) : b.Printable := by
  refine readFields_keeps hp (fun ha hv hparts hlist => ?_) (fun ha hv => ?_) (fun ha hv => ?_) ha h
  · obtain ⟨typed, untyped, rfl, ok⟩ :=
      typedList_eq_ok (words_of_legible (Piece.legible_split hv.inside hparts)) hlist
    exact ⟨ha.name, ⟨typed, untyped, rfl, ok⟩, ha.precondition, ha.effect⟩
  · exact ⟨ha.name, ha.parameters, .inr hv.flat, ha.effect⟩
  · exact ⟨ha.name, ha.parameters, ha.precondition, .inr hv.flat⟩

theorem printable_readAction {a : Schema} (hp : ∀ p ∈ pieces, p.Legible)
    (h : readAction pieces ws = (.ok a, ws')) : a.Printable := by
  obtain ⟨name, fields, rfl, h⟩ := readAction_eq_ok h
  obtain ⟨hn, hr⟩ := List.forall_mem_cons.mp hp
  refine printable_readFields ⟨hn.token, ⟨[], [], rfl, ?_⟩, .inl rfl, .inl rfl⟩ hr h
  exact ⟨fun _ h => absurd h List.not_mem_nil, fun _ h => absurd h List.not_mem_nil,
    fun _ h => absurd h List.not_mem_nil⟩

/-! ### Domains -/

theorem printable_empty : (∅ : NameSets).Printable :=
  ⟨fun h => absurd h NameSets.not_mem_empty, fun h => absurd h NameSets.not_mem_getD_empty,
    fun h => absurd h NameSets.not_mem_empty⟩

/-- What is in a typed list of legible pieces. -/
theorem typedList_legible (hp : ∀ p ∈ pieces, p.Legible) (h : typedList pieces = .ok pairs) :
    ∀ pair ∈ pairs, (Token pair.1 ∧ pair.1 ≠ "-") ∧ (pair.2 = "" ∨ Token pair.2) := by
  obtain ⟨typed, untyped, rfl, ok⟩ := typedList_eq_ok (words_of_legible hp) h
  intro pair mem
  rcases List.mem_append.mp mem with mem | mem
  · exact ⟨ok.name pair mem, .inr (ok.type pair mem)⟩
  · obtain ⟨name, listed, rfl⟩ := List.mem_map.mp mem
    exact ⟨ok.last name listed, .inl rfl⟩

theorem printable_declareConstants (h : d.constants.Printable)
    (hn : ∀ pair ∈ pairs, (Token pair.1 ∧ pair.1 ≠ "-") ∧ (pair.2 = "" ∨ Token pair.2)) :
    (declareConstants d pairs).constants.Printable where
  group known named := by
    rcases mem_declareConstants.mp known with known | ⟨pair, mem, rfl⟩
    · exact h.group known named
    · exact (hn pair mem).2.resolve_left named
  name mem := by
    rcases mem_getD_declareConstants.mp mem with mem | mem
    · exact h.name mem
    · exact (hn _ mem).1
  filled known named := by
    simp only [mem_getD_declareConstants]
    rcases mem_declareConstants.mp known with known | ⟨⟨name, group⟩, mem, rfl⟩
    · exact (h.filled known named).imp fun _ => .inl
    · exact ⟨name, .inr mem⟩

/-- What is declared is printable, and so is the name that is given. -/
theorem printable_declares (hd : d.Printable) (hn : named → Token d.name)
    (hp : ∀ p ∈ pieces, p.Legible) (h : Declares d named pieces d' named') :
    d'.Printable ∧ (named' → Token d'.name) := by
  cases h with
  | name =>
      exact ⟨⟨hd.requirements, hd.type, hd.parent, hd.constants, hd.predicates, hd.actions⟩,
        fun _ => (hp _ (List.mem_cons_of_mem _ List.mem_cons_self)).token⟩
  | @requirements body =>
      refine ⟨⟨?_, hd.type, hd.parent, hd.constants, hd.predicates, hd.actions⟩, hn⟩
      intro r mem
      obtain ⟨p, mem, same⟩ := List.mem_filterMap.mp mem
      cases p with
      | word text => cases same; exact (hp _ (List.mem_cons_of_mem _ mem)).token
      | group inside => cases same
  | types found =>
      have pairs := typedList_legible (List.forall_mem_of_forall_mem_cons hp) found
      refine ⟨⟨hd.requirements, ?_, ?_, hd.constants, hd.predicates, hd.actions⟩, hn⟩
      · intro type known
        rcases mem_declareTypes.mp known with known | ⟨pair, mem, rfl⟩
        · exact hd.type known
        · exact (pairs pair mem).1
      · intro type parent known
        rcases mem_parents_declareTypes.mp known with known | ⟨pair, mem, rfl, some⟩
        · exact hd.parent known
        · exact (pairs _ mem).2.resolve_left some
  | constants found =>
      refine ⟨⟨hd.requirements, hd.type, hd.parent, ?_, hd.predicates, hd.actions⟩, hn⟩
      exact printable_declareConstants hd.constants
        (typedList_legible (List.forall_mem_of_forall_mem_cons hp) found)
  | predicates =>
      refine ⟨⟨hd.requirements, hd.type, hd.parent, hd.constants, ?_, hd.actions⟩, hn⟩
      exact List.forall_mem_map.mpr fun p mem => (hp p (List.mem_cons_of_mem _ mem)).flat
  | action found =>
      refine ⟨⟨hd.requirements, hd.type, hd.parent, hd.constants, hd.predicates, ?_⟩, hn⟩
      exact List.forall_mem_append.mpr ⟨hd.actions, List.forall_mem_singleton.mpr
        (printable_readAction (List.forall_mem_of_forall_mem_cons hp) found)⟩
  | other => exact ⟨hd, hn⟩

/-- **A domain that has been read** from a plain text is printable. -/
theorem printable_readDomain {text : String} (plain : Plain text.toList)
    (h : readDomain text ws = (.ok d, ws')) : d.Printable ∧ Token d.name := by
  obtain ⟨printable, name⟩ := readDomain_keeps
    (I := fun d named => d.Printable ∧ (named → Token d.name))
    (fun found => legible_sections (legible_stripComments plain) found)
    ⟨⟨fun _ h => absurd h List.not_mem_nil, fun h => absurd h NameSets.not_mem_empty,
      fun h => absurd h NameSets.not_mem_getD_empty, printable_empty,
      fun _ h => absurd h List.not_mem_nil, fun _ h => absurd h List.not_mem_nil⟩,
      Bool.noConfusion⟩
    (fun keeps hp declared => printable_declares keeps.1 keeps.2 hp declared) h
  exact ⟨printable, name rfl⟩

end Pddl

end ClassicalPlanner
