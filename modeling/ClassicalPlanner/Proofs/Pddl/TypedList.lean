import ClassicalPlanner.Proofs.Pddl.Layout

/-!
# Typed lists

`TypedAs` says how a typed list is made, and such a list is read as it is made
(`typedList_eq_ok_iff`).  So it gives names with a type, and after those names without one; neither
is called `-` (`typedList_eq_ok`).  Groups of names printed with their types, and after them names
without a type, are read as just these (`typedList_typedPieces`).
-/

namespace ClassicalPlanner.Pddl

open Text Piece

variable {pieces : List Piece} {pending names : List String} {pairs : List (String × String)}
  {P : String → Prop}

/-! ### How typed lists are made -/

theorem typedNames_word {name : String} (h : name ≠ "-") (rest : List Piece) :
    typedNames pending (.word name :: rest) = typedNames (pending ++ [name]) rest := by
  rw [typedNames]
  · exact fun _ same => h same
  · exact fun _ _ _ same => h same
  · exact fun _ _ _ same => h same

theorem typedNames_words (h : ∀ name ∈ names, name ≠ "-") (pending : List String)
    (rest : List Piece) :
    typedNames pending (names.map .word ++ rest) = typedNames (pending ++ names) rest := by
  induction names generalizing pending with
  | nil => rw [List.map_nil, List.nil_append, List.append_nil]
  | cons name names ih =>
      obtain ⟨first, h⟩ := List.forall_mem_cons.mp h
      rw [List.map_cons, List.cons_append, typedNames_word first, ih h, List.append_assoc]
      rfl

/-- What a typed list gives: names in front of a type with it, and those at the end, where a dash may
be left over, with none. -/
inductive TypedAs : List Piece → List (String × String) → Prop where
  | untyped {names : List String} (plain : ∀ name ∈ names, name ≠ "-") :
      TypedAs (names.map .word) (names.map (·, ""))
  | leftOver {names : List String} (plain : ∀ name ∈ names, name ≠ "-") :
      TypedAs (names.map .word ++ [.word "-"]) (names.map (·, ""))
  | typed {names : List String} {type : String} {rest : List Piece}
      {pairs : List (String × String)} (plain : ∀ name ∈ names, name ≠ "-")
      (later : TypedAs rest pairs) :
      TypedAs (names.map .word ++ .word "-" :: .word type :: rest) (names.map (·, type) ++ pairs)

theorem typedAs_of_typedNames (plain : ∀ name ∈ pending, name ≠ "-")
    (h : typedNames pending pieces = .ok pairs) :
    TypedAs (pending.map .word ++ pieces) pairs := by
  induction pending, pieces using typedNames.induct generalizing pairs with
  | case1 pending =>
      cases h
      rw [List.append_nil]
      exact .untyped plain
  | case2 pending => cases h; exact .leftOver plain
  | case3 pending inside rest => cases h
  | case4 pending type rest ih =>
      obtain ⟨later, hlater, same⟩ := bind_eq_ok.mp h
      cases same
      exact .typed plain (ih (fun _ h => absurd h List.not_mem_nil) hlater)
  | case5 pending inside rest => cases h
  | case6 pending name rest single other last ih =>
      have name_ne : name ≠ "-" := by
        rintro rfl
        -- a dash is followed by nothing, a group or a word
        cases rest with
        | nil => exact single rfl rfl
        | cons next rest =>
            cases next with
            | word type => exact last type rest rfl rfl
            | group inside => exact other inside rest rfl rfl
      rw [typedNames_word name_ne] at h
      have whole := ih (List.forall_mem_append.mpr ⟨plain, List.forall_mem_singleton.mpr name_ne⟩) h
      rwa [List.map_append, List.append_assoc] at whole

/-- **A typed list is read** as it is made. -/
theorem typedList_eq_ok_iff : typedList pieces = .ok pairs ↔ TypedAs pieces pairs := by
  refine ⟨fun h => typedAs_of_typedNames (fun _ h => absurd h List.not_mem_nil) h, fun h => ?_⟩
  unfold typedList
  induction h with
  | untyped plain =>
      have read := typedNames_words plain [] []
      rw [List.append_nil] at read
      exact read
  | leftOver plain => exact typedNames_words plain [] _
  | typed plain _ ih =>
      rw [typedNames_words plain, List.nil_append, typedNames, ih]
      rfl

/-! ### What a typed list gives -/

/-- The words among some pieces. -/
def Words (P : String → Prop) (pieces : List Piece) : Prop := ∀ w, .word w ∈ pieces → P w

/-- The names of a typed list, which are not `-`, with their types; those without a type are
last. -/
structure Typed (P : String → Prop) (typed : List (String × String)) (untyped : List String) :
    Prop where
  name : ∀ pair ∈ typed, P pair.1 ∧ pair.1 ≠ "-"
  type : ∀ pair ∈ typed, P pair.2
  last : ∀ name ∈ untyped, P name ∧ name ≠ "-"

/-- **What a typed list gives.** -/
theorem typedList_eq_ok (hp : Words P pieces) (h : typedList pieces = .ok pairs) :
    ∃ typed untyped, pairs = typed ++ untyped.map (·, "") ∧ Typed P typed untyped := by
  have nothing {Q : String × String → Prop} : ∀ pair ∈ ([] : List (String × String)), Q pair :=
    fun _ h => absurd h List.not_mem_nil
  have named {names : List String} {rest : List Piece} (hp : Words P (names.map .word ++ rest))
      (plain : ∀ name ∈ names, name ≠ "-") (name : String) (mem : name ∈ names) :
      P name ∧ name ≠ "-" :=
    ⟨hp name (List.mem_append_left _ (List.mem_map_of_mem mem)), plain name mem⟩
  induction typedList_eq_ok_iff.mp h with
  | @untyped names plain =>
      rw [← List.append_nil (names.map _)] at hp
      exact ⟨[], names, rfl, nothing, nothing, named hp plain⟩
  | @leftOver names plain => exact ⟨[], names, rfl, nothing, nothing, named hp plain⟩
  | @typed names type rest pairs plain later ih =>
      have htype : P type := hp type (List.mem_append_right _ (List.mem_cons_of_mem _
        List.mem_cons_self))
      have rest' : Words P rest := fun w mem => hp w (List.mem_append_right _
        (List.mem_cons_of_mem _ (List.mem_cons_of_mem _ mem)))
      obtain ⟨typed, untyped, rfl, ok⟩ := ih rest' (typedList_eq_ok_iff.mpr later)
      refine ⟨names.map (·, type) ++ typed, untyped, (List.append_assoc ..).symm, ?_, ?_, ok.last⟩
      · exact List.forall_mem_append.mpr ⟨List.forall_mem_map.mpr (named hp plain), ok.name⟩
      · exact List.forall_mem_append.mpr ⟨List.forall_mem_map.mpr fun _ _ => htype, ok.type⟩

/-! ### Reading what is printed -/

/-- The pieces of groups of names, each with its type behind it. -/
def typedPieces (groups : List (String × List String)) : List Piece :=
  groups.flatMap fun group => group.2.map .word ++ [.word "-", .word group.1]

/-- **A printed typed list** is read as the names that it was printed from. -/
theorem typedList_typedPieces {groups : List (String × List String)}
    (h : ∀ group ∈ groups, ∀ name ∈ group.2, name ≠ "-") (last : ∀ name ∈ names, name ≠ "-") :
    typedList (typedPieces groups ++ names.map .word) =
      .ok (groups.flatMap (fun group => group.2.map (·, group.1)) ++ names.map (·, "")) := by
  induction groups with
  | nil =>
      have := typedNames_words last [] []
      rw [List.append_nil, List.nil_append] at this
      exact this
  | cons group groups ih =>
      obtain ⟨first, h⟩ := List.forall_mem_cons.mp h
      have rest := ih h
      unfold typedList at rest ⊢
      have split : typedPieces (group :: groups) ++ names.map .word = group.2.map .word ++
          .word "-" :: .word group.1 :: (typedPieces groups ++ names.map .word) := by
        simp [typedPieces]
      rw [split, typedNames_words first, List.nil_append, typedNames, rest]
      simp [Pure.pure, Except.pure, Bind.bind, Except.bind]

/-! ### Lines of names -/

theorem intercalate_empty (texts : List String) : "".intercalate texts = String.join texts := by
  induction texts with
  | nil => rw [String.intercalate_nil, String.join_nil]
  | cons text texts ih =>
      cases texts with
      | nil => simp
      | cons next texts =>
          rw [String.intercalate_cons_cons, ih, String.append_empty, String.join_cons (s := text)]

theorem split_typedLine {group : String} (hg : Word group.toList)
    (hn : ∀ name ∈ names, Word name.toList) :
    split ("    " ++ "".intercalate (names.map (· ++ " ")) ++ "- " ++ group) =
      .ok (names.map .word ++ [.word "-", .word group]) := by
  have spaced : "- " = "-" ++ " " := rfl
  have type : split ("- " ++ group) = .ok [.word "-", .word group] := by
    rw [spaced]
    exact split_spaced (split_word (by decide)) (split_word hg)
  have line : split ("".intercalate (names.map (· ++ " ")) ++ ("- " ++ group)) =
      .ok (names.map .word ++ [.word "-", .word group]) := by
    rw [intercalate_empty]
    induction names with
    | nil => rwa [List.map_nil, String.join_nil, String.empty_append]
    | cons name names ih =>
        obtain ⟨first, rest⟩ := List.forall_mem_cons.mp hn
        rw [List.map_cons, String.join_cons, String.append_assoc]
        exact (split_spaced (split_word first) (ih rest)).trans rfl
  rw [String.append_assoc, String.append_assoc]
  exact split_blanks (by decide) line

/-- Lines that each have the names of one type, and the type. -/
theorem split_below_typed {α : Type} {l : List α} {line : α → String}
    {group : α → String × List String}
    (h : ∀ a ∈ l, split (line a) = .ok ((group a).2.map .word ++ [.word "-", .word (group a).1])) :
    split (below (l.map line)) = .ok (typedPieces (l.map group)) := by
  rw [typedPieces, List.flatMap_map, List.map_eq_flatMap]
  exact split_below_flatMap fun a mem => split_below_line (h a mem)

theorem split_untypedLines (hn : ∀ name ∈ names, Word name.toList) :
    split (below (untypedLines names)) = .ok (names.map .word) := by
  unfold untypedLines
  split
  · rename_i nothing
    rw [List.isEmpty_iff.mp nothing]
    rfl
  · exact split_below_line (split_blanks (by decide) (split_words hn))

end ClassicalPlanner.Pddl
