import ClassicalPlanner.Proofs.Pddl.Printed

/-!
# Domains read back from their text

A printable domain is read back from its own text, but for the constants without a type, which are
not printed (`readDomain_text_of_printable`).  Each part of the text is read by itself: the lists of
words, the types from the children of each parent and from those without parents, the constants of
each type, and the actions.
-/

namespace ClassicalPlanner

open Text Pddl Piece

variable {d d' : Domain} {a : Schema} {named : Bool} {words : List String}

/-! ### Formulas -/

theorem Pddl.Flat.exists_pieces {texts : List String} (h : ∀ text ∈ texts, Flat text) :
    ∃ pieces : List Piece, pieces.map Piece.text = texts ∧ ∀ p ∈ pieces, p.Proper := by
  induction texts with
  | nil => exact ⟨[], rfl, fun _ h => absurd h List.not_mem_nil⟩
  | cons text texts ih =>
      obtain ⟨first, rest⟩ := List.forall_mem_cons.mp h
      obtain ⟨p, proper, rfl⟩ := first.piece
      obtain ⟨pieces, rfl, each⟩ := ih rest
      exact ⟨p :: pieces, rfl, List.forall_mem_cons.mpr ⟨proper, each⟩⟩

/-! ### Lines -/

namespace Domain

/-- The lines of a domain are read by its sections. -/
abbrev Reads (lines : List String) (d d' : Domain) (named : Bool) : Prop :=
  Pddl.Reads (fun both pieces => readDomainSection both.1 both.2 pieces) lines (d, named)
    (d', named)

theorem sections_wordsLine {head : String} {pieces : List Piece}
    (hh : split head = .ok [.word head]) (some : words ≠ []) (hw : split (" ".intercalate words) = .ok pieces) :
    Sections (wordsLine head words) [.word head :: pieces] := by
  have line : "  (" ++ head ++ " " ++ " ".intercalate words ++ ")" =
      "  (" ++ (head ++ " " ++ " ".intercalate words) ++ ")" := by
    simp only [String.append_assoc]
  rw [wordsLine, if_neg (by simpa using some), line]
  exact .line (split_spaced hh hw)

theorem reads_requirements (hw : ∀ word ∈ words, Token word) (none : d.requirements = []) :
    Reads (wordsLine ":requirements" words) d { d with requirements := words } named := by
  by_cases some : words = []
  · have same : { d with requirements := [] } = d := by rw [← none]
    rw [some, same]
    exact .nil _
  · have pieces := split_words fun word mem => (hw word mem).word
    refine .single (sections_wordsLine (by decide) some pieces) fun ws => ?_
    have kept : (words.map Piece.word).filterMap Piece.word? = words := by
      rw [List.filterMap_map]
      exact List.filterMap_some
    change (_, ws) = (_, ws)
    simp only [List.tail_cons, kept]

theorem reads_predicates (hw : ∀ text ∈ words, Flat text) (none : d.predicates = []) :
    Reads (wordsLine ":predicates" words) d { d with predicates := words } named := by
  by_cases some : words = []
  · have same : { d with predicates := [] } = d := by rw [← none]
    rw [some, same]
    exact .nil _
  · obtain ⟨pieces, rfl, proper⟩ := Flat.exists_pieces hw
    have each := split_intercalate fun p mem => (proper p mem).split_text
    refine .single (sections_wordsLine (by decide) some each) fun ws => ?_
    have kept : (pieces.flatMap fun p => [p]).map (fun p => flatten p.text) =
        pieces.map Piece.text := by
      rw [← List.map_eq_flatMap, List.map_id']
      exact List.map_congr_left fun p mem => (hw _ (List.mem_map_of_mem mem)).flat
    change (_, ws) = (_, ws)
    simp only [List.tail_cons, kept]

/-! ### Types -/

/-- The links from types to their parents. -/
def links (d : Domain) : List (String × String) :=
  d.types.toList.flatMap fun entry => entry.2.toList.map (entry.1, ·)

theorem mem_links {type parent : String} : (type, parent) ∈ d.links ↔ d.Link type parent := by
  rw [Link, parents, NameSets.mem_getD_iff_entry, links, List.mem_flatMap]
  exact exists_congr fun entry => and_congr_right fun _ => by simp [and_comm]

theorem children_eq (d : Domain) :
    d.children = d.links.foldl (fun sets link => sets.extend link.2 [link.1]) ∅ := by
  rw [children, links, List.foldl_flatMap, Std.ExtTreeMap.foldl_eq_foldl_toList]
  congr 1
  funext sets entry
  rw [Std.ExtTreeSet.foldl_eq_foldl_toList, List.foldl_map]

theorem mem_children {parent : String} : parent ∈ d.children ↔ ∃ type, d.Link type parent := by
  rw [children_eq, NameSets.mem_foldl_extend]
  constructor
  · rintro (h | ⟨⟨type, _⟩, mem, rfl⟩)
    · exact absurd h NameSets.not_mem_empty
    · exact ⟨type, mem_links.mp mem⟩
  · rintro ⟨type, link⟩
    exact .inr ⟨(type, parent), mem_links.mpr link, rfl⟩

theorem mem_getD_children {type parent : String} :
    type ∈ d.children.getD parent ∅ ↔ d.Link type parent := by
  rw [children_eq, NameSets.mem_getD_foldl_extend]
  constructor
  · rintro (h | ⟨⟨t, _⟩, mem, rfl, same⟩)
    · exact absurd h NameSets.not_mem_getD_empty
    · rw [List.mem_singleton.mp same]
      exact mem_links.mp mem
  · exact fun link => .inr ⟨(type, parent), mem_links.mpr link, rfl, List.mem_singleton_self _⟩

theorem mem_roots {type : String} : type ∈ d.roots ↔ type ∈ d.types ∧ ∀ p, ¬d.Link type p := by
  rw [roots, List.mem_filterMap, NameSets.mem_iff_getElem?]
  constructor
  · rintro ⟨⟨t, set⟩, known, same⟩
    dsimp only at same
    split at same <;> cases same
    rename_i nothing
    have found := NameSets.mem_toList.mp known
    refine ⟨⟨set, found⟩, fun p link => ?_⟩
    obtain ⟨set', found', mem⟩ := NameSets.mem_getD_iff.mp link
    cases found.symm.trans found'
    rw [Std.ExtTreeSet.isEmpty_iff] at nothing
    exact Std.ExtTreeSet.not_mem_empty (nothing ▸ mem)
  · rintro ⟨⟨set, found⟩, nothing⟩
    refine ⟨(type, set), NameSets.mem_toList.mpr found, if_pos ?_⟩
    rw [Std.ExtTreeSet.isEmpty_iff]
    refine Std.ExtTreeSet.ext_mem fun p => iff_of_false (fun mem => ?_) Std.ExtTreeSet.not_mem_empty
    exact nothing p (NameSets.mem_getD_iff.mpr ⟨set, found, mem⟩)

/-- The children of each parent. -/
def families (d : Domain) : List (String × List String) :=
  d.children.toList.map fun entry => (entry.1, entry.2.toList)

theorem mem_families {type parent : String} :
    (type, parent) ∈ d.families.flatMap (fun group => group.2.map (·, group.1)) ↔
      d.Link type parent := by
  rw [← mem_getD_children, NameSets.mem_getD_iff_entry, families, List.flatMap_map,
    List.mem_flatMap]
  exact exists_congr fun entry => and_congr_right fun _ => by simp [and_comm]

theorem mem_types_of_link {type parent : String} (link : d.Link type parent) : type ∈ d.types :=
  NameSets.mem_of_mem_getD link

theorem link_of_mem_families {group : String × List String} {type : String}
    (hg : group ∈ d.families) (mem : type ∈ group.2) : d.Link type group.1 :=
  mem_families.mp (List.mem_flatMap.mpr ⟨group, hg, List.mem_map_of_mem mem⟩)

/-- The types as they are printed: the children of each parent, and the types without one. -/
def printedTypes (d : Domain) : List (String × String) :=
  d.families.flatMap (fun group => group.2.map (·, group.1)) ++ d.roots.map (·, "")

theorem mem_printedTypes {type parent : String} :
    (type, parent) ∈ d.printedTypes ↔ d.Link type parent ∨ type ∈ d.roots ∧ parent = "" := by
  rw [printedTypes, List.mem_append, mem_families, List.mem_map]
  refine or_congr Iff.rfl ⟨?_, ?_⟩
  · rintro ⟨root, mem, same⟩
    cases same
    exact ⟨mem, rfl⟩
  · rintro ⟨mem, rfl⟩
    exact ⟨type, mem, rfl⟩

/-- **The types that are printed** make up the hierarchy. -/
theorem types_declareTypes (hd : d.Printable) (none : d'.types = ∅) :
    (declareTypes d' d.printedTypes).types = d.types := by
  refine NameSets.ext_members (fun type => ?_) fun type parent => ?_
  · rw [mem_declareTypes, none]
    constructor
    · rintro (h | ⟨⟨_, parent⟩, mem, rfl⟩)
      · exact absurd h NameSets.not_mem_empty
      · rcases mem_printedTypes.mp mem with link | ⟨root, -⟩
        · exact mem_types_of_link link
        · exact (mem_roots.mp root).1
    · intro known
      by_cases linked : ∃ parent, d.Link type parent
      · obtain ⟨parent, link⟩ := linked
        exact .inr ⟨(type, parent), mem_printedTypes.mpr (.inl link), rfl⟩
      · have root := mem_roots.mpr ⟨known, not_exists.mp linked⟩
        exact .inr ⟨(type, ""), mem_printedTypes.mpr (.inr ⟨root, rfl⟩), rfl⟩
  · refine mem_parents_declareTypes.trans ⟨?_, fun link => ?_⟩
    · rintro (h | ⟨_, mem, rfl, some⟩)
      · rw [parents, none] at h
        exact absurd h NameSets.not_mem_getD_empty
      · exact (mem_printedTypes.mp mem).resolve_right fun h => some h.2
    · exact .inr ⟨_, mem_printedTypes.mpr (.inl link), rfl, (hd.parent link).ne_empty⟩

theorem split_typeLines (hd : d.Printable) : split (below d.typeLines) =
    .ok (typedPieces d.families ++ d.roots.map .word) := by
  refine split_below_append (split_below_typed ?_) (split_untypedLines fun name mem => ?_)
  · rintro ⟨parent, set⟩ known
    have named : Word parent.toList := by
      obtain ⟨type, link⟩ := mem_children.mp
        (NameSets.mem_iff_getElem?.mpr ⟨set, NameSets.mem_toList.mp known⟩)
      exact (hd.parent link).word
    have children : ∀ type ∈ set.toList, Word type.toList := fun type mem =>
      (hd.type (mem_types_of_link
        (link_of_mem_families (List.mem_map_of_mem known) mem))).1.word
    have line : "    " ++ " ".intercalate set.toList ++ " - " ++ parent =
        "    " ++ (" ".intercalate set.toList ++ " " ++ ("-" ++ " " ++ parent)) := by
      have dash : " - " = " " ++ ("-" ++ " ") := rfl
      simp only [dash, String.append_assoc]
    dsimp only
    rw [line]
    exact split_blanks (by decide) (split_spaced (split_words children)
      (split_spaced (split_word (by decide)) (split_word named)))
  · exact (hd.type (mem_roots.mp mem).1).1.word

theorem reads_types (hd : d.Printable) (none : d'.types = ∅) :
    Reads (sectionLines d.types.isEmpty ":types" d.typeLines) d' { d' with types := d.types }
      named := by
  by_cases empty : d.types = ∅
  · have same : { d' with types := d.types } = d' := by rw [empty, ← none]
    rw [same, empty, sectionLines, if_pos Std.ExtTreeMap.isEmpty_empty]
    exact .nil _
  · rw [sectionLines, if_neg (by rwa [Std.ExtTreeMap.isEmpty_iff])]
    have head : split ":types" = .ok [.word ":types"] := split_word (by decide)
    refine .single (.block head (split_typeLines hd)) fun ws => ?_
    have names : ∀ group ∈ d.families, ∀ name ∈ group.2, name ≠ "-" := fun group known name mem =>
      (hd.type (mem_types_of_link (link_of_mem_families known mem))).2
    have found := typedList_typedPieces names fun name mem => (hd.type (mem_roots.mp mem).1).2
    change (do
      let pairs ← orMalformed (typedList (typedPieces d.families ++ d.roots.map .word))
      return (declareTypes d' pairs, named) : WarnM (Domain × Bool)) ws = _
    rw [found]
    change (Except.ok ({ d' with types := (declareTypes d' d.printedTypes).types }, named), ws) = _
    rw [types_declareTypes hd none]

end Domain

/-! ### Constants -/

namespace NameSets

variable {sets : NameSets} {group name : String}

/-- The members of each set but for the empty name. -/
def groups (sets : NameSets) : List (String × List String) :=
  (sets.toList.filter (·.1 != "")).map fun entry => (entry.1, entry.2.toList)

theorem mem_groups : (name, group) ∈ sets.groups.flatMap (fun group => group.2.map (·, group.1)) ↔
    group ≠ "" ∧ name ∈ sets.getD group ∅ := by
  rw [mem_getD_iff_entry, groups, List.flatMap_map, List.mem_flatMap]
  constructor
  · rintro ⟨entry, kept, pair⟩
    obtain ⟨known, other⟩ := List.mem_filter.mp kept
    obtain ⟨n, mem, same⟩ := List.mem_map.mp pair
    cases same
    exact ⟨by simpa using other, entry, known, rfl, mem⟩
  · rintro ⟨other, entry, known, rfl, mem⟩
    exact ⟨entry, List.mem_filter.mpr ⟨known, by simpa using other⟩, List.mem_map_of_mem mem⟩

theorem member_of_mem_groups {entry : String × List String} (h : entry ∈ sets.groups)
    (mem : name ∈ entry.2) : entry.1 ≠ "" ∧ name ∈ sets.getD entry.1 ∅ :=
  mem_groups.mp (List.mem_flatMap.mpr ⟨entry, h, List.mem_map_of_mem mem⟩)

theorem Printable.split_typedLines (h : sets.Printable) :
    split (below (typedLines sets)) = .ok (typedPieces sets.groups) := by
  refine split_below_typed fun entry kept => ?_
  obtain ⟨known, other⟩ := List.mem_filter.mp kept
  have group : Word entry.1.toList :=
    (h.group (mem_iff_getElem?.mpr ⟨_, mem_toList.mp known⟩) (by simpa using other)).word
  exact split_typedLine group fun name mem =>
    (h.name (member_of_mem_groups (List.mem_map_of_mem kept) mem).2).1.word

theorem Printable.name_of_mem_groups (h : sets.Printable) :
    ∀ entry ∈ sets.groups, ∀ name ∈ entry.2, name ≠ "-" := fun _ known _ mem =>
  (h.name (member_of_mem_groups known mem).2).2

end NameSets

namespace Domain

/-- **The constants that are printed** are those with a type. -/
theorem constants_declareConstants (h : d.constants.Printable) (none : d'.constants = ∅) :
    (declareConstants d'
      (d.constants.groups.flatMap fun group => group.2.map (·, group.1))).constants =
        d.constants.erase "" := by
  refine NameSets.ext_members (fun group => ?_) fun group name => ?_
  · rw [mem_declareConstants, none, NameSets.mem_erase]
    constructor
    · rintro (known | ⟨⟨name, _⟩, mem, rfl⟩)
      · exact absurd known NameSets.not_mem_empty
      · exact (NameSets.mem_groups.mp mem).imp id NameSets.mem_of_mem_getD
    · rintro ⟨other, known⟩
      obtain ⟨name, mem⟩ := h.filled known other
      exact .inr ⟨(name, group), NameSets.mem_groups.mpr ⟨other, mem⟩, rfl⟩
  · rw [mem_getD_declareConstants, none, NameSets.mem_getD_erase, NameSets.mem_groups]
    exact or_iff_right NameSets.not_mem_getD_empty

theorem reads_constants (h : d.constants.Printable) (none : d'.constants = ∅) :
    Reads (sectionLines d.constants.isEmpty ":constants" (typedLines d.constants)) d'
      { d' with constants := d.constants.erase "" } named := by
  by_cases empty : d.constants = ∅
  · have nothing : d.constants.erase "" = d'.constants := by
      rw [empty, none]
      exact Std.ExtTreeMap.erase_empty
    have same : { d' with constants := d.constants.erase "" } = d' := by rw [nothing]
    rw [same, empty, sectionLines, if_pos Std.ExtTreeMap.isEmpty_empty]
    exact .nil _
  · rw [sectionLines, if_neg (by rwa [Std.ExtTreeMap.isEmpty_iff])]
    have head : split ":constants" = .ok [.word ":constants"] := split_word (by decide)
    refine .single (.block head h.split_typedLines) fun ws => ?_
    have none' : ∀ name ∈ ([] : List String), name ≠ "-" := fun _ h => absurd h List.not_mem_nil
    have found := typedList_typedPieces h.name_of_mem_groups none'
    rw [List.map_nil, List.map_nil, List.append_nil, List.append_nil] at found
    change (do
      let pairs ← orMalformed (typedList (typedPieces d.constants.groups))
      return (declareConstants d' pairs, named) : WarnM (Domain × Bool)) ws = _
    rw [found]
    change (Except.ok ({ d' with constants := (declareConstants d' _).constants }, named), ws) = _
    rw [constants_declareConstants h none]

end Domain

/-! ### Actions -/

namespace Schema

/-- A field of an action that is printed only if it is not empty. -/
theorem exists_field (a : Schema) (keyword text : String) (set : Schema → String → Schema)
    (hk : Word keyword.toList) (read : ∀ value rest,
      readFields a (.word keyword :: value :: rest) = readFields (set a (flatten value.text)) rest)
    (ht : text = "" ∨ Flat text) (none : set a "" = a) :
    ∃ pieces, split (below (lineUnlessEmpty ("    " ++ (keyword ++ " ")) text)) = .ok pieces ∧
      ∀ rest, readFields a (pieces ++ rest) = readFields (set a text) rest := by
  by_cases empty : text = ""
  · subst empty
    exact ⟨[], rfl, fun rest => by rw [none]; rfl⟩
  · have flat := ht.resolve_left empty
    obtain ⟨p, proper, same⟩ := flat.piece
    refine ⟨[.word keyword, p], ?_, fun rest => ?_⟩
    · rw [lineUnlessEmpty, if_neg (by simpa using empty), String.append_assoc, ← same]
      exact split_below_line
        (split_blanks (by decide) (split_spaced (split_word hk) proper.split_text))
    · refine (read p rest).trans ?_
      rw [same, flat.flat]

theorem split_parameters {typed : List (String × String)} {untyped : List String}
    (h : Typed Token typed untyped) : split (" ".intercalate
      (((typed ++ untyped.map (·, "")).map fun pair => ⟨pair.1, pair.2⟩).map Parameter.text)) =
      .ok (typedPieces (typed.map fun pair => (pair.2, [pair.1])) ++ untyped.map .word) := by
  have each : ∀ pair ∈ typed ++ untyped.map (·, ""),
      split (Parameter.text ⟨pair.1, pair.2⟩) = .ok (if pair.2 = "" then [.word pair.1]
        else [.word pair.1, .word "-", .word pair.2]) := by
    intro pair mem
    rcases List.mem_append.mp mem with mem | mem
    · have type := h.type pair mem
      have line : Parameter.text ⟨pair.1, pair.2⟩ = pair.1 ++ " " ++ ("-" ++ " " ++ pair.2) := by
        have dash : " - " = " " ++ ("-" ++ " ") := rfl
        rw [Parameter.text, if_neg (by simpa using type.ne_empty), dash]
        simp only [String.append_assoc]
      rw [line, if_neg type.ne_empty]
      exact split_spaced (split_word (h.name pair mem).1.word)
        (split_spaced (split_word (by decide)) (split_word type.word))
    · obtain ⟨name, listed, rfl⟩ := List.mem_map.mp mem
      exact split_word (h.last name listed).1.word
  have whole := split_intercalate each
  rw [List.map_map]
  refine whole.trans (congrArg Except.ok ?_)
  rw [List.flatMap_append, List.flatMap_map, typedPieces, List.flatMap_map, List.map_eq_flatMap]
  congr 1
  refine List.flatMap_congr fun pair mem => ?_
  rw [if_neg (h.type pair mem).ne_empty]
  rfl

theorem typedList_parameters {typed : List (String × String)} {untyped : List String}
    (h : Typed Token typed untyped) :
    typedList (typedPieces (typed.map fun pair => (pair.2, [pair.1])) ++ untyped.map .word) =
      .ok (typed ++ untyped.map (·, "")) := by
  have names : ∀ group ∈ typed.map fun pair => (pair.2, [pair.1]), ∀ name ∈ group.2,
      name ≠ "-" := by
    refine List.forall_mem_map.mpr fun pair mem => List.forall_mem_singleton.mpr ?_
    exact (h.name pair mem).2
  rw [typedList_typedPieces names fun name mem => (h.last name mem).2, List.flatMap_map]
  simp

theorem readFields_parameters (a : Schema) {inside : String} {ps : List Piece}
    {names : List (String × String)} (h : split inside = .ok ps) (h' : typedList ps = .ok names)
    (rest : List Piece) (ws : List Warning) :
    readFields a (.word ":parameters" :: .group inside :: rest) ws =
      readFields { a with parameters := names.map fun pair => ⟨pair.1, pair.2⟩ } rest ws := by
  have both : (split inside >>= typedList) = .ok names :=
    Pddl.bind_eq_ok.mpr ⟨ps, h, h'⟩
  rw [readFields]
  change (orMalformed (split inside >>= typedList) >>= _ : WarnM Schema) ws = _
  rw [both]
  rfl

theorem readFields_precondition (a : Schema) (value : Piece) (rest : List Piece) :
    readFields a (.word ":precondition" :: value :: rest) =
      readFields { a with precondition := flatten value.text } rest := rfl

theorem readFields_effect (a : Schema) (value : Piece) (rest : List Piece) :
    readFields a (.word ":effect" :: value :: rest) =
      readFields { a with effect := flatten value.text } rest := rfl

/-- The lines of an action are a section. -/
theorem sections_lines {parameters : String} {before after ps : List Piece}
    (same : " ".intercalate (a.parameters.map Parameter.text) = parameters)
    (hn : Word a.name.toList) (list : split parameters = .ok ps)
    (hb : split (below (lineUnlessEmpty "    :precondition " a.precondition)) = .ok before)
    (ha : split (below (lineUnlessEmpty "    :effect " a.effect)) = .ok after) :
    Sections a.lines
      [.word ":action" :: .word a.name :: .word ":parameters" :: .group parameters ::
        (before ++ after)] := by
  have opened : "  (:action " = "  (" ++ (":action" ++ " ") := rfl
  have labelled : "    :parameters (" = "    " ++ (":parameters" ++ (" " ++ "(")) := rfl
  have head : split (":action" ++ " " ++ a.name) = .ok [.word ":action", .word a.name] :=
    split_spaced (split_word (by decide)) (split_word hn)
  have first : split (below ["    " ++ (":parameters" ++ " " ++ ("(" ++ parameters ++ ")"))]) =
      .ok [.word ":parameters", .group parameters] :=
    split_below_line (split_blanks (by decide)
      (split_spaced (split_word (by decide)) (split_group list)))
  have body := split_below_append (split_below_append first hb) ha
  have whole := Sections.block head body
  have lines : a.lines = ["  (" ++ (":action" ++ " " ++ a.name)] ++
      (["    " ++ (":parameters" ++ " " ++ ("(" ++ parameters ++ ")"))] ++
        lineUnlessEmpty "    :precondition " a.precondition ++
        lineUnlessEmpty "    :effect " a.effect) ++ ["  )"] := by
    rw [Schema.lines, same, opened, labelled]
    simp only [String.append_assoc, List.append_assoc, List.cons_append, List.nil_append]
  rw [lines]
  exact whole

/-- **An action is read back** from its lines. -/
theorem Printable.exists_sections (h : a.Printable) : ∃ pieces,
    Sections a.lines [.word ":action" :: pieces] ∧ ∀ ws, readAction pieces ws = (.ok a, ws) := by
  obtain ⟨typed, untyped, same, ok⟩ := h.parameters
  have list := split_parameters ok
  rw [← same] at list
  let a₁ : Schema := { name := a.name, parameters := a.parameters }
  let a₂ : Schema := { a₁ with precondition := a.precondition }
  obtain ⟨before, hbefore, readBefore⟩ := exists_field a₁ ":precondition" a.precondition
    (fun a text => { a with precondition := text }) (by decide) (readFields_precondition a₁)
    h.precondition rfl
  obtain ⟨after, hafter, readAfter⟩ := exists_field a₂ ":effect" a.effect
    (fun a text => { a with effect := text }) (by decide) (readFields_effect a₂) h.effect rfl
  have labelled : "    " ++ (":precondition" ++ " ") = "    :precondition " := rfl
  have labelled' : "    " ++ (":effect" ++ " ") = "    :effect " := rfl
  rw [labelled] at hbefore
  rw [labelled'] at hafter
  refine ⟨_, sections_lines rfl h.name.word list hbefore hafter, fun ws => ?_⟩
  have fields : readFields a₁ (before ++ after) = readFields a [] := by
    rw [readBefore after]
    have := readAfter []
    rwa [List.append_nil] at this
  refine (readFields_parameters _ list (typedList_parameters ok) (before ++ after) ws).trans ?_
  rw [← same]
  exact congrFun fields ws

end Schema

namespace Domain

theorem reads_actions (h : ∀ a ∈ d.actions, a.Printable) (d' : Domain) :
    Reads (d.actions.flatMap Schema.lines) d' { d' with actions := d'.actions ++ d.actions }
      named := by
  generalize d.actions = actions at h
  induction actions generalizing d' with
  | nil => rw [List.append_nil]; exact .nil _
  | cons a actions ih =>
      obtain ⟨first, rest⟩ := List.forall_mem_cons.mp h
      obtain ⟨pieces, sections, run⟩ := first.exists_sections
      have one : Reads a.lines d' { d' with actions := d'.actions ++ [a] } named := by
        refine .single sections fun ws => ?_
        change (do
          let a ← readAction pieces
          return ({ d' with actions := d'.actions ++ [a] }, named) : WarnM (Domain × Bool)) ws = _
        rw [Session.run_bind, run]
        rfl
      have more := ih { d' with actions := d'.actions ++ [a] } rest
      rw [List.append_assoc] at more
      exact one.append more

/-! ### The whole domain -/

theorem allClean_typeLines (hd : d.Printable) : AllClean d.typeLines := by
  have type {type parent : String} (link : d.Link type parent) : Clean type :=
    (hd.type (mem_types_of_link link)).1.clean
  refine (AllClean.map ?_).append (allClean_untypedLines fun name mem => ?_)
  · rintro ⟨parent, set⟩ known
    have parents : Clean parent := by
      obtain ⟨child, link⟩ := mem_children.mp
        (NameSets.mem_iff_getElem?.mpr ⟨set, NameSets.mem_toList.mp known⟩)
      exact (hd.parent link).clean
    have children : AllClean set.toList := fun name mem =>
      type (link_of_mem_families (List.mem_map_of_mem known) mem)
    exact clean_append (clean_append (clean_append (by decide)
      (clean_intercalate (by decide) children)) (by decide)) parents
  · exact (hd.type (mem_roots.mp mem).1).1.clean

/-- The lines between the first and the last. -/
def body (d : Domain) : List String :=
  wordsLine ":requirements" d.requirements
    ++ sectionLines d.types.isEmpty ":types" d.typeLines
    ++ sectionLines d.constants.isEmpty ":constants" (typedLines d.constants)
    ++ wordsLine ":predicates" d.predicates
    ++ d.actions.flatMap Schema.lines

theorem lines_eq (d : Domain) :
    d.lines = ["(define (" ++ ("domain" ++ " " ++ d.name) ++ ")"] ++ d.body ++ [")"] := by
  have opened : "(define (domain " = "(define (" ++ ("domain" ++ " ") := rfl
  rw [lines, body, opened]
  simp only [String.append_assoc, List.append_assoc]

theorem allClean_body (hd : d.Printable) : AllClean d.body := by
  have requirements := allClean_wordsLine ":requirements" (by decide)
    fun r mem => (hd.requirements r mem).clean
  have types := allClean_sectionLines d.types.isEmpty ":types" (by decide) (allClean_typeLines hd)
  have constants := allClean_sectionLines d.constants.isEmpty ":constants" (by decide)
    (allClean_typedLines hd.constants)
  have predicates := allClean_wordsLine ":predicates" (by decide)
    fun p mem => (hd.predicates p mem).clean
  refine (((requirements.append types).append constants).append predicates).append ?_
  intro line mem
  obtain ⟨a, ha, mem⟩ := List.mem_flatMap.mp mem
  exact (hd.actions a ha).allClean line mem

/-- The constants that have a type are what is left of them in the text of the domain. -/
def printed (d : Domain) : Domain := { d with constants := d.constants.erase "" }

theorem reads_body (hd : d.Printable) :
    Reads d.body { name := d.name } d.printed true :=
  ((((reads_requirements hd.requirements rfl).append (reads_types hd rfl)).append
    (reads_constants hd.constants rfl)).append (reads_predicates hd.predicates rfl)).append
      (reads_actions hd.actions _)

/-- **A printable domain is read back** from its text, but for constants without a type. -/
theorem readDomain_text_of_printable (hd : d.Printable) (hn : Token d.name) (ws : List Warning) :
    readDomain d.text ws = (.ok d.printed, ws) := by
  have head : split ("domain" ++ " " ++ d.name) = .ok [.word "domain", .word d.name] :=
    split_spaced (split_word (by decide)) (split_word hn.word)
  have first : Clean ("(define (" ++ ("domain" ++ " " ++ d.name) ++ ")") :=
    clean_append (clean_append (by decide) (clean_append (by decide) hn.clean)) (by decide)
  obtain ⟨all, sections, run⟩ := reads_body hd
  have found := sections_definition head sections
  rw [← lines_eq] at found
  have stripped := stripComments_intercalate ((allClean_singleton first).append (allClean_body hd))
  rw [← lines_eq] at stripped
  have fold : (([.word "domain", .word d.name] :: all).foldlM
      (fun both pieces => readDomainSection both.1 both.2 pieces) ({}, false) :
        WarnM (Domain × Bool)) ws = (.ok (d.printed, true), ws) := by
    rw [List.foldlM_cons]
    exact run ws
  exact readDomain_eq_ok_iff.mpr ⟨_, stripped.symm ▸ found, fold⟩

end Domain

end ClassicalPlanner
