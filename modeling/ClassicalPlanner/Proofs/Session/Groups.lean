import ClassicalPlanner.Proofs.Session.Serve

/-!
# Groups by name

Groups are installed from words: a list of group names, each with the objects that belong to it.
`Installs s groups` says that the members of the groups of the session are just those, and that each
has a word.  Installing groups brings this about, whatever groups there were before
(`serves_setGroups`), and it lasts as long as the groups are not replaced (`Installs.mono`).

If there are enough numbers for all words, then the members of a group by its name are the objects
that were listed with this name, each of them once (`Installs.words_members`).
-/

namespace ClassicalPlanner

namespace Session

variable {s s' : Session} {c i : SymbolId} {group : String} {objects : List String}
variable {groups : List (String × List String)} {new : List SymbolId}

theorem mem_members : c ∈ s.members i ↔ ∃ set, s.groups[i]? = some set ∧ c ∈ set := by
  unfold members
  cases s.groups[i]? with
  | none => simp
  | some set => simp [Std.ExtTreeSet.mem_toList]

theorem members_of_groups (h : s'.groups = s.groups) : s'.members i = s.members i := by
  unfold members
  rw [h]

/-! ### Members that are added -/

/-- The members of groups of which one has been enlarged. -/
theorem mem_members_insert {g : SymbolId} :
    c ∈ { s with groups := s.groups.insert g ((s.groups.getD g ∅).insertMany new) }.members i ↔
      c ∈ s.members i ∨ i = g ∧ c ∈ new := by
  rw [mem_members, Std.ExtTreeMap.getElem?_insert]
  simp only [Std.LawfulEqOrd.compare_eq_iff_eq]
  split
  · rename_i same
    subst same
    have old : c ∈ s.groups.getD g ∅ ↔ c ∈ s.members g := by
      rw [mem_members, Std.ExtTreeMap.getD_eq_getD_getElem?]
      cases s.groups[g]? with
      | none => simp
      | some set => simp
    simp [Std.ExtTreeSet.mem_insertMany_list, old]
  · rename_i other
    rw [← mem_members, or_iff_left fun h => other h.1.symm]

theorem serves_intern_groups (hs : s.Sound) (text : String) :
    Serves (intern text) s fun s' c => s'.groups = s.groups ∧ Named text s' c :=
  { serves_intern hs text with result := ⟨rfl, (serves_intern hs text).result⟩ }

theorem serves_internAll (words : List String) (hs : s.Sound) :
    Serves (words.mapM intern) s fun s' cs =>
      s'.groups = s.groups ∧ List.Forall₂ (Named · s' ·) words cs := by
  induction words generalizing s with
  | nil => exact ⟨hs, .refl s, id, rfl, .nil⟩
  | cons word words ih =>
      rw [List.mapM_cons]
      refine .bindState (serves_intern_groups hs word) fun _ sound _ ⟨same, named⟩ => ?_
      refine .bindState (ih sound) fun {cs s'} keeps sound' _ ⟨same', all⟩ => ?_
      exact ⟨sound', .refl s', id, same'.trans same, .cons (named.mono keeps) all⟩

/-- Groups may be replaced by others whose members have words. -/
theorem serves_regroup {f : Session → Session} {groups : Groups} {P : Session → Unit → Prop}
    (hs : s.Sound) (hf : f s = { s with groups })
    (members : s.Closed → ∀ {i c}, c ∈ { s with groups }.members i → s.HasWord c)
    (result : P { s with groups } ()) : Serves (modify f : StateM Session Unit) s P := by
  have run : (modify f : StateM Session Unit) s = ((), { s with groups }) := Prod.ext rfl hf
  refine ⟨by rw [run]; exact ⟨hs.canonical, hs.words⟩, by rw [run]; exact ⟨le_refl _, le_refl _⟩,
    fun hc => ?_, by rw [run]; exact result⟩
  rw [run]
  exact ⟨hc.worded, hc.grounded, members hc⟩

/-- The session `s'` has the members of `s`, and the objects besides as members of the group. -/
def Enlarges (s : Session) (group : String) (objects : List String) (s' : Session) : Prop :=
  ∃ g new, Named group s' g ∧ List.Forall₂ (Named · s' ·) objects new ∧
    ∀ {i c}, c ∈ s'.members i ↔ c ∈ s.members i ∨ i = g ∧ c ∈ new

theorem serves_addMembers (hs : s.Sound) (group : String) (objects : List String) :
    Serves (addMembers group objects) s fun s' _ => s.Enlarges group objects s' := by
  refine .bindState (serves_intern_groups hs group) fun {g _} _ sound _ ⟨same, named⟩ => ?_
  refine .bindState (serves_internAll objects sound) fun {new s'} keeps sound' _ ⟨same', all⟩ => ?_
  refine serves_regroup sound' rfl (fun hc {i c} mem => ?_) ⟨g, new, ?_, ?_, fun {i c} => ?_⟩
  · rcases mem_members_insert.mp mem with old | ⟨-, mem⟩
    · exact hc.members old
    · obtain ⟨_, -, named⟩ := NodeStore.forall₂_exists_right all.flip mem
      exact named.hasWord
  · exact ⟨(named.mono keeps).hasWord, (named.mono keeps).word⟩
  · exact all.imp fun _ _ h => ⟨h.hasWord, h.word⟩
  · rw [mem_members_insert, members_of_groups (same'.trans same)]

/-! ### Groups that are installed -/

/-- The groups of the session are the ones listed: their members are the objects that are listed
with their names. -/
structure Installs (s : Session) (groups : List (String × List String)) : Prop where
  sound : ∀ {i c}, c ∈ s.members i → ∃ entry ∈ groups, ∃ object ∈ entry.2,
    Named entry.1 s i ∧ Named object s c
  complete : ∀ entry ∈ groups, ∀ object ∈ entry.2, ∃ i c,
    Named entry.1 s i ∧ Named object s c ∧ c ∈ s.members i

namespace Installs

theorem nil (none : s.groups = ∅) : s.Installs [] := by
  refine ⟨fun mem => ?_, fun _ h => absurd h List.not_mem_nil⟩
  obtain ⟨set, found, -⟩ := mem_members.mp mem
  rw [none] at found
  cases Std.ExtTreeMap.getElem?_empty.symm.trans found

theorem mono (h : s.Installs groups) (keeps : Keeps s s') (same : s'.groups = s.groups) :
    s'.Installs groups := by
  refine ⟨fun mem => ?_, fun entry he object ho => ?_⟩
  · rw [members_of_groups same] at mem
    obtain ⟨entry, he, object, ho, named, named'⟩ := h.sound mem
    exact ⟨entry, he, object, ho, named.mono keeps, named'.mono keeps⟩
  · obtain ⟨i, c, named, named', mem⟩ := h.complete entry he object ho
    exact ⟨i, c, named.mono keeps, named'.mono keeps, members_of_groups same ▸ mem⟩

/-- One more entry of the list. -/
theorem enlarge (h : s.Installs groups) (keeps : Keeps s s') (more : s.Enlarges group objects s') :
    s'.Installs (groups ++ [(group, objects)]) := by
  obtain ⟨g, new, named, all, members⟩ := more
  refine ⟨fun mem => ?_, List.forall_mem_append.mpr ⟨fun entry he object ho => ?_,
    List.forall_mem_singleton.mpr fun object ho => ?_⟩⟩
  · rcases members.mp mem with old | ⟨rfl, mem⟩
    · obtain ⟨entry, he, object, ho, named, named'⟩ := h.sound old
      exact ⟨entry, List.mem_append_left _ he, object, ho, named.mono keeps, named'.mono keeps⟩
    · obtain ⟨object, ho, named'⟩ := NodeStore.forall₂_exists_right all.flip mem
      exact ⟨(group, objects), by simp, object, ho, named, named'⟩
  · obtain ⟨i, c, named, named', mem⟩ := h.complete entry he object ho
    exact ⟨i, c, named.mono keeps, named'.mono keeps, members.mpr (.inl mem)⟩
  · obtain ⟨c, mem, named'⟩ := NodeStore.forall₂_exists_right all ho
    exact ⟨g, c, named, named', members.mpr (.inr ⟨rfl, mem⟩)⟩

theorem hasWord (h : s.Installs groups) (mem : c ∈ s.members i) : s.HasWord c := by
  obtain ⟨_, _, _, _, -, named⟩ := h.sound mem
  exact named.hasWord

end Installs

/-- **Installing groups** keeps all expressions and words, and no members but those listed. -/
theorem serves_setGroups (hs : s.Sound) (groups : List (String × List String)) :
    Serves (setGroups groups) s fun s' _ => s'.Installs groups := by
  have cleared : Serves (modify ({ · with groups := ∅ }) : StateM Session Unit) s
      fun s' _ => s'.Installs [] := by
    have none : Installs { s with groups := ∅ } [] := .nil rfl
    exact serves_regroup hs rfl (fun _ {_ _} mem => none.hasWord mem) none
  -- the entries that have been installed so far are `done`
  have installed : ∀ (groups done : List (String × List String)) {s : Session}, s.Sound →
      s.Installs done → Serves (groups.forM fun entry => addMembers entry.1 entry.2) s
        fun s' _ => s'.Installs (done ++ groups) := by
    intro groups
    induction groups with
    | nil =>
        intro done s sound before
        rw [List.append_nil]
        exact ⟨sound, .refl s, id, before⟩
    | cons entry groups ih =>
        intro done s sound before
        rw [List.append_cons]
        exact .bindState (serves_addMembers sound entry.1 entry.2) fun keeps sound' _ more =>
          ih _ sound' (before.enlarge keeps more)
  exact .bindState cleared fun _ sound _ none => installed groups [] sound none

/-! ### Members by the name of their group -/

/-- The members of the group with a name. -/
def membersOf (s : Session) (group : String) : List SymbolId :=
  match s.symbols.find? group with
  | some i => s.members i
  | none => []

theorem mem_membersOf :
    c ∈ s.membersOf group ↔ ∃ i, s.symbols.find? group = some i ∧ c ∈ s.members i := by
  unfold membersOf
  cases s.symbols.find? group with
  | none => simp
  | some i => simp

theorem nodup_membersOf : (s.membersOf group).Nodup := by
  unfold membersOf members
  split
  · split
    · exact nodup_toList
    · exact List.nodup_nil
  · exact List.nodup_nil

theorem word_eq_ok_iff {text : String} :
    s.word c = .ok text ↔ s.symbols.word? c = some text := by
  unfold word
  cases s.symbols.word? c with
  | none => simp
  | some _ => simp

/-- The words of the members of a group are the objects listed with its name. -/
theorem Installs.mem_words (h : s.Installs groups) (sound : s.symbols.Sound)
    (enough : s.symbols.Enough) {object : String} :
    .ok object ∈ (s.membersOf group).map s.word ↔
      ∃ entry ∈ groups, entry.1 = group ∧ object ∈ entry.2 := by
  rw [List.mem_map]
  constructor
  · rintro ⟨c, mem, named⟩
    obtain ⟨i, found, mem⟩ := mem_membersOf.mp mem
    obtain ⟨entry, he, object', ho, named₁, named₂⟩ := h.sound mem
    have first := (named₁.word enough).symm.trans (sound.faithful enough found)
    have second := (named₂.word enough).symm.trans (word_eq_ok_iff.mp named)
    cases first
    cases second
    exact ⟨entry, he, rfl, ho⟩
  · rintro ⟨entry, he, rfl, ho⟩
    obtain ⟨i, c, named, named', mem⟩ := h.complete entry he object ho
    exact ⟨c, mem_membersOf.mpr ⟨i, sound.found enough (named.word enough), mem⟩,
      word_eq_ok_iff.mpr (named'.word enough)⟩

/-- Each member of a group has a word of its own. -/
theorem Installs.nodup_words (h : s.Installs groups) (sound : s.symbols.Sound)
    (enough : s.symbols.Enough) : ((s.membersOf group).map s.word).Nodup := by
  refine List.Nodup.map_on (fun c hc c' hc' same => ?_) nodup_membersOf
  obtain ⟨_, -, mem⟩ := mem_membersOf.mp hc
  obtain ⟨word, found⟩ := h.hasWord mem
  rw [word_eq_ok_iff.mpr found] at same
  exact sound.word?_injective enough found (word_eq_ok_iff.mp same.symm)

end Session

end ClassicalPlanner
