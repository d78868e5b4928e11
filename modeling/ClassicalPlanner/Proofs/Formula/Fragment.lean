import ClassicalPlanner.Formula.Fragment
import ClassicalPlanner.Proofs.Text.Flatten

/-!
# How text is made of fragments

`Fragment.Written cs fragments` says that the text `cs` is made of words, of groups around a text
that is itself made of fragments, and of separators; a word goes on as far as it can.  The reader of
formulas finds just these fragments (`ofChars_eq_ok_iff`), so a text is made of fragments in one
way, and whether it is depends on its parentheses alone (`exists_written_iff`).  So does what the
reader finds wrong with a text (`ofChars_eq_error_iff`).  The same is true of formulas, which may
have blanks around them and one pair of parentheses (`ofFormula_eq_ok_iff`,
`ofFormula_eq_error_iff`).
-/

namespace ClassicalPlanner.Fragment

open Text

/-- A text is made of fragments. -/
inductive Written : List Char → List Fragment → Prop where
  | nil : Written [] []
  | blank {c : Char} {cs : List Char} {rest : List Fragment} (hc : isSeparator c)
      (h : Written cs rest) : Written (c :: cs) rest
  | word {w cs : List Char} {rest : List Fragment} (hw : Word w) (stops : Stops cs)
      (h : Written cs rest) : Written (w ++ cs) (.word (String.ofList w) :: rest)
  | group {inside cs : List Char} {parts rest : List Fragment} (hi : Written inside parts)
      (h : Written cs rest) :
      Written ('(' :: inside ++ ')' :: cs) (.group (String.ofList inside) parts :: rest)

variable {c : Char} {w cs ds : List Char} {fragments more : List Fragment}

theorem Written.paired (h : Written cs fragments) : Paired cs := by
  induction h with
  | nil => exact nest_nil
  | blank hc _ ih =>
      rw [Paired, nest_other (ne_open_of_isSeparator hc) (ne_close_of_isSeparator hc)]
      exact ih
  | word hw _ _ ih => exact hw.paired.append ih
  | group _ _ hi hr =>
      rw [List.append_cons]
      exact hi.group.append hr

theorem exists_written (h : Paired cs) : ∃ fragments, Written cs fragments := by
  -- what follows a word, and what is inside a group, is a shorter text
  induction hn : cs.length using Nat.strongRecOn generalizing cs with
  | _ n ih =>
      subst hn
      cases cs with
      | nil => exact ⟨[], .nil⟩
      | cons c cs =>
          by_cases word : WordChar c
          · obtain ⟨w, rest, same, hw, stops⟩ :
                ∃ w rest, c :: cs = w ++ rest ∧ Word w ∧ Stops rest := exists_word word
            have shorter : rest.length < (c :: cs).length := by
              rw [same, List.length_append]
              have := List.length_pos_iff.mpr hw.ne_nil
              omega
            rw [same, Paired, nest_append, hw.paired] at h
            obtain ⟨fragments, hrest⟩ := ih _ shorter h rfl
            exact same ▸ ⟨_, .word hw stops hrest⟩
          · rcases paren_cases c with rfl | rfl | ⟨ho, hc⟩
            · rw [Paired, nest_open] at h
              obtain ⟨inside, rest, rfl, hi, hr⟩ := exists_close (d := 0) (e := 0) h
              rw [List.length_cons, List.length_append, List.length_cons] at ih
              obtain ⟨parts, hparts⟩ := ih inside.length (by omega) hi rfl
              obtain ⟨fragments, hrest⟩ := ih rest.length (by omega) hr rfl
              exact ⟨_, .group hparts hrest⟩
            · cases nest_zero_close.symm.trans h
            · rw [Paired, nest_other ho hc] at h
              obtain ⟨fragments, hrest⟩ := ih cs.length (Nat.lt_succ_self _) h rfl
              exact ⟨_, .blank (isSeparator_of_not_wordChar word ho hc) hrest⟩

/-- **A text is made of fragments** if and only if its parentheses match. -/
theorem exists_written_iff : (∃ fragments, Written cs fragments) ↔ Paired cs :=
  ⟨fun ⟨_, h⟩ => h.paired, exists_written⟩

/-- Texts one after the other, where no word runs on from the first into the second. -/
theorem Written.append (h : Written cs fragments) (h' : Written ds more) (stops : Stops ds) :
    Written (cs ++ ds) (fragments ++ more) := by
  induction h with
  | nil => exact h'
  | blank hc _ ih => exact .blank hc ih
  | word hw hs _ ih =>
      rw [List.append_assoc]
      exact .word hw (hs.append stops) ih
  | group hi _ _ ih =>
      rw [List.append_assoc, List.cons_append]
      exact .group hi ih

theorem written_word (h : Word w) : Written w [.word (String.ofList w)] := by
  have := Written.word h stops_nil .nil
  rwa [List.append_nil] at this

theorem written_group (h : Written cs fragments) :
    Written ('(' :: cs ++ [')']) [.group (String.ofList cs) fragments] :=
  .group h .nil

/-! ### Fragments by themselves -/

mutual

/-- What holds of words, and of groups as it holds of what is in them, holds of all fragments. -/
theorem induct {P : Fragment → Prop} (word : ∀ text, P (.word text))
    (group : ∀ inside parts, (∀ f ∈ parts, P f) → P (.group inside parts)) : ∀ f, P f
  | .word text => word text
  | .group inside parts => group inside parts (inductAll word group parts)

theorem inductAll {P : Fragment → Prop} (word : ∀ text, P (.word text))
    (group : ∀ inside parts, (∀ f ∈ parts, P f) → P (.group inside parts)) :
    ∀ fragments : List Fragment, ∀ f ∈ fragments, P f
  | [] => fun _ h => absurd h List.not_mem_nil
  | f :: rest => List.forall_mem_cons.mpr ⟨induct word group f, inductAll word group rest⟩

end

/-- A fragment that some text may have: a word, or a group over the fragments of its text. -/
def Proper : Fragment → Prop
  | .word text => Word text.toList
  | .group inside parts => Written inside.toList parts

variable {fragment : Fragment}

theorem toList_text_group (inside : String) (parts : List Fragment) :
    (group inside parts).text.toList = '(' :: inside.toList ++ [')'] := by
  simp [text]

/-- The text of a fragment is made of that fragment. -/
theorem Proper.written (h : fragment.Proper) : Written fragment.text.toList [fragment] := by
  cases fragment with
  | word text =>
      have := written_word h
      rwa [String.ofList_toList] at this
  | group inside parts =>
      have := written_group h
      rwa [String.ofList_toList, ← toList_text_group inside parts] at this

/-- The fragments of a text, and their characters. -/
theorem Written.proper (h : Written cs fragments) :
    ∀ f ∈ fragments, f.Proper ∧ f.text.toList ⊆ cs := by
  induction h with
  | nil => exact fun _ h => absurd h List.not_mem_nil
  | blank _ _ ih => exact fun f mem => ⟨(ih f mem).1, List.subset_cons_of_subset _ (ih f mem).2⟩
  | @word w cs rest hw _ _ ih =>
      refine List.forall_mem_cons.mpr ⟨⟨?_, ?_⟩, fun f mem => ⟨(ih f mem).1, ?_⟩⟩
      · rwa [Proper, String.toList_ofList]
      · rw [text, String.toList_ofList]
        exact List.subset_append_left w cs
      · exact List.subset_append_of_subset_right w (ih f mem).2
  | @group inside cs parts rest hi _ _ ih =>
      have whole : '(' :: inside ++ ')' :: cs = ('(' :: inside ++ [')']) ++ cs := by simp
      rw [whole]
      refine List.forall_mem_cons.mpr ⟨⟨?_, ?_⟩, fun f mem => ⟨(ih f mem).1, ?_⟩⟩
      · rwa [Proper, String.toList_ofList]
      · rw [toList_text_group, String.toList_ofList]
        exact List.subset_append_left _ cs
      · exact List.subset_append_of_subset_right _ (ih f mem).2

/-! ### The reader of formulas -/

namespace Frame

@[simp] theorem endWord_endWord (f : Frame) : f.endWord.endWord = f.endWord := by
  unfold endWord
  split <;> rfl

@[simp] theorem inside_endWord (f : Frame) : f.endWord.inside = f.inside := by
  unfold endWord
  split <;> rfl

end Frame

theorem read_nil (frame : Frame) (outer : List Frame) :
    read frame outer [] = if outer.isEmpty then .ok frame.close else .error .unclosed := rfl

theorem read_open (frame : Frame) (outer : List Frame) (cs : List Char) :
    read frame outer ('(' :: cs) = read {} (frame.endWord :: outer) cs := rfl

theorem read_close (frame f : Frame) (outer : List Frame) (cs : List Char) :
    read frame (f :: outer) (')' :: cs) = read (f.pushGroup frame) outer cs := rfl

theorem read_unopened (frame : Frame) (cs : List Char) :
    read frame [] (')' :: cs) = .error .unopened := rfl

theorem read_other (ho : c ≠ '(') (hc : c ≠ ')') (frame : Frame) (outer : List Frame) :
    read frame outer (c :: cs) = read (frame.push c) outer cs := by
  rw [read]
  · exact ho
  · exact hc

/-- Where a word ends, a frame may as well have ended it. -/
theorem read_endWord (frame : Frame) (outer : List Frame) (stops : Stops cs) :
    read frame.endWord outer cs = read frame outer cs := by
  cases cs with
  | nil => simp only [read_nil, Frame.close, Frame.endWord_endWord]
  | cons c cs =>
      rcases paren_cases c with rfl | rfl | ⟨ho, hc⟩
      · simp only [read_open, Frame.endWord_endWord]
      · cases outer with
        | nil => rfl
        | cons f outer =>
            simp only [read_close, Frame.pushGroup, Frame.close, Frame.endWord_endWord,
              Frame.inside_endWord]
      · have separator := isSeparator_of_not_wordChar (stops c rfl) ho hc
        simp only [read_other ho hc, Frame.push, if_pos separator, Frame.endWord_endWord,
          Frame.inside_endWord]

/-- Reading the characters of a word. -/
theorem read_chars (hw : ∀ c ∈ w, WordChar c) (frame : Frame) (outer : List Frame) :
    read frame outer (w ++ cs) =
      read { frame with inside := frame.inside ++ String.ofList w,
                        word := frame.word ++ String.ofList w } outer cs := by
  induction w generalizing frame with
  | nil => simp
  | cons c w ih =>
      obtain ⟨⟨separator, ho, hc⟩, hw⟩ := List.forall_mem_cons.mp hw
      rw [List.cons_append, read_other ho hc, ih hw, Frame.push, if_neg (by simp [separator])]
      simp [← String.append_singleton, String.append_assoc]

/-- Reading a whole word. -/
theorem read_word (hw : Word w) (stops : Stops cs) (inside : String) (parts : List Fragment)
    (outer : List Frame) :
    read ⟨inside, parts, ""⟩ outer (w ++ cs) =
      read ⟨inside ++ String.ofList w, .word (String.ofList w) :: parts, ""⟩ outer cs := by
  rw [read_chars hw.chars, ← read_endWord _ _ stops]
  have filled : (String.ofList w).isEmpty = false := by
    simpa using hw.ne_nil
  simp [Frame.endWord, filled]

/-- **Reading a text that is made of fragments** adds them to the innermost frame. -/
theorem Written.read_append (h : Written cs fragments) (stops : Stops ds) (inside : String)
    (parts : List Fragment) (outer : List Frame) :
    read ⟨inside, parts, ""⟩ outer (cs ++ ds) =
      read ⟨inside ++ String.ofList cs, fragments.reverse ++ parts, ""⟩ outer ds := by
  induction h generalizing ds inside parts outer with
  | nil => simp
  | blank hc _ ih =>
      rw [List.cons_append, read_other (ne_open_of_isSeparator hc) (ne_close_of_isSeparator hc),
        Frame.push, if_pos hc]
      refine (ih stops (inside.push _) parts outer).trans ?_
      simp [← String.append_singleton, String.append_assoc]
  | word hw hs _ ih =>
      rw [List.append_assoc, read_word hw (hs.append stops), ih stops]
      simp [String.append_assoc]
  | @group within cs' parts' rest _ _ hi hr =>
      have nested : Frame.pushGroup ⟨inside, parts, ""⟩ ⟨String.ofList within, parts'.reverse, ""⟩ =
          ⟨inside ++ "(" ++ String.ofList within ++ ")",
            .group (String.ofList within) parts' :: parts, ""⟩ := by
        simp [Frame.pushGroup, Frame.close, Frame.endWord]
      have opened : Frame.endWord ⟨inside, parts, ""⟩ = ⟨inside, parts, ""⟩ := rfl
      rw [List.append_assoc, List.cons_append, List.cons_append, read_open, opened]
      refine (hi (stops_cons not_wordChar_close) "" [] _).trans ?_
      simp only [String.empty_append, List.append_nil, read_close, nested]
      rw [hr stops]
      simp [String.append_assoc]

theorem Written.ofChars (h : Written cs fragments) : ofChars cs = .ok fragments := by
  have := h.read_append stops_nil "" [] []
  rw [List.append_nil] at this
  refine this.trans ?_
  simp [read_nil, Frame.close, Frame.endWord]

/-- What the reader finds wrong with a text, after which so many parentheses are open. -/
def imbalance? : Option Nat → Option Imbalance
  | none       => some .unopened
  | some 0     => none
  | some (_+1) => some .unclosed

theorem imbalance?_eq_none_iff {depth : Option Nat} : imbalance? depth = none ↔ depth = some 0 := by
  rcases depth with _ | _ | _ <;> simp [imbalance?]

/-- The reader fails where parentheses do not match, and only there. -/
theorem read_eq_error_iff {frame : Frame} {outer : List Frame} {i : Imbalance} :
    read frame outer cs = .error i ↔ imbalance? (nest outer.length cs) = some i := by
  induction cs generalizing frame outer with
  | nil =>
      cases outer with
      | nil => exact iff_of_false (fun h => by cases h) fun h => by cases h
      | cons f outer => simp [read_nil, imbalance?]
  | cons c cs ih =>
      rcases paren_cases c with rfl | rfl | ⟨ho, hc⟩
      · rw [nest_open]
        exact ih
      · cases outer with
        | nil => simp [read_unopened, imbalance?]
        | cons f outer =>
            rw [List.length_cons, nest_close]
            exact ih
      · rw [read_other ho hc, nest_other ho hc]
        exact ih

theorem ofChars_eq_error_iff {i : Imbalance} :
    ofChars cs = .error i ↔ imbalance? (nest 0 cs) = some i := read_eq_error_iff

theorem paired_of_ofChars (h : ofChars cs = .ok fragments) : Paired cs := by
  refine imbalance?_eq_none_iff.mp (Option.eq_none_iff_forall_ne_some.mpr fun i wrong => ?_)
  cases h.symm.trans (ofChars_eq_error_iff.mpr wrong)

/-- **The reader of formulas** finds the fragments that a text is made of. -/
theorem ofChars_eq_ok_iff : ofChars cs = .ok fragments ↔ Written cs fragments := by
  refine ⟨fun h => ?_, Written.ofChars⟩
  obtain ⟨fragments', written⟩ := exists_written (paired_of_ofChars h)
  cases h.symm.trans written.ofChars
  exact written

/-- A text is made of fragments in one way. -/
theorem Written.unique (h : Written cs fragments) (h' : Written cs more) : fragments = more := by
  cases h.ofChars.symm.trans h'.ofChars
  rfl

/-! ### Formulas -/

/-- Fragments without one pair of parentheses around all of them. -/
def unwrap : List Fragment → List Fragment
  | [.group _ parts] => parts
  | fragments        => fragments

theorem Written.ofFormula {text : String} (h : Written (trim text.toList) fragments) :
    ofFormula text = .ok (unwrap fragments) := by
  unfold Fragment.ofFormula
  rw [h.ofChars]
  rcases fragments with _ | ⟨_ | _, _ | ⟨_, _⟩⟩ <;> rfl

/-- **A formula** is made of fragments, with the parentheses around all of it taken off. -/
theorem ofFormula_eq_ok_iff {text : String} : ofFormula text = .ok fragments ↔
    ∃ whole, Written (trim text.toList) whole ∧ unwrap whole = fragments := by
  constructor
  · intro h
    cases found : Fragment.ofChars (trim text.toList) with
    | error i =>
        rw [Fragment.ofFormula, found] at h
        cases h
    | ok whole =>
        have written := ofChars_eq_ok_iff.mp found
        exact ⟨whole, written, Except.ok.inj (written.ofFormula.symm.trans h)⟩
  · rintro ⟨whole, written, rfl⟩
    exact written.ofFormula

/-- Parentheses that do not match are all that can be wrong with a formula. -/
theorem ofFormula_eq_error_iff {text : String} {i : Imbalance} :
    ofFormula text = .error i ↔ imbalance? (nest 0 text.toList) = some i := by
  rw [← nest_ink, ← filter_trim, nest_ink, ← ofChars_eq_error_iff]
  unfold ofFormula
  split
  · rename_i h
    rw [h]
    exact iff_of_false (fun h => by cases h) fun h => by cases h
  · rfl

/-- Matching parentheses make the fragments of a formula. -/
theorem exists_ofFormula {text : String} (h : Paired text.toList) :
    ∃ fragments, ofFormula text = .ok fragments := by
  obtain ⟨fragments, written⟩ := exists_written (paired_trim.mpr h)
  exact ⟨_, written.ofFormula⟩

/-- The text of a group is a formula over what is in the group. -/
theorem ofFormula_group {inside : String} {parts : List Fragment}
    (h : (group inside parts).Proper) : ofFormula (group inside parts).text = .ok parts := by
  have whole := h.written
  rw [toList_text_group, ← trim_group, ← toList_text_group inside parts] at whole
  exact whole.ofFormula

theorem proper_of_ofFormula {text : String} (h : ofFormula text = .ok fragments) :
    ∀ f ∈ fragments, f.Proper := by
  obtain ⟨whole, written, rfl⟩ := ofFormula_eq_ok_iff.mp h
  have proper : ∀ f ∈ whole, f.Proper := fun f mem => (written.proper f mem).1
  unfold unwrap
  split
  · exact fun f mem => (Written.proper (proper _ List.mem_cons_self) f mem).1
  · exact proper

end ClassicalPlanner.Fragment
