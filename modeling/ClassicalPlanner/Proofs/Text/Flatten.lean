import ClassicalPlanner.Proofs.Text.Nesting

/-!
# Texts put on one line

`flatten` and `trim` change nothing but blanks, so the characters that are not blank stay as they
are (`filter_flatten`, `filter_trim`), and with them the nesting.  A flattened text stays as it is
when it is flattened again (`flatten_flatten`), and so does a text with nothing to flatten
(`flatten_of_isInk`).  A text in parentheses is one again, over a text with the same characters that
are not blank (`exists_flatten_group`).

In a plain text no blank goes unnoticed by those that cut it into words.
-/

namespace ClassicalPlanner.Text

variable {c : Char} {cs : List Char} {text : String}

/-! ### Plain texts -/

/-- Every blank in the text separates words. -/
def Plain (cs : List Char) : Prop := ∀ c ∈ cs, isBlank c → isSeparator c

/-- An ASCII text without vertical tabs is plain. -/
theorem plain_of_ascii (h : cs.all fun c => c.toNat < 128 && c != '\x0b') : Plain cs := by
  intro c mem blank
  obtain ⟨small, other⟩ : c.toNat < 128 ∧ c ≠ '\x0b' := by simpa using List.all_eq_true.mp h c mem
  have number {n : Nat} (same : c.toNat = n) : c = Char.ofNat n := by
    rw [← same, Char.ofNat_toNat]
  have cases : c.toNat = 0x9 ∨ c.toNat = 0xA ∨ c.toNat = 0xB ∨ c.toNat = 0xC ∨ c.toNat = 0xD ∨
      c.toNat = 0x20 := by
    simp only [isBlank, Bool.or_eq_true, Bool.and_eq_true, decide_eq_true_eq, beq_iff_eq] at blank
    omega
  rcases cases with h | h | h | h | h | h <;> rw [number h] <;> first | rfl | skip
  exact absurd (number h) other

theorem all_ofList {p : Char → Bool} (h : cs.all p) : (String.ofList cs).toList.all p := by
  rwa [String.toList_ofList]

theorem Plain.subset {ds : List Char} (h : Plain cs) (sub : ds ⊆ cs) : Plain ds :=
  fun c mem => h c (sub mem)

/-- A character that is not blank. -/
def isInk (c : Char) : Bool := !isBlank c

/-- The words of a plain text have no blanks. -/
theorem isInk_of_wordChar (plain : isBlank c → isSeparator c) (h : WordChar c) : isInk c := by
  unfold isInk
  cases blank : isBlank c with
  | false => rfl
  | true => cases h.1.symm.trans (plain blank)

/-! ### Blank-free runs -/

/-- Runs of characters that are not blank. -/
def Runs (ws : List (List Char)) : Prop := ∀ w ∈ ws, w ≠ [] ∧ ∀ c ∈ w, isInk c

variable {ws : List (List Char)}

theorem words_go_nil (word : List Char) :
    words.go word [] = if word.isEmpty then [] else [word.reverse] := rfl

theorem words_go_of_blank (h : isBlank c) (word : List Char) :
    words.go word (c :: cs) =
      if word.isEmpty then words.go [] cs else word.reverse :: words.go [] cs :=
  if_pos h

theorem words_go_of_isInk (h : isInk c) (word : List Char) :
    words.go word (c :: cs) = words.go (c :: word) cs :=
  if_neg (by simpa [isInk] using h)

theorem flatten_words_go (word cs : List Char) :
    (words.go word cs).flatten = word.reverse ++ cs.filter isInk := by
  induction cs generalizing word with
  | nil => cases word <;> simp [words_go_nil]
  | cons c cs ih =>
      by_cases ink : isInk c
      · rw [words_go_of_isInk ink, ih, List.filter_cons_of_pos ink]
        simp
      · have blank : isBlank c := by simpa [isInk] using ink
        rw [words_go_of_blank blank, List.filter_cons_of_neg ink]
        split
        · rename_i nothing
          rw [ih, List.isEmpty_iff.mp nothing]
        · rw [List.flatten_cons, ih]
          rfl

theorem runs_words_go {word : List Char} (h : ∀ c ∈ word, isInk c) (cs : List Char) :
    Runs (words.go word cs) := by
  have run {word : List Char} (h : ∀ c ∈ word, isInk c) (some : ¬word.isEmpty) :
      word.reverse ≠ [] ∧ ∀ c ∈ word.reverse, isInk c := by
    refine ⟨fun h => some ?_, fun c mem => h c (List.mem_reverse.mp mem)⟩
    rw [List.isEmpty_iff, ← List.reverse_eq_nil_iff, h]
  have nothing : ∀ c ∈ ([] : List Char), isInk c := fun _ h => absurd h List.not_mem_nil
  induction cs generalizing word with
  | nil =>
      rw [words_go_nil]
      split
      · exact fun _ h => absurd h List.not_mem_nil
      · exact List.forall_mem_singleton.mpr (run h ‹_›)
  | cons c cs ih =>
      by_cases ink : isInk c
      · rw [words_go_of_isInk ink]
        exact ih (List.forall_mem_cons.mpr ⟨ink, h⟩)
      · rw [words_go_of_blank (by simpa [isInk] using ink)]
        split
        · exact ih nothing
        · exact List.forall_mem_cons.mpr ⟨run h ‹_›, ih nothing⟩

theorem flatten_words (cs : List Char) : (words cs).flatten = cs.filter isInk :=
  flatten_words_go [] cs

theorem runs_words (cs : List Char) : Runs (words cs) :=
  runs_words_go (fun _ h => absurd h List.not_mem_nil) cs

theorem words_go_append {w : List Char} (h : ∀ c ∈ w, isInk c) (word cs : List Char) :
    words.go word (w ++ cs) = words.go (w.reverse ++ word) cs := by
  induction w generalizing word with
  | nil => rfl
  | cons c w ih =>
      obtain ⟨hc, hw⟩ := List.forall_mem_cons.mp h
      rw [List.cons_append, words_go_of_isInk hc, ih hw, List.reverse_cons, List.append_assoc]
      rfl

/-- The runs of characters between single spaces. -/
theorem words_intercalate (h : Runs ws) : words ([' '].intercalate ws) = ws := by
  have last {w : List Char} (some : w ≠ []) : ¬(w.reverse ++ []).isEmpty := by
    simpa using some
  induction ws with
  | nil => rfl
  | cons w ws ih =>
      obtain ⟨⟨some, ink⟩, h⟩ := List.forall_mem_cons.mp h
      cases ws with
      | nil =>
          rw [List.intercalate_singleton, ← List.append_nil w, words, words_go_append ink, words_go_nil,
            if_neg (last some)]
          simp
      | cons w' ws =>
          rw [List.intercalate_cons_cons, List.append_assoc, words, words_go_append ink,
            List.singleton_append, words_go_of_blank (by decide), if_neg (last some)]
          have rest : words.go [] ([' '].intercalate (w' :: ws)) = w' :: ws := ih h
          rw [rest]
          simp

theorem head?_intercalate (h : Runs ws) : ([' '].intercalate ws).head? = ws.flatten.head? := by
  cases ws with
  | nil => rfl
  | cons w ws =>
      obtain ⟨⟨some, -⟩, h⟩ := List.forall_mem_cons.mp h
      obtain ⟨c, w, rfl⟩ := List.exists_cons_of_ne_nil some
      cases ws with
      | nil => simp
      | cons w' ws => simp [List.intercalate_cons_cons]

theorem getLast?_intercalate (h : Runs ws) :
    ([' '].intercalate ws).getLast? = ws.flatten.getLast? := by
  induction ws with
  | nil => rfl
  | cons w ws ih =>
      obtain ⟨-, h⟩ := List.forall_mem_cons.mp h
      cases ws with
      | nil => simp
      | cons w' ws =>
          obtain ⟨⟨some, -⟩, -⟩ := List.forall_mem_cons.mp h
          have ends {ds : List Char} : (ds ++ (w' :: ws).flatten).getLast? =
              (w' :: ws).flatten.getLast? := by
            rw [List.getLast?_append, List.getLast?_eq_some_getLast (by simp [some])]
            rfl
          have rest := ih h
          rw [List.intercalate_cons_cons, List.getLast?_append, rest, ← List.getLast?_append]
          exact ends.trans ends.symm

theorem mem_intercalate {s : Char} (h : c ∈ [s].intercalate ws) : c = s ∨ c ∈ ws.flatten := by
  induction ws with
  | nil => cases h
  | cons w ws ih =>
      cases ws with
      | nil => exact .inr (by simpa using h)
      | cons w' ws =>
          rw [List.intercalate_cons_cons, List.append_assoc, List.mem_append, List.mem_append,
            List.mem_singleton] at h
          rw [List.flatten_cons, List.mem_append]
          rcases h with h | h | h
          · exact .inr (.inl h)
          · exact .inl h
          · exact (ih h).imp id .inr

theorem filter_intercalate (h : Runs ws) : ([' '].intercalate ws).filter isInk = ws.flatten := by
  rw [← flatten_words, words_intercalate h]

/-! ### Flattening -/

theorem toList_flatten (text : String) :
    (flatten text).toList = [' '].intercalate (words text.toList) := String.toList_ofList

/-- Flattening keeps all characters but blanks. -/
theorem filter_flatten (text : String) :
    (flatten text).toList.filter isInk = text.toList.filter isInk := by
  rw [toList_flatten, filter_intercalate (runs_words _), flatten_words]

theorem nest_ink (d : Nat) (cs : List Char) : nest d (cs.filter isInk) = nest d cs :=
  nest_filter (by decide) (by decide) d cs

/-- **Flattening keeps the nesting.** -/
theorem paired_flatten : Paired (flatten text).toList ↔ Paired text.toList := by
  rw [Paired, Paired, ← nest_ink, filter_flatten, nest_ink]

theorem flatten_flatten (text : String) : flatten (flatten text) = flatten text := by
  rw [flatten, toList_flatten, words_intercalate (runs_words _)]
  rfl

/-- A text without blanks stays as it is. -/
theorem flatten_of_isInk (h : ∀ c ∈ text.toList, isInk c) : flatten text = text := by
  have whole : words text.toList = if text.toList.isEmpty then [] else [text.toList] := by
    rw [words, ← List.append_nil text.toList, words_go_append h, words_go_nil]
    simp
  rw [flatten, whole]
  split
  · rename_i nothing
    rw [← String.toList_inj, List.isEmpty_iff.mp nothing]
    rfl
  · rw [List.intercalate_singleton, String.ofList_toList]

/-- A flattened text has characters of the text, and spaces. -/
theorem mem_flatten (h : c ∈ (flatten text).toList) : c = ' ' ∨ c ∈ text.toList ∧ isInk c := by
  rw [toList_flatten] at h
  refine (mem_intercalate h).imp id fun h => ?_
  rw [flatten_words] at h
  exact List.mem_filter.mp h

/-- The spaces of a flattened text separate its words. -/
theorem plain_flatten (text : String) : Plain (flatten text).toList := by
  intro c mem blank
  rcases mem_flatten mem with rfl | ⟨-, ink⟩
  · rfl
  · rw [isInk, blank] at ink
    cases ink

/-- **A text in parentheses** stays one, over a text with the same characters but for blanks. -/
theorem exists_flatten_group {inside : String} (h : text.toList = '(' :: inside.toList ++ [')']) :
    ∃ inside' : String, (flatten text).toList = '(' :: inside'.toList ++ [')'] ∧
      inside'.toList.filter isInk = inside.toList.filter isInk := by
  have ink := filter_flatten text
  have whole : text.toList.filter isInk = '(' :: inside.toList.filter isInk ++ [')'] := by
    rw [h]
    simp [show isInk '(' by decide, show isInk ')' by decide]
  have first : (flatten text).toList.head? = some '(' := by
    rw [toList_flatten, head?_intercalate (runs_words _), flatten_words, whole]
    rfl
  have last : (flatten text).toList.getLast? = some ')' := by
    rw [toList_flatten, getLast?_intercalate (runs_words _), flatten_words, whole]
    exact List.getLast?_concat
  obtain ⟨rest, same⟩ := List.head?_eq_some_iff.mp first
  obtain ⟨front, same'⟩ := List.getLast?_eq_some_iff.mp last
  cases front with
  | nil => cases same.symm.trans same'
  | cons c middle =>
      obtain ⟨rfl, -⟩ := List.cons.inj (same.symm.trans same')
      refine ⟨String.ofList middle, by rw [same', String.toList_ofList], ?_⟩
      rw [same', whole] at ink
      simpa [List.filter_cons, show isInk '(' by decide, show isInk ')' by decide] using ink

/-! ### Trimming -/

theorem filter_dropWhile (cs : List Char) :
    (cs.dropWhile isBlank).filter isInk = cs.filter isInk := by
  induction cs with
  | nil => rfl
  | cons c cs ih =>
      rw [List.dropWhile_cons]
      split
      · rename_i blank
        rw [ih, List.filter_cons_of_neg (by simpa [isInk] using blank)]
      · rfl

/-- Trimming keeps all characters but blanks. -/
theorem filter_trim (cs : List Char) : (trim cs).filter isInk = cs.filter isInk := by
  rw [trim, List.filter_reverse, filter_dropWhile, List.filter_reverse, List.reverse_reverse,
    filter_dropWhile]

theorem paired_trim : Paired (trim cs) ↔ Paired cs := by
  rw [Paired, Paired, ← nest_ink, filter_trim, nest_ink]

/-- There is nothing to trim from a text in parentheses. -/
theorem trim_group (inside : List Char) :
    trim ('(' :: inside ++ [')']) = '(' :: inside ++ [')'] := by
  rw [trim, List.cons_append, List.dropWhile_cons_of_neg (by decide), List.reverse_cons,
    List.reverse_append]
  simp [List.dropWhile_cons_of_neg, show isBlank ')' = false by decide]

end ClassicalPlanner.Text
