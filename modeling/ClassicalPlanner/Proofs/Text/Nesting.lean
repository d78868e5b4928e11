import ClassicalPlanner.Text.Blank
import Mathlib.Data.List.TakeWhile

/-!
# Words and nesting

A word is a run of characters that are neither separators nor parentheses.  `nest` counts open
parentheses along a text.  A text is `Paired` if each parenthesis that closes was open and none is
left open; texts without parentheses, paired texts one after the other, and a paired text in
parentheses are paired.  A text is paired exactly if it is balanced, which is a matter of counting
(`unbalanced_iff`).
-/

namespace ClassicalPlanner.Text

/-! ### Words -/

/-- A character that words are made of. -/
def WordChar (c : Char) : Prop := isSeparator c = false ∧ c ≠ '(' ∧ c ≠ ')'

instance (c : Char) : Decidable (WordChar c) := inferInstanceAs (Decidable (_ ∧ _))

/-- A word as a text. -/
structure Word (cs : List Char) : Prop where
  ne_nil : cs ≠ []
  chars : ∀ c ∈ cs, WordChar c

instance (cs : List Char) : Decidable (Word cs) :=
  have := List.decidableBAll WordChar cs
  decidable_of_iff (cs ≠ [] ∧ ∀ c ∈ cs, WordChar c) ⟨fun h => ⟨h.1, h.2⟩, fun h => ⟨h.1, h.2⟩⟩

/-- A word in front of this text ends there. -/
def Stops (cs : List Char) : Prop := ∀ c ∈ cs.head?, ¬WordChar c

variable {c : Char} {cs ds : List Char} {d e : Nat}

theorem stops_nil : Stops [] := fun _ h => nomatch h

theorem stops_cons (h : ¬WordChar c) : Stops (c :: cs) := by
  intro c' mem
  cases mem
  exact h

theorem Stops.append (h : Stops cs) (h' : Stops ds) : Stops (cs ++ ds) := by
  cases cs with
  | nil => exact h'
  | cons c cs => exact h

theorem not_wordChar_open : ¬WordChar '(' := fun h => h.2.1 rfl

theorem not_wordChar_close : ¬WordChar ')' := fun h => h.2.2 rfl

theorem not_wordChar_of_isSeparator (h : isSeparator c) : ¬WordChar c :=
  fun h' => absurd h (by rw [h'.1]; exact Bool.false_ne_true)

theorem ne_open_of_isSeparator (h : isSeparator c) : c ≠ '(' := by
  rintro rfl
  cases h

theorem ne_close_of_isSeparator (h : isSeparator c) : c ≠ ')' := by
  rintro rfl
  cases h

/-- What a character is that neither belongs to a word nor is a parenthesis. -/
theorem isSeparator_of_not_wordChar (h : ¬WordChar c) (ho : c ≠ '(') (hc : c ≠ ')') :
    isSeparator c := by
  by_contra other
  exact h ⟨eq_false_of_ne_true other, ho, hc⟩

/-- The longest word in front of a text. -/
theorem exists_word (h : WordChar c) : ∃ w rest, c :: cs = w ++ rest ∧ Word w ∧ Stops rest := by
  refine ⟨(c :: cs).takeWhile (decide <| WordChar ·), (c :: cs).dropWhile (decide <| WordChar ·),
    List.takeWhile_append_dropWhile.symm, ⟨?_, fun c' mem => ?_⟩, fun c' mem => ?_⟩
  · rw [List.takeWhile_cons_of_pos (by exact decide_eq_true h)]
    exact List.cons_ne_nil _ _
  · have kept := List.mem_takeWhile_imp mem
    simpa using kept
  · have found := List.head?_dropWhile_not (fun c => decide (WordChar c)) (c :: cs)
    rw [Option.mem_def.mp mem] at found
    simpa using found

/-! ### Nesting -/

/-- The number of parentheses that are open after a text, if `depth` are open before it; there is
none if one closes that was not open. -/
def nest : (depth : Nat) → List Char → Option Nat
  | depth, [] => some depth
  | depth, '(' :: cs => nest (depth + 1) cs
  | 0, ')' :: _ => none
  | depth + 1, ')' :: cs => nest depth cs
  | depth, _ :: cs => nest depth cs

/-- The parentheses of a text match. -/
def Paired (cs : List Char) : Prop := nest 0 cs = some 0

instance (cs : List Char) : Decidable (Paired cs) := inferInstanceAs (Decidable (_ = _))

@[simp] theorem nest_nil : nest d [] = some d := rfl

@[simp] theorem nest_open : nest d ('(' :: cs) = nest (d + 1) cs := rfl

@[simp] theorem nest_close : nest (d + 1) (')' :: cs) = nest d cs := rfl

@[simp] theorem nest_zero_close : nest 0 (')' :: cs) = none := rfl

theorem nest_other (ho : c ≠ '(') (hc : c ≠ ')') : nest d (c :: cs) = nest d cs := by
  rw [nest]
  · exact ho
  · exact fun _ => hc
  · exact fun _ _ => hc

/-- The cases of a character that nesting tells apart. -/
theorem paren_cases (c : Char) : c = '(' ∨ c = ')' ∨ (c ≠ '(' ∧ c ≠ ')') := by
  by_cases ho : c = '('
  · exact .inl ho
  · by_cases hc : c = ')'
    · exact .inr (.inl hc)
    · exact .inr (.inr ⟨ho, hc⟩)

theorem nest_append (d : Nat) (cs ds : List Char) :
    nest d (cs ++ ds) = (nest d cs).bind (nest · ds) := by
  induction cs generalizing d with
  | nil => rfl
  | cons c cs ih =>
      rw [List.cons_append]
      rcases paren_cases c with rfl | rfl | ⟨ho, hc⟩
      · rw [nest_open, nest_open, ih]
      · cases d with
        | zero => rw [nest_zero_close, nest_zero_close]; rfl
        | succ d => rw [nest_close, nest_close, ih]
      · rw [nest_other ho hc, nest_other ho hc, ih]

/-- More open parentheses around a text stay open. -/
theorem nest_add (h : nest d cs = some e) (k : Nat) : nest (d + k) cs = some (e + k) := by
  induction cs generalizing d with
  | nil =>
      obtain rfl := Option.some.inj h
      exact nest_nil
  | cons c cs ih =>
      rcases paren_cases c with rfl | rfl | ⟨ho, hc⟩
      · rw [nest_open] at h ⊢
        rw [Nat.add_right_comm]
        exact ih h
      · cases d with
        | zero => cases nest_zero_close.symm.trans h
        | succ d =>
            rw [nest_close] at h
            rw [Nat.add_right_comm, nest_close]
            exact ih h
      · rw [nest_other ho hc] at h ⊢
        exact ih h

/-- A text without parentheses does not change the nesting. -/
theorem nest_of_forall (h : ∀ c ∈ cs, c ≠ '(' ∧ c ≠ ')') : nest d cs = some d := by
  induction cs with
  | nil => exact nest_nil
  | cons c cs ih =>
      obtain ⟨⟨ho, hc⟩, h⟩ := List.forall_mem_cons.mp h
      rw [nest_other ho hc]
      exact ih h

/-- Leaving out characters that are no parentheses does not change the nesting. -/
theorem nest_filter {p : Char → Bool} (ho : p '(') (hc : p ')') (d : Nat) (cs : List Char) :
    nest d (cs.filter p) = nest d cs := by
  induction cs generalizing d with
  | nil => rfl
  | cons c cs ih =>
      rcases paren_cases c with rfl | rfl | ⟨ho', hc'⟩
      · rw [List.filter_cons_of_pos ho, nest_open, nest_open, ih]
      · rw [List.filter_cons_of_pos hc]
        cases d with
        | zero => rw [nest_zero_close, nest_zero_close]
        | succ d => rw [nest_close, nest_close, ih]
      · rw [nest_other ho' hc', List.filter_cons]
        split
        · rw [nest_other ho' hc', ih]
        · exact ih d

/-! ### Counting parentheses -/

/-- Some of the text, read from its start, has more parentheses that close than parentheses that
open. -/
def Overclosed (depth : Nat) (cs : List Char) : Prop :=
  ∃ p, p <+: cs ∧ depth + p.count '(' < p.count ')'

theorem overclosed_cons : Overclosed d (c :: cs) ↔
    ∃ p, p <+: cs ∧ d + (c :: p).count '(' < (c :: p).count ')' := by
  constructor
  · rintro ⟨p, front, h⟩
    rcases List.prefix_cons_iff.mp front with rfl | ⟨p, rfl, front'⟩
    · cases h
    · exact ⟨p, front', h⟩
  · rintro ⟨p, front, h⟩
    exact ⟨c :: p, (List.prefix_cons_inj c).mpr front, h⟩

/-- A parenthesis closes that was not open, exactly if counting finds too many that close. -/
theorem nest_eq_none_iff : nest d cs = none ↔ Overclosed d cs := by
  induction cs generalizing d with
  | nil => simp [Overclosed]
  | cons c cs ih =>
      rw [overclosed_cons]
      rcases paren_cases c with rfl | rfl | ⟨ho, hc⟩
      · rw [nest_open, ih, Overclosed]
        simp only [List.count_cons_self, List.count_cons_of_ne (show '(' ≠ ')' by decide)]
        simp only [Nat.add_right_comm, Nat.add_assoc]
      · cases d with
        | zero =>
            refine iff_of_true nest_zero_close ⟨[], List.nil_prefix, ?_⟩
            decide
        | succ d =>
            rw [nest_close, ih, Overclosed]
            simp only [List.count_cons_self, List.count_cons_of_ne (show ')' ≠ '(' by decide)]
            simp only [Nat.add_right_comm _ 1, Nat.add_lt_add_iff_right]
      · rw [nest_other ho hc, ih, Overclosed]
        simp only [List.count_cons_of_ne ho, List.count_cons_of_ne hc]

/-- The parentheses that are open after a text have been counted. -/
theorem count_of_nest (h : nest d cs = some e) : d + cs.count '(' = e + cs.count ')' := by
  induction cs generalizing d with
  | nil =>
      obtain rfl := Option.some.inj h
      rfl
  | cons c cs ih =>
      rcases paren_cases c with rfl | rfl | ⟨ho, hc⟩
      · have counted := ih (nest_open.symm.trans h)
        rw [List.count_cons_self, List.count_cons_of_ne (by decide)]
        omega
      · cases d with
        | zero => cases nest_zero_close.symm.trans h
        | succ d =>
            have counted := ih (nest_close.symm.trans h)
            rw [List.count_cons_self, List.count_cons_of_ne (by decide)]
            omega
      · rw [List.count_cons_of_ne ho, List.count_cons_of_ne hc]
        exact ih ((nest_other ho hc).symm.trans h)

/-- Some part of the text up to a place has more parentheses that close than parentheses that open,
or the whole text has not as many of the ones as of the others. -/
def Unbalanced (cs : List Char) : Prop :=
  (∃ p, p <+: cs ∧ p.count '(' < p.count ')') ∨ cs.count '(' ≠ cs.count ')'

theorem overclosed_zero : Overclosed 0 cs ↔ ∃ p, p <+: cs ∧ p.count '(' < p.count ')' := by
  simp only [Overclosed, Nat.zero_add]

/-- **Parentheses match** exactly if they are balanced. -/
theorem unbalanced_iff : Unbalanced cs ↔ ¬Paired cs := by
  unfold Unbalanced Paired
  rw [← overclosed_zero, ← nest_eq_none_iff]
  cases h : nest 0 cs with
  | none => simp
  | some e =>
      have counted := count_of_nest h
      simp only [reduceCtorEq, false_or, Option.some.injEq]
      omega

/-- What closes the innermost but `e` of some open parentheses. -/
theorem exists_close (h : nest (d + e + 1) cs = some 0) :
    ∃ inside rest, cs = inside ++ ')' :: rest ∧ nest e inside = some 0 ∧ nest d rest = some 0 := by
  induction cs generalizing e with
  | nil => cases nest_nil.symm.trans h
  | cons c cs ih =>
      rcases paren_cases c with rfl | rfl | ⟨ho, hc⟩
      · rw [nest_open] at h
        obtain ⟨inside, rest, rfl, hi, hr⟩ := ih (e := e + 1) h
        exact ⟨'(' :: inside, rest, rfl, nest_open.trans hi, hr⟩
      · rw [nest_close] at h
        cases e with
        | zero => exact ⟨[], cs, rfl, nest_nil, h⟩
        | succ e =>
            obtain ⟨inside, rest, rfl, hi, hr⟩ := ih h
            exact ⟨')' :: inside, rest, rfl, nest_close.trans hi, hr⟩
      · rw [nest_other ho hc] at h
        obtain ⟨inside, rest, rfl, hi, hr⟩ := ih h
        exact ⟨c :: inside, rest, rfl, (nest_other ho hc).trans hi, hr⟩

/-! ### Paired texts -/

theorem Paired.append (h : Paired cs) (h' : Paired ds) : Paired (cs ++ ds) := by
  rw [Paired, nest_append, h]
  exact h'

theorem Word.paired (h : Word cs) : Paired cs :=
  nest_of_forall fun c hc => (h.chars c hc).2

/-- A paired text in parentheses. -/
theorem Paired.group (h : Paired cs) : Paired ('(' :: cs ++ [')']) := by
  rw [List.cons_append, Paired, nest_open, nest_append, nest_add h 1]
  exact nest_close

end ClassicalPlanner.Text
