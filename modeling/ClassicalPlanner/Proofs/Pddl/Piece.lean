import ClassicalPlanner.Pddl.Piece
import ClassicalPlanner.Proofs.Formula.Fragment

/-!
# How definitions are made of pieces

The reader of definitions and the reader of formulas agree on what a text is made of: the pieces of
a text are its fragments, of which those that are groups are left as written
(`split_eq_ok_iff`).  So a text has pieces if and only if its parentheses match, and what is inside
a group among them has pieces in turn.
-/

namespace ClassicalPlanner.Pddl

theorem bind_eq_ok {ε α β : Type} {x : Except ε α} {f : α → Except ε β} {b : β} :
    (x >>= f) = .ok b ↔ ∃ a, x = .ok a ∧ f a = .ok b := by
  cases x with
  | error e => exact iff_of_false (fun h => by cases h) fun ⟨_, h, _⟩ => by cases h
  | ok a => exact ⟨fun h => ⟨a, rfl, h⟩, fun ⟨a', h, h'⟩ => by cases h; exact h'⟩

namespace Piece

open Text Fragment

/-- A fragment as a piece. -/
def ofFragment : Fragment → Piece
  | .word text => word text
  | .group inside _ => group inside

@[simp] theorem ofFragment_word (text : String) : ofFragment (.word text) = word text := rfl

@[simp] theorem ofFragment_group (inside : String) (parts : List Fragment) :
    ofFragment (.group inside parts) = group inside := rfl

@[simp] theorem text_ofFragment (fragment : Fragment) :
    (ofFragment fragment).text = fragment.text := by
  cases fragment <;> rfl

variable {c : Char} {w cs inside : List Char} {fragments : List Fragment} {pieces : List Piece}
  {depth : Nat}

/-! ### One step of the scan -/

/-- The pieces of a text that is given by its characters. -/
theorem split_ofList (cs : List Char) : split (String.ofList cs) = scan .between cs := by
  rw [split, String.toList_ofList]

theorem scan_inGroup_cons (start : List Char) (depth : Nat) (inside : List Char) (c : Char)
    (cs : List Char) : scan (.inGroup start depth inside) (c :: cs) =
      if c = '(' then scan (.inGroup start (depth + 1) (c :: inside)) cs
      else if c = ')' then
        match depth with
        | 0 => (scan .between cs).map (group (String.ofList inside.reverse) :: ·)
        | depth + 1 => scan (.inGroup start depth (c :: inside)) cs
      else scan (.inGroup start depth (c :: inside)) cs := by
  cases depth <;> rfl

theorem scan_between_cons (c : Char) (cs : List Char) : scan .between (c :: cs) =
    if c = '(' then scan (.inGroup (c :: cs) 0 []) cs
    else if c = ')' then .error (.unopened (excerpt (c :: cs)))
    else if isSeparator c then scan .between cs
    else scan (.inWord [c]) cs := by
  have keeps (x : Except Malformation (List Piece)) :
      (do return Scan.between.pending ++ (← x)) = x := by cases x <;> rfl
  rw [scan, keeps, keeps]
  · exact fun _ _ _ h => nomatch h
  · exact fun _ h => nomatch h

theorem scan_inWord_cons (read : List Char) (c : Char) (cs : List Char) :
    scan (.inWord read) (c :: cs) =
      if WordChar c then scan (.inWord (c :: read)) cs
      else (scan .between (c :: cs)).map (word (String.ofList read.reverse) :: ·) := by
  have adds (x : Except Malformation (List Piece)) :
      (do return (Scan.inWord read).pending ++ (← x)) =
        x.map (word (String.ofList read.reverse) :: ·) := by cases x <;> rfl
  rw [scan, adds, adds, scan_between_cons]
  rcases paren_cases c with rfl | rfl | ⟨ho, hc⟩
  · rw [if_pos rfl, if_neg not_wordChar_open, if_pos rfl]
  · rw [if_neg (by decide), if_pos rfl, if_neg not_wordChar_close, if_neg (by decide), if_pos rfl]
    rfl
  · rw [if_neg ho, if_neg hc, if_neg ho, if_neg hc]
    by_cases separator : isSeparator c
    · rw [if_pos separator, if_neg (not_wordChar_of_isSeparator separator), if_pos separator]
    · rw [if_neg separator, if_pos ⟨eq_false_of_ne_true separator, ho, hc⟩]

/-! ### Words and groups -/

theorem scan_inWord_append (hw : ∀ c ∈ w, WordChar c) (stops : Stops cs) (read : List Char) :
    scan (.inWord read) (w ++ cs) =
      (scan .between cs).map (word (String.ofList (read.reverse ++ w)) :: ·) := by
  induction w generalizing read with
  | nil =>
      rw [List.append_nil]
      cases cs with
      | nil => rfl
      | cons c cs => exact (scan_inWord_cons read c cs).trans (if_neg (stops c rfl))
  | cons c w ih =>
      obtain ⟨hc, hw⟩ := List.forall_mem_cons.mp hw
      rw [List.cons_append, scan_inWord_cons, if_pos hc, ih hw, List.reverse_cons,
        List.append_assoc]
      rfl

theorem scan_word (hw : Word w) (stops : Stops cs) :
    scan .between (w ++ cs) = (scan .between cs).map (word (String.ofList w) :: ·) := by
  cases w with
  | nil => exact absurd rfl hw.ne_nil
  | cons c w =>
      obtain ⟨⟨separator, ho, hc⟩, hw⟩ := List.forall_mem_cons.mp hw.chars
      rw [List.cons_append, scan_between_cons, if_neg ho, if_neg hc,
        if_neg (ne_true_of_eq_false separator)]
      exact scan_inWord_append hw stops [c]

/-- A group goes on until as many parentheses have closed as were open. -/
theorem scan_group (h : nest depth inside = some 0) (start before : List Char) :
    scan (.inGroup start depth before) (inside ++ ')' :: cs) =
      (scan .between cs).map (group (String.ofList (before.reverse ++ inside)) :: ·) := by
  induction inside generalizing depth before with
  | nil =>
      obtain rfl := Option.some.inj (nest_nil.symm.trans h)
      rw [List.nil_append, scan_inGroup_cons, if_neg (by decide), if_pos rfl, List.append_nil]
  | cons c inside ih =>
      have shift : (c :: before).reverse ++ inside = before.reverse ++ c :: inside := by simp
      rw [List.cons_append, scan_inGroup_cons, ← shift]
      rcases paren_cases c with rfl | rfl | ⟨ho, hc⟩
      · rw [if_pos rfl]
        exact ih (nest_open.symm.trans h) _
      · rw [if_neg (by decide), if_pos rfl]
        cases depth with
        | zero => cases nest_zero_close.symm.trans h
        | succ depth => exact ih (nest_close.symm.trans h) _
      · rw [if_neg ho, if_neg hc]
        exact ih ((nest_other ho hc).symm.trans h) _

/-- A text that is made of fragments has them as its pieces. -/
theorem scan_of_written (h : Written cs fragments) :
    scan .between cs = .ok (fragments.map ofFragment) := by
  induction h with
  | nil => rfl
  | blank hc _ ih =>
      rw [scan_between_cons, if_neg (ne_open_of_isSeparator hc),
        if_neg (ne_close_of_isSeparator hc), if_pos hc, ih]
  | word hw stops _ ih =>
      rw [scan_word hw stops, ih]
      rfl
  | group hi _ _ ih =>
      rw [List.cons_append, scan_between_cons, if_pos rfl, scan_group hi.paired, ih]
      rfl

/-- The number of groups that are open where a scan stands. -/
def Scan.opened : Scan → Nat
  | .between | .inWord _ => 0
  | .inGroup _ depth _ => depth + 1

/-- The malformation that the imbalance of a text is, with the text from there on. -/
def malformation (near : String) : Imbalance → Malformation
  | .unclosed => .unclosed near
  | .unopened => .unopened near

/-- A scan comes to pieces if no parenthesis is open after the text, and says what is wrong with
the text otherwise. -/
def Judges (opened : Option Nat) : Except Malformation (List Piece) → Prop
  | .ok _    => opened = some 0
  | .error e => ∃ i near, imbalance? opened = some i ∧ e = malformation near i

theorem Judges.map {opened : Option Nat} {x : Except Malformation (List Piece)}
    (h : Judges opened x) (f : List Piece → List Piece) : Judges opened (x.map f) := by
  cases x with
  | error e => exact h
  | ok pieces => exact h

/-- **A scan fails** where parentheses do not match, and only there. -/
theorem judges_scan (s : Scan) (cs : List Char) : Judges (nest s.opened cs) (scan s cs) := by
  induction cs generalizing s with
  | nil =>
      cases s with
      | inGroup start depth before => exact ⟨.unclosed, excerpt start, rfl, rfl⟩
      | between | inWord read => exact nest_nil
  | cons c cs ih =>
      have between : Judges (nest 0 (c :: cs)) (scan .between (c :: cs)) := by
        rw [scan_between_cons]
        rcases paren_cases c with rfl | rfl | ⟨ho, hc⟩
        · rw [if_pos rfl, nest_open]
          exact ih (.inGroup ('(' :: cs) 0 [])
        · rw [if_neg (by decide), if_pos rfl, nest_zero_close]
          exact ⟨.unopened, excerpt (')' :: cs), rfl, rfl⟩
        · rw [if_neg ho, if_neg hc, nest_other ho hc]
          split
          · exact ih .between
          · exact ih (.inWord [c])
      cases s with
      | between => exact between
      | inWord read =>
          rw [scan_inWord_cons]
          split
          · rename_i hc
            rw [nest_other hc.2.1 hc.2.2]
            exact ih (.inWord (c :: read))
          · exact between.map _
      | inGroup start depth before =>
          rw [scan_inGroup_cons]
          rcases paren_cases c with rfl | rfl | ⟨ho, hc⟩
          · rw [if_pos rfl, nest_open]
            exact ih (.inGroup start (depth + 1) _)
          · rw [if_neg (by decide), if_pos rfl, Scan.opened, nest_close]
            cases depth with
            | zero => exact (ih .between).map _
            | succ depth => exact ih (.inGroup start depth _)
          · rw [if_neg ho, if_neg hc, nest_other ho hc]
            exact ih (.inGroup start depth _)

theorem paired_of_split {text : String} (h : split text = .ok pieces) : Paired text.toList := by
  have judged := judges_scan .between text.toList
  rwa [show scan .between text.toList = .ok pieces from h] at judged

/-- **The two readers agree** on what a text is made of. -/
theorem split_eq_ok_iff {text : String} : split text = .ok pieces ↔
    ∃ fragments, Written text.toList fragments ∧ fragments.map ofFragment = pieces := by
  refine ⟨fun h => ?_, fun ⟨fragments, written, same⟩ => same ▸ scan_of_written written⟩
  obtain ⟨fragments, written⟩ := exists_written (paired_of_split h)
  cases h.symm.trans (scan_of_written written)
  exact ⟨fragments, written, rfl⟩

/-- A piece that some text may have: a word, or a group around a text that has pieces. -/
def Proper : Piece → Prop
  | .word text => Word text.toList
  | .group inside => ∃ pieces, split inside = .ok pieces

variable {p : Piece} {text : String}

theorem proper_ofFragment {fragment : Fragment} (h : fragment.Proper) :
    (ofFragment fragment).Proper := by
  cases fragment with
  | word text => exact h
  | group inside parts => exact ⟨_, split_eq_ok_iff.mpr ⟨parts, h, rfl⟩⟩

/-- A piece is the only piece of its own text. -/
theorem Proper.split_text (h : p.Proper) : split p.text = .ok [p] := by
  cases p with
  | word text =>
      have proper : (Fragment.word text).Proper := h
      exact split_eq_ok_iff.mpr ⟨[.word text], proper.written, rfl⟩
  | group inside =>
      obtain ⟨pieces, found⟩ := h
      obtain ⟨fragments, written, -⟩ := split_eq_ok_iff.mp found
      have proper : (Fragment.group inside fragments).Proper := written
      exact split_eq_ok_iff.mpr ⟨[.group inside fragments], proper.written, rfl⟩

/-- **The pieces of a text** are words and groups that have pieces in turn, of its characters. -/
theorem proper_split (h : split text = .ok pieces) :
    ∀ p ∈ pieces, p.Proper ∧ p.text.toList ⊆ text.toList := by
  obtain ⟨fragments, written, rfl⟩ := split_eq_ok_iff.mp h
  refine List.forall_mem_map.mpr fun f mem => ?_
  rw [text_ofFragment]
  exact (written.proper f mem).imp proper_ofFragment id

end Piece

end ClassicalPlanner.Pddl
