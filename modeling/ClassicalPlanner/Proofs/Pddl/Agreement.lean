import ClassicalPlanner.Proofs.Formula.Printed
import ClassicalPlanner.Proofs.Pddl.Piece

/-!
# Two readers of one notation

Formula text crosses from the reader of definitions to the reader of formulas.  Each has a scan of
its own: one counts open parentheses and leaves a group as written, the other keeps a stack of open
groups and reads what is in them.  Nevertheless they refuse the same texts and cut all others in the
same places, and what they have cut is cut in the same way when it stands on one line
(`split_agrees`).
-/

namespace ClassicalPlanner.Pddl.Piece

open Text Fragment

variable {text : String} {fragments : List Fragment} {p : Piece} {i : Imbalance}

/-- A piece is a group exactly if it starts with a parenthesis. -/
theorem Proper.group_iff (h : p.Proper) :
    (∃ inside, p = .group inside) ↔ p.text.toList.head? = some '(' := by
  cases p with
  | group inside =>
      refine iff_of_true ⟨inside, rfl⟩ ?_
      rw [Piece.text, String.toList_append, String.toList_append]
      rfl
  | word text =>
      refine iff_of_false (fun ⟨_, same⟩ => by cases same) fun first => ?_
      exact not_wordChar_open (h.chars '(' (List.mem_of_mem_head? first))

/-- The pieces of a text, on one line. -/
theorem joined_ofFragment (fragments : List Fragment) :
    " ".intercalate ((fragments.map ofFragment).map Piece.text) = joined fragments := by
  rw [List.map_map, joined]
  exact congrArg _ (List.map_congr_left fun f _ => text_ofFragment f)

/-- The two readers find the same thing wrong with a text. -/
theorem split_of_imbalance (h : imbalance? (nest 0 text.toList) = some i) :
    ∃ near, split text = .error (malformation near i) := by
  have judged : Judges (nest 0 text.toList) (split text) := judges_scan .between text.toList
  cases found : split text with
  | ok pieces =>
      rw [found] at judged
      cases (imbalance?_eq_none_iff.mpr judged).symm.trans h
  | error e =>
      rw [found] at judged
      obtain ⟨i', near, wrong, rfl⟩ := judged
      cases wrong.symm.trans h
      exact ⟨near, rfl⟩

/-- **The two readers agree** on every text.  If its parentheses do not match, both refuse it, for
the same reason.  If they match, both cut it, and the texts of what they cut are the same; the
groups are the pieces that start with a parenthesis; and the pieces, put on one line with a space
between each two, are cut by both as before. -/
theorem split_agrees (text : String) :
    (¬Paired text.toList ∧ ∃ i near, ofChars text.toList = .error i ∧
      split text = .error (malformation near i)) ∨
    (Paired text.toList ∧ ∃ pieces fragments, split text = .ok pieces ∧
      ofChars text.toList = .ok fragments ∧ pieces.map Piece.text = fragments.map Fragment.text ∧
      (∀ p ∈ pieces, (∃ inside, p = .group inside) ↔ p.text.toList.head? = some '(') ∧
      split (" ".intercalate (pieces.map Piece.text)) = .ok pieces ∧
      ofChars (" ".intercalate (pieces.map Piece.text)).toList = .ok fragments) := by
  cases wrong : imbalance? (nest 0 text.toList) with
  | some i =>
      obtain ⟨near, refused⟩ := split_of_imbalance wrong
      refine .inl ⟨fun paired => ?_, i, near, ofChars_eq_error_iff.mpr wrong, refused⟩
      cases wrong.symm.trans (imbalance?_eq_none_iff.mpr paired)
  | none =>
      have paired : Paired text.toList := imbalance?_eq_none_iff.mp wrong
      obtain ⟨fragments, written⟩ := exists_written paired
      have line : Written (joined fragments).toList fragments :=
        written_joined fun f mem => (written.proper f mem).1
      have cut := split_eq_ok_iff.mpr ⟨fragments, written, rfl⟩
      refine .inr
        ⟨paired, fragments.map ofFragment, fragments, cut, written.ofChars, ?_, ?_, ?_, ?_⟩
      · rw [List.map_map]
        exact List.map_congr_left fun f _ => text_ofFragment f
      · exact fun p mem => (proper_split cut p mem).1.group_iff
      · rw [joined_ofFragment]
        exact split_eq_ok_iff.mpr ⟨fragments, line, rfl⟩
      · rw [joined_ofFragment]
        exact line.ofChars

end ClassicalPlanner.Pddl.Piece
