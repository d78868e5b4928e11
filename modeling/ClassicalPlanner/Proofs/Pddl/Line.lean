import ClassicalPlanner.Pddl.Piece
import ClassicalPlanner.Proofs.Text.Flatten

/-!
# Lines and comments

Without comments, a text has only characters that it had before, and line feeds
(`mem_stripComments`); so a plain text stays plain.  A text with no semicolon and no carriage
return that does not end in a line feed stays as it is (`stripComments_of_clean`).
-/

namespace ClassicalPlanner.Pddl

open Text

variable {c : Char} {line cs : List Char} {text : String}

/-! ### The lines of a text -/

theorem lines_go_nil (line : List Char) :
    lines.go line [] = if line.isEmpty then [] else [line.reverse] := rfl

/-- A line feed ends a line, without a carriage return in front of it. -/
theorem lines_go_feed (line cs : List Char) :
    ∃ l, lines.go line ('\n' :: cs) = l :: lines.go [] cs ∧ l ⊆ line ∧
      ('\r' ∉ line → l = line.reverse) := by
  have whole : line.reverse ⊆ line := fun _ h => List.mem_reverse.mp h
  cases line with
  | nil => exact ⟨[], rfl, whole, fun _ => rfl⟩
  | cons c line =>
      by_cases ret : c = '\r'
      · subst ret
        refine ⟨line.reverse, rfl, fun _ h => ?_, fun h => absurd List.mem_cons_self h⟩
        exact List.mem_cons_of_mem _ (List.mem_reverse.mp h)
      · refine ⟨(c :: line).reverse, ?_, whole, fun _ => rfl⟩
        rw [lines.go]
        intro line' h
        exact ret (List.cons.inj h).1

theorem lines_go_other (h : c ≠ '\n') (line cs : List Char) :
    lines.go line (c :: cs) = lines.go (c :: line) cs := by
  rw [lines.go]
  exact h

/-- The characters of the lines of a text are its own. -/
theorem mem_lines_go {l : List Char} (hl : l ∈ lines.go line cs) (hc : c ∈ l) :
    c ∈ line ∨ c ∈ cs := by
  induction cs generalizing line with
  | nil =>
      rw [lines_go_nil] at hl
      split at hl
      · exact absurd hl List.not_mem_nil
      · obtain rfl := List.mem_singleton.mp hl
        exact .inl (List.mem_reverse.mp hc)
  | cons c' cs ih =>
      by_cases feed : c' = '\n'
      · subst feed
        obtain ⟨first, same, sub, -⟩ := lines_go_feed line cs
        rw [same] at hl
        rcases List.mem_cons.mp hl with rfl | hl
        · exact .inl (sub hc)
        · exact .inr (List.mem_cons_of_mem _ ((ih hl).resolve_left List.not_mem_nil))
      · rw [lines_go_other feed] at hl
        rcases ih hl with h | h
        · exact (List.mem_cons.mp h).elim (fun h => .inr (h ▸ List.mem_cons_self)) .inl
        · exact .inr (List.mem_cons_of_mem _ h)

theorem lines_go_ne_nil (h : line ≠ [] ∨ cs ≠ []) : lines.go line cs ≠ [] := by
  induction cs generalizing line with
  | nil =>
      rw [lines_go_nil, if_neg]
      · exact List.cons_ne_nil _ _
      · simpa using h
  | cons c cs ih =>
      by_cases feed : c = '\n'
      · subst feed
        obtain ⟨first, same, -⟩ := lines_go_feed line cs
        rw [same]
        exact List.cons_ne_nil _ _
      · rw [lines_go_other feed]
        exact ih (.inl (List.cons_ne_nil _ _))

/-- A text is its lines, one after the other, unless it ends in a line feed. -/
theorem intercalate_lines_go (hl : '\r' ∉ line) (hc : '\r' ∉ cs) (last : cs.getLast? ≠ some '\n') :
    ['\n'].intercalate (lines.go line cs) = line.reverse ++ cs := by
  induction cs generalizing line with
  | nil =>
      rw [lines_go_nil, List.append_nil]
      split
      · rename_i nothing
        rw [List.isEmpty_iff.mp nothing]
        rfl
      · exact List.intercalate_singleton
  | cons c cs ih =>
      obtain ⟨other, hcs⟩ := not_or.mp (mt List.mem_cons.mpr hc)
      by_cases feed : c = '\n'
      · subst feed
        cases cs with
        | nil => exact absurd rfl last
        | cons c' cs =>
            rw [List.getLast?_cons_cons] at last
            obtain ⟨first, same, -, whole⟩ := lines_go_feed line (c' :: cs)
            have more : lines.go [] (c' :: cs) ≠ [] := lines_go_ne_nil (.inr (List.cons_ne_nil _ _))
            rw [same, whole hl, List.intercalate_cons_of_ne_nil more, ih List.not_mem_nil hcs last]
            simp
      · rw [lines_go_other feed, ih (fun h => (List.mem_cons.mp h).elim other hl) hcs]
        · simp
        · cases cs with
          | nil => exact fun h => nomatch h
          | cons c' cs => rwa [List.getLast?_cons_cons] at last

/-! ### Comments -/

/-- **What is left without comments** are characters of the text, and line feeds. -/
theorem mem_stripComments (h : c ∈ (stripComments text).toList) :
    c = '\n' ∨ c ∈ text.toList ∧ c ≠ ';' := by
  rw [stripComments, String.toList_ofList] at h
  refine (mem_intercalate h).imp id fun h => ?_
  obtain ⟨kept, mem, hc⟩ := List.mem_flatten.mp h
  obtain ⟨l, hl, rfl⟩ := List.mem_map.mp mem
  constructor
  · exact (mem_lines_go hl (List.takeWhile_subset _ hc)).resolve_left List.not_mem_nil
  · have kept := List.mem_takeWhile_imp hc
    simpa using kept

theorem not_mem_stripComments (text : String) : ';' ∉ (stripComments text).toList := by
  intro h
  rcases mem_stripComments h with h | ⟨-, h⟩
  · cases h
  · exact h rfl

theorem plain_stripComments (h : Plain text.toList) : Plain (stripComments text).toList := by
  intro c mem
  rcases mem_stripComments mem with rfl | ⟨mem, -⟩
  · exact fun _ => by decide
  · exact h c mem

/-- A text that neither comments nor line ends are hidden in. -/
def Clean (text : String) : Prop := ∀ c ∈ text.toList, c ≠ ';' ∧ c ≠ '\r'

/-- **A text without comments** stays as it is. -/
theorem stripComments_of_clean (h : Clean text) (last : text.toList.getLast? ≠ some '\n') :
    stripComments text = text := by
  have kept : (lines text.toList).map (·.takeWhile (· != ';')) = lines text.toList := by
    refine (List.map_congr_left fun l hl => ?_).trans (List.map_id' _)
    refine List.takeWhile_eq_self_iff.mpr fun c hc => ?_
    have mem := (mem_lines_go hl hc).resolve_left List.not_mem_nil
    simpa using (h c mem).1
  have whole := intercalate_lines_go List.not_mem_nil (fun h' => (h '\r' h').2 rfl) last
  rw [stripComments, kept, lines, whole]
  exact String.ofList_toList

end ClassicalPlanner.Pddl
