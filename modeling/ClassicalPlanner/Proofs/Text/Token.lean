import ClassicalPlanner.Proofs.Text.Flatten

/-!
# Tokens

The tokens of a text are its parentheses and its words, in order; what separates them is left out.
Texts one after the other have the tokens of both, unless a word runs on from one into the other
(`tokens_append`).  Trimming and flattening keep the tokens of a plain text (`Plain.tokens_trim`,
`tokens_flatten`).  The tokens tell how the parentheses of a text are nested (`nest_congr`).
-/

namespace ClassicalPlanner.Text

/-- A parenthesis or a word. -/
inductive Token where
  | opening
  | closing
  | word (text : String)
deriving DecidableEq, Repr

/-- The tokens of a text. -/
def tokens (cs : List Char) : List Token :=
  go [] cs
where
  /-- `word` is the word being read, backwards. -/
  go (word : List Char) : List Char → List Token
    | [] => ended word
    | '(' :: cs => ended word ++ .opening :: go [] cs
    | ')' :: cs => ended word ++ .closing :: go [] cs
    | c :: cs => if isSeparator c then ended word ++ go [] cs else go (c :: word) cs
  /-- The token of a word that has ended. -/
  ended (word : List Char) : List Token :=
    if word.isEmpty then [] else [.word (String.ofList word.reverse)]

variable {c : Char} {w cs ds : List Char} {text : String}

/-! ### The tokens of the pieces of a text -/

@[simp] theorem tokens_nil : tokens [] = [] := rfl

@[simp] theorem tokens_open : tokens ('(' :: cs) = .opening :: tokens cs := rfl

@[simp] theorem tokens_close : tokens (')' :: cs) = .closing :: tokens cs := rfl

theorem tokens_go_other (ho : c ≠ '(') (hc : c ≠ ')') (word : List Char) :
    tokens.go word (c :: cs) = if isSeparator c then tokens.ended word ++ tokens.go [] cs
      else tokens.go (c :: word) cs := by
  rw [tokens.go]
  · exact ho
  · exact hc

theorem tokens_blank (h : isSeparator c) : tokens (c :: cs) = tokens cs := by
  rw [tokens, tokens_go_other (ne_open_of_isSeparator h) (ne_close_of_isSeparator h), if_pos h]
  rfl

/-- Where a word ends, its token is complete. -/
theorem tokens_go_stops (stops : Stops cs) (word : List Char) :
    tokens.go word cs = tokens.ended word ++ tokens cs := by
  cases cs with
  | nil => exact (List.append_nil _).symm
  | cons c cs =>
      rcases paren_cases c with rfl | rfl | ⟨ho, hc⟩
      · rfl
      · rfl
      · have separator := isSeparator_of_not_wordChar (stops c rfl) ho hc
        rw [tokens_go_other ho hc, if_pos separator, tokens_blank separator]
        rfl

theorem tokens_go_chars (hw : ∀ c ∈ w, WordChar c) (word : List Char) :
    tokens.go word (w ++ cs) = tokens.go (w.reverse ++ word) cs := by
  induction w generalizing word with
  | nil => rfl
  | cons c w ih =>
      obtain ⟨⟨separator, ho, hc⟩, hw⟩ := List.forall_mem_cons.mp hw
      rw [List.cons_append, tokens_go_other ho hc, if_neg (by simp [separator]), ih hw]
      simp

theorem tokens_word (hw : Word w) (stops : Stops cs) :
    tokens (w ++ cs) = .word (String.ofList w) :: tokens cs := by
  rw [tokens, tokens_go_chars hw.chars, tokens_go_stops stops, tokens.ended, if_neg]
  · simp
  · simpa using hw.ne_nil

/-- Induction on the pieces of a text. -/
theorem induct_pieces {P : List Char → Prop} (nil : P [])
    (blank : ∀ {c cs}, isSeparator c → P cs → P (c :: cs)) (opening : ∀ {cs}, P cs → P ('(' :: cs))
    (closing : ∀ {cs}, P cs → P (')' :: cs))
    (word : ∀ {w cs}, Word w → Stops cs → P cs → P (w ++ cs)) (cs : List Char) : P cs := by
  -- what follows a word is a shorter text
  induction hn : cs.length using Nat.strongRecOn generalizing cs with
  | _ n ih =>
      subst hn
      rcases cs with _ | ⟨c, cs⟩
      · exact nil
      by_cases chars : WordChar c
      · obtain ⟨w, rest, same, hw, stops⟩ :
            ∃ w rest, c :: cs = w ++ rest ∧ Word w ∧ Stops rest := exists_word chars
        rw [same] at ih ⊢
        refine word hw stops (ih rest.length ?_ rest rfl)
        have := List.length_pos_iff.mpr hw.ne_nil
        rw [List.length_append]
        omega
      · have rest : P cs := ih cs.length (Nat.lt_succ_self _) cs rfl
        rcases paren_cases c with rfl | rfl | ⟨ho, hc⟩
        · exact opening rest
        · exact closing rest
        · exact blank (isSeparator_of_not_wordChar chars ho hc) rest

/-- Texts one after the other, where no word runs on from the first into the second. -/
theorem tokens_append (stops : Stops ds) (cs : List Char) :
    tokens (cs ++ ds) = tokens cs ++ tokens ds := by
  induction cs using induct_pieces with
  | nil => rfl
  | blank h ih => rw [List.cons_append, tokens_blank h, tokens_blank h, ih]
  | opening ih => rw [List.cons_append, tokens_open, tokens_open, ih, List.cons_append]
  | closing ih => rw [List.cons_append, tokens_close, tokens_close, ih, List.cons_append]
  | word hw hs ih =>
      rw [List.append_assoc, tokens_word hw (hs.append stops), tokens_word hw hs, ih,
        List.cons_append]

/-! ### Trimming and flattening -/

theorem tokens_of_separators (h : ∀ c ∈ cs, isSeparator c) : tokens cs = [] := by
  induction cs with
  | nil => rfl
  | cons c cs ih =>
      obtain ⟨hc, h⟩ := List.forall_mem_cons.mp h
      rw [tokens_blank hc, ih h]

theorem stops_of_separators (h : ∀ c ∈ cs, isSeparator c) : Stops cs :=
  fun c mem => not_wordChar_of_isSeparator (h c (List.mem_of_mem_head? mem))

theorem Plain.tokens_dropWhile (h : Plain cs) : tokens (cs.dropWhile isBlank) = tokens cs := by
  induction cs with
  | nil => rfl
  | cons c cs ih =>
      obtain ⟨hc, h⟩ := List.forall_mem_cons.mp h
      rw [List.dropWhile_cons]
      split
      · rename_i blank
        rw [ih h, tokens_blank (hc blank)]
      · rfl

/-- Trimming a plain text keeps its tokens. -/
theorem Plain.tokens_trim (h : Plain cs) : tokens (trim cs) = tokens cs := by
  have front := h.subset (List.dropWhile_sublist isBlank).subset
  rw [trim, ← h.tokens_dropWhile]
  generalize cs.dropWhile isBlank = ds at front ⊢
  have blanks : ∀ c ∈ (ds.reverse.takeWhile isBlank).reverse, isSeparator c := by
    intro c mem
    have mem := List.mem_reverse.mp mem
    have inside := List.mem_reverse.mp ((List.takeWhile_sublist isBlank).subset mem)
    exact front c inside (List.mem_takeWhile_imp mem)
  have whole : ds = (ds.reverse.dropWhile isBlank).reverse ++
      (ds.reverse.takeWhile isBlank).reverse := by
    rw [← List.reverse_append, List.takeWhile_append_dropWhile, List.reverse_reverse]
  have parts := congrArg tokens whole
  rw [tokens_append (stops_of_separators blanks), tokens_of_separators blanks, List.append_nil]
    at parts
  exact parts.symm

theorem tokens_words_go (h : Plain cs) (word : List Char) :
    (words.go word cs).flatMap tokens = tokens (word.reverse ++ cs) := by
  induction cs generalizing word with
  | nil =>
      rw [words_go_nil, List.append_nil]
      split
      · rename_i nothing
        rw [List.isEmpty_iff.mp nothing]
        rfl
      · exact List.flatMap_singleton _ _
  | cons c cs ih =>
      obtain ⟨hc, h⟩ := List.forall_mem_cons.mp h
      by_cases ink : isInk c
      · rw [words_go_of_isInk ink, ih h, List.reverse_cons, List.append_assoc]
        rfl
      · have blank : isBlank c := by simpa [isInk] using ink
        rw [words_go_of_blank blank, tokens_append (stops_cons (not_wordChar_of_isSeparator
          (hc blank))), tokens_blank (hc blank)]
        split
        · rename_i nothing
          rw [ih h, List.isEmpty_iff.mp nothing]
          rfl
        · rw [List.flatMap_cons, ih h]
          rfl

theorem tokens_intercalate (ws : List (List Char)) :
    tokens ([' '].intercalate ws) = ws.flatMap tokens := by
  induction ws with
  | nil => rfl
  | cons w ws ih =>
      rcases ws with _ | ⟨w', ws⟩
      · rw [List.intercalate_singleton, List.flatMap_singleton]
      · have stops : Stops (' ' :: [' '].intercalate (w' :: ws)) := stops_cons (by decide)
        rw [List.intercalate_cons_cons, List.append_assoc, List.singleton_append,
          tokens_append stops, tokens_blank (by decide), ih, List.flatMap_cons,
          List.flatMap_cons, List.flatMap_cons]

/-- **Flattening a plain text** keeps its tokens. -/
theorem tokens_flatten (h : Plain text.toList) :
    tokens (flatten text).toList = tokens text.toList := by
  rw [toList_flatten, tokens_intercalate, words, tokens_words_go h]
  rfl

/-! ### Nesting -/

/-- The parenthesis of a token. -/
def Token.parens : Token → List Char
  | .opening => ['(']
  | .closing => [')']
  | .word _  => []

/-- The parentheses among the characters are those of the tokens. -/
theorem filter_parens (cs : List Char) :
    cs.filter (fun c => c == '(' || c == ')') = (tokens cs).flatMap Token.parens := by
  induction cs using induct_pieces with
  | nil => rfl
  | blank h ih =>
      rw [tokens_blank h, List.filter_cons_of_neg, ih]
      simp [ne_open_of_isSeparator h, ne_close_of_isSeparator h]
  | opening ih => rw [tokens_open, List.filter_cons_of_pos (by decide), ih]; rfl
  | closing ih => rw [tokens_close, List.filter_cons_of_pos (by decide), ih]; rfl
  | @word w cs hw hs ih =>
      have none : w.filter (fun c => c == '(' || c == ')') = [] :=
        List.filter_eq_nil_iff.mpr fun c mem => by simp [(hw.chars c mem).2]
      rw [tokens_word hw hs, List.filter_append, none, ih]
      rfl

/-- **Texts with the same tokens** are nested in the same way. -/
theorem nest_congr (h : tokens cs = tokens ds) (d : Nat) : nest d cs = nest d ds := by
  have filter (cs : List Char) : nest d (cs.filter fun c => c == '(' || c == ')') = nest d cs :=
    nest_filter (by decide) (by decide) d cs
  rw [← filter cs, ← filter ds, filter_parens, filter_parens, h]

end ClassicalPlanner.Text
