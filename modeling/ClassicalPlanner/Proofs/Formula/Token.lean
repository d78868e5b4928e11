import ClassicalPlanner.Proofs.Formula.Fragment
import ClassicalPlanner.Proofs.Text.Token

/-!
# The tokens of fragments

The tokens of a text that is made of fragments are those of the fragments, in order
(`Written.tokens`).  In turn the tokens of a fragment end where the fragment ends, so they tell the
fragment, all but the characters that a group keeps of its text (`bare_of_tokens`): a group is told
by its parentheses and the tokens between them.  Hence the fragments of a formula are the same, but
for those characters, in all plain texts with the same tokens (`ofFormula_of_tokens`).
-/

namespace ClassicalPlanner.Fragment

open Text

variable {cs : List Char} {f g : Fragment} {fragments more parts : List Fragment}
variable {rest rest' : List Token} {text text' : String}

mutual

/-- The tokens of a fragment. -/
def tokens : Fragment → List Token
  | .word text     => [.word text]
  | .group _ parts => .opening :: tokensAll parts ++ [.closing]

/-- The tokens of fragments. -/
def tokensAll : List Fragment → List Token
  | []        => []
  | f :: rest => f.tokens ++ tokensAll rest

end

mutual

/-- A fragment whose groups keep nothing of their text. -/
def bare : Fragment → Fragment
  | .word text     => .word text
  | .group _ parts => .group "" (bareAll parts)

/-- Fragments whose groups keep nothing of their text. -/
def bareAll : List Fragment → List Fragment
  | []        => []
  | f :: rest => f.bare :: bareAll rest

end

/-! ### From a text to its fragments -/

/-- **The tokens of a text** are those of the fragments that it is made of. -/
theorem Written.tokens (h : Written cs fragments) : Text.tokens cs = tokensAll fragments := by
  induction h with
  | nil => rfl
  | blank hc _ ih => rw [tokens_blank hc, ih]
  | word hw stops _ ih => rw [tokens_word hw stops, ih]; rfl
  | group _ _ hi hr =>
      rw [List.cons_append, tokens_open, tokens_append (stops_cons not_wordChar_close),
        tokens_close, hi, hr]
      simp [tokensAll, Fragment.tokens]

/-! ### From tokens to fragments -/

/-- No fragment starts with a parenthesis that closes. -/
theorem closing_ne_tokens (f : Fragment) : .closing :: rest ≠ f.tokens ++ rest' := by
  cases f <;> simp [Fragment.tokens]

/-- Fragments up to a parenthesis that closes are told by their tokens, if each one is. -/
theorem bareAll_of_tokensAll
    (each : ∀ f ∈ fragments, ∀ {g : Fragment} {rest rest' : List Token},
      f.tokens ++ rest = g.tokens ++ rest' → f.bare = g.bare ∧ rest = rest')
    (h : tokensAll fragments ++ .closing :: rest = tokensAll more ++ .closing :: rest') :
    bareAll fragments = bareAll more ∧ rest = rest' := by
  induction fragments generalizing more with
  | nil =>
      cases more with
      | nil => exact ⟨rfl, List.tail_eq_of_cons_eq h⟩
      | cons g more =>
          rw [tokensAll, tokensAll, List.append_assoc] at h
          exact absurd h (closing_ne_tokens g)
  | cons f fragments ih =>
      obtain ⟨first, each⟩ := List.forall_mem_cons.mp each
      cases more with
      | nil =>
          rw [tokensAll, tokensAll, List.append_assoc] at h
          exact absurd h.symm (closing_ne_tokens f)
      | cons g more =>
          simp only [tokensAll, List.append_assoc] at h
          obtain ⟨same, h⟩ := first h
          obtain ⟨sames, h⟩ := ih each h
          exact ⟨by rw [bareAll, bareAll, same, sames], h⟩

/-- **A fragment is told by its tokens**, whatever comes after it. -/
theorem bare_of_tokens (h : f.tokens ++ rest = g.tokens ++ rest') :
    f.bare = g.bare ∧ rest = rest' := by
  induction f using Fragment.induct generalizing g rest rest' with
  | word text =>
      cases g with
      | word text' =>
          cases h
          exact ⟨rfl, rfl⟩
      | group _ parts' => cases h
  | group inside parts ih =>
      cases g with
      | word text' => cases h
      | group inside' parts' =>
          simp only [Fragment.tokens, List.cons_append, List.append_assoc, List.nil_append,
            List.cons.injEq, true_and] at h
          obtain ⟨same, h⟩ := bareAll_of_tokensAll ih h
          exact ⟨by rw [bare, bare, same], h⟩

/-- Fragments are told by their tokens. -/
theorem bareAll_congr (h : tokensAll fragments = tokensAll more) :
    bareAll fragments = bareAll more := by
  have closed : tokensAll fragments ++ [.closing] = tokensAll more ++ [.closing] := by rw [h]
  exact (bareAll_of_tokensAll (fun _ _ => bare_of_tokens) closed).1

/-! ### Formulas -/

theorem bareAll_unwrap (fragments : List Fragment) :
    bareAll (unwrap fragments) = unwrap (bareAll fragments) := by
  rcases fragments with _ | ⟨_ | _, _ | ⟨_, _⟩⟩ <;> rfl

/-- **Plain texts with the same tokens** are wrong in the same way, or they have the same fragments,
but for the characters that groups keep of their text. -/
theorem ofFormula_of_tokens (plain : Plain text.toList) (plain' : Plain text'.toList)
    (same : Text.tokens text.toList = Text.tokens text'.toList) :
    (∃ i, ofFormula text = .error i ∧ ofFormula text' = .error i) ∨
    ∃ fragments fragments', ofFormula text = .ok fragments ∧ ofFormula text' = .ok fragments' ∧
      bareAll fragments = bareAll fragments' := by
  have nested := nest_congr same 0
  have errors {i : Imbalance} : ofFormula text = .error i ↔ ofFormula text' = .error i := by
    rw [ofFormula_eq_error_iff, ofFormula_eq_error_iff, nested]
  cases found : ofFormula text with
  | error i => exact .inl ⟨i, rfl, errors.mp found⟩
  | ok fragments =>
      cases found' : ofFormula text' with
      | error i => cases found.symm.trans (errors.mpr found')
      | ok fragments' =>
          refine .inr ⟨fragments, fragments', rfl, rfl, ?_⟩
          obtain ⟨whole, written, rfl⟩ := ofFormula_eq_ok_iff.mp found
          obtain ⟨whole', written', rfl⟩ := ofFormula_eq_ok_iff.mp found'
          rw [bareAll_unwrap, bareAll_unwrap, bareAll_congr]
          rw [← written.tokens, ← written'.tokens, plain.tokens_trim, plain'.tokens_trim, same]

end ClassicalPlanner.Fragment
