import ClassicalPlanner.Proofs.Formula.Token
import ClassicalPlanner.Proofs.Session.Rejection

/-!
# The layout of a formula

Formulas are read fragment by fragment, and there is one place where the reader looks at how a
fragment was written: the group of a variable.  Where that is a word, no characters of the text
are read but those of words (`addFragment_bare`), so the formula depends on the tokens of the text
alone (`parse_of_tokens`).  Hence blanks that end no word and begin none may be added and left out
(`parse_of_layout`).
-/

namespace ClassicalPlanner

open Text

/-- The error with this text for the one that it quotes. -/
def FormulaError.quoting (text : String) : FormulaError → FormulaError
  | .unbalanced _ imbalance => .unbalanced text imbalance
  | e                       => e

theorem FormulaError.quoting_eq {e : FormulaError} (h : ∀ quoted i, e ≠ .unbalanced quoted i)
    (text : String) : e.quoting text = e := by
  cases e with
  | unbalanced quoted i => exact absurd rfl (h quoted i)
  | _ => rfl

namespace Session

variable {s : Session} {f : Fragment} {fragments parts rest : List Fragment}
variable {word op text text' : String} {kind : Kind}

/-! ### Groups of variables -/

/-- A word, and no parenthesised group. -/
def isWord : Fragment → Bool
  | .word _    => true
  | .group _ _ => false

mutual

/-- In the fragment no parenthesised group stands as the group of a variable. -/
def worded : Fragment → Bool
  | .word _        => true
  | .group _ parts => wordedAll parts

/-- Among these arguments no parenthesised group stands as the group of a variable. -/
def wordedAll : List Fragment → Bool
  | []        => true
  | f :: rest =>
    match variableWord? f, rest with
    | some _, .word "-" :: group :: rest => isWord group && wordedAll rest
    | _, rest => worded f && wordedAll rest

end

theorem wordedAll_cons (f : Fragment) (rest : List Fragment) :
    wordedAll (f :: rest) =
      match variableWord? f, rest with
      | some _, .word "-" :: group :: rest => isWord group && wordedAll rest
      | _, rest => worded f && wordedAll rest :=
  wordedAll.eq_def (f :: rest)

theorem wordedAll_fragment (plain : variableWord? f = none) :
    wordedAll (f :: rest) = (worded f && wordedAll rest) := by
  rw [wordedAll_cons, plain]

theorem wordedAll_grouped {group : Fragment} (marked : word.toList.head? = some '?') :
    wordedAll (.word word :: .word "-" :: group :: rest) = (isWord group && wordedAll rest) := by
  rw [wordedAll_cons, variableWord?_of_marked marked]
  rfl

theorem wordedAll_free (other : rest.head? ≠ some (.word "-")) :
    wordedAll (.word word :: rest) = wordedAll rest := by
  rw [wordedAll_cons]
  split
  · exact absurd rfl other
  · exact Bool.true_and _

/-! ### Fragments without their text -/

@[simp] theorem variableWord?_bare (f : Fragment) : variableWord? f.bare = variableWord? f := by
  cases f <;> rfl

@[simp] theorem isWord_bare (f : Fragment) : isWord f.bare = isWord f := by
  cases f <;> rfl

theorem text_bare (h : isWord f) : f.bare.text = f.text := by
  cases f with
  | word text => rfl
  | group inside parts => cases h

theorem head?_bareAll_ne (other : rest.head? ≠ some (.word word)) :
    (Fragment.bareAll rest).head? ≠ some (.word word) := by
  rcases rest with _ | ⟨_ | _, rest⟩
  · exact other
  · exact other
  · exact fun h => by cases h

theorem wordedAll_bareAll (each : ∀ f ∈ fragments, worded f.bare = worded f) :
    wordedAll (Fragment.bareAll fragments) = wordedAll fragments := by
  induction fragments using induct_arguments with
  | nil => rfl
  | fragment plain ih =>
      obtain ⟨first, each⟩ := List.forall_mem_cons.mp each
      rw [Fragment.bareAll, wordedAll_fragment ((variableWord?_bare _).trans plain),
        wordedAll_fragment plain, first, ih each]
  | grouped marked ih =>
      obtain ⟨-, -, -, each⟩ := by simpa only [List.forall_mem_cons] using each
      refine (wordedAll_grouped marked).trans ?_
      rw [wordedAll_grouped marked, isWord_bare, ih each]
  | dangling _ => rfl
  | free _ other ih =>
      refine (wordedAll_free (head?_bareAll_ne other)).trans ?_
      rw [wordedAll_free other, ih (List.forall_mem_cons.mp each).2]

theorem worded_bare (f : Fragment) : worded f.bare = worded f := by
  induction f using Fragment.induct with
  | word text => rfl
  | group inside parts ih => exact wordedAll_bareAll ih

theorem opening_bareAll (parts : List Fragment) :
    opening (Fragment.bareAll parts) = ((opening parts).1, Fragment.bareAll (opening parts).2) := by
  rcases parts with _ | ⟨word | _, rest⟩
  · rfl
  · simp only [Fragment.bareAll, Fragment.bare, opening_word]
    cases Kind.ofOperator? word <;> rfl
  · rfl

/-- An operator is no variable. -/
theorem variableWord?_operator (h : Kind.ofOperator? op = some kind) :
    variableWord? (.word op) = none := by
  have spelled := Kind.ofOperator?_eq_some_iff.mp h
  cases kind <;> cases spelled <;> rfl

theorem wordedAll_opening (h : wordedAll parts) : wordedAll (opening parts).2 := by
  unfold opening
  split
  · split
    · rename_i known
      rw [wordedAll_fragment (variableWord?_operator known)] at h
      exact (Bool.and_eq_true _ _ ▸ h).2
    · exact h
  · exact h

theorem addArguments_bareAll
    (each : ∀ f ∈ fragments, worded f → addFragment f.bare = addFragment f)
    (h : wordedAll fragments) :
    addArguments (Fragment.bareAll fragments) = addArguments fragments := by
  induction fragments using induct_arguments with
  | nil => rfl
  | fragment plain ih =>
      obtain ⟨first, each⟩ := List.forall_mem_cons.mp each
      rw [wordedAll_fragment plain, Bool.and_eq_true] at h
      rw [Fragment.bareAll, addArguments_fragment ((variableWord?_bare _).trans plain),
        addArguments_fragment plain, first h.1, ih each h.2]
  | grouped marked ih =>
      obtain ⟨-, -, -, each⟩ := by simpa only [List.forall_mem_cons] using each
      rw [wordedAll_grouped marked, Bool.and_eq_true] at h
      refine (addArguments_grouped marked).trans ?_
      rw [addArguments_grouped marked, text_bare h.1, ih each h.2]
  | dangling _ => rfl
  | free marked other ih =>
      rw [wordedAll_free other] at h
      refine (addArguments_free marked (head?_bareAll_ne other)).trans ?_
      rw [addArguments_free marked other, ih (List.forall_mem_cons.mp each).2 h]

/-- **A fragment is read** as if its groups had kept nothing of their text, if none of them stands
as the group of a variable. -/
theorem addFragment_bare (f : Fragment) (h : worded f) : addFragment f.bare = addFragment f := by
  induction f using Fragment.induct with
  | word text => rfl
  | group inside parts ih =>
      have sub := opening_subset parts
      rw [Fragment.bare, addFragment_group_eq, addFragment_group_eq, opening_bareAll,
        addArguments_bareAll (fun f mem => ih f (sub mem)) (wordedAll_opening h)]

/-- Fragments that differ only in the text of their groups are read in the same way. -/
theorem addFragment_congr (alike : Fragment.bareAll fragments = Fragment.bareAll parts)
    (h : wordedAll fragments) :
    addFragment (.group text fragments) = addFragment (.group text' parts) := by
  have h' : wordedAll parts := by
    rwa [← wordedAll_bareAll fun f _ => worded_bare f, ← alike,
      wordedAll_bareAll fun f _ => worded_bare f]
  rw [← addFragment_bare (.group text fragments) h, ← addFragment_bare (.group text' parts) h',
    Fragment.bare, Fragment.bare, alike]

/-! ### Texts with the same tokens -/

/-- **A plain text is read** by its tokens alone, if no parenthesised group stands as the group of a
variable; only an error quotes the text. -/
theorem parse_of_tokens (plain : Plain text.toList) (plain' : Plain text'.toList)
    (same : tokens text.toList = tokens text'.toList)
    (h : ∀ fragments, Fragment.ofFormula text = .ok fragments → wordedAll fragments) (s : Session) :
    parse text' s = ((parse text s).1.mapError (·.quoting text'), (parse text s).2) := by
  rcases Fragment.ofFormula_of_tokens plain plain' same with
    ⟨i, found, found'⟩ | ⟨fragments, fragments', found, found', alike⟩
  · rw [parse, parse, found, found']
    rfl
  · have read : parse text = addFragment (.group text fragments) := by rw [parse, found]
    have read' : parse text' = addFragment (.group text' fragments') := by rw [parse, found']
    rw [read, read', ← addFragment_congr alike (h fragments found)]
    rcases run : addFragment (.group text fragments) s with ⟨e | k, s'⟩
    · have other := addFragment_ne_unbalanced _ _ _ _ run
      exact Prod.ext (congrArg Except.error (FormulaError.quoting_eq other text').symm) rfl
    · rfl

/-- **The layout of a formula means nothing.**  Two ASCII texts without vertical tabs that have the
same tokens are read in the same way, if no parenthesised group in them stands as the group of a
variable: both give the same key and the same session, or the same error, which quotes one text or
the other.  So are a text and the text flattened, and flattening once is enough. -/
theorem parse_of_layout (ascii : text.toList.all fun c => c.toNat < 128 && c != '\x0b')
    (ascii' : text'.toList.all fun c => c.toNat < 128 && c != '\x0b')
    (same : tokens text.toList = tokens text'.toList)
    (h : ∀ fragments, Fragment.ofFormula text = .ok fragments → wordedAll fragments) (s : Session) :
    parse text' s = ((parse text s).1.mapError (·.quoting text'), (parse text s).2) ∧
    parse (flatten text) s =
      ((parse text s).1.mapError (·.quoting (flatten text)), (parse text s).2) ∧
    ∀ line, flatten (flatten line) = flatten line := by
  have plain := plain_of_ascii ascii
  exact ⟨parse_of_tokens plain (plain_of_ascii ascii') same h s,
    parse_of_tokens plain (plain_flatten text) (tokens_flatten plain).symm h s, flatten_flatten⟩

namespace Delivery

def line : String := "(and (at ?x - truck depot) (not (in p1 ?x)))"

def lines : String := "( and\n\t(at ?x - truck   depot)\n\t(not(in p1 ?x)) )\r\n"

end Delivery

/-- A goal on one line and on three, and a text without its last parenthesis. -/
theorem parse_of_layout_delivery :
    (∃ k s', parse Delivery.line ∅ = (.ok k, s') ∧ parse Delivery.lines ∅ = (.ok k, s')) ∧
    parse "( not\t( p )" ∅ = (.error (.unbalanced "( not\t( p )" .unclosed), ∅) := by
  have worded {text : String} (h : (Fragment.ofFormula text).toOption.all wordedAll) :
      ∀ fragments, Fragment.ofFormula text = .ok fragments → wordedAll fragments := by
    intro fragments found
    rwa [found] at h
  constructor
  · have same : tokens Delivery.line.toList = tokens Delivery.lines.toList := by decide +kernel
    have ok : (parse Delivery.line ∅).1.isOk := by decide +kernel
    have ascii : Delivery.line.toList.all fun c => c.toNat < 128 && c != '\x0b' :=
      all_ofList (by decide)
    have ascii' : Delivery.lines.toList.all fun c => c.toNat < 128 && c != '\x0b' :=
      all_ofList (by decide)
    obtain ⟨again, -, -⟩ := parse_of_layout ascii ascii' same (worded (by decide +kernel)) ∅
    rcases run : parse Delivery.line ∅ with ⟨e | k, s'⟩
    · rw [run] at ok
      cases ok
    · rw [run] at again
      exact ⟨k, s', rfl, again⟩
  · have same : tokens "(not (p)".toList = tokens "( not\t( p )".toList := by decide +kernel
    obtain ⟨again, -, -⟩ := parse_of_layout (all_ofList (by decide)) (all_ofList (by decide)) same
      (worded (by decide +kernel)) ∅
    exact again

/-- A parenthesised group of a variable has another name where it is written in another way. -/
example : (parse "(p ?x - (a b))" ∅).1.toOption ≠
    (parse "(p ?x - (a  b))" (parse "(p ?x - (a b))" ∅).2).1.toOption := by
  decide +kernel

end Session

end ClassicalPlanner
