import ClassicalPlanner.Plan.Report
import ClassicalPlanner.Proofs.Task.Name

/-!
# Digests of plans

A plan is told from its bytes: each name in it is ended by a line feed, and no name of a ground
action has one, since the words of a definition end there.  So different plans give different bytes,
however long they are (`planBytes_injective`), and if their digests are the same, then SHA-256
itself takes two messages to one digest (`digests_of_plans`).
-/

namespace ClassicalPlanner

open Session Pddl Piece

/-! ### Bytes of a text -/

/-- In the encoding of a character, only a line feed gives the byte of a line feed. -/
theorem eq_newline_of_mem_encode {c : Char} (h : 10 ∈ String.utf8EncodeChar c) : c = '\n' := by
  have value {n : Nat} (low : n < 256) (same : 10 = UInt8.ofNat n) : n = 10 := by
    have both := congrArg UInt8.toNat same
    rw [UInt8.toNat_ofNat_of_lt' low] at both
    exact both.symm
  -- the bytes of a character beyond ASCII have a mark of at least 128
  have marked {n mark : Nat} (high : 128 ≤ mark) (low : n + mark < 256) :
      10 ≠ UInt8.ofNat (n + mark) := by
    intro same
    have := value low same
    omega
  unfold String.utf8EncodeChar at h
  simp only at h
  split at h
  · rename_i ascii
    exact Char.ext (UInt32.toNat_inj.mp (value (by omega) (List.mem_singleton.mp h)))
  · split at h
    · simp only [List.mem_cons, List.not_mem_nil, or_false] at h
      rcases h with h | h <;> exact absurd h (marked (by decide) (by omega))
    · split at h
      · simp only [List.mem_cons, List.not_mem_nil, or_false] at h
        rcases h with h | h | h <;> exact absurd h (marked (by decide) (by omega))
      · simp only [List.mem_cons, List.not_mem_nil, or_false] at h
        rcases h with h | h | h | h <;> exact absurd h (marked (by decide) (by omega))

/-- The bytes of a text. -/
theorem toList_toUTF8 (text : String) :
    text.toUTF8.data.toList = text.toList.flatMap String.utf8EncodeChar := by
  rw [String.toUTF8_eq_toByteArray, ← String.utf8Encode_toList, List.utf8Encode,
    List.toList_data_toByteArray]

theorem toUTF8_injective {a b : String} (h : a.toUTF8.data.toList = b.toUTF8.data.toList) :
    a = b :=
  String.toByteArray_inj.mp (ByteArray.ext (Array.toList_inj.mp h))

/-- The text has no line feed. -/
def OneLine (text : String) : Prop := '\n' ∉ text.toList

theorem OneLine.bytes {text : String} (h : OneLine text) : 10 ∉ text.toUTF8.data.toList := by
  rw [toList_toUTF8, List.mem_flatMap]
  rintro ⟨c, mem, byte⟩
  exact h (eq_newline_of_mem_encode byte ▸ mem)

/-! ### Bytes of a plan -/

/-- What is in front of the first `a` in a list, and what is after it. -/
theorem append_cons_inj {α : Type} {a : α} {l l' rest rest' : List α} (h : a ∉ l) (h' : a ∉ l')
    (same : l ++ a :: rest = l' ++ a :: rest') : l = l' ∧ rest = rest' := by
  induction l generalizing l' with
  | nil =>
      cases l' with
      | nil => exact ⟨rfl, (List.cons.inj same).2⟩
      | cons b l' => exact absurd ((List.cons.inj same).1 ▸ List.mem_cons_self) h'
  | cons b l ih =>
      cases l' with
      | nil => exact absurd ((List.cons.inj same).1 ▸ List.mem_cons_self) h
      | cons b' l' =>
          obtain ⟨rfl, tails⟩ := List.cons.inj same
          obtain ⟨rfl, rest⟩ := ih (List.not_mem_of_not_mem_cons h)
            (List.not_mem_of_not_mem_cons h') tails
          exact ⟨rfl, rest⟩

/-- **The bytes of a plan** tell the plan, if no name in it has a line feed. -/
theorem planBytes_injective {plan plan' : List String} (h : ∀ name ∈ plan, OneLine name)
    (h' : ∀ name ∈ plan', OneLine name) (same : planBytes plan = planBytes plan') :
    plan = plan' := by
  have cons (name : String) (plan : List String) : planBytes (name :: plan) =
      name.toUTF8.data.toList ++ 10 :: planBytes plan := by
    rw [planBytes, List.flatMap_cons, List.append_assoc]
    rfl
  induction plan generalizing plan' with
  | nil =>
      cases plan' with
      | nil => rfl
      | cons name' plan' =>
          rw [cons] at same
          exact absurd same.symm (List.append_ne_nil_of_right_ne_nil _ (List.cons_ne_nil _ _))
  | cons name plan ih =>
      cases plan' with
      | nil =>
          rw [cons] at same
          exact absurd same (List.append_ne_nil_of_right_ne_nil _ (List.cons_ne_nil _ _))
      | cons name' plan' =>
          obtain ⟨line, h⟩ := List.forall_mem_cons.mp h
          obtain ⟨line', h'⟩ := List.forall_mem_cons.mp h'
          rw [cons, cons] at same
          -- the first line feed ends the first name in both
          obtain ⟨first, rest⟩ := append_cons_inj line.bytes line'.bytes same
          rw [toUTF8_injective first, ih h h' rest]

/-! ### Digests in hexadecimal -/

namespace Sha256

/-- The value of a hexadecimal digit. -/
def digitValue (c : Char) : Nat :=
  if c.isDigit then c.toNat - '0'.toNat else c.toNat - 'a'.toNat + 10

/-- The value of some hexadecimal digits. -/
def digitsValue (cs : List Char) : Nat := cs.foldl (fun n c => 16 * n + digitValue c) 0

theorem digitValue_digitChar {n : Nat} (h : n < 16) : digitValue n.digitChar = n := by
  have all : ∀ n : Fin 16, digitValue n.val.digitChar = n.val := by decide
  exact all ⟨n, h⟩

theorem digitsValue_concat (cs : List Char) (c : Char) :
    digitsValue (cs ++ [c]) = 16 * digitsValue cs + digitValue c := by
  rw [digitsValue, List.foldl_append]
  rfl

theorem digitsValue_toDigits (n : Nat) : digitsValue (Nat.toDigits 16 n) = n := by
  induction n using Nat.strongRecOn with
  | _ n ih =>
      rw [Nat.toDigits_eq_if (by decide)]
      split
      · rename_i low
        exact (Nat.zero_add _).trans (digitValue_digitChar low)
      · rw [digitsValue_concat, ih (n / 16) (by omega), digitValue_digitChar (by omega)]
        omega

theorem digitsValue_zeros (k : Nat) (cs : List Char) :
    digitsValue (List.replicate k '0' ++ cs) = digitsValue cs := by
  induction k with
  | zero => rfl
  | succ k ih => exact ih

/-- A word has the value of its digits. -/
theorem digitsValue_wordText (x : UInt32) : digitsValue (wordText x).toList = x.toNat := by
  rw [wordText, String.toList_ofList, digitsValue_zeros, digitsValue_toDigits]

theorem length_wordText (x : UInt32) : (wordText x).toList.length = 8 := by
  have bound : (Nat.toDigits 16 x.toNat).length ≤ 8 :=
    (Nat.length_toDigits_le_iff (by decide) (by decide)).mpr x.toNat_lt
  rw [wordText, String.toList_ofList, List.length_append, List.length_replicate]
  omega

/-- The texts of words, one after the other, tell the words. -/
theorem wordTexts_injective {l l' : List UInt32} (length : l.length = l'.length)
    (same : (l.flatMap fun x => (wordText x).toList) = l'.flatMap fun x => (wordText x).toList) :
    l = l' := by
  induction l generalizing l' with
  | nil => exact (List.length_eq_zero_iff.mp length.symm).symm
  | cons x l ih =>
      obtain ⟨x', l', rfl⟩ := List.exists_cons_of_length_eq_add_one length.symm
      rw [List.flatMap_cons, List.flatMap_cons] at same
      obtain ⟨first, rest⟩ := List.append_inj same (by rw [length_wordText, length_wordText])
      have value := congrArg digitsValue first
      rw [digitsValue_wordText, digitsValue_wordText] at value
      rw [UInt32.toNat_inj.mp value, ih (Nat.succ.inj length) rest]

theorem length_words (message : List UInt8) : (words message).length = 8 := rfl

/-- **A digest in hexadecimal** tells the words of the digest. -/
theorem words_of_hex {message message' : List UInt8} (h : hex message = hex message') :
    words message = words message' := by
  have text (message : List UInt8) :
      (hex message).toList = (words message).flatMap fun x => (wordText x).toList := by
    rw [hex, Pddl.intercalate_empty, String.toList_join, List.flatMap_map]
  refine wordTexts_injective ((length_words _).trans (length_words _).symm) ?_
  rw [← text, ← text, h]

end Sha256

/-! ### Plans of ground actions -/

/-- The name of an action that a problem is grounded to, where the problem and its domain have been
read from texts. -/
inductive GroundName : String → Prop where
  | intro {domainText problemText : String} {d : Domain} {p : Problem} {s s' : Session}
      {ws ws' us us' : List Warning} {t : ActionTable} {a : GroundAction}
      (domain : Pddl.readDomain domainText ws = (.ok d, ws'))
      (problem : Pddl.readProblem d problemText us = (.ok p, us'))
      (ground : ground d p s = (.ok t, s')) (mem : a ∈ t.toList) : GroundName a.name

theorem oneLine_of_solid {text : String} (h : Text.Solid text) : OneLine text := by
  intro mem
  cases h '\n' mem

/-- The name of a ground action is on one line. -/
theorem GroundName.oneLine {name : String} (h : GroundName name) : OneLine name := by
  obtain ⟨domain, problem, ground, mem⟩ := h
  have solid := Pddl.solid_readDomain domain
  have objects := Pddl.solid_readProblem solid.constants problem
  have listed := List.mem_map_of_mem (f := (·.name)) mem
  rw [(ground_eq_ok ground).1] at listed
  obtain ⟨schema, known, listed⟩ := List.mem_flatMap.mp listed
  obtain ⟨b, bound, same⟩ := List.mem_map.mp listed
  rw [← same, OneLine, Schema.toList_groundName]
  intro newline
  rcases Text.mem_intercalate newline with space | inside
  · cases space
  · obtain ⟨part, part_mem, newline⟩ := List.mem_flatten.mp inside
    rcases List.mem_cons.mp part_mem with rfl | object
    · exact oneLine_of_solid (solid.actions schema known) newline
    · rw [List.map_map] at object
      obtain ⟨pair, pair_mem, rfl⟩ := List.mem_map.mp object
      exact oneLine_of_solid (Schema.solid_of_mem_bindings objects bound pair pair_mem) newline

/-- **Different plans give different bytes.**  Take two plans whose names are those of ground
actions, of one task or of several.  No name has a line feed, and if the plans differ, so do the
bytes from which their digests are made.  Should the digests nevertheless be the same, then these
are two messages with the same words of SHA-256. -/
theorem digests_of_plans {plan plan' : List String} (h : ∀ name ∈ plan, GroundName name)
    (h' : ∀ name ∈ plan', GroundName name) (different : plan ≠ plan') :
    (∀ name ∈ plan ++ plan', '\n' ∉ name.toList) ∧ planBytes plan ≠ planBytes plan' ∧
    (planDigest plan = planDigest plan' →
      Sha256.words (planBytes plan) = Sha256.words (planBytes plan')) := by
  have lines : ∀ name ∈ plan, OneLine name := fun name mem => (h name mem).oneLine
  have lines' : ∀ name ∈ plan', OneLine name := fun name mem => (h' name mem).oneLine
  refine ⟨List.forall_mem_append.mpr ⟨lines, lines'⟩, fun same => ?_, Sha256.words_of_hex⟩
  exact different (planBytes_injective lines lines' same)

namespace Errands

def domainText : String :=
  "(define (domain d) (:action go :parameters (?to) :effect (at ?to))" ++
  " (:action rest :effect (idle)))"

def problemText : String := "(define (problem p) (:domain d) (:objects café) (:goal (idle)))"

def domain : Domain where
  name := "d"
  actions := [{ name := "go", parameters := [{ name := "?to" }], effect := "(at ?to)" },
    { name := "rest", effect := "(idle)" }]

def problem : Problem where
  name := "p"
  domain := "d"
  objects := NameSets.extend ∅ "" ["café"]
  goal := "(idle)"

end Errands

open Errands in
/-- A plan and the beginning of it. -/
theorem digests_of_plans_errands : GroundName "go café" ∧ GroundName "rest" ∧
    planBytes ["go café", "rest"] ≠ planBytes ["go café"] ∧
    (planDigest ["go café", "rest"] = planDigest ["go café"] →
      Sha256.words (planBytes ["go café", "rest"]) = Sha256.words (planBytes ["go café"])) := by
  have hd : readDomain domainText [] = (.ok domain, []) := by
    rw [show domainText = .ofList _ from String.ofList_append.symm]
    exact readDomain_eq_ok_iff.mpr ⟨_, sections_ofList rfl rfl <|
      .cons (split_ofList _) (.cons (split_ofList _) (.cons (split_ofList _) .nil)),
      Prod.ext (by decide) (by rfl)⟩
  have hp : readProblem domain problemText [] = (.ok problem, []) :=
    readProblem_eq_ok_iff.mpr ⟨_, _, _, _, sections_ofList rfl rfl <| .cons (split_ofList _) <|
      .cons (split_ofList _) (.cons (split_ofList _) (.cons (split_ofList _) .nil)),
      by rfl, by rfl, by rfl, by rfl⟩
  have runs : (ground domain problem ∅).1.isOk = true := by decide +kernel
  obtain ⟨t, result⟩ := exists_of_isOk runs
  have run := run_eq_of_result result
  have names : t.toList.map (·.name) = ["go café", "rest"] :=
    (ground_eq_ok run).1.trans (by decide +kernel)
  have ground {name : String} (mem : name ∈ ["go café", "rest"]) : GroundName name := by
    obtain ⟨a, listed, rfl⟩ := List.mem_map.mp (names ▸ mem)
    exact .intro hd hp run listed
  have go : GroundName "go café" := ground (by decide)
  have rest : GroundName "rest" := ground (by decide)
  have whole : ∀ name ∈ ["go café", "rest"], GroundName name :=
    List.forall_mem_cons.mpr ⟨go, List.forall_mem_singleton.mpr rest⟩
  have beginning : ∀ name ∈ ["go café"], GroundName name := List.forall_mem_singleton.mpr go
  obtain ⟨-, apart⟩ := digests_of_plans whole beginning (by decide)
  exact ⟨go, rest, apart⟩

end ClassicalPlanner
