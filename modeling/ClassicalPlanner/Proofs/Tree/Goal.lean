import ClassicalPlanner.Proofs.Tree.Environment
import ClassicalPlanner.Proofs.Tree.Occurrence

/-!
# Goals of literals

A goal that is put together from literals by conjunctions and universal quantifiers is a condition
and an effect at once.  Read as an effect, it has atoms that occur positively and atoms that occur
negatively; read as a condition, it asks for the former and forbids the latter (`Meets`).

Neither reading can fail (`exists_changeAll`), and the goal is true in exactly those sets of atoms
that meet it (`decides_truth`), although deciding it stops at the first literal that is false.
-/

namespace ClassicalPlanner.Tree

/-- Put together by conjunctions and universal quantifiers. -/
inductive Conjoins (literal : Tree → Prop) : Tree → Prop where
  | literal {t : Tree} (h : literal t) : Conjoins literal t
  | and {parts : List Tree} (h : ∀ p ∈ parts, Conjoins literal p) :
      Conjoins literal (.compound .and parts)
  | universal {v g : SymbolId} {body : Tree} (h : Conjoins literal body) :
      Conjoins literal (.compound .universal [.var v g, body])

/-- An atom. -/
def IsAtom (t : Tree) : Prop := ∃ args, t = .compound .atom args

/-- An atom or the negation of one. -/
def IsLiteral (t : Tree) : Prop := t.IsAtom ∨ ∃ args, t = .compound .not [.compound .atom args]

variable {members : SymbolId → List SymbolId} {guard : Tree → Except FormulaError Bool}
variable {atoms : Finset Tree} {t u : Tree} {sign : Bool} {old new : SymbolId}
variable {literal : Tree → Prop}

theorem IsAtom.subst (h : t.IsAtom) : (t.subst old new).IsAtom := by
  obtain ⟨args, rfl⟩ := h
  exact ⟨_, subst_compound rfl⟩

theorem IsLiteral.subst (h : t.IsLiteral) : (t.subst old new).IsLiteral := by
  rcases h with atom | ⟨args, rfl⟩
  · exact .inl atom.subst
  · refine .inr ⟨args.map (Tree.subst old new), ?_⟩
    rw [subst_compound rfl, List.map_singleton, subst_compound rfl]

theorem Conjoins.subst (h : t.Conjoins literal)
    (each : ∀ {t : Tree}, literal t → literal (t.subst old new)) :
    (t.subst old new).Conjoins literal := by
  induction h with
  | literal h => exact .literal (each h)
  | and _ ih =>
      rw [subst_compound rfl]
      exact .and (List.forall_mem_map.mpr ih)
  | universal _ ih =>
      rw [subst_quantifier rfl]
      exact .universal ih

/-- All instances of the body are put together from literals. -/
theorem Conjoins.instances {v g : SymbolId} {body : Tree} (h : body.Conjoins IsLiteral) :
    ∀ p ∈ (members g).map (body.subst v), p.Conjoins IsLiteral ∧ p.height = body.height :=
  List.forall_mem_map.mpr fun _ _ => ⟨h.subst IsLiteral.subst, height_subst body⟩

/-- What occurs in an effect are atoms. -/
theorem Occurs.isAtom (h : Occurs members guard sign t u) : u.IsAtom := by
  induction h with
  | atom args => exact ⟨args, rfl⟩
  | and _ _ ih | not _ ih | when _ _ ih | universal _ _ ih => exact ih

/-- In a goal without negations no atom occurs negatively. -/
theorem Conjoins.sign_eq (h : t.Conjoins IsAtom) (occurs : Occurs members guard sign t u) :
    sign = true := by
  induction occurs with
  | atom args => rfl
  | and mem _ ih =>
      cases h with
      | literal atom => obtain ⟨_, ⟨⟩⟩ := atom
      | and parts => exact ih (parts _ mem)
  | not _ _ => obtain ⟨⟨_, ⟨⟩⟩⟩ := h
  | when _ _ _ => obtain ⟨⟨_, ⟨⟩⟩⟩ := h
  | universal mem _ ih =>
      cases h with
      | literal atom => obtain ⟨_, ⟨⟩⟩ := atom
      | universal body => exact ih (body.subst IsAtom.subst)

/-! ### The goal as an effect -/

theorem exists_gather {f : Tree → Except FormulaError Delta} {l : List Tree}
    (each : ∀ t ∈ l, ∃ d, f t = .ok d) : ∃ d, gather f l = .ok d := by
  cases h : gather f l with
  | ok d => exact ⟨d, rfl⟩
  | error e =>
      obtain ⟨t, mem, error⟩ := gather_eq_error h
      obtain ⟨d, ok⟩ := each t mem
      cases error.symm.trans ok

theorem Conjoins.exists_deltaWithin {n : Nat} (h : t.Conjoins IsLiteral) (hn : t.height ≤ n) :
    ∃ d, deltaWithin members guard n t = .ok d := by
  induction n generalizing t with
  | zero => exact absurd hn t.not_height_le_zero
  | succ n ih =>
      cases h with
      | literal h =>
          rcases h with ⟨args, rfl⟩ | ⟨args, rfl⟩
          · exact ⟨_, rfl⟩
          · have low := height_compound_le.mp hn _ List.mem_cons_self
            obtain ⟨d, hd⟩ := ih (.literal (.inl ⟨args, rfl⟩)) low
            exact ⟨d.swap, by rw [deltaWithin, hd]; rfl⟩
      | and parts =>
          have low := height_compound_le.mp hn
          exact exists_gather fun p hp => ih (parts p hp) (low p hp)
      | universal body =>
          have low := height_compound_le.mp hn _ (List.mem_cons_of_mem _ List.mem_cons_self)
          refine exists_gather fun p hp => ?_
          obtain ⟨part, same⟩ := body.instances p hp
          exact ih part (same.le.trans low)

/-- A goal of literals can be read as an effect. -/
theorem Conjoins.exists_changeAll (members : SymbolId → List SymbolId)
    (h : t.Conjoins IsLiteral) : ∃ d, changeAll members t = .ok d :=
  h.exists_deltaWithin (Nat.le_refl _)

/-! ### The goal as a condition -/

/-- The atoms that occur positively hold, and those that occur negatively do not. -/
def Meets (members : SymbolId → List SymbolId) (atoms : Finset Tree) (t : Tree) : Prop :=
  ∀ ⦃sign u⦄, Occurs members (fun _ => .ok true) sign t u → (u ∈ atoms ↔ sign = true)

theorem meets_atom {args : List Tree} :
    Meets members atoms (.compound .atom args) ↔ .compound .atom args ∈ atoms := by
  refine ⟨fun h => (h (.atom args)).mpr rfl, fun mem sign u occurs => ?_⟩
  obtain ⟨rfl, rfl⟩ := occurs_atom.mp occurs
  exact iff_of_true mem rfl

theorem meets_not_atom {args : List Tree} :
    Meets members atoms (.compound .not [.compound .atom args]) ↔
      .compound .atom args ∉ atoms := by
  refine ⟨fun h => ?_, fun mem sign u occurs => ?_⟩
  · simpa using h (.not (.atom args))
  · obtain ⟨even, rfl⟩ := occurs_atom.mp (occurs_not.mp occurs)
    rw [Bool.not_eq_true'] at even
    simp [even, mem]

theorem meets_and {parts : List Tree} :
    Meets members atoms (.compound .and parts) ↔ ∀ p ∈ parts, Meets members atoms p := by
  refine ⟨fun h p hp sign u occurs => h (.and hp occurs), fun h sign u occurs => ?_⟩
  obtain ⟨p, hp, occurs⟩ := occurs_and.mp occurs
  exact h p hp occurs

theorem meets_universal {v g : SymbolId} {body : Tree} :
    Meets members atoms (.compound .universal [.var v g, body]) ↔
      ∀ p ∈ (members g).map (body.subst v), Meets members atoms p := by
  refine ⟨fun h p hp sign u occurs => h (occurs_universal.mpr ⟨p, hp, occurs⟩),
    fun h sign u occurs => ?_⟩
  obtain ⟨p, hp, occurs⟩ := occurs_universal.mp occurs
  exact h p hp occurs

theorem Decides.congr {r : Except FormulaError Bool} {P Q : Prop} (h : Decides r P) (iff : P ↔ Q) :
    Decides r Q := by
  obtain ⟨b, hb, hP⟩ := h
  exact ⟨b, hb, hP.trans iff⟩

/-- **Goals of literals.**  The goal is true where its positive atoms hold and its negative ones do
not. -/
theorem Conjoins.decides_truth (h : t.Conjoins IsLiteral) :
    Decides (truth members atoms t) (Meets members atoms t) := by
  obtain ⟨n, hn⟩ : ∃ n, t.height ≤ n := ⟨_, Nat.le_refl _⟩
  induction n generalizing t with
  | zero => exact absurd hn t.not_height_le_zero
  | succ n ih =>
      have all {l : List Tree}
          (each : ∀ p ∈ l, Decides (truth members atoms p) (Meets members atoms p)) :
          Decides (l.allM (truth members atoms)) (∀ p ∈ l, Meets members atoms p) := by
        have decided := decides_allM (h := id) each
        rwa [List.map_id] at decided
      cases h with
      | literal h =>
          rcases h with ⟨args, rfl⟩ | ⟨args, rfl⟩
          · rw [truth_atom]
            exact decides_ok.congr meets_atom.symm
          · rw [truth_not, truth_atom]
            refine ⟨_, rfl, ?_⟩
            rw [meets_not_atom]
            simp
      | and parts =>
          have low := height_compound_le.mp hn
          rw [truth_and]
          exact (all fun p hp => ih (parts p hp) (low p hp)).congr meets_and.symm
      | universal body =>
          have low := height_compound_le.mp hn _ (List.mem_cons_of_mem _ List.mem_cons_self)
          rw [truth_universal]
          refine (all fun p hp => ?_).congr meets_universal.symm
          obtain ⟨part, same⟩ := body.instances p hp
          exact ih part (same.le.trans low)

end ClassicalPlanner.Tree
