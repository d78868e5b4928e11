import ClassicalPlanner.Proofs.Tree.Effect

/-!
# Occurrences in effects

`Tree.Occurs` says that an atom occurs in an effect below an even or an odd number of negations,
with every quantifier expanded over its group and every guard above it true.  Nothing in it depends
on an order.

Collecting an effect goes through it in order and exchanges two sets at negations.  The two sets are
nevertheless what occurs in the effect with either sign (`mem_delta`).
-/

namespace ClassicalPlanner.Tree

/-- An atom occurs in an effect, below an even number of negations if the sign is `true` and below
an odd number if it is `false`, where the guards above it hold. -/
inductive Occurs (members : SymbolId → List SymbolId) (guard : Tree → Except FormulaError Bool) :
    (sign : Bool) → (effect atom : Tree) → Prop where
  | atom (args : List Tree) :
      Occurs members guard true (.compound .atom args) (.compound .atom args)
  | and {sign : Bool} {parts : List Tree} {part atom : Tree} (mem : part ∈ parts)
      (h : Occurs members guard sign part atom) :
      Occurs members guard sign (.compound .and parts) atom
  | not {sign : Bool} {part atom : Tree} (h : Occurs members guard sign part atom) :
      Occurs members guard (!sign) (.compound .not [part]) atom
  | when {sign : Bool} {condition effect atom : Tree} (true : guard condition = .ok true)
      (h : Occurs members guard sign effect atom) :
      Occurs members guard sign (.compound .when [condition, effect]) atom
  | universal {sign : Bool} {v g c : SymbolId} {body atom : Tree} (mem : c ∈ members g)
      (h : Occurs members guard sign (body.subst v c) atom) :
      Occurs members guard sign (.compound .universal [.var v g, body]) atom

variable {members : SymbolId → List SymbolId} {guard : Tree → Except FormulaError Bool}
variable {sign : Bool} {parts args l : List Tree} {t part condition effect body u : Tree}
variable {v g : SymbolId} {d : Delta} {f : Tree → Except FormulaError Delta}

theorem occurs_atom :
    Occurs members guard sign (.compound .atom args) u ↔
      sign = true ∧ u = .compound .atom args := by
  constructor
  · intro h
    cases h
    exact ⟨rfl, rfl⟩
  · rintro ⟨rfl, rfl⟩
    exact .atom args

theorem occurs_and :
    Occurs members guard sign (.compound .and parts) u ↔
      ∃ part ∈ parts, Occurs members guard sign part u := by
  constructor
  · intro h
    cases h with
    | and mem h => exact ⟨_, mem, h⟩
  · rintro ⟨part, mem, h⟩
    exact .and mem h

theorem occurs_not :
    Occurs members guard sign (.compound .not [part]) u ↔ Occurs members guard (!sign) part u := by
  constructor
  · intro h
    cases h with
    | not h => rwa [Bool.not_not]
  · intro h
    have negated := Occurs.not h
    rwa [Bool.not_not] at negated

theorem occurs_when :
    Occurs members guard sign (.compound .when [condition, effect]) u ↔
      guard condition = .ok true ∧ Occurs members guard sign effect u := by
  constructor
  · intro h
    cases h with
    | when true h => exact ⟨true, h⟩
  · rintro ⟨true, h⟩
    exact .when true h

theorem occurs_universal :
    Occurs members guard sign (.compound .universal [.var v g, body]) u ↔
      ∃ part ∈ (members g).map (body.subst v), Occurs members guard sign part u := by
  constructor
  · intro h
    cases h with
    | universal mem h => exact ⟨_, List.mem_map_of_mem mem, h⟩
  · rintro ⟨_, mem, h⟩
    obtain ⟨c, hc, rfl⟩ := List.mem_map.mp mem
    exact .universal hc h

/-! ### What is collected -/

/-- The atoms that are added, or those that are removed. -/
def Delta.side (d : Delta) : (sign : Bool) → Finset Tree
  | true => d.add
  | false => d.remove

theorem Delta.side_swap (d : Delta) (sign : Bool) : d.swap.side sign = d.side (!sign) := by
  cases sign <;> rfl

theorem Delta.mem_side_union {d e : Delta} :
    u ∈ (d ∪ e).side sign ↔ u ∈ d.side sign ∨ u ∈ e.side sign := by
  cases sign <;> exact Finset.mem_union

theorem Delta.not_mem_side_empty : u ∉ (∅ : Delta).side sign := by
  cases sign <;> exact Finset.notMem_empty u

theorem mem_gather {Q : Tree → Prop}
    (hf : ∀ {t d}, t ∈ l → f t = .ok d → (u ∈ d.side sign ↔ Q t)) (h : gather f l = .ok d) :
    u ∈ d.side sign ↔ ∃ t ∈ l, Q t := by
  induction l generalizing d with
  | nil =>
      cases h
      simp [Delta.not_mem_side_empty]
  | cons t l ih =>
      obtain ⟨d₁, d₂, h₁, h₂, rfl⟩ := gather_cons_eq_ok h
      rw [Delta.mem_side_union, hf List.mem_cons_self h₁,
        ih (fun mem => hf (List.mem_cons_of_mem _ mem)) h₂, List.exists_mem_cons_iff]

theorem mem_deltaWithin {n : Nat} (h : deltaWithin members guard n t = .ok d) :
    u ∈ d.side sign ↔ Occurs members guard sign t u := by
  induction n generalizing t d sign with
  | zero => cases h
  | succ n ih =>
      unfold deltaWithin at h
      split at h
      · cases h
        rw [occurs_atom]
        cases sign <;> simp [Delta.side]
      · exact (mem_gather (fun _ h => ih h) h).trans occurs_and.symm
      · rename_i part
        cases hpart : deltaWithin members guard n part with
        | error e => rw [hpart] at h; cases h
        | ok e =>
            rw [hpart] at h
            cases h
            rw [Delta.side_swap, occurs_not]
            exact ih hpart
      · rename_i condition effect
        rw [occurs_when]
        cases hc : guard condition with
        | error e => rw [hc] at h; cases h
        | ok b =>
            rw [hc] at h
            cases b with
            | true => exact (ih h).trans (and_iff_right rfl).symm
            | false =>
                cases h
                exact iff_of_false Delta.not_mem_side_empty fun h => by cases h.1
      · exact (mem_gather (fun _ h => ih h) h).trans occurs_universal.symm
      · cases h

/-- **What an effect changes** is what occurs in it. -/
theorem mem_delta (h : delta members guard t = .ok d) :
    u ∈ d.side sign ↔ Occurs members guard sign t u :=
  mem_deltaWithin h

end ClassicalPlanner.Tree
