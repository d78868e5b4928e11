import ClassicalPlanner.Proofs.Tree.Truth
import Mathlib.Logic.Function.Basic

/-!
# Truth under an environment

`Satisfies` is truth of formulas as logic defines it.  A quantifier lets its variable range over the
members of its binder's group, an environment keeps the values of the variables that quantifiers
around a formula bind, and an atom is looked up with these values put in (`ground`).  Only variables
without a group have values.

`Tree.truth` has no environment: it rewrites the body of a quantifier for each member.  The two
agree on conditions in which names do not clash (`truth_iff_satisfies`).  The reason is that
rewriting a body in which values have been put in puts in one value more (`subst_ground`).
-/

namespace ClassicalPlanner.Tree

variable {members : SymbolId → List SymbolId} {t : Tree} {v c g : SymbolId} {kind : Kind}
variable {args parts : List Tree} {atoms : Finset Tree}

/-! ### Names -/

/-- The name that a compound binds, if it is a quantifier. -/
def binder? (kind : Kind) : List Tree → Option SymbolId
  | .var v _ :: _ => if kind.isQuantifier then some v else none
  | _ => none

/-- The names that quantifiers bind, wherever in the tree they stand. -/
def boundNames : Tree → List SymbolId
  | .compound kind args => (binder? kind args).toList ++ args.flatMap boundNames
  | _ => []

/-- The symbols of the constants in the tree. -/
def constants : Tree → List SymbolId
  | .constant c => [c]
  | .compound _ args => args.flatMap constants
  | _ => []

/-- No quantifier binds a name that a quantifier around it binds already. -/
def BindsAfresh : Tree → Prop
  | .compound kind args =>
      (∀ v ∈ binder? kind args, ∀ a ∈ args, v ∉ a.boundNames) ∧ ∀ a ∈ args, a.BindsAfresh
  | _ => True

@[simp] theorem binder?_of_not_quantifier (h : kind.isQuantifier = false) :
    binder? kind args = none := by
  cases args with
  | nil => rfl
  | cons a args =>
      cases a with
      | var v g => exact if_neg (ne_true_of_eq_false h)
      | constant | world | compound => rfl

@[simp] theorem binder?_var (h : kind.isQuantifier = true) :
    binder? kind (.var v g :: parts) = some v :=
  if_pos h

theorem exists_var_of_binder? (h : v ∈ binder? kind args) : ∃ g, .var v g ∈ args := by
  unfold binder? at h
  split at h
  · rename_i u g _
    split at h <;> cases h
    exact ⟨g, List.mem_cons_self⟩
  · cases h

@[simp] theorem mem_boundNames_compound : v ∈ (compound kind args).boundNames ↔
    v ∈ binder? kind args ∨ ∃ a ∈ args, v ∈ a.boundNames := by
  simp [boundNames]

@[simp] theorem mem_constants_compound :
    c ∈ (compound kind args).constants ↔ ∃ a ∈ args, c ∈ a.constants := by
  simp [constants]

/-! ### Environments -/

/-- The values of variables. -/
abbrev Environment := SymbolId → Option SymbolId

/-- The environment of the arguments: a quantifier takes the value from the name that it binds. -/
def Environment.inside (env : Environment) (kind : Kind) (args : List Tree) : Environment :=
  match binder? kind args with
  | some v => Function.update env v none
  | none => env

/-- The tree with its values for the variables that have no group.  A binder is left as it is. -/
def ground : Environment → Tree → Tree
  | _, .constant c => .constant c
  | env, .var v g =>
      if g = .none then
        match env v with
        | some c => .constant c
        | none => .var v g
      else .var v g
  | _, .world k => .world k
  | env, .compound kind args =>
      let grounded := args.map (ground (env.inside kind args))
      .compound kind (if kind.isQuantifier then args.take 1 ++ grounded.drop 1 else grounded)

variable {env : Environment}

theorem ground_compound (h : kind.isQuantifier = false) :
    (compound kind args).ground env = .compound kind (args.map (ground env)) := by
  simp [ground, Environment.inside, h]

theorem ground_quantifier (h : kind.isQuantifier = true) :
    (compound kind (.var v g :: parts)).ground env =
      .compound kind (.var v g :: parts.map (ground (Function.update env v none))) := by
  simp [ground, Environment.inside, h]

/-- Where no variable has a value, nothing is put in. -/
theorem ground_none (t : Tree) : t.ground (fun _ => none) = t := by
  induction t with
  | constant c => rw [ground]
  | var v g => simp [ground]
  | world k => rw [ground]
  | compound kind args ih =>
      have inside : Environment.inside (fun _ => none) kind args = fun _ => none := by
        unfold Environment.inside
        split
        · exact Function.update_eq_self _ _
        · rfl
      have same : args.map (ground fun _ => none) = args := by
        rw [List.map_congr_left ih, List.map_id']
      rw [ground, inside, same]
      split
      · rw [List.take_append_drop]
      · rfl

theorem eq_some_of_inside {u d : SymbolId} (h : env.inside kind args u = some d) :
    env u = some d := by
  unfold Environment.inside at h
  cases binds : binder? kind args with
  | none => rwa [binds] at h
  | some v =>
      rw [binds] at h
      by_cases same : u = v
      · simp [same] at h
      · simpa [same] using h

theorem inside_update {x : Option SymbolId} (other : v ∉ binder? kind args) :
    Environment.inside (Function.update env v x) kind args =
      Function.update (env.inside kind args) v x := by
  unfold Environment.inside
  cases binds : binder? kind args with
  | none => rfl
  | some u =>
      refine Function.update_comm ?_ _ _ _
      rintro rfl
      exact other binds

/-- **One value more.**  Where no name clashes with `v`, putting a value in for `v` after the
environment is putting it in with the environment. -/
theorem subst_ground (fresh : env v = none) (values : ∀ u, env u ≠ some v)
    (plain : v ∉ t.constants) (free : v ∉ t.boundNames) :
    (t.ground env).subst v c = t.ground (Function.update env v (some c)) := by
  induction t generalizing env with
  | constant d =>
      have other : d ≠ v := by simpa [constants, eq_comm] using plain
      simp [ground, subst, other]
  | var u g =>
      by_cases hg : g = .none
      · subst hg
        by_cases same : u = v
        · subst same
          simp [ground, subst, fresh]
        · cases value : env u with
          | none => simp [ground, subst, value, same]
          -- a value that is in already is a constant, which must not be taken for `v`
          | some d =>
              have other : d ≠ v := fun h => values u (h ▸ value)
              simp [ground, subst, value, same, other]
      · simp [ground, subst, hg]
  | world k => simp [ground, subst]
  | compound kind args ih =>
      simp only [mem_constants_compound, mem_boundNames_compound, not_or, not_exists,
        not_and] at plain free
      have each {env : Environment} (fresh : env v = none) (values : ∀ u, env u ≠ some v) (a : Tree)
          (ha : a ∈ args) : (a.ground env).subst v c = a.ground (Function.update env v (some c)) :=
        ih a ha fresh values (plain a ha) (free.2 a ha)
      by_cases hq : kind.isQuantifier = true
      -- the quantifier binds another name, so the value is put in behind it just the same
      · have inside : Environment.inside (Function.update env v (some c)) kind args =
            Function.update (env.inside kind args) v (some c) := inside_update free.1
        have fresh' : env.inside kind args v = none := by
          cases value : env.inside kind args v with
          | none => rfl
          | some d => cases fresh.symm.trans (eq_some_of_inside value)
        have below := each fresh' fun u h => values u (eq_some_of_inside h)
        cases args with
        | nil => simp [ground, subst]
        | cons b args =>
            simpa [ground, subst, hq, inside] using
              fun a ha => below a (List.mem_cons_of_mem b ha)
      · rw [Bool.not_eq_true] at hq
        rw [ground_compound hq, ground_compound hq, subst_compound hq, List.map_map]
        exact congrArg _ (List.map_congr_left (each fresh values))

/-! ### Truth -/

/-- A condition: at every place that is looked at to decide it stands an atom, a connective, an
equality or a quantifier. -/
inductive IsCondition : Tree → Prop where
  | atom (args : List Tree) : IsCondition (.compound .atom args)
  | and {parts : List Tree} (h : ∀ p ∈ parts, IsCondition p) : IsCondition (.compound .and parts)
  | or {parts : List Tree} (h : ∀ p ∈ parts, IsCondition p) : IsCondition (.compound .or parts)
  | not {part : Tree} (h : IsCondition part) : IsCondition (.compound .not [part])
  | equals (left right : Tree) : IsCondition (.compound .equals [left, right])
  | imply {antecedent consequent : Tree} (h : IsCondition antecedent)
      (h' : IsCondition consequent) : IsCondition (.compound .imply [antecedent, consequent])
  | existential {v g : SymbolId} {body : Tree} (h : IsCondition body) :
      IsCondition (.compound .existential [.var v g, body])
  | universal {v g : SymbolId} {body : Tree} (h : IsCondition body) :
      IsCondition (.compound .universal [.var v g, body])

/-- Truth of a condition under an environment, given the members of groups and the atoms that
hold. -/
def Satisfies (members : SymbolId → List SymbolId) (holds : Tree → Prop) :
    Environment → Tree → Prop
  | env, .compound .atom args => holds ((Tree.compound .atom args).ground env)
  | env, .compound .and parts => ∀ p ∈ parts, Satisfies members holds env p
  | env, .compound .or parts => ∃ p, ∃ _ : p ∈ parts, Satisfies members holds env p
  | env, .compound .not [part] => ¬Satisfies members holds env part
  | env, .compound .equals [left, right] => left.ground env = right.ground env
  | env, .compound .imply [antecedent, consequent] =>
      Satisfies members holds env antecedent → Satisfies members holds env consequent
  | env, .compound .existential [.var v g, body] =>
      ∃ c ∈ members g, Satisfies members holds (Function.update env v (some c)) body
  | env, .compound .universal [.var v g, body] =>
      ∀ c ∈ members g, Satisfies members holds (Function.update env v (some c)) body
  | _, _ => False
termination_by _ t => t.height
decreasing_by all_goals exact height_lt_of_mem (by simp_all)

/-- The answer is that of a proposition. -/
def Decides (r : Except FormulaError Bool) (P : Prop) : Prop := ∃ b, r = .ok b ∧ (b = true ↔ P)

section Decides

variable {α : Type} {f : Tree → Except FormulaError Bool} {h : α → Tree} {P : α → Prop}

theorem decides_ok {p : Prop} [Decidable p] : Decides (.ok (decide p)) p :=
  ⟨_, rfl, decide_eq_true_iff⟩

theorem decides_allM {l : List α} (each : ∀ a ∈ l, Decides (f (h a)) (P a)) :
    Decides ((l.map h).allM f) (∀ a ∈ l, P a) := by
  induction l with
  | nil => exact ⟨true, rfl, by simp⟩
  | cons a l ih =>
      obtain ⟨⟨b, hb, hP⟩, rest⟩ := List.forall_mem_cons.mp each
      obtain ⟨b', hb', hP'⟩ := ih rest
      rw [List.map_cons, List.allM, hb]
      cases b with
      | true => exact ⟨b', hb', by simp [← hP, hP']⟩
      | false => exact ⟨false, rfl, by simp [← hP]⟩

theorem decides_anyM {l : List α} (each : ∀ a ∈ l, Decides (f (h a)) (P a)) :
    Decides ((l.map h).anyM f) (∃ a ∈ l, P a) := by
  induction l with
  | nil => exact ⟨false, rfl, by simp⟩
  | cons a l ih =>
      obtain ⟨⟨b, hb, hP⟩, rest⟩ := List.forall_mem_cons.mp each
      obtain ⟨b', hb', hP'⟩ := ih rest
      rw [List.map_cons, List.anyM, hb]
      cases b with
      | true => exact ⟨true, rfl, by simp [← hP]⟩
      | false => exact ⟨b', hb', by simp [← hP, hP']⟩

end Decides

/-- A compound is decided one step above its arguments, and above all that are as high as these. -/
theorem truth_compound (members : SymbolId → List SymbolId) (atoms : Finset Tree) (kind : Kind)
    (args : List Tree) : ∃ n, truth members atoms (.compound kind args) =
      laxWithin members (n + 1) atoms atoms (.compound kind args) ∧
      ∀ p ∈ args, ∀ q : Tree, q.height = p.height →
        laxWithin members n atoms atoms q = truth members atoms q := by
  obtain ⟨n, hn⟩ := Nat.exists_eq_add_one.mpr (height_pos (compound kind args))
  refine ⟨n, ?_, fun p hp q hq => laxWithin_eq_lax ?_⟩
  · rw [truth, lax, hn]
  · rw [hq]
    exact height_compound_le.mp (Nat.le_of_eq hn) p hp

theorem truth_atom :
    truth members atoms (.compound .atom args) = .ok (.compound .atom args ∈ atoms) := by
  obtain ⟨n, eq, -⟩ := truth_compound members atoms .atom args
  exact eq

theorem truth_and :
    truth members atoms (.compound .and parts) = parts.allM (truth members atoms) := by
  obtain ⟨n, eq, low⟩ := truth_compound members atoms .and parts
  exact eq.trans (allM_congr fun p hp => low p hp p rfl)

theorem truth_or :
    truth members atoms (.compound .or parts) = parts.anyM (truth members atoms) := by
  obtain ⟨n, eq, low⟩ := truth_compound members atoms .or parts
  exact eq.trans (anyM_congr fun p hp => low p hp p rfl)

theorem truth_not {part : Tree} : truth members atoms (.compound .not [part]) = do
    return !(← truth members atoms part) := by
  obtain ⟨n, eq, low⟩ := truth_compound members atoms .not [part]
  rw [eq, ← low part (by simp) part rfl]
  rfl

theorem truth_equals {left right : Tree} :
    truth members atoms (.compound .equals [left, right]) = .ok (left = right) := by
  obtain ⟨n, eq, -⟩ := truth_compound members atoms .equals [left, right]
  exact eq

theorem truth_imply {antecedent consequent : Tree} :
    truth members atoms (.compound .imply [antecedent, consequent]) = do
      if ← truth members atoms antecedent then truth members atoms consequent else return true := by
  obtain ⟨n, eq, low⟩ := truth_compound members atoms .imply [antecedent, consequent]
  rw [eq, ← low antecedent (by simp) antecedent rfl, ← low consequent (by simp) consequent rfl]
  rfl

theorem truth_existential {body : Tree} :
    truth members atoms (.compound .existential [.var v g, body]) =
      ((members g).map (body.subst v)).anyM (truth members atoms) := by
  obtain ⟨n, eq, low⟩ := truth_compound members atoms .existential [.var v g, body]
  refine eq.trans (anyM_congr fun q hq => ?_)
  obtain ⟨c, -, rfl⟩ := List.mem_map.mp hq
  exact low body (by simp) _ (height_subst body)

theorem truth_universal {body : Tree} :
    truth members atoms (.compound .universal [.var v g, body]) =
      ((members g).map (body.subst v)).allM (truth members atoms) := by
  obtain ⟨n, eq, low⟩ := truth_compound members atoms .universal [.var v g, body]
  refine eq.trans (allM_congr fun q hq => ?_)
  obtain ⟨c, -, rfl⟩ := List.mem_map.mp hq
  exact low body (by simp) _ (height_subst body)

/-! ### No clash of names -/

/-- No name that is bound in the tree is bound again, or is that of a constant, of a member, or of a
variable with a value or its value. -/
structure Clear (members : SymbolId → List SymbolId) (env : Environment) (t : Tree) : Prop where
  afresh : t.BindsAfresh
  constants : ∀ c ∈ t.constants, c ∉ t.boundNames
  members : ∀ g, ∀ c ∈ members g, c ∉ t.boundNames
  names : ∀ v c, env v = some c → v ∉ t.boundNames
  values : ∀ v c, env v = some c → c ∉ t.boundNames

theorem boundNames_subset {a : Tree} (ha : a ∈ args) (hv : v ∈ a.boundNames) :
    v ∈ (compound kind args).boundNames :=
  mem_boundNames_compound.mpr (.inr ⟨a, ha, hv⟩)

theorem BindsAfresh.part {a : Tree} (h : (compound kind args).BindsAfresh) (ha : a ∈ args) :
    a.BindsAfresh := by
  rw [BindsAfresh] at h
  exact h.2 a ha

theorem BindsAfresh.body {a : Tree} (h : (compound kind (.var v g :: parts)).BindsAfresh)
    (hq : kind.isQuantifier = true) (ha : a ∈ parts) : v ∉ a.boundNames := by
  rw [BindsAfresh] at h
  exact h.1 v (binder?_var hq) a (List.mem_cons_of_mem _ ha)

theorem Clear.part {a : Tree} (h : Clear members env (.compound kind args)) (ha : a ∈ args) :
    Clear members env a where
  afresh := h.afresh.part ha
  constants c hc free := h.constants c (mem_constants_compound.mpr ⟨a, ha, hc⟩)
    (boundNames_subset ha free)
  members g c hc free := h.members g c hc (boundNames_subset ha free)
  names v c value free := h.names v c value (boundNames_subset ha free)
  values v c value free := h.values v c value (boundNames_subset ha free)

/-- In the body of a quantifier, the name that it binds may have a member for its value. -/
theorem Clear.body {a : Tree} (h : Clear members env (.compound kind (.var v g :: parts)))
    (hq : kind.isQuantifier = true) (ha : a ∈ parts) {g' : SymbolId} (hc : c ∈ members g') :
    Clear members (Function.update env v (some c)) a := by
  have inside : Clear members env a := h.part (List.mem_cons_of_mem _ ha)
  have fresh : v ∉ a.boundNames := h.afresh.body hq ha
  refine ⟨inside.afresh, inside.constants, inside.members, fun u d value => ?_, fun u d value => ?_⟩
  -- the new value is a member, and any other is as it was
  all_goals
    by_cases same : u = v
    · subst same
      rw [Function.update_self] at value
      cases value
      first | exact fresh | exact inside.members g' c hc
    · rw [Function.update_of_ne same] at value
      first | exact inside.names u d value | exact inside.values u d value

/-- A body with its values, and one value more for the name that its quantifier binds. -/
theorem Clear.subst_body {a : Tree} (h : Clear members env (.compound kind (.var v g :: parts)))
    (hq : kind.isQuantifier = true) (ha : a ∈ parts) (c : SymbolId) :
    (a.ground (Function.update env v none)).subst v c =
      a.ground (Function.update env v (some c)) := by
  have bound : v ∈ (compound kind (.var v g :: parts)).boundNames :=
    mem_boundNames_compound.mpr (.inl (binder?_var hq))
  have plain : v ∉ a.constants := fun hv =>
    h.constants v (mem_constants_compound.mpr ⟨a, List.mem_cons_of_mem _ ha, hv⟩) bound
  have values : ∀ u, Function.update env v none u ≠ some v := by
    intro u value
    by_cases same : u = v
    · simp [same] at value
    · rw [Function.update_of_ne same] at value
      exact h.values u v value bound
  rw [subst_ground (Function.update_self _ _ _) values plain (h.afresh.body hq ha),
    Function.update_idem]

/-- **The two truths agree.**  A condition with its values put in is true exactly if the condition
is true under the environment. -/
theorem truth_ground (condition : t.IsCondition) (clear : Clear members env t) :
    Decides (truth members atoms (t.ground env)) (t.Satisfies members (· ∈ atoms) env) := by
  -- the environment grows at each quantifier by the member that its body is rewritten for
  induction condition generalizing env with
  | atom args =>
      rw [Satisfies, ground_compound rfl, truth_atom]
      exact decides_ok
  | and _ ih =>
      rw [Satisfies, ground_compound rfl, truth_and]
      exact decides_allM fun p hp => ih p hp (clear.part hp)
  | or _ ih =>
      rw [Satisfies, ground_compound rfl, truth_or]
      simp only [exists_prop]
      exact decides_anyM fun p hp => ih p hp (clear.part hp)
  | not _ ih =>
      obtain ⟨b, hb, hP⟩ := ih (clear.part List.mem_cons_self)
      rw [Satisfies, ground_compound rfl, List.map_singleton, truth_not, hb]
      exact ⟨!b, rfl, by simp [← hP]⟩
  | equals left right =>
      rw [Satisfies, ground_compound rfl]
      simp only [List.map_cons, List.map_nil, truth_equals]
      exact decides_ok
  | imply _ _ ih ih' =>
      obtain ⟨b, hb, hP⟩ := ih (clear.part List.mem_cons_self)
      obtain ⟨b', hb', hP'⟩ := ih' (clear.part (by simp))
      rw [Satisfies, ground_compound rfl]
      simp only [List.map_cons, List.map_nil, truth_imply, hb, hb']
      cases b with
      | true => exact ⟨b', rfl, by simp [← hP, hP']⟩
      | false => exact ⟨true, rfl, by simp [← hP]⟩
  | @existential v g body _ ih =>
      rw [Satisfies, ground_quantifier rfl, List.map_singleton, truth_existential]
      refine decides_anyM fun c hc => ?_
      rw [clear.subst_body rfl List.mem_cons_self]
      exact ih (clear.body rfl List.mem_cons_self hc)
  | @universal v g body _ ih =>
      rw [Satisfies, ground_quantifier rfl, List.map_singleton, truth_universal]
      refine decides_allM fun c hc => ?_
      rw [clear.subst_body rfl List.mem_cons_self]
      exact ih (clear.body rfl List.mem_cons_self hc)

/-- Without an environment, the truth of a condition is first-order truth. -/
theorem truth_iff_satisfies (condition : t.IsCondition) (afresh : t.BindsAfresh)
    (plain : ∀ c ∈ t.constants, c ∉ t.boundNames)
    (other : ∀ g, ∀ c ∈ members g, c ∉ t.boundNames) :
    Decides (truth members atoms t) (t.Satisfies members (· ∈ atoms) fun _ => none) := by
  have clear : Clear members (fun _ => none) t := ⟨afresh, plain, other, nofun, nofun⟩
  have agree : Decides (truth members atoms (t.ground fun _ => none)) _ :=
    truth_ground condition clear
  rwa [ground_none] at agree

end ClassicalPlanner.Tree
