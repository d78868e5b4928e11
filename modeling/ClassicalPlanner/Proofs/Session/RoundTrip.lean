import ClassicalPlanner.Proofs.Formula.Printed
import ClassicalPlanner.Proofs.Session.Closure
import ClassicalPlanner.Proofs.Session.Reachable
import Mathlib.Data.List.Chain

/-!
# Formulas read back

An expression is printed as its fragments (`renderWithin_eq`).  Read again in the session, these
give the key of the expression and add nothing, if text can tell what the expression is
(`Tree.Unambiguous`): a formula that comes down to one variable is read as that variable, unless it
is a negation, and a variable before `-` as one over a group.  So what has been read is read back
from its text (`parse_render`).
-/

namespace ClassicalPlanner

open Text

/-- Text can tell what the tree is: only a negation has a variable for its one argument, and no
argument `-` follows a variable without a group. -/
def Tree.Unambiguous (words : SymbolTable) : Tree → Prop
  | .compound kind args =>
      (∀ v g, args = [.var v g] → kind = .not) ∧
      args.IsChain (fun t u => ∀ v c, t = .var v .none → u = .constant c →
        words.word? c ≠ some "-") ∧
      ∀ t ∈ args, t.Unambiguous words
  | _ => True

/-- The one compound without a reserved word is the atom. -/
theorem Node.IsCompound.kind_eq_atom {n : Node} (hn : n.IsCompound)
    (h : n.kind.operator? = none) : n.kind = .atom := by
  unfold Node.IsCompound at hn
  generalize n.kind = kind at hn h ⊢
  cases kind <;> first | rfl | exact absurd hn (by decide) | cases h

namespace Session

open Fragment (bracketFirst joined ofParts)

variable {s : Session} {k : Key} {t : Tree} {n : Node} {kind : Kind} {f : Fragment}
variable {word inside : String} {parts rest : List Fragment} {units : List (List Fragment)}
variable {ks : List Key} {ts : List Tree}

/-! ### Printing -/

theorem mapM_eq_ok_of_forall₂ {α β γ ε : Type} {f : α → Except ε β} {g : γ → β} {l : List α}
    {m : List γ} (h : List.Forall₂ (fun a c => f a = .ok (g c)) l m) :
    l.mapM f = .ok (m.map g) := by
  induction h with
  | nil => rfl
  | cons ha _ ih => rw [List.mapM_cons, ha, ih]; rfl

theorem renderWithin_compound {d : Nat} (found : s.store.find? k = some n) (hn : n.IsCompound)
    {texts : List String} (args : n.args.mapM (s.renderWithin d) = .ok texts) :
    s.renderWithin (d + 1) k = .ok ("(" ++ " ".intercalate (n.kind.operator?.toList ++
      if n.kind.isQuantifier then renderWithin.bracketFirst texts else texts) ++ ")") := by
  unfold renderWithin
  rw [NodeStore.node_of_find? found]
  cases n with
  | constant | «variable» | world => exact absurd hn Bool.false_ne_true
  | _ => simp only [bind, Except.bind, args]; rfl

theorem map_joined_bracketFirst (units : List (List Fragment)) :
    (bracketFirst units).map joined = renderWithin.bracketFirst (units.map joined) := by
  cases units with
  | nil => rfl
  | cons binder units =>
      rw [bracketFirst, List.map_cons, Fragment.joined_singleton]
      rfl

/-- The text of the fragments of a formula. -/
theorem joined_parts (h : ∀ unit ∈ units, unit ≠ []) : joined (kind.parts units) =
    " ".intercalate (kind.operator?.toList ++
      if kind.isQuantifier then renderWithin.bracketFirst (units.map joined)
      else units.map joined) := by
  have operator : kind.operator?.toList.map Fragment.word =
      (kind.operator?.toList.map fun op => [Fragment.word op]).flatten := by
    cases kind.operator? <;> rfl
  have some : ∀ unit ∈ (kind.operator?.toList.map fun op => [Fragment.word op]) ++ kind.units units,
      unit ≠ [] := by
    refine List.forall_mem_append.mpr ⟨List.forall_mem_map.mpr fun op _ => by simp, ?_⟩
    unfold Kind.units
    split
    · cases units with
      | nil => exact h
      | cons binder units =>
          exact List.forall_mem_cons.mpr ⟨by simp, (List.forall_mem_cons.mp h).2⟩
    · exact h
  rw [Kind.parts, operator, ← List.flatten_append, Fragment.joined_flatten some, List.map_append,
    List.map_map]
  congr 2
  · cases kind.operator? with
    | none => rfl
    | some op => exact congrArg (· :: []) (Fragment.joined_singleton (.word op))
  · unfold Kind.units
    split
    · exact map_joined_bracketFirst units
    · rfl

/-- **An expression is printed as its fragments.** -/
theorem renderWithin_eq {d : Nat} (h : s.store.Denotes k t) (spelled : t.Spelled s.symbols)
    (height : t.height ≤ d) : s.renderWithin d k = .ok (joined (t.fragments s.symbols)) := by
  induction d generalizing k t with
  | zero => exact absurd height t.not_height_le_zero
  | succ d ih =>
      cases h with
      | constant found =>
          cases spelled with
          | constant named _ _ =>
              rw [Tree.fragments_constant named, Fragment.joined_singleton, renderWithin,
                NodeStore.node_of_find? found]
              exact word_of_word? named
      | @var _ v g found =>
          have group := spelled.cases_group
          cases spelled with
          | @var _ _ word named _ _ _ =>
              rw [renderWithin, NodeStore.node_of_find? found]
              simp only [bind, Except.bind, word_of_word? named]
              rcases group with rfl | ⟨hg, f, hf, ranges⟩
              · rw [Tree.fragments_free named, Fragment.joined_singleton]
                rfl
              · rw [Tree.fragments_grouped hg named hf ranges, if_neg hg]
                simp only [word_of_word? ranges]
                rw [Fragment.joined_grouped]
                rfl
      | world found => cases spelled
      | @compound _ n ts found hn args =>
          have heights := Tree.height_compound_le.mp height
          have texts := mapM_eq_ok_of_forall₂ (NodeStore.forall₂_imp_mem args
            fun a u hu ha => ih ha (spelled.args u hu) (heights u hu))
          rw [renderWithin_compound found hn texts, Tree.fragments, Fragment.joined_singleton]
          have some : ∀ unit ∈ ts.map (Tree.fragments s.symbols), unit ≠ [] :=
            List.forall_mem_map.mpr fun u hu => (spelled.args u hu).fragments_ne_nil
          change _ = Except.ok ("(" ++ joined (n.kind.parts _) ++ ")")
          rw [joined_parts some, List.map_map]
          rfl

/-! ### Reading again -/

/-- Read in the session, the fragments of an argument give its key and add nothing. -/
inductive Rereads (s : Session) : List Fragment → Key → Prop where
  | fragment {f : Fragment} {k : Key} (plain : variableWord? f = none)
      (run : addFragment f s = (.ok k, s)) : Rereads s [f] k
  | free {word : String} {k : Key} (marked : word.toList.head? = some '?')
      (run : addVariable word "" s = (.ok k, s)) : Rereads s [.word word] k
  | grouped {word : String} {f : Fragment} {k : Key} (marked : word.toList.head? = some '?')
      (run : addVariable word f.text s = (.ok k, s)) : Rereads s [.word word, .word "-", f] k

/-- The second argument does not turn the first into the name of a variable over a group. -/
def Apart (first second : List Fragment) : Prop :=
  ∀ word, first = [.word word] → word.toList.head? = some '?' → second ≠ [.word "-"]

/-- Nothing but the word `-` starts with it. -/
theorem Rereads.head?_ne {unit : List Fragment} (h : Rereads s unit k)
    (other : unit ≠ [.word "-"]) : unit.head? ≠ some (.word "-") := by
  intro first
  cases h with
  | fragment _ _ =>
      cases first
      exact other rfl
  | free marked _ | grouped marked _ =>
      cases first
      exact absurd marked (by decide)

theorem Rereads.ne_nil {unit : List Fragment} (h : Rereads s unit k) : unit ≠ [] := by
  cases h <;> simp

/-- **Arguments are read again**, and one of them is seen to be a variable if one is marked so. -/
theorem run_addArguments (h : List.Forall₂ (Rereads s) units ks) (apart : units.IsChain Apart) :
    ∃ saw, addArguments units.flatten s = (.ok (ks, saw), s) ∧
      (saw = true ↔ ∃ f ∈ units.flatten, (variableWord? f).isSome) := by
  induction h with
  | nil => exact ⟨false, rfl, by simp⟩
  | @cons unit k units ks hu hus ih =>
      obtain ⟨saw, run, seen⟩ := ih apart.tail
      rw [List.flatten_cons]
      cases hu with
      | @fragment f _ plain first =>
          refine ⟨saw, ?_, by simp [seen, plain]⟩
          rw [List.singleton_append, addArguments_fragment plain, run_bind, first]
          simp only [run_bind, run, run_pure]
      | @free word _ marked first =>
          refine ⟨true, ?_, by simp [variableWord?_of_marked marked]⟩
          have other : units.flatten.head? ≠ some (.word "-") := by
            cases hus with
            | nil => simp
            | @cons unit' _ units _ hu' _ =>
                have apart := (List.isChain_cons_cons.mp apart).1 word rfl marked
                rw [List.flatten_cons, List.head?_append_of_ne_nil _ hu'.ne_nil]
                exact hu'.head?_ne apart
          rw [List.singleton_append, addArguments_free marked other, run_bind, first]
          simp only [run_bind, run, run_pure]
      | @grouped word f _ marked first =>
          refine ⟨true, ?_, by simp [variableWord?_of_marked marked]⟩
          rw [List.cons_append, List.cons_append, List.singleton_append,
            addArguments_grouped marked, run_bind, first]
          simp only [run_bind, run, run_pure]

theorem run_addFormula (hs : s.Canonical) (found : s.store.find? k = some n) (hn : n.IsCompound)
    {saw : Bool} (h : ∀ arg, n.args = [arg] → saw = true → n.kind = .not) :
    addFormula n.kind n.args saw s = (.ok k, s) := by
  have compound := run_addCompound hs found hn
  generalize hkind : n.kind = kind at h compound ⊢
  generalize hargs : n.args = args at h compound ⊢
  unfold addFormula
  split
  · exact compound
  · cases n <;> cases hkind
    cases hargs
  · split
    -- one argument that is written as a variable, not under a negation
    · exact absurd (h _ rfl ‹_›) ‹_›
    · exact compound
  · exact compound

/-- **A formula is read again.** -/
theorem run_addFragment_group {args : List (List Fragment)} (hs : s.Canonical)
    (found : s.store.find? k = some n) (hn : n.IsCompound)
    (units : List.Forall₂ (Rereads s) (n.kind.units args) n.args)
    (apart : (n.kind.units args).IsChain Apart)
    (opens : n.kind = .atom → ∀ op, (n.kind.units args).flatten.head? = some (.word op) →
      Kind.ofOperator? op = none)
    (single : ∀ arg, n.args = [arg] → n.kind ≠ .not →
      ∀ f ∈ (n.kind.units args).flatten, variableWord? f = none) :
    addFragment (ofParts (n.kind.parts args)) s = (.ok k, s) := by
  obtain ⟨saw, run, seen⟩ := run_addArguments units apart
  have formula : addFormula n.kind n.args saw s = (.ok k, s) := by
    refine run_addFormula hs found hn fun arg harg hsaw => ?_
    by_contra other
    obtain ⟨f, hf, marked⟩ := seen.mp hsaw
    rw [single arg harg other f hf] at marked
    cases marked
  unfold Fragment.ofParts Kind.parts
  cases operator : n.kind.operator? with
  | some op =>
      simp only [Option.toList_some, List.map_cons, List.map_nil, List.singleton_append]
      rw [addFragment_group_eq, opening_operator operator, run_bind, run]
      exact formula
  | none =>
      have atom := hn.kind_eq_atom operator
      simp only [Option.toList_none, List.map_nil, List.nil_append]
      rw [addFragment_group_eq, opening_atom (opens atom), run_bind, run, ← atom]
      exact formula

/-- The name of a variable is no reserved word. -/
theorem ofOperator?_of_marked (h : word.toList.head? = some '?') :
    Kind.ofOperator? word = none := by
  cases operator : Kind.ofOperator? word with
  | none => rfl
  | some kind =>
      rw [Kind.ofOperator?_eq_some_iff] at operator
      cases kind <;> cases operator <;> exact absurd h (by decide)

/-- A binder is read again in its parentheses. -/
theorem Rereads.bracket {unit : List Fragment} (h : Rereads s unit k)
    (first : unit.head? = some (.word word)) (marked : word.toList.head? = some '?') :
    Rereads s [ofParts unit] k := by
  have opens : ∀ op, unit.head? = some (.word op) → Kind.ofOperator? op = none := by
    intro op first'
    cases first.symm.trans first'
    exact ofOperator?_of_marked marked
  refine .fragment rfl ?_
  obtain ⟨saw, run, seen⟩ := run_addArguments (.cons h .nil) (List.isChain_singleton unit)
  rw [List.flatten_cons, List.flatten_nil, List.append_nil] at run
  obtain rfl : saw = true := seen.mpr ⟨.word word, by simpa using List.mem_of_mem_head? first,
    by simp [variableWord?_of_marked marked]⟩
  unfold Fragment.ofParts
  rw [addFragment_group_eq, opening_atom opens, run_bind, run]
  rfl

theorem run_addConstant {c : SymbolId} (hs : s.Sound) (enough : s.symbols.Enough)
    (h : s.symbols.word? c = some word) (found : s.store.find? k = some (.constant c)) :
    addConstant word s = (k, s) := by
  change addConstantOf (intern word s).1 (intern word s).2 = _
  rw [run_intern hs enough h]
  simp only [addConstantOf, hs.canonical.addConstant_of_find? found]

theorem run_addVariable {v g : SymbolId} {group : String} (hs : s.Sound)
    (enough : s.symbols.Enough) (h : s.symbols.word? v = some word)
    (h' : s.symbols.word? g = some group) (found : s.store.find? k = some (.variable v g)) :
    addVariable word group s = (.ok k, s) := by
  change register (·.addVariable (intern word s).1 (intern group (intern word s).2).1)
    (intern group (intern word s).2).2 = _
  rw [run_intern hs enough h, run_intern hs enough h']
  exact run_register (NodeStore.Canonical.addVariable_of_find? hs.canonical found)

/-- Arguments of a tree that is distinct do not run together. -/
theorem isChain_apart (spelled : ∀ t ∈ ts, t.Spelled s.symbols)
    (distinct : ts.IsChain fun t u => ∀ v c, t = .var v .none → u = .constant c →
      s.symbols.word? c ≠ some "-") :
    (ts.map (Tree.fragments s.symbols)).IsChain Apart := by
  rw [List.isChain_map]
  refine distinct.imp_of_mem_imp fun t u ht hu apart word first marked second => ?_
  have front := (spelled t ht).head?_fragments (by rw [first]; rfl)
  have next := (spelled u hu).head?_fragments (by rw [second]; rfl)
  rcases front with ⟨c, rfl, -, plain⟩ | ⟨v, g, rfl, -⟩
  · exact plain marked
  · rcases next with ⟨c, rfl, found, -⟩ | ⟨_, _, -, h⟩
    · refine apart v c ?_ rfl found
      rw [Tree.fragments] at first
      split at first
      · rename_i hg
        rw [hg]
      · cases first
    · exact absurd h (by decide)

theorem not_variableWord? (spelled : t.Spelled s.symbols) (other : ∀ v g, t ≠ .var v g) :
    ∀ f ∈ t.fragments s.symbols, variableWord? f = none := by
  cases spelled with
  | constant named _ plain =>
      rw [Tree.fragments_constant named]
      exact List.forall_mem_singleton.mpr (if_neg plain)
  | @var v g _ _ _ _ _ => exact absurd rfl (other v g)
  | compound _ _ =>
      rw [Tree.fragments]
      exact List.forall_mem_singleton.mpr rfl

theorem opens_map_fragments (spelled : (Tree.compound .atom ts).Spelled s.symbols) {op : String}
    (first : (ts.map (Tree.fragments s.symbols)).flatten.head? = some (.word op)) :
    Kind.ofOperator? op = none := by
  cases spelled with
  | compound spelled opens =>
      cases ts with
      | nil => cases first
      | cons t ts =>
          have ht := spelled t List.mem_cons_self
          rw [List.map_cons, List.flatten_cons, List.head?_append_of_ne_nil _ ht.fragments_ne_nil]
            at first
          rcases ht.head?_fragments first with ⟨c, rfl, found, -⟩ | ⟨v, g, -, marked⟩
          · obtain ⟨word, found', free⟩ := opens rfl c rfl
            cases found.symm.trans found'
            exact free
          · exact ofOperator?_of_marked marked

/-- A formula whose arguments are read again is read again, unless it is a quantifier. -/
theorem run_addFragment_plain (hs : s.Canonical) (found : s.store.find? k = some n)
    (hn : n.IsCompound) (plain : n.kind.isQuantifier = false)
    (each : List.Forall₂ (Rereads s) (ts.map (Tree.fragments s.symbols)) n.args)
    (spelled : (Tree.compound n.kind ts).Spelled s.symbols)
    (distinct : (Tree.compound n.kind ts).Unambiguous s.symbols) :
    addFragment (ofParts (n.kind.parts (ts.map (Tree.fragments s.symbols)))) s = (.ok k, s) := by
  rw [Tree.Unambiguous] at distinct
  obtain ⟨single, apart, -⟩ := distinct
  have units : n.kind.units (ts.map (Tree.fragments s.symbols)) =
      ts.map (Tree.fragments s.symbols) := by
    rw [Kind.units, plain]
    rfl
  refine run_addFragment_group hs found hn ?_ ?_ ?_ ?_ <;> rw [units]
  · exact each
  · exact isChain_apart spelled.args apart
  · intro atom op first
    rw [atom] at spelled
    exact opens_map_fragments spelled first
  · intro arg hargs negation f hf
    have one := each.length_eq
    rw [hargs, List.length_map] at one
    obtain ⟨t, rfl⟩ := List.length_eq_one_iff.mp one
    have other : ∀ v g, t ≠ .var v g := by
      rintro v g rfl
      exact negation (single v g rfl)
    exact not_variableWord? (spelled.args t List.mem_cons_self) other f (by simpa using hf)

/-- A quantifier whose arguments are read again is read again: its binder is a variable, which has
become a group of its own. -/
theorem run_addFragment_quantifier (hs : s.Canonical) (found : s.store.find? k = some n)
    (hn : n.IsCompound) (quantifier : n.kind.isQuantifier)
    (denotes : List.Forall₂ s.store.Denotes n.args ts)
    (each : List.Forall₂ (Rereads s) (ts.map (Tree.fragments s.symbols)) n.args)
    (parts : ∀ t ∈ ts, t.Spelled s.symbols) :
    addFragment (ofParts (n.kind.parts (ts.map (Tree.fragments s.symbols)))) s = (.ok k, s) := by
  obtain ⟨b, body, v, g, t, hargs, rfl, -, -⟩ := (hs.binder found).unfolds quantifier denotes
  obtain ⟨word, first, marked⟩ := (parts _ List.mem_cons_self).exists_head?_var
  have units : n.kind.units ([.var v g, t].map (Tree.fragments s.symbols)) =
      [[ofParts ((Tree.var v g).fragments s.symbols)], t.fragments s.symbols] := by
    rw [Kind.units, quantifier]
    rfl
  rw [hargs] at each
  refine run_addFragment_group hs found hn ?_ ?_ ?_ ?_ <;> rw [units]
  · rw [hargs]
    cases each with
    | cons reads rest => exact .cons (reads.bracket first marked) rest
  · exact .cons_cons (fun _ h => by cases h) (.singleton _)
  · intro atom
    rw [atom] at quantifier
    cases quantifier
  · rw [hargs]
    exact fun _ h => by cases h

/-- **An expression is read again** from its fragments, and nothing is added. -/
theorem rereads (hs : s.Sound) (enough : s.symbols.Enough) (h : s.store.Denotes k t)
    (spelled : t.Spelled s.symbols) (distinct : t.Unambiguous s.symbols) :
    Rereads s (t.fragments s.symbols) k := by
  induction t generalizing k with
  | constant c =>
      cases h with
      | constant found =>
          cases spelled with
          | constant named _ plain =>
              rw [Tree.fragments_constant named]
              refine .fragment (if_neg plain) ?_
              change (Except.ok (addConstant _ s).1, (addConstant _ s).2) = _
              rw [run_addConstant hs enough named found]
  | var v g =>
      have group := spelled.cases_group
      cases h with
      | var found =>
          cases spelled with
          | var named _ marked _ =>
              rcases group with rfl | ⟨hg, f, hf, ranges⟩
              · rw [Tree.fragments_free named]
                exact .free marked (run_addVariable hs enough named hs.words.unnamed found)
              · rw [Tree.fragments_grouped hg named hf ranges]
                exact .grouped marked (run_addVariable hs enough named ranges found)
  | world _ => cases spelled
  | compound kind args ih =>
      cases h with
      | @compound _ n _ found hn denotes =>
          have apart : ∀ u ∈ args, u.Unambiguous s.symbols := by
            rw [Tree.Unambiguous] at distinct
            exact distinct.2.2
          have each : List.Forall₂ (Rereads s) (args.map (Tree.fragments s.symbols)) n.args := by
            rw [List.forall₂_map_left_iff]
            exact (NodeStore.forall₂_imp_mem denotes fun a u hu ha =>
              ih u hu ha (spelled.args u hu) (apart u hu)).flip
          rw [Tree.fragments]
          refine .fragment rfl ?_
          cases quantifier : n.kind.isQuantifier with
          | false =>
              exact run_addFragment_plain hs.canonical found hn quantifier each spelled distinct
          | true =>
              exact run_addFragment_quantifier hs.canonical found hn quantifier denotes each
                spelled.args

variable {s₀ s₁ : Session} {text : String}

/-- **What has been read is read back.**  Take a formula that has been read in any session there can
be, while there was a number for every word, and that has come out as a compound.  If text can tell
what it is, it is printed, the same key is read from its text, and the session stays as it is. -/
theorem parse_render (reached : s₀.Reachable) (read : parse text s₀ = (.ok k, s₁))
    (enough : s₁.symbols.Enough) (ht : s₁.store.Denotes k (.compound kind ts))
    (distinct : (Tree.compound kind ts).Unambiguous s₁.symbols) :
    ∃ out, s₁.render k = .ok out ∧ parse out s₁ = (.ok k, s₁) := by
  have reached₁ : s₁.Reachable := by
    have step := reached.step (.parse text)
    rwa [Operation.run, read] at step
  have spelled : (Tree.compound kind ts).Spelled s₁.symbols := by
    have formula := (serves_parse reached.sound text).result
    rw [read] at formula
    obtain ⟨t, ht', spelled⟩ := formula
    exact ht.unique ht' ▸ spelled enough
  have height : (Tree.compound kind ts).height ≤ s₁.size + 1 :=
    Nat.le_succ_of_le (NodeStore.Canonical.height_le reached₁.canonical ht)
  refine ⟨_, renderWithin_eq ht spelled height, ?_⟩
  have proper := spelled.proper_fragments
  have again := rereads reached₁.sound enough ht spelled distinct
  rw [Tree.fragments] at proper again ⊢
  rw [Fragment.joined_singleton, parse,
    Fragment.ofFormula_ofParts (proper _ List.mem_cons_self)]
  cases again with
  | fragment _ run => exact (congrFun (addFragment_group _ _) s₁).trans run

/-- A binder without parentheses, over a group whose name has some. -/
def exclusion : Session := (parse " (exists ?x - (a b) (not ?x)) " ∅).2

theorem parse_render_exclusion : ∃ out, exclusion.render (.ofKind .existential 3) = .ok out ∧
    parse out exclusion = (.ok (.ofKind .existential 3), exclusion) := by
  have given : (parse " (exists ?x - (a b) (not ?x)) " ∅).1 = .ok (.ofKind .existential 3) := by
    decide +kernel
  have enough : exclusion.symbols.Enough := by decide +kernel
  obtain ⟨binder, name, negation, outer⟩ :
      exclusion.store.find? (.ofKind .variable 1) = some (.variable ⟨1⟩ ⟨2⟩) ∧
      exclusion.store.find? (.ofSymbol ⟨1⟩) = some (.variable ⟨1⟩ .none) ∧
      exclusion.store.find? (.ofKind .not 2) = some (.not (.ofSymbol ⟨1⟩)) ∧
      exclusion.store.find? (.ofKind .existential 3) =
        some (.existential (.ofKind .variable 1) (.ofKind .not 2)) := by decide +kernel
  have denotes : exclusion.store.Denotes (.ofKind .existential 3) (.compound .existential
      [.var ⟨1⟩ ⟨2⟩, .compound .not [.var ⟨1⟩ .none]]) :=
    .compound outer rfl
      (.cons (.var binder) (.cons (.compound negation rfl (.cons (.var name) .nil)) .nil))
  refine parse_render .empty (run_eq_of_result given) enough denotes ?_
  simp [Tree.Unambiguous]

end Session

end ClassicalPlanner
