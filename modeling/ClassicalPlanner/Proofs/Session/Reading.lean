import ClassicalPlanner.Proofs.Session.Groups
import ClassicalPlanner.Proofs.Session.Parse
import ClassicalPlanner.Proofs.Session.Registration

/-!
# What reading keeps

A formula that is read comes out as the key of a tree which is spelled as formulas in text are
(`Formula`).  Where reading fails, parentheses do not match, an argument list does not fit its kind,
or the numbers have run out: never is something missing, since all arguments have been registered
by the time that they are used (`serves_parse`).
-/

namespace ClassicalPlanner

open Text

namespace Session

variable {s s' : Session} {k : Key} {kind : Kind} {args : List Key} {bad : FormulaError → Prop}

/-! ### Formulas -/

/-- The key of a formula as text spells it. -/
def Formula (s : Session) (k : Key) : Prop :=
  ∃ t, s.store.Denotes k t ∧ (s.symbols.Enough → t.Spelled s.symbols)

/-- The keys of formulas. -/
def Formulas (s : Session) (args : List Key) : Prop := ∀ k ∈ args, s.Formula k

theorem Formula.mono (h : s.Formula k) (keeps : Keeps s s') : s'.Formula k := by
  obtain ⟨t, ht, spelled⟩ := h
  exact ⟨t, ht.mono keeps.store, fun enough =>
    (spelled (enough.of_le keeps.words)).mono keeps.words⟩

theorem Formula.contains (h : s.Formula k) : s.store.contains k := by
  obtain ⟨t, ht, -⟩ := h
  exact ht.contains

theorem Formulas.exists_trees (h : s.Formulas args) : ∃ ts,
    List.Forall₂ s.store.Denotes args ts ∧ (s.symbols.Enough → ∀ t ∈ ts, t.Spelled s.symbols) := by
  induction args with
  | nil => exact ⟨[], .nil, fun _ t ht => absurd ht List.not_mem_nil⟩
  | cons k args ih =>
      obtain ⟨⟨t, ht, spelled⟩, rest⟩ := List.forall_mem_cons.mp h
      obtain ⟨ts, hts, spelled'⟩ := ih rest
      exact ⟨t :: ts, .cons ht hts, fun enough =>
        List.forall_mem_cons.mpr ⟨spelled enough, spelled' enough⟩⟩

/-- The key is that of a variable. -/
def IsVariable (s : Session) (k : Key) : Prop := ∃ v g, s.store.find? k = some (.variable v g)

theorem IsVariable.mono (h : s.IsVariable k) (keeps : Keeps s s') : s'.IsVariable k := by
  obtain ⟨v, g, found⟩ := h
  exact ⟨v, g, keeps.store.nodes found⟩

/-- The key of a formula as the fragment spells it: only a word gives a constant. -/
def ReadAs (fragment : Fragment) (s : Session) (k : Key) : Prop :=
  s.Formula k ∧ ∀ c, s.store.find? k = some (.constant c) →
    ∃ word, fragment = .word word ∧ Named word s c

theorem ReadAs.mono {fragment : Fragment} (h : ReadAs fragment s k) (keeps : Keeps s s') :
    ReadAs fragment s' k := by
  obtain ⟨formula, first⟩ := h
  refine ⟨formula.mono keeps, fun c found => ?_⟩
  obtain ⟨n, known⟩ := NodeStore.contains_iff.mp formula.contains
  cases (keeps.store.nodes known).symm.trans found
  obtain ⟨word, rfl, named⟩ := first c known
  exact ⟨word, rfl, named.mono keeps⟩

/-- The keys of arguments as fragments spell them, and whether one is written as a variable. -/
structure Arguments (fragments : List Fragment) (s : Session) (result : List Key × Bool) :
    Prop where
  formulas : s.Formulas result.1
  first : ∀ k ∈ result.1.head?, ∃ f ∈ fragments.head?, ReadAs f s k
  saw : result.2 = true → ∃ k ∈ result.1, s.IsVariable k

/-! ### Registering what is read -/

theorem serves_addConstant (hs : s.Sound) (text : String) : Serves (addConstant text) s
    fun s k => ∃ c, s.store.find? k = some (.constant c) ∧ Named text s c :=
  .bindState (serves_intern hs text) fun _ sound _ named =>
    (serves_addConstantOf sound named.hasWord).imp fun keeps found => ⟨_, found, named.mono keeps⟩

theorem serves_addVariable (hs : s.Sound) (text group : String) (none : bad .outOfNumbers) :
    Serves (addVariable text group) s (Gives (fun s k => ∃ v g,
      s.store.find? k = some (.variable v g) ∧ Named text s v ∧ Named group s g) bad) := by
  refine .bind (.lift (serves_intern hs text)) fun _ sound _ named => ?_
  refine .bind (.lift (serves_intern sound group)) fun keeps sound' _ named' => ?_
  have named := named.mono keeps
  exact (serves_addVariableOf sound' named.hasWord named'.hasWord none).imp fun keeps result =>
    result.imp fun found => ⟨_, _, found, named.mono keeps, named'.mono keeps⟩

/-- A word that is not the name of a variable is read as a constant. -/
theorem serves_addConstant_formula {word : String} (hs : s.Sound) (whole : Word word.toList)
    (plain : word.toList.head? ≠ some '?') :
    Serves (liftM (addConstant word) : SessionM Key) s (Gives (ReadAs (.word word)) bad) := by
  refine .lift ((serves_addConstant hs word).imp fun _ h => ?_)
  obtain ⟨c, found, named⟩ := h
  refine ⟨⟨.constant c, .constant found, fun enough => .constant (named.word enough) whole plain⟩,
    fun c' found' => ?_⟩
  cases found.symm.trans found'
  exact ⟨word, rfl, named⟩

/-- What may stand for the group of a variable: nothing, or the text of a fragment. -/
def GroupText (group : String) : Prop := group = "" ∨ ∃ f : Fragment, f.Proper ∧ group = f.text

theorem serves_addVariable_formula {word group : String} {fragment : Fragment} (hs : s.Sound)
    (whole : Word word.toList) (marked : word.toList.head? = some '?') (ranges : GroupText group)
    (none : bad .outOfNumbers) : Serves (addVariable word group) s
      (Gives (fun s k => ReadAs fragment s k ∧ s.IsVariable k) bad) := by
  have run := serves_addVariable hs word group none
  have sound := run.sound.words
  refine ⟨run.sound, run.keeps, run.closed, run.result.imp fun {k} h => ?_⟩
  obtain ⟨v, g, found, named, named'⟩ := h
  refine ⟨⟨⟨.var v g, .var found, fun enough => .var (named.word enough) whole marked ?_⟩,
    fun c found' => by cases found.symm.trans found'⟩, v, g, found⟩
  rcases ranges with rfl | ⟨f, proper, rfl⟩
  · exact .inl (sound.word?_injective enough (named'.word enough) sound.unnamed)
  · exact .inr ⟨f, proper, named'.word enough⟩

/-- A compound over registered arguments may be refused, but nothing is missing then. -/
theorem addCompound_refuses {e : FormulaError} (known : ∀ a ∈ args, s.store.contains a)
    (h : s.store.addCompound kind args = .error e) : e.Refusal := by
  rcases NodeStore.addCompound_eq_error_iff.mp h with h | ⟨n, hn, hc | ⟨-, hi⟩⟩
  · unfold Node.ofKind at h
    split at h <;> cases h <;> exact .inl trivial
  · rcases NodeStore.check_eq_error hc with ⟨a, ha, absent, -⟩ | misbinds
    · rw [Node.args_of_ofKind hn] at ha
      exact absurd (known a ha) absent
    · exact .inl misbinds.rejection
  · exact .inr (NodeStore.number_eq_error hi)

/-- A formula that is no constant. -/
abbrev Composed (s : Session) (k : Key) : Prop :=
  s.Formula k ∧ ∀ c, s.store.find? k ≠ some (.constant c)

/-- Arguments that may follow the kind: those of an atom do not open with a reserved word. -/
def Opens (kind : Kind) (fragments : List Fragment) : Prop :=
  kind = .atom → ∀ word, fragments.head? = some (.word word) → Kind.ofOperator? word = none

theorem serves_addCompound_formula {fragments : List Fragment} {sawVariable : Bool}
    (hs : s.Sound) (h : Arguments fragments s (args, sawVariable)) (opens : Opens kind fragments) :
    Serves (addCompound kind args) s (Gives Composed FormulaError.Refusal) := by
  have known : ∀ k ∈ args, s.store.contains k := fun k hk => (h.formulas k hk).contains
  refine (serves_addCompound hs (addCompound_refuses known)).imp fun keeps result =>
    result.imp fun found => ?_
  obtain ⟨n, hn, found⟩ := found
  have compound := Node.isCompound_of_ofKind hn
  have later : Formulas _ args := fun k hk => (h.formulas k hk).mono keeps
  obtain ⟨ts, hts, spelled⟩ := later.exists_trees
  have denotes : NodeStore.Denotes _ _ (.compound n.kind ts) :=
    .compound found compound (by rwa [Node.args_of_ofKind hn])
  refine ⟨⟨_, denotes, fun enough => .compound (spelled enough) fun atom c first => ?_⟩,
    fun c found' => ?_⟩
  · obtain ⟨rest, rfl⟩ := List.head?_eq_some_iff.mp first
    cases hts with
    | @cons k _ _ _ hk _ =>
        cases hk with
        | constant known =>
            obtain ⟨f, hf, reads⟩ := h.first k rfl
            obtain ⟨word, rfl, named⟩ := (reads.mono keeps).2 c known
            rw [Node.kind_of_ofKind hn] at atom
            exact ⟨word, named.word enough, opens atom word hf⟩
  · cases found.symm.trans found'
    exact NodeStore.not_isCompound_constant c compound

theorem serves_addFormula {fragments : List Fragment} {sawVariable : Bool} (hs : s.Sound)
    (h : Arguments fragments s (args, sawVariable)) (opens : Opens kind fragments) :
    Serves (addFormula kind args sawVariable) s (Gives Composed FormulaError.Refusal) := by
  have other {kind : Kind} (h : kind ≠ .atom) : Opens kind fragments := fun atom => absurd atom h
  unfold addFormula
  split
  · exact serves_addCompound_formula hs h opens
  · exact serves_addCompound_formula hs h (other (by decide))
  · split
    -- a formula that comes down to one variable is that variable
    · rename_i arg _ saw
      obtain ⟨k, mem, v, g, found⟩ := h.saw saw
      obtain rfl : k = arg := List.mem_singleton.mp mem
      refine .pure hs ⟨h.formulas k mem, fun c found' => ?_⟩
      cases found.symm.trans found'
    · exact serves_addCompound_formula hs h opens
  · exact serves_addCompound_formula hs h opens

/-! ### Reading -/

theorem serves_consArguments {x : SessionM Key} {rest : SessionM (List Key × Bool)}
    {fragment : Fragment} {after fragments : List Fragment} (marked : Bool)
    (hx : Serves x s
      (Gives (fun s k => ReadAs fragment s k ∧ (marked = true → s.IsVariable k)) bad))
    (hrest : ∀ {s}, s.Sound → Serves rest s (Gives (Arguments after) bad)) :
    Serves (do
        let arg ← x
        let (args, saw) ← rest
        return (arg :: args, marked || saw) : SessionM (List Key × Bool)) s
      (Gives (Arguments (fragment :: fragments)) bad) := by
  refine .bind hx fun _ sound _ ⟨reads, marks⟩ => .bind (hrest sound) fun keeps sound' _ hargs =>
    .pure sound' ⟨List.forall_mem_cons.mpr ⟨reads.1.mono keeps, hargs.formulas⟩, ?_, fun saw => ?_⟩
  · intro k hk
    cases hk
    exact ⟨fragment, rfl, reads.mono keeps⟩
  · rcases Bool.or_eq_true_iff.mp saw with marked | saw
    · exact ⟨_, List.mem_cons_self, (marks marked).mono keeps⟩
    · obtain ⟨k, mem, isVariable⟩ := hargs.saw saw
      exact ⟨k, List.mem_cons_of_mem _ mem, isVariable⟩

theorem serves_composed {x : SessionM Key} {inside : String} {parts : List Fragment}
    (h : Serves x s (Gives Composed bad)) : Serves x s (Gives (ReadAs (.group inside parts)) bad) :=
  h.imp fun _ result => result.imp fun ⟨formula, other⟩ =>
    ⟨formula, fun c found => absurd found (other c)⟩

/-- A reserved word does not open an atom. -/
theorem opens_of_ofOperator? {word : String} {fragments : List Fragment}
    (h : Kind.ofOperator? word = some kind) : Opens kind fragments := by
  rintro rfl
  cases Kind.ofOperator?_eq_some_iff.mp h

/-- The fragments are those of some text. -/
def Proper (fragments : List Fragment) : Prop := ∀ f ∈ fragments, f.Proper

/-- A word, or a group of fragments of some text. -/
def Whole : Fragment → Prop
  | .word word => Word word.toList
  | .group _ parts => Proper parts

theorem whole_of_proper {fragment : Fragment} (h : fragment.Proper) : Whole fragment := by
  cases fragment with
  | word _ => exact h
  | group _ _ => exact fun f hf => (Fragment.Written.proper h f hf).1

theorem serves_variable {fragment : Fragment} {name group : String} (hs : s.Sound)
    (proper : fragment.Proper) (found : variableWord? fragment = some name)
    (ranges : GroupText group) : Serves (addVariable name group) s
      (Gives (fun s k => ReadAs fragment s k ∧ (true = true → s.IsVariable k))
        FormulaError.Refusal) := by
  obtain ⟨rfl, marked⟩ := marked_of_variableWord? found
  exact (serves_addVariable_formula hs proper marked ranges (.inr rfl)).imp fun _ result =>
    result.imp fun h => ⟨h.1, fun _ => h.2⟩

/-- Arguments are read if each of the fragments is. -/
theorem serves_arguments_of {fragments : List Fragment}
    (each : ∀ f ∈ fragments, ∀ {s : Session}, s.Sound → Whole f → variableWord? f = none →
      Serves (addFragment f) s (Gives (ReadAs f) FormulaError.Refusal))
    (hs : s.Sound) (proper : Proper fragments) :
    Serves (addArguments fragments) s (Gives (Arguments fragments) FormulaError.Refusal) := by
  induction fragments using induct_arguments generalizing s with
  | nil =>
      exact .pure hs ⟨fun _ hk => absurd hk List.not_mem_nil, fun _ hk => (nomatch hk),
        fun saw => (nomatch saw)⟩
  | fragment plain ih =>
      obtain ⟨first, each⟩ := List.forall_mem_cons.mp each
      obtain ⟨hf, proper⟩ := List.forall_mem_cons.mp proper
      rw [addArguments_fragment plain]
      refine serves_consArguments false ?_ fun sound => ih each sound proper
      exact (first hs (whole_of_proper hf) plain).imp fun _ result =>
        result.imp fun reads => ⟨reads, fun marked => nomatch marked⟩
  | grouped marked ih =>
      obtain ⟨-, -, -, each⟩ := by simpa only [List.forall_mem_cons] using each
      obtain ⟨hf, -, ranges, proper⟩ := by simpa only [Proper, List.forall_mem_cons] using proper
      rw [addArguments_grouped marked]
      exact serves_consArguments true
        (serves_variable hs hf (variableWord?_of_marked marked) (.inr ⟨_, ranges, rfl⟩))
        fun sound => ih each sound proper
  | dangling marked =>
      have hf := proper _ List.mem_cons_self
      rw [addArguments_dangling marked]
      refine .bind (serves_variable hs hf (variableWord?_of_marked marked) (.inl rfl))
        fun _ sound _ ⟨reads, isVariable⟩ =>
          .pure sound ⟨List.forall_mem_singleton.mpr reads.1, fun k hk => ?_, fun _ => ?_⟩
      · cases hk
        exact ⟨_, rfl, reads⟩
      · exact ⟨_, List.mem_cons_self, isVariable rfl⟩
  | free marked other ih =>
      obtain ⟨-, each⟩ := List.forall_mem_cons.mp each
      obtain ⟨hf, proper⟩ := List.forall_mem_cons.mp proper
      rw [addArguments_free marked other]
      exact serves_consArguments true
        (serves_variable hs hf (variableWord?_of_marked marked) (.inl rfl))
        fun sound => ih each sound proper

theorem opens_opening (parts : List Fragment) : Opens (opening parts).1 (opening parts).2 := by
  unfold opening
  split
  · split
    · exact opens_of_ofOperator? ‹_›
    · rintro - word same
      cases same
      assumption
  · rename_i other
    rintro - word same
    obtain ⟨rest, rfl⟩ := List.head?_eq_some_iff.mp same
    exact absurd rfl (other word rest)

theorem serves_addFragment (fragment : Fragment) {s : Session} (hs : s.Sound)
    (whole : Whole fragment) (plain : variableWord? fragment = none) :
    Serves (addFragment fragment) s (Gives (ReadAs fragment) FormulaError.Refusal) := by
  induction fragment using Fragment.induct generalizing s with
  | word text => exact serves_addConstant_formula hs whole (plain_of_variableWord? plain)
  | group inside parts ih =>
      have sub := opening_subset parts
      rw [addFragment_group_eq]
      exact serves_composed <|
        .bind (serves_arguments_of (fun f mem _ => ih f (sub mem)) hs fun f mem =>
            whole f (sub mem))
          fun _ sound _ hargs => serves_addFormula sound hargs (opens_opening parts)

theorem serves_addArguments (fragments : List Fragment) {s : Session} (hs : s.Sound)
    (proper : Proper fragments) :
    Serves (addArguments fragments) s (Gives (Arguments fragments) FormulaError.Refusal) :=
  serves_arguments_of (fun f _ _ => serves_addFragment f) hs proper

/-- **Reading a formula** gives the key of a formula, or an error that does not say that something
is missing. -/
theorem serves_parse (hs : s.Sound) (text : String) :
    Serves (parse text) s (Gives Formula (¬·.Missing)) := by
  unfold parse
  split
  · rename_i fragments found
    exact (serves_addFragment (.group text fragments) hs (Fragment.proper_of_ofFormula found)
      rfl).imp fun _ result => (result.imp fun reads => reads.1).imp_error (·.there)
  · exact .throw hs id

/-! ### Worlds -/

/-- A world of formulas fails as reading them does. -/
theorem serves_makeWorld_of {atoms : List String} (hs : s.Sound)
    (groups : List (String × List String)) (none : bad .outOfNumbers)
    (parses : ∀ {text s}, text ∈ atoms → s.Sound → Serves (parse text) s (Gives Formula bad)) :
    Serves (makeWorld atoms groups) s (Gives HasWorld bad) := by
  refine .bind (.lift (serves_setGroups hs groups)) fun _ sound _ _ => ?_
  refine .bind (.mapM sound (fun {b _ _} keeps (h : Formula _ b) => h.mono keeps)
    fun mem _ sound' _ => parses mem sound') fun _ sound' _ formulas => ?_
  refine (serves_addWorld sound' (fun k hk => (formulas k ?_).contains) none).imp
    fun _ result => result.imp fun found => ⟨_, found⟩
  rwa [Std.ExtTreeSet.mem_ofList, List.contains_iff_mem] at hk

/-- A world of formulas is read. -/
theorem serves_makeWorld (hs : s.Sound) (atoms : List String)
    (groups : List (String × List String)) :
    Serves (makeWorld atoms groups) s (Gives HasWorld (¬·.Missing)) :=
  serves_makeWorld_of hs groups id fun _ sound => serves_parse sound _

end Session

end ClassicalPlanner
