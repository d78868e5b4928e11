import ClassicalPlanner.Proofs.Session.Bindings
import ClassicalPlanner.Proofs.Task.Name

/-!
# Ground actions are instances of schemata

Grounding goes through schemata, bindings and parameters, and puts one object after the other into
formulas whose parts are shared.  What it makes is one action for each schema and binding, in order,
numbered from 1 without gaps.  Its formulas are those of the schema with all parameters replaced at
once, if no object is named like a parameter (`grounds_instances`).

The proof does not follow the sessions in between.  The last one has all words and expressions, and
grounding again in it goes the same way and adds nothing (`recurs_ground`).  So each step is looked
at in this one session.
-/

namespace ClassicalPlanner

open Session

variable {s s' : Session} {t t' table : ActionTable} {d : Domain} {p : Problem} {a : Schema}
variable {b : Binding} {objects : NameSets} {both both' : Key × Key} {u u' : Tree} {text : String}

/-! ### Objects and parameters -/

/-- No object that a parameter of the schema ranges over is named like a parameter of it. -/
def Schema.Apart (objects : NameSets) (a : Schema) : Prop :=
  ∀ q ∈ a.parameters, ∀ object ∈ objects.getD q.group ∅, ∀ r ∈ a.parameters, object ≠ r.name

instance (objects : NameSets) (a : Schema) : Decidable (a.Apart objects) :=
  decidable_of_iff (∀ q ∈ a.parameters, ∀ object ∈ (objects.getD q.group ∅).toList,
    ∀ r ∈ a.parameters, object ≠ r.name) (by simp [Schema.Apart])

theorem Schema.Apart.of_mem (apart : a.Apart objects) (hb : b ∈ bindings objects a.parameters) :
    ∀ pair ∈ b, pair.2 ∉ b.map Prod.fst := by
  have each := mem_bindings_iff.mp hb
  intro pair mem named
  obtain ⟨pair', mem', same⟩ := List.mem_map.mp named
  obtain ⟨q, hq, -, member⟩ := NodeStore.forall₂_exists_right each.flip mem
  obtain ⟨r, hr, name, -⟩ := NodeStore.forall₂_exists_right each.flip mem'
  exact apart q hq pair.2 member r hr (same.symm.trans name)

/-! ### Words and symbols -/

namespace Session

/-- The object that a binding has for the word of a symbol, the first one if there are more. -/
def objectFor (s : Session) (b : Binding) (v : SymbolId) : Option SymbolId := do
  let name ← s.symbols.word? v
  let object ← b.lookup name
  s.symbols.find? object

/-- The two symbols are those of the two words. -/
def Spells (s : Session) (words : String × String) (symbols : SymbolId × SymbolId) : Prop :=
  s.symbols.word? symbols.1 = some words.1 ∧ s.symbols.word? symbols.2 = some words.2

variable {pairs : List (SymbolId × SymbolId)} {c : SymbolId}

/-- What is listed first for a symbol is what is listed first for its word. -/
theorem lookup_spelled (hs : s.Sound) (enough : s.symbols.Enough)
    (h : List.Forall₂ s.Spells b pairs) (v : SymbolId) : pairs.lookup v = s.objectFor b v := by
  induction h with
  | nil =>
      unfold objectFor
      cases s.symbols.word? v <;> rfl
  | @cons words symbols b pairs spells _ ih =>
      obtain ⟨name, object⟩ := words
      obtain ⟨x, y⟩ := symbols
      rw [List.lookup_cons]
      by_cases same : v = x
      · subst same
        have found : s.symbols.find? object = some y := hs.words.found enough spells.2
        simp [objectFor, spells.1, found]
      · rw [beq_false_of_ne same, ih]
        unfold objectFor
        cases word : s.symbols.word? v with
        | none => rfl
        | some name' =>
            have other : name' ≠ name := by
              rintro rfl
              exact same (hs.words.word?_injective enough word spells.1)
            simp [List.lookup_cons, beq_false_of_ne other]

/-- If no object is named like a parameter, the symbols of objects are not those of parameters. -/
theorem separate_spelled (h : List.Forall₂ s.Spells b pairs)
    (apart : ∀ pair ∈ b, pair.2 ∉ b.map Prod.fst) : Tree.Separate pairs := by
  intro pair mem mem'
  obtain ⟨other, hother, same⟩ := List.mem_map.mp mem'
  obtain ⟨words, hwords, spells⟩ := NodeStore.forall₂_exists_right h.flip mem
  obtain ⟨words', hwords', spells'⟩ := NodeStore.forall₂_exists_right h.flip hother
  refine apart words hwords (List.mem_map.mpr ⟨words', hwords', ?_⟩)
  have object := spells.2
  rw [← same, spells'.1] at object
  exact Option.some.inj object

theorem word?_of_intern (hs : s.Sound) (enough : s.symbols.Enough)
    (h : (liftM (intern text) : SessionM SymbolId) s = (.ok c, s)) :
    s.symbols.word? c = some text := by
  obtain ⟨number, same⟩ : (intern text s).1 = c ∧ (intern text s).2 = s :=
    (Prod.mk.inj h).imp_left Except.ok.inj
  have named := (serves_intern hs text).result.word
  rw [number, same] at named
  exact named enough

/-- The key is that of a formula of which the text is the pattern.  The text reads as a formula that
the session has, and in it each word that the binding names is replaced by its object, all at once.
All objects have a symbol. -/
structure IsInstance (s : Session) (text : String) (b : Binding) (key : Key) : Prop where
  numbered : ∀ pair ∈ b, (s.symbols.find? pair.2).isSome
  replaced : ∃ k u, parse text s = (.ok k, s) ∧ s.store.Denotes k u ∧
    s.store.Denotes key (u.replace (s.objectFor b))

theorem IsInstance.of_spelled {k key : Key} (hs : s.Sound) (enough : s.symbols.Enough)
    (h : List.Forall₂ s.Spells b pairs) (apart : ∀ pair ∈ b, pair.2 ∉ b.map Prod.fst)
    (parsed : parse text s = (.ok k, s)) (hk : s.store.Denotes k u)
    (hkey : s.store.Denotes key (pairs.foldl (fun u pair => u.subst pair.1 pair.2) u)) :
    s.IsInstance text b key where
  numbered pair mem := by
    obtain ⟨symbols, -, spells⟩ := NodeStore.forall₂_exists_right h mem
    exact Option.isSome_iff_exists.mpr ⟨symbols.2, hs.words.found enough spells.2⟩
  replaced := by
    rw [Tree.foldl_subst (separate_spelled h apart), funext (lookup_spelled hs enough h)] at hkey
    exact ⟨k, u, parsed, hk, hkey⟩

end Session

/-! ### Formulas -/

namespace Schema

theorem groundParameter_denotes {pair : String × String} (hs : s.Sound) (enough : s.symbols.Enough)
    (h : groundFormulas.groundParameter both pair s = (.ok both', s))
    (hp : s.store.Denotes both.1 u) (he : s.store.Denotes both.2 u') :
    ∃ symbols, s.Spells pair symbols ∧ s.store.Denotes both'.1 (u.subst symbols.1 symbols.2) ∧
      s.store.Denotes both'.2 (u'.subst symbols.1 symbols.2) := by
  have replace (k : Key) (old new : SymbolId) : Recurs (substitute k old new) :=
    (repeats_substitute k old new).recurs
  have replaceBoth (old new : SymbolId) : Recurs (do
      let precondition ← substitute both.1 old new
      let effect ← substitute both.2 old new
      return (precondition, effect)) :=
    .bind (replace _ _ _) fun _ => .bind (replace _ _ _) fun _ => .pure _
  obtain ⟨old, hold, h⟩ :=
    (recurs_intern _).of_bind (fun old => .bind (recurs_intern _) (replaceBoth old)) hs enough h
  obtain ⟨new, hnew, h⟩ := (recurs_intern _).of_bind (replaceBoth old) hs enough h
  obtain ⟨precondition, first, h⟩ :=
    (replace _ _ _).of_bind (fun _ => .bind (replace _ _ _) fun _ => .pure _) hs enough h
  obtain ⟨effect, second, h⟩ := (replace _ _ _).of_bind (fun _ => .pure _) hs enough h
  cases h
  exact ⟨(old, new), ⟨word?_of_intern hs enough hold, word?_of_intern hs enough hnew⟩,
    (answers_substitute hs.canonical hp old new).denotes first,
    (answers_substitute hs.canonical he old new).denotes second⟩

/-- Both formulas of a schema are put together from the same symbols. -/
theorem groundFormulas_denotes (hs : s.Sound) (enough : s.symbols.Enough)
    (h : b.foldlM groundFormulas.groundParameter both s = (.ok both', s))
    (hp : s.store.Denotes both.1 u) (he : s.store.Denotes both.2 u') :
    ∃ pairs, List.Forall₂ s.Spells b pairs ∧
      s.store.Denotes both'.1 (pairs.foldl (fun u pair => u.subst pair.1 pair.2) u) ∧
      s.store.Denotes both'.2 (pairs.foldl (fun u pair => u.subst pair.1 pair.2) u') := by
  induction b generalizing both u u' with
  | nil => cases h; exact ⟨[], .nil, hp, he⟩
  | cons pair b ih =>
      obtain ⟨both₁, h₁, h₂⟩ := (recurs_groundParameter both pair).of_bind
        (.foldlM recurs_groundParameter b) hs enough h
      obtain ⟨symbols, spells, hp, he⟩ := groundParameter_denotes hs enough h₁ hp he
      obtain ⟨pairs, rest, hp, he⟩ := ih h₂ hp he
      exact ⟨symbols :: pairs, .cons spells rest, hp, he⟩

end Schema

/-! ### Actions -/

/-- The action is what the schema becomes with the binding. -/
structure Session.Grounds (s : Session) (row : Schema × Binding) (action : GroundAction) :
    Prop where
  name : action.name = row.1.name ++ String.join (row.2.map fun pair => " " ++ pair.2)
  precondition : s.IsInstance row.1.precondition row.2 action.precondition
  effect : s.IsInstance row.1.effect row.2 action.effect

/-- For each item of the list an action has been added that is as `R` says, in order. -/
def ActionTable.Appends {α : Type} (R : α → GroundAction → Prop) (l : List α) (t t' : ActionTable) :
    Prop := ∃ added, t'.toList = t.toList ++ added ∧ List.Forall₂ R l added

theorem ActionTable.appends_foldlM {α β : Type} {R : β → GroundAction → Prop} {rows : α → List β}
    {f : ActionTable → α → SessionM ActionTable} (recurs : ∀ t a, Recurs (f t a)) {l : List α}
    (hs : s.Sound) (enough : s.symbols.Enough)
    (hf : ∀ {t a t'}, a ∈ l → f t a s = (.ok t', s) → t.Appends R (rows a) t')
    (h : l.foldlM f t s = (.ok t', s)) : t.Appends R (l.flatMap rows) t' := by
  induction l generalizing t with
  | nil => cases h; exact ⟨[], (List.append_nil _).symm, .nil⟩
  | cons a l ih =>
      obtain ⟨t₁, h₁, h₂⟩ := (recurs t a).of_bind (fun t => .foldlM recurs l t) hs enough h
      obtain ⟨first, list₁, each₁⟩ := hf List.mem_cons_self h₁
      obtain ⟨rest, list₂, each₂⟩ := ih (fun mem => hf (List.mem_cons_of_mem _ mem)) h₂
      refine ⟨first ++ rest, ?_, List.rel_append each₁ each₂⟩
      rw [list₂, list₁, List.append_assoc]

namespace Schema

theorem groundName_eq (a : Schema) (b : Binding) :
    a.groundName b = a.name ++ String.join (b.map fun pair => " " ++ pair.2) := by
  unfold groundName
  generalize a.name = name
  induction b generalizing name with
  | nil => simp
  | cons pair b ih =>
      rw [List.foldl_cons, ih]
      simp [String.append_assoc]

theorem exists_denotes_of_parse {k : Key} (hs : s.Sound) (h : parse text s = (.ok k, s)) :
    ∃ u, s.store.Denotes k u := by
  have known : s.Knows [k] := (registers_parse (K := []) text).knows hs.canonical
    (fun k hk => absurd hk List.not_mem_nil) h
  obtain ⟨u, hu, -⟩ := hs.canonical.exists_denotes (known k List.mem_cons_self)
  exact ⟨u, hu⟩

theorem appends_groundBinding {precondition effect : Key} (hs : s.Sound)
    (enough : s.symbols.Enough) (hp : parse a.precondition s = (.ok precondition, s))
    (he : parse a.effect s = (.ok effect, s)) (apart : ∀ pair ∈ b, pair.2 ∉ b.map Prod.fst)
    (h : ground.groundBinding a precondition effect t b s = (.ok t', s)) :
    t.Appends s.Grounds [(a, b)] t' := by
  obtain ⟨both, replaced, h⟩ := (Recurs.foldlM recurs_groundParameter b _).of_bind
    (fun _ => .bind (.result _) fun _ => .pure _) hs enough h
  obtain ⟨⟨id, t₁⟩, pushed, h⟩ := (Recurs.result _).of_bind (fun _ => .pure _) hs enough h
  cases h
  obtain ⟨u, hu⟩ := exists_denotes_of_parse hs hp
  obtain ⟨u', hu'⟩ := exists_denotes_of_parse hs he
  obtain ⟨pairs, spells, hp', he'⟩ := groundFormulas_denotes hs enough replaced hu hu'
  refine ⟨_, (ActionTable.push_eq_ok (Prod.mk.inj pushed).1).2.2, .cons ?_ .nil⟩
  exact ⟨groundName_eq a b, .of_spelled hs enough spells apart hp hu hp',
    .of_spelled hs enough spells apart he hu' he'⟩

theorem appends_ground (hs : s.Sound) (enough : s.symbols.Enough) (apart : a.Apart objects)
    (h : ground objects t a s = (.ok t', s)) :
    t.Appends s.Grounds ((bindings objects a.parameters).map (a, ·)) t' := by
  obtain ⟨precondition, hp, h⟩ := (recurs_parse _).of_bind (fun _ => .bind (recurs_parse _) fun _ =>
    .foldlM (recurs_groundBinding a _ _) _ _) hs enough h
  obtain ⟨effect, he, h⟩ := (recurs_parse _).of_bind (fun _ =>
    .foldlM (recurs_groundBinding a _ _) _ _) hs enough h
  rw [List.map_eq_flatMap]
  exact ActionTable.appends_foldlM (recurs_groundBinding a _ _) hs enough
    (fun mem h => appends_groundBinding hs enough hp he (apart.of_mem mem) h) h

end Schema

/-! ### Numbers -/

namespace ActionTable

/-- The actions have the numbers from 1 on, without gaps. -/
structure Numbered (t : ActionTable) : Prop where
  counted : t.Counted
  numbers : t.toList.map (·.id.index.toNat) = List.range' 1 t.toList.length

theorem numbered_empty : (∅ : ActionTable).Numbered := ⟨rfl, rfl⟩

theorem Numbered.push {name : String} {precondition effect : Key} {id : ActionId}
    (ht : t.Numbered) (h : t.push name precondition effect = .ok (id, t')) : t'.Numbered := by
  have counted := ht.counted.push h
  obtain ⟨-, issued, list⟩ := push_eq_ok h
  have next : id.index.toNat = 1 + t.toList.length := by
    rw [← issued, counted, list, List.length_append, List.length_singleton, Nat.add_comm]
  refine ⟨counted, ?_⟩
  rw [list, List.map_append, ht.numbers, List.length_append, List.length_singleton,
    List.range'_1_concat, List.map_singleton, next]

end ActionTable

theorem Schema.numbered_ground (ht : t.Numbered) (h : Schema.ground objects t a s = (.ok t', s')) :
    t'.Numbered := by
  obtain ⟨precondition, s₁, -, h⟩ := run_bind_eq_ok.mp h
  obtain ⟨effect, s₂, -, h⟩ := run_bind_eq_ok.mp h
  refine foldlM_keeps (fun _ ht h => ?_) ht h
  obtain ⟨both, s₃, -, h⟩ := run_bind_eq_ok.mp h
  obtain ⟨⟨id, t₁⟩, s₄, pushed, h⟩ := run_bind_eq_ok.mp h
  cases h
  exact ht.push (Prod.mk.inj pushed).1

theorem numbered_ground (h : ground d p s = (.ok t, s')) : t.Numbered :=
  foldlM_keeps (fun _ ht h => Schema.numbered_ground ht h) ActionTable.numbered_empty h

/-! ### All instances -/

/-- The schemata with the bindings of their parameters, schema by schema. -/
def instancesOf (d : Domain) (p : Problem) : List (Schema × Binding) :=
  d.actions.flatMap fun a => (bindings p.objects a.parameters).map (a, ·)

/-- **Grounding gives exactly the instances of the schemata.**  Take a session there can be, and a
domain and a problem that are grounded in it, while there is a number for every word.  If no object
that a parameter ranges over is named like a parameter of the same schema, then the actions are, one
after the other, those of the schemata with the bindings of their parameters.  Each has the name of
its schema followed by the objects, and the formulas of the schema with the objects put for the
parameters, all at once.  The actions are numbered from 1 without gaps.  No binding comes twice, and
there is every one that gives each parameter an object of its group. -/
theorem grounds_instances (reached : s.Reachable) (h : ground d p s = (.ok table, s'))
    (enough : s'.symbols.Enough) (apart : ∀ a ∈ d.actions, a.Apart p.objects) :
    List.Forall₂ s'.Grounds (instancesOf d p) table.toList ∧
      table.toList.map (·.id.index.toNat) = List.range' 1 table.toList.length ∧
      ∀ a ∈ d.actions, (bindings p.objects a.parameters).Nodup ∧
        ∀ b, b ∈ bindings p.objects a.parameters ↔ List.Forall₂
          (fun q pair => pair.1 = q.name ∧ pair.2 ∈ p.objects.getD q.group ∅) a.parameters b := by
  have hs := ((recurs_ground d p).retains.follows reached.sound h).sound
  have again := (recurs_ground d p).again reached.sound h (.refl hs) enough
  obtain ⟨added, list, each⟩ := ActionTable.appends_foldlM (Schema.recurs_ground p.objects) hs
    enough (fun mem h => Schema.appends_ground hs enough (apart _ mem) h) again
  obtain rfl : table.toList = added := list
  refine ⟨each, (numbered_ground h).numbers, fun a _ => ⟨?_, fun b => mem_bindings_iff⟩⟩
  exact (nodup_bindings p.objects a.parameters).of_map

namespace Rooms

/-- One goes from a room to a room, which may be the same. -/
def go : Schema :=
  { name := "go"
    parameters := [{ name := "from", group := "room" }, { name := "to", group := "room" }]
    precondition := "(at ?from)"
    effect := "(and (not (at ?from)) (at ?to))" }

def domain : Domain := { actions := [go] }

def problem : Problem := { objects := NameSets.extend ∅ "room" ["hall", "yard"] }

end Rooms

/-- The second of the four actions goes from the yard to the hall. -/
theorem grounds_instances_rooms : ∃ table s' action, ground Rooms.domain Rooms.problem ∅ =
      (.ok table, s') ∧
    table.toList.map (·.id.index.toNat) = [1, 2, 3, 4] ∧ table.toList[1]? = some action ∧
      s'.Grounds (Rooms.go, [("from", "yard"), ("to", "hall")]) action := by
  have runs : (ground Rooms.domain Rooms.problem ∅).1.isOk = true := by decide +kernel
  have enough : (ground Rooms.domain Rooms.problem ∅).2.symbols.Enough := by decide +kernel
  have apart : ∀ a ∈ Rooms.domain.actions, a.Apart Rooms.problem.objects := by decide +kernel
  have rows : instancesOf Rooms.domain Rooms.problem =
      [(Rooms.go, [("from", "hall"), ("to", "hall")]),
       (Rooms.go, [("from", "yard"), ("to", "hall")]),
       (Rooms.go, [("from", "hall"), ("to", "yard")]),
       (Rooms.go, [("from", "yard"), ("to", "yard")])] := by decide +kernel
  obtain ⟨table, result⟩ := exists_of_isOk runs
  have run := run_eq_of_result result
  generalize (ground Rooms.domain Rooms.problem ∅).2 = s' at run enough
  obtain ⟨each, numbers, -⟩ := grounds_instances .empty run enough apart
  rw [← each.length_eq, rows] at numbers
  rw [rows] at each
  refine ⟨table, s', ?_⟩
  generalize table.toList = actions at each numbers ⊢
  cases each with
  | cons _ each =>
      cases each with
      | cons second _ => exact ⟨_, run, numbers, rfl, second⟩

end ClassicalPlanner
