import ClassicalPlanner.Proofs.Session.Reachable
import ClassicalPlanner.Proofs.Session.Refusal

/-!
# Sessions as their clients see them

Operations give out keys, worlds and symbols, the handles of a session.  A client holds the handles
that it was given since the session was new, and passes in no others (`Client.Honest`).  It may pass
them to any operation, in any roles, and go on after one that fails.

Such a client never loses a handle (`Client.never_loses`): a key stands for the same node ever after
and a symbol for the same word, no operation fails because something is missing, every key can be
printed, and symbols can be replaced in it for as long as there are numbers left.
-/

namespace ClassicalPlanner

namespace Session

variable {s s' : Session} {α : Type}

/-! ### Handles -/

/-- What a client can pass to operations. -/
structure Handles where
  keys : List Key := []
  worlds : List World := []
  symbols : List SymbolId := []

namespace Handles

instance : Append Handles :=
  ⟨fun h h' => ⟨h.keys ++ h'.keys, h.worlds ++ h'.worlds, h.symbols ++ h'.symbols⟩⟩

/-- A key. -/
def ofKey (k : Key) : Handles := { keys := [k] }

/-- A world, which is an expression, too. -/
def ofWorld (w : World) : Handles := { keys := [w.key], worlds := [w] }

/-- A symbol. -/
def ofSymbol (c : SymbolId) : Handles := { symbols := [c] }

end Handles

/-- All handles stand for something in the session. -/
structure Provides (s : Session) (h : Handles) : Prop where
  keys : s.Knows h.keys
  worlds : ∀ w ∈ h.worlds, s.HasWorld w
  symbols : ∀ c ∈ h.symbols, s.HasWord c

variable {h h' : Handles}

theorem provides_none : s.Provides {} := by constructor <;> simp [Knows]

theorem provides_ofKey {k : Key} (known : s.store.contains k) : s.Provides (.ofKey k) := by
  constructor <;> simp [Knows, Handles.ofKey, known]

theorem provides_ofWorld {w : World} (found : s.HasWorld w) : s.Provides (.ofWorld w) := by
  obtain ⟨a, ha⟩ := found
  have known : s.store.contains w.key := NodeStore.contains_iff.mpr ⟨_, ha⟩
  have found : s.HasWorld w := ⟨a, ha⟩
  constructor <;> simp [Knows, Handles.ofWorld, known, found]

theorem provides_ofSymbol {c : SymbolId} (word : s.HasWord c) : s.Provides (.ofSymbol c) := by
  constructor <;> simp [Knows, Handles.ofSymbol, word]

theorem Provides.mono (provides : s.Provides h) (keeps : Keeps s s') : s'.Provides h where
  keys := provides.keys.keeps keeps
  worlds w hw := (provides.worlds w hw).keeps keeps
  symbols c hc := (provides.symbols c hc).mono keeps

theorem Provides.append (provides : s.Provides h) (provides' : s.Provides h') :
    s.Provides (h ++ h') where
  keys := knows_append.mpr ⟨provides.keys, provides'.keys⟩
  worlds := List.forall_mem_append.mpr ⟨provides.worlds, provides'.worlds⟩
  symbols := List.forall_mem_append.mpr ⟨provides.symbols, provides'.symbols⟩

/-! ### Replies -/

/-- What comes back from an operation: handles, and the error if it fails. -/
structure Reply where
  handles : Handles := {}
  error : Option FormulaError := none

namespace Reply

/-- The handles of a value, or an error. -/
def of (f : α → Handles) : Except FormulaError α → Reply
  | .ok a => { handles := f a }
  | .error e => { error := some e }

/-- The atoms collected, which the client also sees if the collection fails. -/
def ofChanges (r : Except FormulaError Unit × Changes) : Reply :=
  { of (fun _ => {}) r.1 with handles := { keys := r.2.keys } }

/-- The handles stand for something, and the error does not say that something is missing. -/
structure Fits (s : Session) (r : Reply) : Prop where
  provides : s.Provides r.handles
  there : ∀ e ∈ r.error, ¬e.Missing

theorem fits_handles {h : Handles} (provides : s.Provides h) : Fits s { handles := h } :=
  ⟨provides, by simp⟩

theorem fits_of {good : Session → α → Prop} {f : α → Handles} {r : Except FormulaError α}
    (result : Gives good (¬·.Missing) s r) (hf : ∀ {a}, good s a → s.Provides (f a)) :
    (of f r).Fits s := by
  cases r with
  | ok a => exact ⟨hf result, fun e he => by cases he⟩
  | error e => exact ⟨provides_none, fun e' he => by cases he; exact result⟩

end Reply

/-- What comes back from an operation. -/
def Operation.reply : Operation → Session → Reply
  | .reset, _ => {}
  | .intern text, s => { handles := .ofSymbol (Session.intern text s).1 }
  | .addConstant text, s => { handles := .ofKey (Session.addConstant text s).1 }
  | .addVariable text group, s => .of .ofKey (Session.addVariable text group s).1
  | .addCompound kind args, s => .of .ofKey (Session.addCompound kind args s).1
  | .addWorld atoms, s => .of .ofWorld (Session.addWorld atoms s).1
  | .setGroups _, _ => {}
  | .makeWorld atoms groups, s => .of .ofWorld (Session.makeWorld atoms groups s).1
  | .parse text, s => .of .ofKey (Session.parse text s).1
  | .substitute key old new, s => .of .ofKey (Session.substitute key old new s).1
  | .substituteAll key bindings, s => .of .ofKey (Session.substituteAll key bindings s).1
  | .evaluate key world, s => .of (fun _ => {}) (Session.evaluate key world s).1
  | .laxEvaluate key upper lower, s => .of (fun _ => {}) (Session.laxEvaluate key upper lower s).1
  | .collect changes effect world, s => .ofChanges (Session.collect effect world changes s).1
  | .collectAll changes effect, s => .ofChanges (Session.collectAll effect changes s).1
  | .apply world effect, s => .of .ofWorld (Session.apply world effect s).1

/-- All handles that the operation is passed have been given out. -/
def Operation.Uses (given : Handles) : Operation → Prop
  | .addCompound _ args => ∀ a ∈ args, a ∈ given.keys
  | .addWorld atoms => ∀ a ∈ atoms.toList, a ∈ given.keys
  | .substitute key old new => key ∈ given.keys ∧ old ∈ given.symbols ∧ new ∈ given.symbols
  | .substituteAll key bindings =>
      key ∈ given.keys ∧ ∀ b ∈ bindings, b.1 ∈ given.symbols ∧ b.2 ∈ given.symbols
  | .evaluate key world => key ∈ given.keys ∧ world ∈ given.worlds
  | .laxEvaluate key upper lower =>
      key ∈ given.keys ∧ upper ∈ given.worlds ∧ lower ∈ given.worlds
  | .collect changes effect world =>
      (∀ a ∈ changes.keys, a ∈ given.keys) ∧ effect ∈ given.keys ∧ world ∈ given.worlds
  | .collectAll changes effect => (∀ a ∈ changes.keys, a ∈ given.keys) ∧ effect ∈ given.keys
  | .apply world effect => world ∈ given.worlds ∧ effect ∈ given.keys
  | .reset | .intern _ | .addConstant _ | .addVariable _ _ | .setGroups _ | .makeWorld _ _
  | .parse _ => True

instance (given : Handles) : (op : Operation) → Decidable (op.Uses given)
  | .addCompound _ args => inferInstanceAs (Decidable (∀ a ∈ args, a ∈ given.keys))
  | .addWorld atoms => inferInstanceAs (Decidable (∀ a ∈ atoms.toList, a ∈ given.keys))
  | .substitute _ _ _ | .evaluate _ _ | .laxEvaluate _ _ _ | .apply _ _ =>
      inferInstanceAs (Decidable (_ ∧ _))
  | .substituteAll key bindings => inferInstanceAs (Decidable (key ∈ given.keys ∧
      ∀ b ∈ bindings, b.1 ∈ given.symbols ∧ b.2 ∈ given.symbols))
  | .collect changes effect world => inferInstanceAs (Decidable
      ((∀ a ∈ changes.keys, a ∈ given.keys) ∧ effect ∈ given.keys ∧ world ∈ given.worlds))
  | .collectAll changes effect => inferInstanceAs (Decidable
      ((∀ a ∈ changes.keys, a ∈ given.keys) ∧ effect ∈ given.keys))
  | .reset | .intern _ | .addConstant _ | .addVariable _ _ | .setGroups _ | .makeWorld _ _
  | .parse _ => inferInstanceAs (Decidable True)

/-! ### What operations answer -/

variable {k : Key} {old new : SymbolId} {w : World} {c : Changes} {β : Type}

namespace Serves

theorem replies {x : Session → β × Session} {P : Session → β → Prop} {f : β → Reply}
    (served : Serves x s P) (hf : ∀ {s' b}, P s' b → (f b).Fits s') :
    Serves (fun s => (f (x s).1, (x s).2)) s fun s r => r.Fits s :=
  ⟨served.sound, served.keeps, served.closed, hf served.result⟩

end Serves

/-- The operation succeeds, or the numbers have run out. -/
def Succeeds (x : SessionM α) (s : Session) : Prop :=
  (∃ a, (x s).1 = .ok a) ∨ (x s).1 = .error .outOfNumbers ∧ (x s).2.store.Full

theorem Repeats.succeeds_of_error {x y : SessionM α} (again : Repeats x y)
    (spent : ∀ {e s'}, x s = (.error e, s') → e = .outOfNumbers) : Succeeds x s := by
  rcases hx : x s with ⟨e | a, s'⟩
  · obtain rfl := spent hx
    exact .inr ⟨congrArg Prod.fst hx, by rw [hx]; exact again.full hx⟩
  · exact .inl ⟨a, congrArg Prod.fst hx⟩

theorem Repeats.succeeds {x y : SessionM α} {good : Session → α → Prop} (again : Repeats x y)
    (served : Serves x s (Gives good (· = .outOfNumbers))) : Succeeds x s := by
  refine again.succeeds_of_error fun hx => ?_
  have result := served.result
  rwa [hx] at result

theorem serves_substituteAll {bindings : List (SymbolId × SymbolId)} (hs : s.Sound)
    (known : s.store.contains k) (words : ∀ b ∈ bindings, s.HasWord b.2) :
    Serves (substituteAll k bindings) s
      (Gives (fun s k => s.store.contains k) (· = .outOfNumbers)) := by
  induction bindings generalizing s k with
  | nil => exact .pure hs known
  | cons b bindings ih =>
      obtain ⟨word, words⟩ := List.forall_mem_cons.mp words
      exact .bind (serves_substitute_known hs known word) fun keeps sound _ known' =>
        ih sound known' fun b hb => (words b hb).mono keeps

/-- A collection fails as the operation does that gives what it has collected. -/
theorem Hoards.fits {x : ChangesM Unit}
    (result : Hoards (fun _ _ => True) (x c s).2 (x c s).1)
    (error : ∀ {e s'}, changesFrom c x s = (.error e, s') → ¬e.Missing) :
    (Reply.ofChanges (x c s).1).Fits (x c s).2 := by
  refine ⟨⟨result.1, by simp [Reply.ofChanges], by simp [Reply.ofChanges]⟩, fun e he => ?_⟩
  unfold changesFrom at error
  rcases hx : x c s with ⟨⟨e' | ⟨⟩, c'⟩, s'⟩ <;> rw [hx] at he error <;> cases he
  exact error rfl

/-- **One operation.**  Passed what a closed session has given out, it gives out what the session
has, and finds nothing missing. -/
theorem Operation.serves {op : Operation} (hop : op ≠ .reset) (hs : s.Sound) (hc : s.Closed)
    (provides : s.Provides h) (uses : op.Uses h) :
    Serves (fun s => (op.reply s, op.run s)) s fun s r => r.Fits s := by
  have fits := hs.canonical
  have there {e : FormulaError} (he : e = .outOfNumbers) : ¬e.Missing := he ▸ id
  cases op with
  | reset => exact absurd rfl hop
  | intern text =>
      exact (serves_intern hs text).replies (f := fun c => { handles := .ofSymbol c }) fun named =>
        Reply.fits_handles (provides_ofSymbol named.hasWord)
  | addConstant text =>
      exact (serves_addConstant hs text).replies (f := fun k => { handles := .ofKey k })
        fun ⟨c, found, _⟩ =>
          Reply.fits_handles (provides_ofKey (NodeStore.contains_iff.mpr ⟨_, found⟩))
  | addVariable text group =>
      refine (serves_addVariable hs text group id).replies fun result => Reply.fits_of result ?_
      exact fun ⟨_, _, found, _⟩ => provides_ofKey (NodeStore.contains_iff.mpr ⟨_, found⟩)
  | addCompound kind args =>
      have known : ∀ a ∈ args, s.store.contains a := fun a ha => provides.keys a (uses a ha)
      refine (serves_addCompound hs fun h => (addCompound_refuses known h).there).replies
        fun result => Reply.fits_of result ?_
      exact fun ⟨_, _, found⟩ => provides_ofKey (NodeStore.contains_iff.mpr ⟨_, found⟩)
  | addWorld atoms =>
      have known : ∀ a ∈ atoms, s.store.contains a := fun a ha =>
        provides.keys a (uses a (Std.ExtTreeSet.mem_toList.mpr ha))
      exact (serves_addWorld hs known id).replies fun result =>
        Reply.fits_of result fun found => provides_ofWorld ⟨_, found⟩
  | setGroups groups =>
      exact (serves_setGroups hs groups).replies (f := fun _ => {}) fun _ =>
        Reply.fits_handles provides_none
  | makeWorld atoms groups =>
      exact (serves_makeWorld hs atoms groups).replies fun result =>
        Reply.fits_of result provides_ofWorld
  | parse text =>
      exact (serves_parse hs text).replies fun result =>
        Reply.fits_of result fun formula => provides_ofKey formula.contains
  | substitute k old new =>
      obtain ⟨key, -, word⟩ := uses
      exact (serves_substitute_known hs (provides.keys k key) (provides.symbols new word)).replies
        fun result => Reply.fits_of (result.imp_error there) provides_ofKey
  | substituteAll k bindings =>
      obtain ⟨key, words⟩ := uses
      exact (serves_substituteAll hs (provides.keys k key) fun b hb =>
        provides.symbols b.2 (words b hb).2).replies
        fun result => Reply.fits_of (result.imp_error there) provides_ofKey
  | evaluate k w =>
      obtain ⟨key, world⟩ := uses
      exact (serves_evaluate_known hs hc (provides.keys k key) (provides.worlds w world)).replies
        fun result => Reply.fits_of (result.imp_error (·.there)) fun _ => provides_none
  | laxEvaluate k upper lower =>
      obtain ⟨key, above, below⟩ := uses
      exact (serves_laxEvaluate_known hs hc (provides.keys k key) (provides.worlds upper above)
        (provides.worlds lower below)).replies
        fun result => Reply.fits_of (result.imp_error (·.there)) fun _ => provides_none
  -- the atoms that a collection starts from are handles, too
  | collect c k w =>
      obtain ⟨atoms, key, world⟩ := uses
      have known : s.Knows c.keys := fun a ha => provides.keys a (atoms a ha)
      obtain ⟨d, collects⟩ := exists_collects fits known
      obtain ⟨sound, keeps, closed, result⟩ := serves_collect hs hc known k w
      exact ⟨sound, keeps, closed, result.fits fun h =>
        (collect_refuses fits (provides.keys k key) collects (provides.worlds w world) h).there⟩
  | collectAll c k =>
      obtain ⟨atoms, key⟩ := uses
      have known : s.Knows c.keys := fun a ha => provides.keys a (atoms a ha)
      obtain ⟨d, collects⟩ := exists_collects fits known
      obtain ⟨sound, keeps, closed, result⟩ := serves_collectAll hs hc known k
      exact ⟨sound, keeps, closed, result.fits fun h =>
        (collectAll_refuses fits (provides.keys k key) collects h).there⟩
  | apply w k =>
      obtain ⟨world, key⟩ := uses
      exact (serves_apply_known hs hc (provides.keys k key) (provides.worlds w world)).replies
        fun result => Reply.fits_of (result.imp_error (·.there)) provides_ofWorld

/-! ### Clients -/

/-- A session, and the handles that it has given out since it was new. -/
structure Client where
  session : Session := ∅
  given : Handles := {}

namespace Client

variable {c c' : Client} {op : Operation} {ops more : List Operation}

/-- An operation adds to what has been given out.  A session that has been reset is new. -/
def after (c : Client) : Operation → Client
  | .reset => {}
  | op => ⟨op.run c.session, c.given ++ (op.reply c.session).handles⟩

/-- The client after some operations. -/
def run (ops : List Operation) (c : Client) : Client := ops.foldl after c

/-- Each operation is passed only what was given out before it, since the last reset. -/
def Honest : List Operation → Client → Prop
  | [], _ => True
  | op :: ops, c => op.Uses c.given ∧ Honest ops (c.after op)

instance : (ops : List Operation) → (c : Client) → Decidable (Honest ops c)
  | [], _ => inferInstanceAs (Decidable True)
  | op :: ops, c =>
    have := instDecidableHonest ops (c.after op)
    inferInstanceAs (Decidable (_ ∧ _))

theorem after_of_ne_reset (hop : op ≠ .reset) (c : Client) :
    c.after op = ⟨op.run c.session, c.given ++ (op.reply c.session).handles⟩ := by
  cases op with
  | reset => exact absurd rfl hop
  | _ => rfl

/-- What has been given out is there, and nothing is missing. -/
structure Fits (c : Client) : Prop where
  sound : c.session.Sound
  closed : c.session.Closed
  provides : c.session.Provides c.given

theorem fits_new : Fits {} := ⟨sound_empty, closed_empty, provides_none⟩

theorem Fits.serves (hc : c.Fits) (hop : op ≠ .reset) (uses : op.Uses c.given) :
    Serves (fun s => (op.reply s, op.run s)) c.session fun s r => r.Fits s :=
  op.serves hop hc.sound hc.closed hc.provides uses

theorem Fits.after (hc : c.Fits) (uses : op.Uses c.given) : (c.after op).Fits := by
  by_cases hop : op = .reset
  · subst hop
    exact fits_new
  · rw [after_of_ne_reset hop]
    obtain ⟨sound, keeps, closed, fits⟩ := hc.serves hop uses
    exact ⟨sound, closed hc.closed, (hc.provides.mono keeps).append fits.provides⟩

theorem Fits.run (hc : c.Fits) (honest : Honest ops c) : (run ops c).Fits := by
  induction ops generalizing c with
  | nil => exact hc
  | cons op ops ih =>
      obtain ⟨uses, rest⟩ := honest
      exact ih (hc.after uses) rest

theorem session_run (ops : List Operation) (c : Client) :
    (run ops c).session = runAll ops c.session := by
  induction ops generalizing c with
  | nil => rfl
  | cons op ops ih =>
      have first : (c.after op).session = op.run c.session := by cases op <;> rfl
      exact (ih (c.after op)).trans (congrArg (runAll ops) first)

/-- **A session never loses a key.**  Take any operations, of which some may fail and some may be
resets, as long as each is passed only handles that were given out before it since the last reset.
After more of them without a reset, a key that had been given out stands for the same node as it
did, and a symbol for the same word.  No such operation fails because something is missing, every
key can be printed, and symbols can be replaced in it unless the numbers have run out. -/
theorem never_loses (first : Honest ops {}) (hc : run ops {} = c) (later : Honest more c)
    (kept : ∀ op ∈ more, op ≠ .reset) (hc' : run more c = c') :
    (∀ k ∈ c.given.keys, ∃ n, c.session.store.node k = .ok n ∧ c'.session.store.node k = .ok n) ∧
    (∀ v ∈ c.given.symbols, ∃ word, c.session.word v = .ok word ∧ c'.session.word v = .ok word) ∧
    (∀ op : Operation, op.Uses c'.given → ∀ e ∈ (op.reply c'.session).error, ¬e.Missing) ∧
    (∀ k ∈ c'.given.keys, ∃ text, c'.session.render k = .ok text) ∧
    (∀ k ∈ c'.given.keys, ∀ old ∈ c'.given.symbols, ∀ new ∈ c'.given.symbols,
      Succeeds (substitute k old new) c'.session) ∧
    ∀ k ∈ c'.given.keys, ∀ bindings : List (SymbolId × SymbolId),
      (∀ b ∈ bindings, b.1 ∈ c'.given.symbols ∧ b.2 ∈ c'.given.symbols) →
      Succeeds (substituteAll k bindings) c'.session := by
  have before : c.Fits := hc ▸ fits_new.run first
  have now : c'.Fits := hc' ▸ before.run later
  have keeps : Keeps c.session c'.session := by
    rw [← hc', session_run]
    exact keeps_runAll before.sound kept
  -- the first two look back at what was there, the others only at what is there now
  refine ⟨fun k hk => ?_, fun v hv => ?_, fun op uses e he => ?_, fun k hk => ?_,
    fun k hk old _ new hnew => ?_, fun k hk bindings hb => ?_⟩
  · obtain ⟨n, found⟩ := NodeStore.contains_iff.mp (before.provides.keys k hk)
    exact ⟨n, NodeStore.node_of_find? found, NodeStore.node_of_find? (keeps.store.nodes found)⟩
  · obtain ⟨word, found⟩ := before.provides.symbols v hv
    exact ⟨word, word_of_word? found, word_of_word? (keeps.words.words found)⟩
  · by_cases hop : op = .reset
    · subst hop
      cases he
    · exact (now.serves hop uses).result.there e he
  · exact now.closed.exists_render (now.provides.keys k hk)
  · exact (repeats_substitute k old new).succeeds
      (serves_substitute_known now.sound (now.provides.keys k hk) (now.provides.symbols new hnew))
  · exact (repeats_substituteAll k bindings).succeeds (serves_substituteAll now.sound
      (now.provides.keys k hk) fun b hb' => now.provides.symbols b.2 (hb b hb').2)

/-! ### A passage -/

/-- A world and a condition are asked for after a reset. -/
def arrival : List Operation :=
  [.addConstant "x", .reset, .makeWorld ["(open a)"] [("", ["a", "b"])],
    .parse "(exists (?d) (and (open ?d) (not (locked ?d))))", .intern "?d", .intern "b"]

/-- Some text cannot be read, the condition is decided and rewritten, and the objects vanish. -/
def passing : List Operation :=
  [.parse "(open b", .evaluate (.ofKind .existential 7) ⟨.ofKind .world 2⟩,
    .substitute (.ofKind .existential 7) ⟨4⟩ ⟨2⟩, .setGroups []]

theorem never_loses_passage :
    let passage := Key.ofKind .existential 7
    let c := run arrival {}
    let c' := run passing c
    passage ∈ c.given.keys ∧ ⟨4⟩ ∈ c.given.symbols ∧
    ((Operation.parse "(open b").reply c.session).error = some (.unbalanced "(open b" .unclosed) ∧
    (∃ n, c.session.store.node passage = .ok n ∧ c'.session.store.node passage = .ok n) ∧
    (∃ word, c.session.word ⟨4⟩ = .ok word ∧ c'.session.word ⟨4⟩ = .ok word) ∧
    (∃ text, c'.session.render passage = .ok text) ∧
    Succeeds (substitute passage ⟨4⟩ ⟨2⟩) c'.session := by
  intro passage c c'
  -- together, so that the client is computed once
  obtain ⟨first, later, given, name, still, refused⟩ : Honest arrival {} ∧ Honest passing c ∧
      passage ∈ c.given.keys ∧ ⟨4⟩ ∈ c.given.symbols ∧
      (passage ∈ c'.given.keys ∧ ⟨4⟩ ∈ c'.given.symbols ∧ ⟨2⟩ ∈ c'.given.symbols) ∧
      ((Operation.parse "(open b").reply c.session).error =
        some (.unbalanced "(open b" .unclosed) := by decide +kernel
  have kept : ∀ op ∈ passing, op ≠ .reset := by simp [passing]
  obtain ⟨nodes, words, -, texts, rewritten, -⟩ :=
    never_loses first (rfl : run arrival {} = c) later kept (rfl : run passing c = c')
  exact ⟨given, name, refused, nodes passage given, words ⟨4⟩ name, texts passage still.1,
    rewritten passage still.1 ⟨4⟩ still.2.1 ⟨2⟩ still.2.2⟩

end Client

end Session

end ClassicalPlanner
