import ClassicalPlanner.Proofs.Session.Reachable
import ClassicalPlanner.Proofs.Tree.Occurrence
import ClassicalPlanner.Proofs.Tree.Reordering

/-!
# Effects act all at once

Collecting an effect threads two sets through the formula, swaps them under negations, and registers
instances and decides guards on its way.  What it adds to the two sets, whatever they are, is what
occurs in the tree of the effect with either sign.  So an effect takes a world to the one with all
atoms that occur positively, and those from before that do not occur negatively, and another order
of its conjuncts leads to the same world (`effects_act_at_once`).
-/

namespace ClassicalPlanner

/-- The set of atoms added, or that of atoms removed. -/
def Changes.side (c : Changes) : (sign : Bool) → AtomSet
  | true => c.add
  | false => c.remove

theorem Changes.side_swap (c : Changes) (sign : Bool) : c.swap.side sign = c.side (!sign) := by
  cases sign <;> rfl

theorem Changes.not_mem_side_empty {a : Key} {sign : Bool} : a ∉ (∅ : Changes).side sign := by
  cases sign <;> exact Std.ExtTreeSet.not_mem_empty

theorem Changes.mem_side_insert (c : Changes) (k a : Key) (sign : Bool) :
    a ∈ { c with add := c.add.insert k }.side sign ↔ a ∈ c.side sign ∨ sign = true ∧ a = k := by
  cases sign with
  | true =>
      rw [side, Std.ExtTreeSet.mem_insert, Std.LawfulEqOrd.compare_eq_iff_eq]
      simp [side, or_comm, eq_comm]
  | false => simp [side]

namespace Session

variable {s s' F : Session} {k a : Key} {t : Tree} {w w' : World} {c c' : Changes} {sign : Bool}
variable {W : Finset Tree}

/-! ### What a collection starts from -/

/-- Whether it succeeds, what session it leaves, and what it adds to the two sets that it starts
from, does not depend on these. -/
def Accumulates (x : Changes → SessionM Changes) : Prop :=
  ∀ ⦃c c' s s'⦄, x c s = (.ok c', s') → ∃ more : Bool → Key → Prop, ∀ d, ∃ d',
    x d s = (.ok d', s') ∧ ∀ sign a, a ∈ d'.side sign ↔ a ∈ d.side sign ∨ more sign a

namespace Accumulates

variable {α : Type} {x : Changes → SessionM Changes}

theorem none : Accumulates fun c => pure c := by
  intro c c' s s' h
  cases h
  exact ⟨fun _ _ => False, fun d => ⟨d, rfl, fun _ _ => (or_iff_left id).symm⟩⟩

theorem atom (k : Key) : Accumulates fun c => pure { c with add := c.add.insert k } := by
  intro c c' s s' h
  cases h
  exact ⟨fun sign a => sign = true ∧ a = k, fun d =>
    ⟨_, rfl, fun sign a => d.mem_side_insert k a sign⟩⟩

theorem throw (e : FormulaError) : Accumulates fun _ => throw e := by
  intro c c' s s' h
  cases h

/-- An operation comes first. -/
theorem after (y : SessionM α) {x : α → Changes → SessionM Changes} (hx : ∀ a, Accumulates (x a)) :
    Accumulates fun c => y >>= fun a => x a c := by
  intro c c' s s' h
  obtain ⟨a, s₁, h₁, h₂⟩ := run_bind_eq_ok.mp h
  obtain ⟨more, each⟩ := hx a h₂
  refine ⟨more, fun d => ?_⟩
  obtain ⟨d', h₂', mem⟩ := each d
  exact ⟨d', run_bind_eq_ok.mpr ⟨a, s₁, h₁, h₂'⟩, mem⟩

theorem swap (hx : Accumulates x) : Accumulates fun c => x c.swap >>= fun c => pure c.swap := by
  intro c c' s s' h
  obtain ⟨c₁, s₁, h₁, h₂⟩ := run_bind_eq_ok.mp h
  cases h₂
  obtain ⟨more, each⟩ := hx h₁
  refine ⟨fun sign => more (!sign), fun d => ?_⟩
  obtain ⟨d₁, h₁', mem⟩ := each d.swap
  refine ⟨d₁.swap, run_bind_eq_ok.mpr ⟨d₁, s', h₁', rfl⟩, fun sign a => ?_⟩
  rw [Changes.side_swap, mem, Changes.side_swap, Bool.not_not]

theorem foldlM {f : Changes → α → SessionM Changes} (hf : ∀ a, Accumulates (f · a)) (l : List α) :
    Accumulates fun c => l.foldlM f c := by
  induction l with
  | nil => exact none
  | cons a l ih =>
      intro c c' s s' h
      obtain ⟨c₁, s₁, h₁, h₂⟩ := run_bind_eq_ok.mp h
      obtain ⟨first, each₁⟩ := hf a h₁
      obtain ⟨rest, each₂⟩ := ih h₂
      refine ⟨fun sign a => first sign a ∨ rest sign a, fun d => ?_⟩
      obtain ⟨d₁, h₁', mem₁⟩ := each₁ d
      obtain ⟨d', h₂', mem₂⟩ := each₂ d₁
      refine ⟨d', run_bind_eq_ok.mpr ⟨d₁, s₁, h₁', h₂'⟩, fun sign a => ?_⟩
      rw [mem₂, mem₁, or_assoc]

end Accumulates

theorem accumulates_collectWithin (g : Key → SessionM Bool) (n : Nat) (k : Key) :
    Accumulates fun c => changesFrom c (collectWithin g n k) := by
  induction n generalizing k with
  | zero => exact .throw _
  | succ n ih =>
      simp only [changesFrom_collectWithin]
      refine .after (node k) fun node => ?_
      cases node with
      | atom p terms => exact .atom k
      | and parts => exact .foldlM ih parts
      | not part => exact .swap (ih part)
      | when guard effect =>
          refine .after (g guard) fun holds => ?_
          cases holds with
          | true => exact ih effect
          | false => exact .none
      | universal b body => exact .after (instances b body) fun ks => .foldlM ih ks
      | _ => exact .throw _

theorem accumulates_collect (k : Key) (w : World) :
    Accumulates fun c => changesFrom c (collect k w) := by
  simp only [changesFrom_collect]
  exact .after _ fun n => accumulates_collectWithin _ n k

/-- A collection adds to the sets that it starts from what it collects from none. -/
theorem collect_from (h : changesFrom ∅ (collect k w) s = (.ok c, s')) (d : Changes) :
    ∃ d', collect k w d s = ((.ok (), d'), s') ∧
      ∀ sign a, a ∈ d'.side sign ↔ a ∈ d.side sign ∨ a ∈ c.side sign := by
  obtain ⟨more, each⟩ := accumulates_collect k w h
  obtain ⟨c₁, h₁, mem₁⟩ := each ∅
  cases h₁.symm.trans h
  obtain ⟨d', h', mem⟩ := each d
  refine ⟨d', changesFrom_eq_ok.mp h', fun sign a => ?_⟩
  rw [mem, mem₁, or_iff_right Changes.not_mem_side_empty]

/-! ### Occurrences in the formula -/

/-- The atom of the key occurs in the effect, with the guards above it true where the atoms in `W`
hold. -/
def Affects (s : Session) (W : Finset Tree) (effect : Tree) (sign : Bool) (a : Key) : Prop :=
  ∃ u, s.store.Denotes a u ∧ effect.Occurs s.members (Tree.truth s.members W) sign u

theorem Collects.mem_side {d : Tree.Delta} (hs : s.Canonical) (h : s.Collects c d) :
    a ∈ c.side sign ↔ ∃ u, s.store.Denotes a u ∧ u ∈ d.side sign := by
  have lists : s.Lists (c.side sign) (d.side sign) := by
    cases sign with
    | true => exact h.add
    | false => exact h.remove
  constructor
  · intro mem
    obtain ⟨u, hu, ha⟩ := lists.denotes mem
    exact ⟨u, ha, hu⟩
  · rintro ⟨u, ha, hu⟩
    exact (lists.depicts hs (le_refl s) ha).mpr hu

theorem Collects.exists_key {d : Tree.Delta} {u : Tree} (h : s.Collects c d)
    (hu : u ∈ d.side sign) : ∃ k, s.store.Denotes k u := by
  cases sign with
  | true =>
      obtain ⟨k, -, hk⟩ := h.add.listed hu
      exact ⟨k, hk⟩
  | false =>
      obtain ⟨k, -, hk⟩ := h.remove.listed hu
      exact ⟨k, hk⟩

/-! ### The next world -/

variable {e e' : Key} {t' : Tree} {w'' : World} {before : AtomSet}

/-- What an effect that can be applied has collected, and where it leads. -/
theorem collects_of_apply (hs : s.Canonical) (ht : s.store.Denotes e t)
    (hw : s.store.find? w.key = some (.world before)) (depicts : F.Depicts before W)
    (h : apply w e s = (.ok w', s')) (grow : s' ≤ F) :
    ∃ c d s₁, changesFrom ∅ (collect e w) s = (.ok c, s₁) ∧ Tree.change s.members W t = .ok d ∧
      s'.Collects c d ∧ s'.store.find? w'.key = some (.world (c.applyTo before)) := by
  obtain ⟨c, s₁, collected, h⟩ := run_bind_eq_ok.mp h
  obtain ⟨a, s₂, read, added⟩ := run_bind_eq_ok.mp h
  obtain ⟨found, rfl⟩ := atoms_eq_ok_iff.mp read
  obtain ⟨first, fits⟩ := (settles_collect ∅ e w).additive.of_run hs collected
  obtain ⟨later, -⟩ := (settles_addWorld _).additive.of_run fits added
  cases found.symm.trans (first.store.nodes hw)
  have answer := (answers_collect hs ht collects_empty ⟨before, hw, depicts⟩).of_ok collected
    (later.trans grow)
  obtain ⟨d, hd, hc⟩ := answer.eq_ok
  rw [Tree.Delta.empty_union] at hc
  exact ⟨c, d, s₂, collected, hd, hc.mono later, addWorld_eq_ok fits added⟩

/-- **Another order of the conjuncts** leads to the same world. -/
theorem apply_reordered (hs : s.Canonical) (hw : s.store.find? w.key = some (.world before))
    (ht : s.store.Denotes e t) (h : apply w e s = (.ok w', s')) (hF : F.Canonical) (grow : s' ≤ F)
    (ht' : F.store.Denotes e' t') (reordered : t.Reordered t') {F' : Session}
    (h' : apply w e' F = (.ok w'', F')) : w'' = w' := by
  obtain ⟨first, -⟩ := (settles_apply w e).additive.of_run hs h
  obtain ⟨second, fits⟩ := (settles_apply w e').additive.of_run hF h'
  have whole : s ≤ F := first.trans grow
  have later : s' ≤ F' := grow.trans second
  obtain ⟨W, depicts⟩ := exists_depicts fits before
  obtain ⟨c, d, -, -, hd, hc, found⟩ := collects_of_apply hs ht hw depicts h later
  obtain ⟨c', d', -, -, hd', hc', found'⟩ :=
    collects_of_apply hF ht' (whole.store.nodes hw) depicts h' (le_refl F')
  rw [funext whole.members] at hd'
  obtain rfl := Tree.change_reordered reordered hd hd'
  obtain rfl := hc'.unique fits (hc.mono later)
  exact world_unique fits found' (later.store.nodes found)

/-- **Effects act all at once.**  Take a session there can be, a world that it has, and an effect
that can be applied; the trees in `W` are those of the atoms of the world.  All atoms that occur in
the effect are registered then, where quantifiers are expanded over their groups and the guards
above an occurrence are true in the world before.  The atoms of the next world are those that occur
below an even number of negations, and those from before that do not occur below an odd number.  So
an atom that is both added and removed holds.  If from then on another order of the conjuncts, at
any depth, can be applied to the world, it leads to the same one.  Collected from any sets, the
effect adds to each what occurs with its sign. -/
theorem effects_act_at_once (reached : s.Reachable)
    (hw : s.store.find? w.key = some (.world before)) (h : apply w e s = (.ok w', s'))
    (depicts : s'.Depicts before W) :
    ∃ t, s.store.Denotes e t ∧
      (∀ sign u, t.Occurs s'.members (Tree.truth s'.members W) sign u →
        ∃ k, s'.store.Denotes k u) ∧
      (∃ after, s'.store.find? w'.key = some (.world after) ∧ ∀ k, k ∈ after ↔
        s'.Affects W t true k ∨ k ∈ before ∧ ¬s'.Affects W t false k) ∧
      (∀ F, F.Reachable → s' ≤ F → ∀ e' t', F.store.Denotes e' t' → t.Reordered t' →
        ∀ w'' F', apply w e' F = (.ok w'', F') → w'' = w') ∧
      ∀ c, ∃ c' s₁, collect e w c s = ((.ok (), c'), s₁) ∧ ∀ k,
        (k ∈ c'.add ↔ k ∈ c.add ∨ s'.Affects W t true k) ∧
        (k ∈ c'.remove ↔ k ∈ c.remove ∨ s'.Affects W t false k) := by
  have hs := reached.canonical
  obtain ⟨t, ht, -⟩ := hs.exists_denotes (contains_of_apply h)
  obtain ⟨grow, fits⟩ := (settles_apply w e).additive.of_run hs h
  obtain ⟨c, d, s₁, collected, hd, hc, found⟩ := collects_of_apply hs ht hw depicts h (le_refl s')
  have occurs {sign : Bool} {u : Tree} :
      u ∈ d.side sign ↔ t.Occurs s'.members (Tree.truth s'.members W) sign u := by
    rw [funext grow.members]
    exact Tree.mem_delta hd
  have affects (sign : Bool) (k : Key) : k ∈ c.side sign ↔ s'.Affects W t sign k := by
    simp only [Affects, ← occurs]
    exact hc.mem_side fits
  refine ⟨t, ht, fun sign u h => hc.exists_key (occurs.mpr h), ⟨_, found, fun k => ?_⟩,
    fun F reached' later e' t' ht' reordered w'' F' h' =>
      apply_reordered hs hw ht h reached'.canonical later ht' reordered h', fun start => ?_⟩
  · rw [mem_applyTo, ← affects, ← affects]
    exact or_comm
  · obtain ⟨c', run, mem⟩ := collect_from collected start
    simp only [affects] at mem
    exact ⟨c', s₁, run, fun k => ⟨mem true k, mem false k⟩⟩

namespace Lamp

/-- A lamp that is off, and two ways to say that it is turned on and off. -/
def session : Session :=
  runAll [.makeWorld [] [], .parse "(and (lit a) (not (lit a)))",
    .parse "(and (not (lit a)) (lit a))"] ∅

def dark : World := ⟨.ofKind .world 1⟩

def light : World := ⟨.ofKind .world 3⟩

def atom : Key := .ofKind .atom 2

/-- On, then off. -/
def effect : Key := .ofKind .and 4

/-- Off, then on. -/
def turned : Key := .ofKind .and 5

def lit : Tree := .compound .atom [.constant ⟨1⟩, .constant ⟨2⟩]

/-- The nodes of the session that the two effects are made of. -/
theorem nodes : session.store.find? (.ofKind .constant 1) = some (.constant ⟨1⟩) ∧
    session.store.find? (.ofKind .constant 2) = some (.constant ⟨2⟩) ∧
    session.store.find? atom = some (.atom (.ofKind .constant 1) [.ofKind .constant 2]) ∧
    session.store.find? (.ofKind .not 3) = some (.not atom) ∧
    session.store.find? effect = some (.and [atom, .ofKind .not 3]) ∧
    session.store.find? turned = some (.and [.ofKind .not 3, atom]) := by
  decide +kernel

theorem denotes_lit : session.store.Denotes atom lit := by
  obtain ⟨predicate, object, found, -⟩ := nodes
  exact .compound found rfl (.cons (.constant predicate) (.cons (.constant object) .nil))

theorem denotes_not : session.store.Denotes (.ofKind .not 3) (.compound .not [lit]) := by
  obtain ⟨-, -, -, found, -⟩ := nodes
  exact .compound found rfl (.cons denotes_lit .nil)

theorem denotes_effect :
    session.store.Denotes effect (.compound .and [lit, .compound .not [lit]]) := by
  obtain ⟨-, -, -, -, found, -⟩ := nodes
  exact .compound found rfl (.cons denotes_lit (.cons denotes_not .nil))

theorem denotes_turned :
    session.store.Denotes turned (.compound .and [.compound .not [lit], lit]) := by
  obtain ⟨-, -, -, -, -, found⟩ := nodes
  exact .compound found rfl (.cons denotes_not (.cons denotes_lit .nil))

end Lamp

/-- The lamp is on, whichever comes first. -/
theorem effects_act_at_once_lamp : ∃ s', apply Lamp.dark Lamp.effect Lamp.session =
      (.ok Lamp.light, s') ∧
    (∃ after, s'.store.find? Lamp.light.key = some (.world after) ∧ Lamp.atom ∈ after) ∧
    ∀ w F, apply Lamp.dark Lamp.turned s' = (.ok w, F) → w = Lamp.light := by
  have reached : Lamp.session.Reachable := Reachable.empty.runAll _
  obtain ⟨hw, given⟩ : Lamp.session.store.find? Lamp.dark.key = some (.world ∅) ∧
      (apply Lamp.dark Lamp.effect Lamp.session).1 = .ok Lamp.light := by decide +kernel
  have run := run_eq_of_result given
  have reached' : (apply Lamp.dark Lamp.effect Lamp.session).2.Reachable :=
    Stays.operation (.apply Lamp.dark Lamp.effect) (fun _ => rfl) _ reached
  generalize (apply Lamp.dark Lamp.effect Lamp.session).2 = s' at run reached'
  obtain ⟨grow, -⟩ := (settles_apply Lamp.dark Lamp.effect).additive.of_run reached.canonical run
  have depicts : s'.Depicts ∅ ∅ := lists_empty.depicts reached'.canonical (le_refl s')
  obtain ⟨t, ht, -, ⟨after, found, mem⟩, order, -⟩ := effects_act_at_once reached hw run depicts
  obtain rfl := ht.unique Lamp.denotes_effect
  refine ⟨s', run, ⟨after, found, (mem _).mpr (.inl ?_)⟩, fun w F h => ?_⟩
  · exact ⟨Lamp.lit, Lamp.denotes_lit.mono grow.store, .and List.mem_cons_self (.atom _)⟩
  · refine order s' reached' (le_refl s') _ _ (Lamp.denotes_turned.mono grow.store) ?_ w F h
    exact .and (List.forall₂_same.mpr fun t _ => .refl t) (.swap _ _ _)

end Session

end ClassicalPlanner
