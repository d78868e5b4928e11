import ClassicalPlanner.Proofs.Plan.Estimate
import ClassicalPlanner.Proofs.Session.Grants
import ClassicalPlanner.Proofs.Session.Quiet
import ClassicalPlanner.Proofs.Tree.Goal

/-!
# The goal count and the goal

The goal count reads a goal as an effect, and counts along two lists of keys; the test of the goal
walks through the formula.  For a goal of literals both speak of the same atoms
(`goal_count_agrees`).

The count has 32 bits, and they are enough, since the atoms of a session are numbered with as many
(`Lists.card_lt`).
-/

namespace ClassicalPlanner

namespace Session

variable {s r : Session} {k : Key} {t : Tree} {w : World} {a atoms : AtomSet}
variable {G W : Finset Tree}

/-! ### The count -/

/-- Atoms that are listed are fewer than numbers of 32 bits. -/
theorem Lists.card_lt (h : s.Lists a G) (hs : s.Canonical) (counted : s.store.Counted)
    (each : ∀ u ∈ G, u.IsAtom) : G.card < UInt32.size := by
  rw [← h.size_eq_card hs, ← Std.ExtTreeSet.length_toList]
  refine hs.length_lt counted .atom rfl nodup_toList fun k hk => ?_
  obtain ⟨u, hu, hku⟩ := h.denotes (Std.ExtTreeSet.mem_toList.mp hk)
  obtain ⟨args, rfl⟩ := each u hu
  exact hku.find?

/-- The goal count of a world is the number of atoms that it lacks, whatever keys it lists. -/
theorem exists_value (hr : r.Reachable) (goal : r.Lists atoms G) (each : ∀ u ∈ G, u.IsAtom)
    (found : r.store.find? w.key = some (.world a)) (depicts : r.Depicts a W) :
    ∃ v, (Estimate.goalCount atoms).value w r = (.ok v, r) ∧ v.toNat = (G \ W).card := by
  refine ⟨.ofNat (missing atoms.toList a.toList),
    run_bind_eq_ok.mpr ⟨a, r, atoms_eq_ok_iff.mpr ⟨found, rfl⟩, rfl⟩, ?_⟩
  rw [missing_eq_card hr.canonical goal depicts]
  refine UInt32.toNat_ofNat_of_lt' (Nat.lt_of_le_of_lt (Finset.card_le_card Finset.sdiff_subset) ?_)
  exact goal.card_lt hr.canonical hr.counted each

theorem stays_ofGoal (k : Key) : Stays (Estimate.ofGoal k) :=
  .bind (.collectAll ∅ k) fun _ => .result _

/-- The goal count of a goal of literals is that of the atoms that occur positively in it, unless
the numbers have run out. -/
theorem ofGoal_cases (hs : s.Canonical) (ht : s.store.Denotes k t)
    (goal : t.Conjoins Tree.IsLiteral) :
    (Estimate.ofGoal k s).1 = .error .outOfNumbers ∧ (Estimate.ofGoal k s).2.store.Full ∨
    ∃ c G s', changesFrom ∅ (collectAll k) s = (.ok c, s') ∧ s'.Lists c.add G ∧
      ∀ u, u ∈ G ↔ Tree.Occurs s.members (fun _ => .ok true) true t u := by
  obtain ⟨d, hd⟩ := goal.exists_changeAll s.members
  have gathers := answers_collectAll (F := (changesFrom ∅ (collectAll k) s).2) hs ht collects_empty
  rw [hd] at gathers
  unfold Estimate.ofGoal
  rw [run_bind]
  rcases hc : changesFrom ∅ (collectAll k) s with ⟨e | c, s'⟩ <;> rw [hc] at gathers
  · obtain rfl : e = .outOfNumbers := by
      refine (gathers.of_error hc (le_refl s')).resolve_right fun h => ?_
      obtain ⟨_, ⟨⟩, _⟩ := h
    exact .inl ⟨rfl, (repeats_collectAll ∅ k).full hc⟩
  · obtain ⟨_, ⟨⟩, hc⟩ := gathers.of_ok hc (le_refl s')
    rw [Tree.Delta.empty_union] at hc
    have occurs (u : Tree) : u ∈ d.side true ↔ _ := Tree.mem_delta hd
    exact .inr ⟨_, d.add, s', rfl, hc.add, occurs⟩

/-- A goal of literals that has been counted is decided in every world. -/
theorem exists_evaluate (hr : r.Canonical) (ht : r.store.Denotes k t)
    (goal : t.Conjoins Tree.IsLiteral) (found : r.store.find? w.key = some (.world a))
    (depicts : r.Depicts a W) (quiet : Quiet r (evaluate k w)) :
    ∃ b, evaluate k w r = (.ok b, r) ∧ (b = true ↔ t.Meets r.members W) := by
  obtain ⟨same, enough⟩ := quiet
  obtain ⟨b, hb, meets⟩ : Tree.Decides (Tree.truth r.members W t) (t.Meets r.members W) :=
    goal.decides_truth
  rcases answers_evaluate hr ht ⟨a, found, depicts⟩ (le_of_eq same) with h | h
  · exact absurd h enough
  · exact ⟨b, Prod.ext (h.trans hb) same, meets⟩

/-- **The goal count agrees with the goal.**  Take a registered goal that is put together by
conjunctions and universal quantifiers from atoms and negations of atoms, in any session there can
be.  It has a goal count, unless the numbers run out for its instances.

Take then any world of any later session.  It has an estimate, and the goal is decided there.  The
estimate is the number of atoms that occur positively in the goal, with its quantifiers expanded,
and that are not among the atoms of the world.  If the goal is true, the estimate is 0; and if
nothing in the goal is negated and the estimate is 0, the goal is true. -/
theorem goal_count_agrees (reached : s.Reachable) (ht : s.store.Denotes k t)
    (goal : t.Conjoins Tree.IsLiteral) :
    (Estimate.ofGoal k s).1 = .error .outOfNumbers ∧ (Estimate.ofGoal k s).2.store.Full ∨
    ∃ atoms s', Estimate.ofGoal k s = (.ok (.goalCount atoms), s') ∧
      ∀ {r : Session} {w : World} {a : AtomSet}, r.Reachable → s' ≤ r →
        r.store.find? w.key = some (.world a) →
        ∃ (v : UInt32) (b : Bool) (lacking : Finset Tree),
          (Estimate.goalCount atoms).value w r = (.ok v, r) ∧ evaluate k w r = (.ok b, r) ∧
          v.toNat = lacking.card ∧
          (∀ u, u ∈ lacking ↔ Tree.Occurs s.members (fun _ => .ok true) true t u ∧
            ¬∃ key ∈ a, r.store.Denotes key u) ∧
          (b = true → v = 0) ∧ (t.Conjoins Tree.IsAtom → v = 0 → b = true) := by
  have hs := reached.canonical
  refine (ofGoal_cases hs ht goal).imp_right ?_
  rintro ⟨c, G, s', collected, lists, occurs⟩
  refine ⟨c.add, s', run_bind_eq_ok.mpr ⟨c, s', collected, rfl⟩, fun {r w a} hr later found => ?_⟩
  obtain ⟨grow, -⟩ := (settles_collectAll ∅ k).additive.of_run hs collected
  have most := grow.trans later
  have fits := hr.canonical
  have lists := lists.mono later
  obtain ⟨W, depicts⟩ := exists_depicts fits a
  have atomic : ∀ u ∈ G, u.IsAtom := fun u hu => ((occurs u).mp hu).isAtom
  obtain ⟨v, hv, count⟩ := exists_value hr lists atomic found depicts
  obtain ⟨b, hb, meets⟩ := exists_evaluate fits (ht.mono most.store) goal found depicts
    (quiet_evaluate hs collected fits later ⟨a, found⟩)
  have zero : v = 0 ↔ G ⊆ W := by
    rw [← Finset.sdiff_eq_empty_iff_subset, ← Finset.card_eq_zero, ← count, ← UInt32.toNat_inj]
    rfl
  rw [funext most.members] at meets
  refine ⟨v, b, G \ W, hv, hb, count, fun u => ?_, fun holds => ?_, fun plain none => ?_⟩
  · rw [Finset.mem_sdiff, ← occurs]
    refine and_congr_right fun hu => not_congr ?_
    obtain ⟨key, -, h⟩ := lists.listed hu
    exact ⟨fun mem => ⟨key, (depicts h).mpr mem, h⟩, fun ⟨key, mem, h⟩ => (depicts h).mp mem⟩
  · exact zero.mpr fun u hu => (meets.mp holds ((occurs u).mp hu)).mpr rfl
  · refine meets.mpr fun sign u h => ?_
    obtain rfl := plain.sign_eq h
    exact iff_of_true (zero.mp none ((occurs u).mpr h)) rfl

namespace Stack

/-- One of two blocks is on the block that both should be on. -/
def session : Session := runAll
  [.makeWorld ["(on a c)", "(on b d)"] [("", ["a", "b", "c", "d"]), ("block", ["a", "b"])],
    .parse "(and (forall (?x - block) (on ?x c)) (not (on c a)))"] ∅

def world : World := ⟨.ofKind .world 3⟩

def goal : Key := .ofKind .and 9

/-- The goal as a tree. -/
def wish : Tree :=
  .compound .and
    [.compound .universal [.var ⟨7⟩ ⟨5⟩,
      .compound .atom [.constant ⟨6⟩, .var ⟨7⟩ .none, .constant ⟨3⟩]],
    .compound .not [.compound .atom [.constant ⟨6⟩, .constant ⟨3⟩, .constant ⟨1⟩]]]

theorem denotes_wish : session.store.Denotes goal wish := by
  obtain ⟨predicate, top, bottom, block, binder, asked, every, banned, never, both⟩ :
      session.store.find? (.ofKind .constant 6) = some (.constant ⟨6⟩) ∧
      session.store.find? (.ofKind .constant 1) = some (.constant ⟨1⟩) ∧
      session.store.find? (.ofKind .constant 3) = some (.constant ⟨3⟩) ∧
      session.store.find? (.ofSymbol ⟨7⟩) = some (.variable ⟨7⟩ .none) ∧
      session.store.find? (.ofKind .variable 4) = some (.variable ⟨7⟩ ⟨5⟩) ∧
      session.store.find? (.ofKind .atom 5) =
        some (.atom (.ofKind .constant 6) [.ofSymbol ⟨7⟩, .ofKind .constant 3]) ∧
      session.store.find? (.ofKind .universal 6) =
        some (.universal (.ofKind .variable 4) (.ofKind .atom 5)) ∧
      session.store.find? (.ofKind .atom 7) =
        some (.atom (.ofKind .constant 6) [.ofKind .constant 3, .ofKind .constant 1]) ∧
      session.store.find? (.ofKind .not 8) = some (.not (.ofKind .atom 7)) ∧
      session.store.find? goal = some (.and [.ofKind .universal 6, .ofKind .not 8]) := by
    decide +kernel
  have wanted := NodeStore.Denotes.compound asked rfl
    (.cons (.constant predicate) (.cons (.var block) (.cons (.constant bottom) .nil)))
  have unwanted := NodeStore.Denotes.compound banned rfl
    (.cons (.constant predicate) (.cons (.constant bottom) (.cons (.constant top) .nil)))
  have all := NodeStore.Denotes.compound every rfl (.cons (.var binder) (.cons wanted .nil))
  have none := NodeStore.Denotes.compound never rfl (.cons unwanted .nil)
  exact .compound both rfl (.cons all (.cons none .nil))

theorem conjoins_wish : wish.Conjoins Tree.IsLiteral := by
  refine .and (List.forall_mem_cons.mpr ⟨?_, List.forall_mem_singleton.mpr ?_⟩)
  · exact .universal (.literal (.inl ⟨_, rfl⟩))
  · exact .literal (.inr ⟨_, rfl⟩)

end Stack

open Stack in
/-- One of two atoms of the goal is missing, so the goal is false. -/
theorem goal_count_agrees_stack : ∃ atoms s',
    Estimate.ofGoal goal session = (.ok (.goalCount atoms), s') ∧
    (Estimate.goalCount atoms).value world s' = (.ok 1, s') ∧
    evaluate goal world s' = (.ok false, s') ∧
    ∃ lacking : Finset Tree, lacking.card = 1 ∧
      ∀ u, u ∈ lacking ↔ Tree.Occurs session.members (fun _ => .ok true) true wish u ∧
        ¬∃ key ∈ (.ofList [Key.ofKind .atom 1, Key.ofKind .atom 2] : AtomSet),
          s'.store.Denotes key u := by
  have reached : session.Reachable := Reachable.empty.runAll _
  have later : (Estimate.ofGoal goal session).2.Reachable := stays_ofGoal goal session reached
  -- together, so that the session is computed once
  obtain ⟨found, made, value⟩ :
      (Estimate.ofGoal goal session).2.store.find? world.key =
        some (.world (.ofList [Key.ofKind .atom 1, Key.ofKind .atom 2])) ∧
      (Estimate.ofGoal goal session).1 =
        .ok (.goalCount (.ofList [Key.ofKind .atom 1, Key.ofKind .atom 10])) ∧
      ((Estimate.goalCount (.ofList [Key.ofKind .atom 1, Key.ofKind .atom 10])).value world
        (Estimate.ofGoal goal session).2).1 = .ok 1 := by decide +kernel
  rcases goal_count_agrees reached denotes_wish conjoins_wish with
    ⟨none, -⟩ | ⟨atoms, s', run, agrees⟩
  · cases made.symm.trans none
  · rw [run] at later found made value
    obtain rfl := Estimate.goalCount.inj (Except.ok.inj made)
    obtain ⟨v, b, lacking, hv, hb, count, mem, holds, -⟩ := agrees later (le_refl s') found
    obtain rfl : v = 1 := Except.ok.inj ((congrArg Prod.fst hv).symm.trans value)
    obtain rfl : b = false := Bool.eq_false_iff.mpr fun true => absurd (holds true) (by decide)
    exact ⟨_, s', run, hv, hb, lacking, count.symm, mem⟩

end Session

end ClassicalPlanner
