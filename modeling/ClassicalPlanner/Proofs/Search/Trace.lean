import ClassicalPlanner.Proofs.Search.Turn

/-!
# Routes and traces

A route is a way through a space from its start, with the actions taken and the exact cost.  A
trace is the way back that a search has noted: from a known state over its predecessor, which is
expanded, and so on to the start, each state once.

Following the links of a traced state gives a route to it (`Traces.route`), and its noted cost is
the cost of that route, cut off at the largest.
-/

namespace ClassicalPlanner.Search

variable {ε State ι : Type}

/-- A way from `start` to a state, and its cost. -/
inductive Route (space : Space ε Id State ι) (start : State) :
    List (PathStep State) → State → Nat → Prop where
  | start : Route space start [⟨none, start⟩] start 0
  | step {steps : List (PathStep State)} {s : State} {n : Nat} {edges : List (Edge State)}
      {e : Edge State} (route : Route space start steps s n)
      (successors : space.successors s = Except.ok edges) (mem : e ∈ edges) :
      Route space start (steps ++ [⟨some e.action, e.state⟩]) e.state (n + e.cost.toNat)

/-- Nothing that a trace reads has changed. -/
structure Record.Keeps (r r' : Record State ι) : Prop where
  state : r'.state = r.state
  cost : r'.cost = r.cost
  previous : r'.previous = r.previous
  action : r'.action = r.action
  visited : r.visited = true → r'.visited = true

theorem Record.Keeps.refl (r : Record State ι) : r.Keeps r := ⟨rfl, rfl, rfl, rfl, id⟩

variable [Ord ι] [Std.TransOrd ι]

/-- From `i` the links lead back to the start over the expanded states `ids`. -/
inductive Traces (space : Space ε Id State ι) (start : State)
    (m : Std.ExtTreeMap ι (Record State ι)) : ι → List ι → Prop where
  | start {i : ι} {r : Record State ι} (found : m[i]? = some r) (state : r.state = start)
      (cost : r.cost = 0) (previous : r.previous = none) (action : r.action = none) :
      Traces space start m i []
  | step {i j : ι} {ids : List ι} {r b : Record State ι} {edges : List (Edge State)}
      {e : Edge State} (found : m[i]? = some r) (before : m[j]? = some b)
      (visited : b.visited = true) (fresh : i ∉ j :: ids)
      (successors : space.successors b.state = Except.ok edges) (mem : e ∈ edges)
      (state : r.state = e.state) (cost : r.cost = addCost b.cost e.cost)
      (previous : r.previous = some j) (action : r.action = some e.action)
      (rest : Traces space start m j ids) : Traces space start m i (j :: ids)

variable {space : Space ε Id State ι} {start : State} {i j : ι} {ids : List ι}
variable {m m' : Std.ExtTreeMap ι (Record State ι)} {r : Record State ι}

theorem Traces.visited (h : Traces space start m i ids) (hj : j ∈ ids) :
    ∃ b, m[j]? = some b ∧ b.visited = true := by
  induction h with
  | start => cases hj
  | step _ before visited _ _ _ _ _ _ _ _ ih =>
      rcases List.mem_cons.mp hj with rfl | hj
      · exact ⟨_, before, visited⟩
      · exact ih hj

/-- A trace stays a trace while the records on it are kept. -/
theorem Traces.mono (h : Traces space start m i ids)
    (keep : ∀ j ∈ i :: ids, ∀ {r}, m[j]? = some r → ∃ r', m'[j]? = some r' ∧ r.Keeps r') :
    Traces space start m' i ids := by
  induction h with
  | start found state cost previous action =>
      obtain ⟨r', found', same⟩ := keep _ List.mem_cons_self found
      exact .start found' (same.state.trans state) (same.cost.trans cost)
        (same.previous.trans previous) (same.action.trans action)
  | step found before visited fresh successors mem state cost previous action _ ih =>
      obtain ⟨r', found', same⟩ := keep _ List.mem_cons_self found
      obtain ⟨b', before', same'⟩ := keep _ (List.mem_cons_of_mem _ List.mem_cons_self) before
      refine .step found' before' (same'.visited visited) fresh (same'.state ▸ successors) mem
        (same.state.trans state) ?_ (same.previous.trans previous) (same.action.trans action)
        (ih fun j hj => keep j (List.mem_cons_of_mem _ hj))
      rw [same.cost, cost, same'.cost]

variable [Std.LawfulEqOrd ι]

theorem getElem?_erase_of_ne (m : Std.ExtTreeMap ι (Record State ι)) (h : i ≠ j) :
    (m.erase i)[j]? = m[j]? := by
  rw [Std.ExtTreeMap.getElem?_erase, if_neg]
  rwa [Std.LawfulEqOrd.compare_eq_iff_eq]

theorem Traces.erase (h : Traces space start m j ids) (fresh : i ∉ j :: ids) :
    Traces space start (m.erase i) j ids := by
  refine h.mono fun k hk r found => ⟨r, ?_, .refl r⟩
  rwa [getElem?_erase_of_ne]
  rintro rfl
  exact fresh hk

theorem Traces.length_lt (h : Traces space start m i ids) : ids.length < m.size := by
  have smaller {m : Std.ExtTreeMap ι (Record State ι)} {i : ι} {r : Record State ι}
      (found : m[i]? = some r) : (m.erase i).size < m.size := by
    have mem : i ∈ m := Std.ExtTreeMap.mem_iff_isSome_getElem?.mpr (by rw [found]; rfl)
    have size := Std.ExtTreeMap.isEmpty_eq_size_beq_zero (t := m)
    rw [Std.ExtTreeMap.isEmpty_eq_false_iff.mpr (fun h => by rw [h] at mem; simp at mem)] at size
    rw [Std.ExtTreeMap.size_erase, if_pos (Std.ExtTreeMap.mem_iff_contains.mp mem)]
    have := beq_eq_false_iff_ne.mp size.symm
    omega
  induction ids generalizing m i with
  | nil =>
      cases h with
      | start found => exact Nat.lt_of_le_of_lt (Nat.zero_le _) (smaller found)
  | cons j ids ih =>
      cases h with
      | step found _ _ fresh _ _ _ _ _ _ rest =>
          exact Nat.lt_of_le_of_lt (ih (rest.erase fresh)) (smaller found)

theorem Traces.trail (h : Traces space start m i ids) (hr : m[i]? = some r) :
    ∃ steps n, Route space start steps r.state n ∧ r.cost.toNat = min n maxCost ∧
      ∀ {bound acc}, ids.length < bound →
        Progress.trail m bound (some i) acc = steps ++ acc := by
  induction ids generalizing m i r with
  | nil =>
      cases h with
      | start found state cost previous action =>
          obtain rfl := Option.some.inj (hr.symm.trans found)
          refine ⟨[⟨none, start⟩], 0, state ▸ .start, by rw [cost]; rfl, fun {bound acc} hb => ?_⟩
          obtain ⟨bound, rfl⟩ := Nat.exists_eq_add_one.mpr hb
          rw [Progress.trail, hr]
          simp only [previous, action, state]
          cases bound <;> rfl
  | cons j ids ih =>
      cases h with
      | @step _ _ _ _ b edges e found before visited fresh successors mem state cost previous
          action rest =>
          obtain rfl := Option.some.inj (hr.symm.trans found)
          have before' : (m.erase i)[j]? = some b := by
            rwa [getElem?_erase_of_ne]
            rintro rfl
            exact fresh List.mem_cons_self
          obtain ⟨steps, n, route, exact, trail⟩ := ih (rest.erase fresh) before'
          refine ⟨steps ++ [⟨some e.action, e.state⟩], n + e.cost.toNat, ?_, ?_, ?_⟩
          · rw [state]
            exact .step route successors mem
          · rw [cost, toNat_addCost, exact]
            omega
          · intro bound acc hb
            obtain ⟨bound, rfl⟩ := Nat.exists_eq_add_one.mpr (Nat.zero_lt_of_lt hb)
            rw [Progress.trail, hr]
            simp only [previous, action, state]
            rw [trail (Nat.lt_of_succ_lt_succ hb), List.append_assoc]
            rfl

/-- **The trail of a traced state** is a route to it. -/
theorem Traces.route (h : Traces space start m i ids) (hr : m[i]? = some r) :
    ∃ steps n, Route space start steps r.state n ∧ r.cost.toNat = min n maxCost ∧
      Progress.trail m m.size (some i) [] = steps := by
  obtain ⟨steps, n, route, cost, trail⟩ := h.trail hr
  exact ⟨steps, n, route, cost, (trail h.length_lt).trans (List.append_nil steps)⟩

end ClassicalPlanner.Search
