import FostWright.Connections
import FostWright.Lemmas.Registry

/-!
# The registry reaches each live connection once

Every connection in the slots was established, none is in two of them, and those that are not gone are all there (`Registered`). A slot
is made only when no entry is gone, so that there are as many as there have been connections alive at one time.
-/

namespace FostWright

open Lib

namespace Control

/-- A connection that is gone stays so. -/
theorem expired_step {peer : Peering} {s s' : Control} {e : Event} (hs : s.step peer e = some s') :
    s.cap.expired ⊆ s'.cap.expired := by
  rcases steady_step hs with hsteady | hissues | ⟨c, -, rfl⟩
  · rw [hsteady.expired]
    exact List.Subset.refl _
  · rw [hissues.expired]
    exact List.Subset.refl _
  · exact List.subset_cons_self c _

end Control

namespace Connections

/-! ## The loops over the slots -/

/-- The connections that a loop over the slots comes to, in its order. -/
def visited (s : Connections) : List ConnId := s.slots.filter (fun c => ¬s.Gone c)

theorem closeAll_eq (s : Connections) :
    s.closeAll = (s.visited.foldl (fun closed cnx => insert cnx closed) s.closed, s.visited.length) := by
  unfold closeAll
  rw [visit_eq, Nat.zero_add]
  rfl

theorem broadcast_eq (s : Connections) (gen : Nat → Packet) :
    s.broadcast gen =
      { cap := (s.visited.foldl (produceNext gen) (s.control.cap, 0)).1
        calls := (s.visited.foldl (produceNext gen) (s.control.cap, 0)).2
        queued := s.visited.length } := by
  unfold broadcast
  rw [visit_eq, Nat.zero_add]
  rfl

/-- A broadcast leaves the connections that are gone as they are. -/
theorem expired_broadcast (s : Connections) (gen : Nat → Packet) : (s.broadcast gen).cap.expired = s.control.cap.expired := by
  have hfold : ∀ (cs : List ConnId) (state : Capacity × Nat), (cs.foldl (produceNext gen) state).1.expired = state.1.expired := by
    intro cs
    induction cs with
    | nil => exact fun _ => rfl
    | cons c cs ih => exact fun state => ih (produceNext gen state c)
  rw [broadcast_eq]
  exact hfold s.visited _

/-- What the loop of `broadcast` does over a list of different connections: `gen` is called once for each of them, in their order, and
what it returns is appended to the queue of that connection. -/
theorem foldl_produceNext (gen : Nat → Packet) {cs : List ConnId} (hnodup : cs.Nodup) (cap : Capacity) (calls : Nat) :
    (cs.foldl (produceNext gen) (cap, calls)).2 = calls + cs.length ∧
      (∀ i c, cs[i]? = some c →
        (cs.foldl (produceNext gen) (cap, calls)).1.queue c = cap.queue c ++ [gen (calls + i)]) ∧
      ∀ c ∉ cs, (cs.foldl (produceNext gen) (cap, calls)).1.queue c = cap.queue c := by
  induction cs generalizing cap calls with
  | nil =>
    refine ⟨rfl, ?_, fun _ _ => rfl⟩
    intro i c hc
    simp at hc
  | cons first cs ih =>
    obtain ⟨hfirst, hcs⟩ := List.nodup_cons.mp hnodup
    obtain ⟨hcalls, hqueue, hother⟩ := ih hcs (cap.produce first (gen calls)) (calls + 1)
    refine ⟨?_, ?_, ?_⟩
    · rw [List.foldl_cons, List.length_cons, Nat.add_comm cs.length, ← Nat.add_assoc]
      exact hcalls
    · intro i c hc
      cases i with
      | zero =>
        obtain rfl := Option.some.inj hc
        exact (hother first hfirst).trans (Function.update_self _ _ _)
      | succ i =>
        have hne : c ≠ first := by
          rintro rfl
          exact hfirst (List.mem_of_getElem? hc)
        refine (hqueue i c hc).trans ?_
        rw [Nat.add_assoc, Nat.add_comm 1]
        exact congrArg (· ++ _) (Function.update_of_ne hne _ _)
    · intro c hc
      obtain ⟨hne, hc⟩ := not_or.mp (fun hmem => hc (List.mem_cons.mpr hmem))
      exact (hother c hc).trans (Function.update_of_ne hne _ _)

/-! ## The slots -/

/-- The slots hold the connections that are alive, each of them once, and others that were. -/
structure Registered (s : Connections) : Prop where
  nodup : s.slots.Nodup
  established : ∀ c ∈ s.slots, c ∈ s.established
  found : ∀ c ∈ s.alive, c ∈ s.slots

theorem mem_alive (s : Connections) (c : ConnId) : c ∈ s.alive ↔ c ∈ s.established ∧ ¬s.Gone c := Finset.mem_filter

/-- What a step does to the registry: a new connection gets a slot, or some connections go. -/
theorem slots_step {peer : Peering} {overspillCap : Nat} {s s' : Connections} {a : Action}
    (hs : s.step peer overspillCap a = some s') :
    (∃ c, c ∉ s.established ∧ ¬s.Gone c ∧ s'.slots = occupy s.Gone c s.slots ∧ s'.established = insert c s.established ∧
      ∀ d, s'.Gone d ↔ s.Gone d) ∨
      (s'.slots = s.slots ∧ s'.established = s.established ∧ ∀ d, s.Gone d → s'.Gone d) := by
  cases a with
  | established c =>
    obtain ⟨⟨hnew, hthere⟩, rfl⟩ := (Option.ite_none_right_eq_some.mp hs).imp_right Option.some.inj
    exact Or.inl ⟨c, hnew, hthere, rfl, rfl, fun _ => Iff.rfl⟩
  | broadcast gen =>
    cases hs
    refine Or.inr ⟨rfl, rfl, ?_⟩
    intro d hd
    unfold Gone withCap
    rw [expired_broadcast]
    exact hd
  | closeAll =>
    cases hs
    exact Or.inr ⟨rfl, rfl, fun _ => id⟩
  | books e =>
    obtain ⟨control, hcontrol, rfl⟩ := Option.map_eq_some_iff.mp hs
    exact Or.inr ⟨rfl, rfl, fun d hd => Control.expired_step hcontrol hd⟩

/-- A step keeps the slots in order. -/
theorem Registered.step {peer : Peering} {overspillCap : Nat} {s s' : Connections} {a : Action} (h : s.Registered)
    (hs : s.step peer overspillCap a = some s') : s'.Registered := by
  rcases slots_step hs with ⟨c, hnew, -, hslots, hestablished, hgone⟩ | ⟨hslots, hestablished, hgone⟩
  · refine ⟨?_, ?_, ?_⟩
    · rw [hslots]
      exact nodup_occupy h.nodup (fun hc => hnew (h.established c hc))
    · intro d hd
      rw [hestablished, Finset.mem_insert]
      rw [hslots] at hd
      exact (mem_of_mem_occupy hd).imp_right (h.established d)
    · intro d hd
      rw [mem_alive, hestablished, Finset.mem_insert, hgone] at hd
      rw [hslots]
      obtain ⟨rfl | hd, hthere⟩ := hd
      · exact self_mem_occupy d s.slots
      · exact mem_occupy_of_mem (h.found d ((s.mem_alive d).mpr ⟨hd, hthere⟩)) hthere
  · refine ⟨hslots ▸ h.nodup, ?_, ?_⟩
    · rw [hslots, hestablished]
      exact h.established
    · intro d hd
      rw [mem_alive, hestablished] at hd
      rw [hslots]
      exact h.found d ((s.mem_alive d).mpr ⟨hd.1, fun h => hd.2 (hgone d h)⟩)

theorem registered_of_reachable {peer : Peering} {n overspillCap : Nat} {s : Connections}
    (h : (system peer n overspillCap).Reachable s) : s.Registered :=
  h.invariant ⟨List.nodup_nil, fun _ hc => (nomatch hc), fun _ hc => absurd ((mem_alive _ _).mp hc).1 (Finset.notMem_empty _)⟩
    (fun _ _ _ hi _ hs => hi.step hs)

theorem Registered.nodup_visited {s : Connections} (h : s.Registered) : s.visited.Nodup := h.nodup.filter _

/-- The connections that are alive are those that a loop over the slots comes to. -/
theorem Registered.toFinset_visited {s : Connections} (h : s.Registered) : s.visited.toFinset = s.alive := by
  ext c
  unfold visited
  rw [List.mem_toFinset, List.mem_filter, decide_eq_true_eq, mem_alive]
  constructor
  · exact fun hc => ⟨h.established c hc.1, hc.2⟩
  · exact fun hc => ⟨h.found c ((s.mem_alive c).mpr hc), hc.2⟩

theorem Registered.length_visited {s : Connections} (h : s.Registered) : s.visited.length = s.alive.card := by
  rw [← h.toFinset_visited, List.toFinset_card_of_nodup h.nodup_visited]

/-- There is a slot for each connection that is alive. -/
theorem Registered.card_alive_le {s : Connections} (h : s.Registered) : s.alive.card ≤ s.slots.length := by
  rw [← h.length_visited]
  exact List.length_filter_le _ _

/-- A step makes a slot only when there is no other for a connection that is alive after it. -/
theorem Registered.length_step {peer : Peering} {overspillCap : Nat} {s s' : Connections} {a : Action} (h : s.Registered)
    (hs : s.step peer overspillCap a = some s') :
    s.slots.length ≤ s'.slots.length ∧ (s'.slots.length = s.slots.length ∨ s'.slots.length = s'.alive.card) := by
  have h' := h.step hs
  rcases slots_step hs with ⟨c, -, hthere, hslots, -, hgone⟩ | ⟨hslots, -, -⟩
  · rcases @occupy_cases _ s.Gone _ c s.slots with hlength | ⟨hall, hnew⟩
    · rw [← hslots] at hlength
      exact ⟨hlength.ge, Or.inl hlength⟩
    · rw [← hslots] at hnew
      refine ⟨by rw [hnew]; simp, Or.inr ?_⟩
      rw [← h'.length_visited]
      unfold visited
      rw [List.filter_eq_self.mpr]
      intro d hd
      rw [hnew, List.mem_append, List.mem_singleton] at hd
      rw [decide_eq_true_eq, hgone]
      rcases hd with hd | rfl
      · exact hall d hd
      · exact hthere
  · rw [hslots]
    exact ⟨le_rfl, Or.inl rfl⟩

/-- The loop of `close_all` closes the socket of each connection that is alive, closes no other, and returns their number. -/
theorem closeAll_closes {peer : Peering} {n overspillCap : Nat} {s : Connections} (h : (system peer n overspillCap).Reachable s) :
    s.closeAll.1 = s.closed ∪ s.alive ∧ s.closeAll.2 = s.alive.card := by
  have hreg := registered_of_reachable h
  rw [closeAll_eq, ← hreg.length_visited, ← hreg.toFinset_visited]
  refine ⟨?_, rfl⟩
  dsimp only
  generalize s.closed = closed
  induction s.visited generalizing closed with
  | nil => simp
  | cons c cs ih =>
    rw [List.foldl_cons, ih, List.toFinset_cons, Finset.insert_union, Finset.union_insert]

/-- In every run, in every order of connections that are established and destroyed, of broadcasts and of all else: each live connection
is in exactly one slot; there are as many slots as there have been live connections at one time; and a broadcast calls `gen` once for
each of them and appends the packet to its queue, leaves every other queue alone, and returns their number. -/
theorem registry_reaches_each_once (peer : Peering) (n overspillCap : Nat) (as : List Action) (s : Connections)
    (hrun : (system peer n overspillCap).run (system peer n overspillCap).init as = some s) :
    (∀ c ∈ s.alive, s.slots.count c = 1) ∧
      IsGreatest {m | ∃ t, (system peer n overspillCap).Along (system peer n overspillCap).init as t ∧ m = t.alive.card}
        s.slots.length ∧
      ∀ gen, ∃ order : List ConnId, order.Nodup ∧ order.toFinset = s.alive ∧
        (s.broadcast gen).calls = s.alive.card ∧ (s.broadcast gen).queued = s.alive.card ∧
        (∀ i c, order[i]? = some c → (s.broadcast gen).cap.queue c = s.control.cap.queue c ++ [gen i]) ∧
        ∀ c ∉ s.alive, (s.broadcast gen).cap.queue c = s.control.cap.queue c := by
  have hreach : (system peer n overspillCap).Reachable s :=
    System.reachFrom_of_run .refl (System.meets_anyStep _ _ as) hrun
  have hreg := registered_of_reachable hreach
  refine ⟨?_, ?_, ?_⟩
  · intro c hc
    exact List.count_eq_one_of_mem hreg.nodup (hreg.found c hc)
  · refine System.isGreatest_along (fun t => t.alive.card) (fun t => t.slots.length) rfl ?_ ?_ hrun
    · exact fun t ht => (registered_of_reachable ht).card_alive_le
    · exact fun t a u ht hu => (registered_of_reachable ht).length_step hu
  · intro gen
    obtain ⟨hcalls, hqueue, hother⟩ := foldl_produceNext gen hreg.nodup_visited s.control.cap 0
    simp only [Nat.zero_add] at hcalls hqueue
    rw [broadcast_eq, ← hreg.length_visited]
    refine ⟨s.visited, hreg.nodup_visited, hreg.toFinset_visited, hcalls, rfl, hqueue, ?_⟩
    intro c hc
    rw [← hreg.toFinset_visited, List.mem_toFinset] at hc
    exact hother c hc

/-- Of two connections the first goes, and a third takes its slot. -/
theorem registry_reaches_each_once_run :
    ∃ s : Connections, s.slots = [2, 1] ∧ s.slots.count 2 = 1 ∧ s.alive.card ≤ 2 ∧
      ∀ gen, (s.broadcast gen).queued = 2 ∧ (s.broadcast gen).cap.queue 0 = s.control.cap.queue 0 := by
  have hrun : ((system .serverSide 1 1).run (system .serverSide 1 1).init
      [.established 0, .established 1, .books (.expire 0), .broadcast (fun _ => .logMessage [97]), .established 2]).isSome = true := by
    decide
  obtain ⟨s, hs⟩ := Option.isSome_iff_exists.mp hrun
  have hstate : s.slots = [2, 1] ∧ s.alive = {1, 2} := by
    cases hs
    decide
  obtain ⟨hslots, halive⟩ := hstate
  obtain ⟨honce, hmost, hbroadcast⟩ := registry_reaches_each_once .serverSide 1 1 _ s hs
  rw [hslots] at hmost
  refine ⟨s, hslots, honce 2 (by rw [halive]; decide), hmost.2 ⟨s, ⟨_, List.prefix_refl _, hs⟩, rfl⟩, ?_⟩
  intro gen
  obtain ⟨order, -, -, -, hqueued, -, hother⟩ := hbroadcast gen
  rw [halive] at hqueued hother
  exact ⟨hqueued, hother 0 (by decide)⟩

end Connections

end FostWright
