import FostWright.Lemmas.Registry
import Mathlib.Algebra.Order.BigOperators.Group.List
import Mathlib.Algebra.Order.Ring.Nat

/-!
# Where a job goes

Once `next_job` has its token there is a slot for the job. The limit is the number of slots of all queues and the tokens alive are
the jobs in them, so a token that is handed out leaves a connection with spare capacity or a child with room. Without such a
connection the loop over the children ends within one turn, on the first child with room after the last one chosen, and that child
keeps its room until the write is over.
-/

namespace FostWright

open Lib

/-- A connection has spare capacity. -/
def Remote.HasSpare (remote : Remote) : Prop := remote.work.size < remote.cap

/-- Child `k` exists and its queue is full. -/
def ChildPool.FullAt (pool : ChildPool) (k : Nat) : Prop := ∃ child, pool.children[k]? = some child ∧ child.commands.full = true

/-- Of all connections and children, connection `c` alone has got the job: it is in its work, and its `execute` packet is queued for it. -/
structure Capacity.GivenTo (c : ConnId) (remote : Remote) (job : Line) (task : Token) (s s' : Capacity) : Prop where
  entered : s'.connections.find? c = some { remote with work := remote.work.insert job task }
  others : ∀ d, d ≠ c → s'.connections.find? d = s.connections.find? d
  queued : s'.queue c = s.queue c ++ [.execute job]
  quiet : ∀ d, d ≠ c → s'.queue d = s.queue d
  children : s'.pool = s.pool

theorem Capacity.givenTo_giveRemote (s : Capacity) (c : ConnId) (remote : Remote) (job : Line) (task : Token) :
    GivenTo c remote job task s (s.giveRemote c remote job task) := by
  refine ⟨OrdMap.find?_insert_self _ _ _, ?_, Function.update_self _ _ _, ?_, rfl⟩
  · intro d hd
    exact (OrdMap.find?_insert _ _ _ _).trans (if_neg hd)
  · intro d hd
    exact Function.update_of_ne hd _ _

/-! ## One turn of the pool -/

/-- The loop over the children passes children that are full, and ends on one with room. -/
theorem Capacity.rotate_passes {children : List Childproc} {index fuel k : Nat} (h : rotate children index fuel = some k) :
    ∃ turns, 0 < turns ∧ turns ≤ fuel ∧ k = (index + turns) % children.length ∧
      ∀ t, 0 < t → t < turns →
        ∃ child, children[(index + t) % children.length]? = some child ∧ child.commands.full = true := by
  induction fuel generalizing index with
  | zero => cases h
  | succ fuel ih =>
    simp only [rotate] at h
    split at h
    · rename_i child hc
      split at h
      · rename_i hfull
        obtain ⟨turns, hpos, hle, hk, hpassed⟩ := ih h
        refine ⟨turns + 1, Nat.succ_pos _, Nat.succ_le_succ hle, ?_, ?_⟩
        · rw [hk, Nat.mod_add_mod, Nat.add_assoc, Nat.add_comm 1]
        · intro t ht hlt
          by_cases h1 : t = 1
          · subst h1
            exact ⟨child, hc, hfull⟩
          · have hprev := hpassed (t - 1) (by omega) (by omega)
            rw [Nat.mod_add_mod, Nat.add_assoc, Nat.add_sub_cancel' (by omega : 1 ≤ t)] at hprev
            exact hprev
      · cases h
        refine ⟨1, Nat.one_pos, Nat.succ_le_succ (Nat.zero_le _), rfl, ?_⟩
        intro t ht hlt
        omega
    · cases h

/-- The loop goes on without end only when every child it comes to is full. -/
theorem Capacity.rotate_eq_none {children : List Childproc} {index fuel : Nat} (hpos : 0 < children.length)
    (h : rotate children index fuel = none) {t : Nat} (ht : 0 < t) (hle : t ≤ fuel) :
    ∃ child, children[(index + t) % children.length]? = some child ∧ child.commands.full = true := by
  induction fuel generalizing index t with
  | zero => omega
  | succ fuel ih =>
    simp only [rotate] at h
    split at h
    · rename_i child hc
      split at h
      · rename_i hfull
        by_cases h1 : t = 1
        · subst h1
          exact ⟨child, hc, hfull⟩
        · have hnext := ih h (t := t - 1) (by omega) (by omega)
          rw [Nat.mod_add_mod, Nat.add_assoc, Nat.add_sub_cancel' (by omega : 1 ≤ t)] at hnext
          exact hnext
      · cases h
    · rename_i hc
      have hlt := Nat.mod_lt (index + 1) hpos
      rw [List.getElem?_eq_none_iff] at hc
      omega

/-- A whole turn comes to every child. -/
theorem exists_turns (index : Nat) {n k : Nat} (hk : k < n) : ∃ t, 0 < t ∧ t ≤ n ∧ (index + t) % n = k := by
  have hi := Nat.mod_lt index (Nat.zero_lt_of_lt hk)
  have hdiv := Nat.div_add_mod index n
  by_cases hlt : index % n < k
  · refine ⟨k - index % n, by omega, by omega, ?_⟩
    have hsum : index + (k - index % n) = k + n * (index / n) := by omega
    rw [hsum, Nat.add_mul_mod_self_left, Nat.mod_eq_of_lt hk]
  · refine ⟨n - (index % n - k), by omega, by omega, ?_⟩
    have hsum : index + (n - (index % n - k)) = k + n * (index / n + 1) := by
      rw [Nat.mul_add, Nat.mul_one]
      omega
    rw [hsum, Nat.add_mul_mod_self_left, Nat.mod_eq_of_lt hk]

/-- The loop ends within one turn when a child has room. -/
theorem Capacity.nextChild_isSome {s : Capacity} {j : Nat} (h : s.pool.RoomAt j) : ∃ k, s.nextChild = some k := by
  obtain ⟨child, hj, hroom⟩ := h
  have hlt : j < s.pool.children.length := (List.getElem?_eq_some_iff.mp hj).1
  cases hnext : s.nextChild with
  | some k => exact ⟨k, rfl⟩
  | none =>
    obtain ⟨t, ht, hle, hat⟩ := exists_turns s.childIndex hlt
    obtain ⟨child', hj', hfull⟩ := rotate_eq_none (Nat.zero_lt_of_lt hlt) hnext ht hle
    rw [hat, hj, Option.some.injEq] at hj'
    rw [← hj', hroom] at hfull
    cases hfull

/-! ## A token means a slot -/

namespace Capacity

/-- A connection with spare capacity is found when there is one and the connections known are alive. -/
theorem spare_isSome {s : Capacity} (halive : ∀ c, s.Known c → c ∉ s.expired) {c : ConnId} {remote : Remote}
    (hc : s.connections.find? c = some remote) (hspare : remote.HasSpare) : ∃ d remote', s.spare = some (d, remote') := by
  have hmem := (OrdMap.mem_entries_iff _ _ _).mpr hc
  have hfound : (s.spare).isSome = true := by
    unfold spare
    rw [List.find?_isSome]
    exact ⟨(c, remote), hmem, by simp [halive c ⟨remote, hc⟩, show remote.work.size < remote.cap from hspare]⟩
  obtain ⟨⟨d, remote'⟩, h⟩ := Option.isSome_iff_exists.mp hfound
  exact ⟨d, remote', h⟩

/-- While no connection has spare capacity, the jobs in their work are as many as their capacities. -/
theorem totalCap_le {s : Capacity} (h : ∀ c remote, s.connections.find? c = some remote → ¬ remote.HasSpare) :
    s.totalCap ≤ s.connections.total (fun _ remote => remote.work.size) := by
  refine List.sum_le_sum ?_
  intro e he
  exact Nat.le_of_not_lt (h e.1 e.2 ((OrdMap.mem_entries_iff _ _ _).mp he))

/-- Some child has room when the commands of all children are fewer than their slots. -/
theorem exists_roomAt {s : Capacity}
    (h : (s.pool.children.map (fun child => child.commands.size)).sum < bufferSize * s.pool.children.length) :
    ∃ k, s.pool.RoomAt k := by
  by_contra hnone
  have hfull : ∀ m ∈ s.pool.children.map (fun child => child.commands.size), bufferSize ≤ m := by
    intro m hm
    obtain ⟨child, hchild, rfl⟩ := List.mem_map.mp hm
    obtain ⟨k, hk⟩ := List.getElem?_of_mem hchild
    by_contra hlt
    exact hnone ⟨k, child, hk, (CircularBuffer.full_eq_false_iff _).mpr (Nat.lt_of_not_le hlt)⟩
  have hle := List.card_nsmul_le_sum _ bufferSize hfull
  rw [List.length_map, Nat.nsmul_eq_mul, Nat.mul_comm] at hle
  omega

/-- A token that is handed out while no connection has spare capacity leaves a child with room. -/
theorem exists_roomAt_of_nextJob {n : Nat} {s : Capacity} {task : Token} {limiter : Limiter} (ha : s.Accounted n 0)
    (hlim : s.limiter.nextJob = some (task, limiter))
    (hspare : ∀ c remote, s.connections.find? c = some remote → ¬ remote.HasSpare) : ∃ k, s.pool.RoomAt k := by
  refine exists_roomAt ?_
  have hlt := (Limiter.nextJob_eq_some hlim).1
  have hle := totalCap_le hspare
  have hcount : s.limiter.outstanding = (s.pool.children.map (fun child => child.commands.size)).sum +
      s.connections.total (fun _ remote => remote.work.size) := by
    unfold Limiter.outstanding
    rw [ha.tokens, add_zero]
    exact s.card_weigh (fun _ _ => rfl)
  rw [ha.limit, hcount] at hlt
  rw [ha.children]
  omega

end Capacity

namespace Control

/-- A connection that is known stays alive: none expires while it is known, and packets come from live connections. -/
def StaysAlive (s : Control) : Event → Prop
  | .expire c => ¬ s.cap.Known c
  | .packet c _ => c ∉ s.cap.expired
  | _ => True

instance (s : Control) (e : Event) : Decidable (s.StaysAlive e) := by
  unfold StaysAlive
  split <;> infer_instance

/-- The connections known are alive. -/
def KnownAlive (s : Control) : Prop := ∀ c, s.cap.Known c → c ∉ s.cap.expired

/-- One event keeps the known connections alive. -/
theorem KnownAlive.step {peer : Peering} {s s' : Control} {e : Event} (h : s.KnownAlive) (hok : s.StaysAlive e)
    (hs : s.step peer e = some s') : s'.KnownAlive := by
  intro c hc
  obtain ⟨hknown, -⟩ := (known_step hs c).mp hc
  have halive : c ∉ s.cap.expired := by
    rcases hknown with hknown | hreg
    · exact h c hknown
    · cases e with
      | packet d packet => exact hreg.1 ▸ hok
      | _ => exact hreg.elim
  rcases steady_step hs with hsteady | hissues | ⟨d, rfl, rfl⟩
  · rw [hsteady.expired]
    exact halive
  · rw [hissues.expired]
    exact halive
  · rw [List.mem_cons, not_or]
    refine ⟨?_, halive⟩
    rintro rfl
    rcases hknown with hknown | hreg
    · exact hok hknown
    · exact hreg

/-! ## Where a job goes -/

/-- Every index is that of a child. -/
theorem childIndex_lt {peer : Peering} {n : Nat} (hn : 0 < n) {s : Control} (h : (system peer n).Reachable s) :
    s.cap.childIndex < n := by
  refine h.invariant₂ (J := Control.Accounted n) (I := fun s => s.cap.childIndex < n) (fun _ hu => accounted_of_reachable peer hu)
    hn ?_
  intro s e s' ha hlt _ hs
  rcases steady_step hs with hsteady | hissues | ⟨_, -, rfl⟩
  · rw [hsteady.childIndex]
    exact hlt
  · rcases hissues.chosen with heq | ⟨⟨child, hk, -⟩, -⟩
    · rw [heq]
      exact hlt
    · rw [← ha.books.children]
      exact (List.getElem?_eq_some_iff.mp hk).1
  · exact hlt

/-- The job goes to a connection with spare capacity when there is one. -/
theorem token_of_spare {peer : Peering} {s : Control} (halive : s.KnownAlive) {job : Line} {task : Token} {limiter : Limiter}
    (hcall : s.call = .waiting job) (hlim : s.cap.limiter.nextJob = some (task, limiter))
    (hspare : ∃ c remote, s.cap.connections.find? c = some remote ∧ remote.HasSpare) :
    ∃ c remote s', s.cap.connections.find? c = some remote ∧ remote.HasSpare ∧ s.step peer .token = some s' ∧
      s.cap.GivenTo c remote job task s'.cap ∧ s'.call = .idle := by
  obtain ⟨c, remote, hc, hroom⟩ := hspare
  obtain ⟨d, remote', hsp⟩ := Capacity.spare_isSome (s := s.cap.accept limiter) halive hc hroom
  obtain ⟨hd, -, hroom'⟩ := Capacity.spare_eq_some hsp
  have hgiven := (s.cap.accept limiter).givenTo_giveRemote d remote' job task
  refine ⟨d, remote', { cap := (s.cap.accept limiter).giveRemote d remote' job task, call := .idle }, hd, hroom', ?_,
    ⟨hgiven.entered, hgiven.others, hgiven.queued, hgiven.quiet, hgiven.children⟩, rfl⟩
  simp only [step, hcall, hlim, placeJob, hsp]

/-- Without such a connection it goes to the first child with room, after the last one chosen. -/
theorem token_of_no_spare (peer : Peering) {n : Nat} {s : Control} (ha : s.Accounted n) {job : Line} {task : Token}
    {limiter : Limiter} (hcall : s.call = .waiting job) (hlim : s.cap.limiter.nextJob = some (task, limiter))
    (hspare : ∀ c remote, s.cap.connections.find? c = some remote → ¬ remote.HasSpare) :
    ∃ turns k, 0 < turns ∧ turns ≤ n ∧ k = (s.cap.childIndex + turns) % n ∧ s.cap.pool.RoomAt k ∧
      (∀ t, 0 < t → t < turns → s.cap.pool.FullAt ((s.cap.childIndex + t) % n)) ∧
      s.step peer .token = some { cap := { s.cap.accept limiter with childIndex := k }, call := .writing job task k } := by
  have hbooks := ha.books
  rw [hcall] at hbooks
  obtain ⟨j, hj⟩ := Capacity.exists_roomAt_of_nextJob hbooks hlim hspare
  obtain ⟨k, hk⟩ := Capacity.nextChild_isSome (s := s.cap.accept limiter) hj
  obtain ⟨turns, hpos, hle, hturns, hpassed⟩ := Capacity.rotate_passes hk
  have hlen : (s.cap.accept limiter).pool.children.length = n := hbooks.children
  rw [hlen] at hle hturns hpassed
  refine ⟨turns, k, hpos, hle, hturns, Capacity.rotate_eq_some hk, hpassed, ?_⟩
  have hnone : (s.cap.accept limiter).spare = none := by
    cases hsp : (s.cap.accept limiter).spare with
    | none => rfl
    | some p =>
      obtain ⟨hc, -, hroom⟩ := Capacity.spare_eq_some hsp
      exact absurd hroom (hspare p.1 p.2 hc)
  simp only [step, hcall, hlim, placeJob, hnone, hk]

/-- A turn that comes back to the last child has passed all others. -/
theorem full_of_same {n index turns k : Nat} {pool : ChildPool} (hlt : index < n) (hpos : 0 < turns) (hle : turns ≤ n)
    (hk : k = (index + turns) % n) (hpassed : ∀ t, 0 < t → t < turns → pool.FullAt ((index + t) % n)) (hsame : k = index) :
    ∀ j, j < n → j ≠ k → pool.FullAt j := by
  have hturns : turns = n := by
    by_contra hne
    have hsmall : turns < n := Nat.lt_of_le_of_ne hle hne
    rw [hsame] at hk
    by_cases hwrap : index + turns < n
    · rw [Nat.mod_eq_of_lt hwrap] at hk
      omega
    · rw [Nat.mod_eq_sub_mod (Nat.le_of_not_lt hwrap), Nat.mod_eq_of_lt (by omega)] at hk
      omega
  intro j hj hne
  obtain ⟨t, ht, htn, hat⟩ := exists_turns index hj
  rw [← hat]
  refine hpassed t ht ?_
  rw [hturns]
  refine Nat.lt_of_le_of_ne htn ?_
  rintro rfl
  rw [Nat.add_mod_right, Nat.mod_eq_of_lt hlt] at hat
  exact hne (hat.symm.trans hsame.symm)

/-- In every state of the books of a process with a child, while known connections stay alive: once the limiter hands out a token, the
job goes to one connection with spare capacity and to no child, or, if there is none, the loop over the children ends within one
turn, on the first child with room after the last one chosen, which is the same one only if all others are full; the index is always
that of a child, the last one chosen; and there is room for the job that is being written. -/
theorem next_job_finds_slot (peer : Peering) (n : Nat) (hn : 0 < n) (s : Control) (h : (system peer n).Reach StaysAlive s) :
    (∀ job task limiter, s.call = .waiting job → s.cap.limiter.nextJob = some (task, limiter) →
      ((∃ c remote, s.cap.connections.find? c = some remote ∧ remote.HasSpare) →
        ∃ c remote s', s.cap.connections.find? c = some remote ∧ remote.HasSpare ∧ s.step peer .token = some s' ∧
          s.cap.GivenTo c remote job task s'.cap ∧ s'.call = .idle) ∧
      ((∀ c remote, s.cap.connections.find? c = some remote → ¬ remote.HasSpare) →
        ∃ turns k, 0 < turns ∧ turns ≤ n ∧ k = (s.cap.childIndex + turns) % n ∧ s.cap.pool.RoomAt k ∧
          (∀ t, 0 < t → t < turns → s.cap.pool.FullAt ((s.cap.childIndex + t) % n)) ∧
          (k = s.cap.childIndex → ∀ j, j < n → j ≠ k → s.cap.pool.FullAt j) ∧
          s.step peer .token = some { cap := { s.cap.accept limiter with childIndex := k }, call := .writing job task k })) ∧
    s.cap.childIndex < n ∧
    (∀ e s', s.step peer e = some s' → s'.cap.childIndex = s.cap.childIndex ∨
      ∃ job task, s'.call = .writing job task s'.cap.childIndex) ∧
    (∀ job task k, s.call = .writing job task k → s.cap.pool.RoomAt k) := by
  have hreach : (system peer n).Reachable s := h.mono (fun _ _ _ => trivial)
  have ha := accounted_of_reachable peer hreach
  have hlt := childIndex_lt hn hreach
  have halive : s.KnownAlive :=
    h.invariant (I := KnownAlive) (fun c hc => absurd hc (by simp [system, Capacity.init, Capacity.Known]))
      (fun _ _ _ hi hok hs => hi.step hok hs)
  refine ⟨?_, hlt, ?_, ?_⟩
  · intro job task limiter hcall hlim
    refine ⟨token_of_spare halive hcall hlim, ?_⟩
    intro hspare
    obtain ⟨turns, k, hpos, hle, hk, hroom, hpassed, hstep⟩ := token_of_no_spare peer ha hcall hlim hspare
    exact ⟨turns, k, hpos, hle, hk, hroom, hpassed, full_of_same hlt hpos hle hk hpassed, hstep⟩
  · intro e s' hs
    rcases steady_step hs with hsteady | hissues | ⟨_, -, rfl⟩
    · exact Or.inl hsteady.childIndex
    · exact hissues.chosen.imp_right And.right
    · exact Or.inl rfl
  · exact ha.room

/-- The queue of child 1 is full, so the next job goes to child 0 again. -/
theorem next_job_finds_slot_run :
    ∃ s : Control, s.cap.childIndex = 0 ∧
      (∃ job task limiter, s.call = .waiting job ∧ s.cap.limiter.nextJob = some (task, limiter) ∧
      ∃ turns k, 0 < turns ∧ turns ≤ 2 ∧ k = (s.cap.childIndex + turns) % 2 ∧ s.cap.pool.RoomAt k ∧
        (k = s.cap.childIndex → ∀ j, j < 2 → j ≠ k → s.cap.pool.FullAt j)) := by
  obtain ⟨s, hs, hp⟩ := System.reach_of_restrict_run (S := system .serverSide 2) StaysAlive
    [.nextJob [97], .token, .written, .nextJob [98], .token, .written, .stdout 0 [98], .nextJob [99], .token, .written,
      .nextJob [100], .token, .written, .stdout 0 [100], .nextJob [101], .token, .written, .nextJob [102], .token, .written,
      .nextJob [103]]
    (fun s => s.cap.childIndex == 0 && s.cap.connections.entries.isEmpty && (s.step .serverSide .token).isSome) (by decide)
  simp only [Bool.and_eq_true, beq_iff_eq] at hp
  obtain ⟨⟨hindex, hempty⟩, hsome⟩ := hp
  obtain ⟨s', hs'⟩ := Option.isSome_iff_exists.mp hsome
  obtain ⟨job, task, limiter, hcall, hlim, -⟩ := step_token hs'
  have hnone : ∀ c remote, s.cap.connections.find? c = some remote → ¬ remote.HasSpare := by
    intro c remote hc
    have hmem := (OrdMap.mem_entries_iff _ _ _).mpr hc
    rw [List.isEmpty_iff.mp hempty] at hmem
    cases hmem
  obtain ⟨turns, k, hpos, hle, hk, hroom, -, hsame, -⟩ :=
    ((next_job_finds_slot .serverSide 2 (by decide) s hs).1 job task limiter hcall hlim).2 hnone
  exact ⟨s, hindex, job, task, limiter, hcall, hlim, turns, k, hpos, hle, hk, hroom, hsame⟩

end Control

end FostWright
