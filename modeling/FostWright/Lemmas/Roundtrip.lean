import FostWright.Lemmas.Pool
import FostWright.Theorems.ChildStdout
import FostWright.Roundtrip

/-!
# What an event leaves of tokens, output and queues

No event makes a token but that of the limiter, none takes back what was printed, and the queue of a child changes only when its stdout
is handled or a job is pushed on it.
-/

namespace FostWright

open Lib

namespace Control

/-- Every token alive is one of a kind, and has been issued. -/
structure Tokens (s : Control) : Prop where
  nodup : s.cap.limiter.live.Nodup
  issued : ∀ t ∈ s.cap.limiter.live, t < s.cap.limiter.issued

/-- What an event does to the tokens: some are destroyed, or one is issued. -/
theorem live_step {peer : Peering} {s s' : Control} {e : Event} (hs : s.step peer e = some s') :
    (s'.cap.limiter.live ≤ s.cap.limiter.live ∧ s'.cap.limiter.issued = s.cap.limiter.issued) ∨
      (s'.cap.limiter.live ≤ s.cap.limiter.issued ::ₘ s.cap.limiter.live ∧
        s'.cap.limiter.issued = s.cap.limiter.issued + 1) := by
  rcases steady_step hs with hsteady | hissues | ⟨c, -, rfl⟩
  · exact Or.inl ⟨hsteady.live, hsteady.issued⟩
  · exact Or.inr ⟨hissues.live, hissues.issued⟩
  · exact Or.inl ⟨le_rfl, rfl⟩

theorem Tokens.step {peer : Peering} {s s' : Control} {e : Event} (h : s.Tokens) (hs : s.step peer e = some s') : s'.Tokens := by
  rcases live_step hs with ⟨hlive, hissued⟩ | ⟨hlive, hissued⟩
  · refine ⟨Multiset.nodup_of_le hlive h.nodup, ?_⟩
    intro t ht
    rw [hissued]
    exact h.issued t (Multiset.mem_of_le hlive ht)
  · refine ⟨Multiset.nodup_of_le hlive ?_, ?_⟩
    · rw [Multiset.nodup_cons]
      exact ⟨fun hmem => Nat.lt_irrefl _ (h.issued _ hmem), h.nodup⟩
    · intro t ht
      rw [hissued]
      rcases Multiset.mem_cons.mp (Multiset.mem_of_le hlive ht) with rfl | ht
      · exact Nat.lt_succ_self _
      · exact Nat.lt_succ_of_lt (h.issued t ht)

/-- A token that is gone does not come back. -/
theorem not_mem_live_step {peer : Peering} {s s' : Control} {e : Event} (hs : s.step peer e = some s') {t : Token}
    (ht : t < s.cap.limiter.issued) (hgone : t ∉ s.cap.limiter.live) :
    t < s'.cap.limiter.issued ∧ t ∉ s'.cap.limiter.live := by
  rcases live_step hs with ⟨hlive, hissued⟩ | ⟨hlive, hissued⟩
  · rw [hissued]
    exact ⟨ht, fun hmem => hgone (Multiset.mem_of_le hlive hmem)⟩
  · rw [hissued]
    refine ⟨Nat.lt_succ_of_lt ht, ?_⟩
    intro hmem
    rcases Multiset.mem_cons.mp (Multiset.mem_of_le hlive hmem) with rfl | hmem
    · exact Nat.lt_irrefl _ ht
    · exact hgone hmem

/-- What was printed stays. -/
theorem stdout_step {peer : Peering} {s s' : Control} {e : Event} (hs : s.step peer e = some s') : s.cap.stdout ⊆ s'.cap.stdout := by
  rcases steady_step hs with hsteady | hissues | ⟨c, -, rfl⟩
  · exact hsteady.stdout.subset
  · rw [hissues.stdout]
    exact List.Subset.refl _
  · exact List.Subset.refl _

/-- The job that an event pushes on the queue of a child. -/
def pushed (s : Control) (k : Nat) : Event → Option Command
  | .written =>
    match s.call with
    | .writing job task j => if j = k then some (job, task) else none
    | _ => none
  | _ => none

/-- An event that does not handle the stdout of a child leaves its queue, up to the job that it pushes. -/
theorem queue_step {peer : Peering} {n : Nat} {s s' : Control} {e : Event} (ha : s.Accounted n) (hs : s.step peer e = some s') {k : Nat}
    (he : ∀ ret, e ≠ .stdout k ret) {child : Childproc} (hk : s.cap.pool.children[k]? = some child) :
    ∃ child', s'.cap.pool.children[k]? = some child' ∧ child'.queue = child.queue ++ (s.pushed k e).toList := by
  cases poolSteps_of_step hs with
  | kept hother hpool _ =>
    refine ⟨child, ?_, ?_⟩
    · rw [hpool]
      exact hk
    · cases e with
      | written => exact absurd rfl hother
      | _ => exact (List.append_nil _).symm
  | @pushed job task j hcall hafter =>
    obtain ⟨target, hj, hroom⟩ := ha.room job task j hcall
    simp only [hafter, Capacity.pool_pushCommand hj, pushed, hcall]
    by_cases hjk : j = k
    · subst hjk
      rw [hk] at hj
      cases hj
      refine ⟨_, List.getElem?_set_self (List.getElem?_eq_some_iff.mp hk).1, ?_⟩
      simp only [Childproc.queue, CircularBuffer.elems_pushBack_of_not_full hroom, List.map_append, if_pos]
      rfl
    · refine ⟨child, ?_, by simp [hjk]⟩
      rw [List.getElem?_set_ne hjk]
      exact hk
  | @answered j ret _ _ _ _ _ hpool _ =>
    have hne : j ≠ k := by
      rintro rfl
      exact he ret rfl
    refine ⟨child, ?_, by simp [pushed]⟩
    rw [hpool, List.getElem?_set_ne hne]
    exact hk

end Control

namespace ExecHelper

/-- What a step does to the books: nothing, or one event, which is internal only when the action is, and which pushes the same job. -/
theorem control_step {s s' : ExecHelper} {a : Action} (h : s.step a = some s') :
    (s'.control = s.control ∧ ∀ k, s.pushes k a = []) ∨
      ∃ e, s.control.step .serverSide e = some s'.control ∧ (e.internal = true → a = .internal e) ∧
        ∀ k, (s.control.pushed k e).toList = s.pushes k a := by
  cases steps_of_step h with
  | consume _ hc => exact Or.inr ⟨.consume, hc, (fun he => absurd he Bool.false_ne_true), fun _ => rfl⟩
  | drained => exact Or.inl ⟨rfl, fun _ => rfl⟩
  | drainedLast _ _ _ hc => exact Or.inr ⟨.inputComplete, hc, (fun he => absurd he Bool.false_ne_true), fun _ => rfl⟩
  | @line l _ _ hc => exact Or.inr ⟨.nextJob l, hc, (fun he => absurd he Bool.false_ne_true), fun _ => rfl⟩
  | eof => exact Or.inl ⟨rfl, fun _ => rfl⟩
  | allDone => exact Or.inl ⟨rfl, fun _ => rfl⟩
  | @inbound c packet _ _ hd =>
    exact Or.inr ⟨.packet c packet, by simp only [Control.step, hd], (fun he => absurd he Bool.false_ne_true), fun _ => rfl⟩
  | @thrown c => exact Or.inr ⟨.overspillWork c, rfl, (fun he => absurd he Bool.false_ne_true), fun _ => rfl⟩
  | @closed c => exact Or.inr ⟨.overspillWork c, rfl, (fun he => absurd he Bool.false_ne_true), fun _ => rfl⟩
  | @expire c _ _ hc => exact Or.inr ⟨.expire c, hc, (fun he => absurd he Bool.false_ne_true), fun _ => rfl⟩
  | @internal e _ _ hc =>
    refine Or.inr ⟨e, hc, fun _ => rfl, ?_⟩
    intro k
    cases e with
    | written =>
      simp only [Control.pushed, pushes]
      cases s.control.call with
      | writing job task j => by_cases hj : j = k <;> simp [hj]
      | _ => rfl
    | _ => rfl

/-- The lines read are those of the `line` actions. -/
theorem read_step {s s' : ExecHelper} {a : Action} (h : s.step a = some s') {line : Line} (hline : line ∈ s'.read) :
    line ∈ s.read ∨ a = .line line := by
  cases steps_of_step h with
  | line _ _ =>
    rcases List.mem_append.mp hline with hline | hline
    · exact Or.inl hline
    · rw [List.mem_singleton] at hline
      exact Or.inr (hline ▸ rfl)
  | _ => exact Or.inl hline

end ExecHelper

end FostWright
