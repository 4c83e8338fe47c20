import Mathlib.Logic.Relation
import Mathlib.Order.Bounds.Basic
import Mathlib.Data.List.Induction

/-!
# Transition systems

A system is an initial state and a guarded, executable step: `step s a` is the state after the action `a`, or `none` where
`a` is not enabled in `s`. The same definition replays a concrete list of actions (`run`) and carries the induction over
every reachable state (`Reach`). A condition `ok` on the state before a step and on its action cuts the runs down to those
whose steps all meet it; `Meets` says so of one list of actions. `Along` are the states that one list of actions goes through.
-/

namespace Lib

/-- A transition system: where it starts, and the step of each action, `none` where the action is not enabled. -/
structure System (σ : Type*) (α : Type*) where
  init : σ
  step : σ → α → Option σ

namespace System

variable {σ τ α β : Type*}

/-- The state a list of actions leads to from `s`, if every one of them is enabled in its turn. -/
def run (S : System σ α) : σ → List α → Option σ
  | s, [] => some s
  | s, a :: as => (S.step s a).bind (fun t => S.run t as)

/-- Every step of the run of `as` from `s` meets `ok`. -/
def Meets (S : System σ α) (ok : σ → α → Prop) : σ → List α → Prop
  | _, [] => True
  | s, a :: as => ok s a ∧ ∀ t, S.step s a = some t → S.Meets ok t as

/-- The states reached from `s` by steps that all meet `ok`. -/
inductive ReachFrom (S : System σ α) (ok : σ → α → Prop) (s : σ) : σ → Prop where
  | refl : ReachFrom S ok s s
  | step {t u : σ} (a : α) : ReachFrom S ok s t → ok t a → S.step t a = some u → ReachFrom S ok s u

/-- The states reached from the initial state by steps that all meet `ok`. -/
abbrev Reach (S : System σ α) (ok : σ → α → Prop) : σ → Prop := S.ReachFrom ok S.init

/-- No condition on the steps: every run counts. -/
abbrev anyStep : σ → α → Prop := fun _ _ => True

/-- The states reached by any run. -/
abbrev Reachable (S : System σ α) : σ → Prop := S.Reach anyStep

/-! ## Runs -/

/-- A run whose steps all meet `ok` ends in a state reached by such steps. -/
theorem reachFrom_of_run {S : System σ α} {ok : σ → α → Prop} {s t u : σ} {as : List α} (hs : S.ReachFrom ok s t)
    (hm : S.Meets ok t as) (h : S.run t as = some u) : S.ReachFrom ok s u := by
  induction as generalizing t with
  | nil =>
    simp only [run, Option.some.injEq] at h
    exact h ▸ hs
  | cons a as ih =>
    simp only [run] at h
    cases ha : S.step t a with
    | none => simp [ha] at h
    | some v =>
      rw [ha, Option.bind_some] at h
      exact ih (ReachFrom.step a hs hm.1 ha) (hm.2 v ha) h

/-- A run meets a condition when its first step does and the run from there does. -/
theorem meets_cons {S : System σ α} {ok : σ → α → Prop} {s t : σ} {a : α} (hs : S.step s a = some t) (as : List α) :
    S.Meets ok s (a :: as) ↔ ok s a ∧ S.Meets ok t as := by
  refine and_congr_right (fun _ => ⟨fun hall => hall t hs, ?_⟩)
  intro ht u hu
  rw [hs, Option.some.injEq] at hu
  exact hu ▸ ht

/-- Every list of actions meets the condition that asks nothing. -/
theorem meets_anyStep (S : System σ α) (s : σ) (as : List α) : S.Meets anyStep s as := by
  induction as generalizing s with
  | nil => trivial
  | cons a as ih => exact ⟨trivial, fun t _ => ih t⟩

/-- A replayed list of actions from the initial state whose end passes a test is a reachable state that passes it. -/
theorem reachable_of_run {S : System σ α} (as : List α) (p : σ → Bool) (h : (S.run S.init as).map p = some true) :
    ∃ s, S.Reachable s ∧ p s = true := by
  cases hr : S.run S.init as with
  | none => simp [hr] at h
  | some s =>
    simp only [hr, Option.map_some, Option.some.injEq] at h
    exact ⟨s, reachFrom_of_run ReachFrom.refl (S.meets_anyStep _ as) hr, h⟩

/-- The system cut down to the steps that meet a condition that can be tested. -/
def restrict (S : System σ α) (ok : σ → α → Prop) [∀ s a, Decidable (ok s a)] : System σ α where
  init := S.init
  step := fun s a => if ok s a then S.step s a else none

/-- A list of actions replayed with the condition tested at every step ends in a state reached under the condition. -/
theorem reach_of_restrict_run {S : System σ α} (ok : σ → α → Prop) [∀ s a, Decidable (ok s a)] (as : List α)
    (p : σ → Bool) (h : ((S.restrict ok).run S.init as).map p = some true) : ∃ s, S.Reach ok s ∧ p s = true := by
  obtain ⟨s, hs, hp⟩ := reachable_of_run (S := S.restrict ok) as p h
  refine ⟨s, ?_, hp⟩
  clear h hp
  induction hs with
  | refl => exact ReachFrom.refl
  | step a _ _ hstep ih =>
    simp only [restrict, Option.ite_none_right_eq_some] at hstep
    exact ReachFrom.step a ih hstep.1 hstep.2

/-! ## Reached states -/

/-- A condition that asks less reaches at least the same states. -/
theorem ReachFrom.mono {S : System σ α} {ok ok' : σ → α → Prop} (himp : ∀ s a, ok s a → ok' s a) {s t : σ}
    (h : S.ReachFrom ok s t) : S.ReachFrom ok' s t := by
  induction h with
  | refl => exact ReachFrom.refl
  | step a _ hok hs ih => exact ReachFrom.step a ih (himp _ _ hok) hs

/-- A condition that follows from another in the states on the way may replace it. -/
theorem ReachFrom.strengthen {S : System σ α} {ok ok' : σ → α → Prop} {J : σ → Prop} {s t : σ} (h : S.ReachFrom ok s t)
    (hJ : ∀ u, S.ReachFrom ok s u → J u) (himp : ∀ u a, J u → ok u a → ok' u a) : S.ReachFrom ok' s t := by
  induction h with
  | refl => exact ReachFrom.refl
  | step a hr hok hs ih => exact ReachFrom.step a ih (himp _ a (hJ _ hr) hok) hs

/-- Reaching is transitive. -/
theorem ReachFrom.trans {S : System σ α} {ok : σ → α → Prop} {s t u : σ} (h : S.ReachFrom ok s t)
    (h' : S.ReachFrom ok t u) : S.ReachFrom ok s u := by
  induction h' with
  | refl => exact h
  | step a _ hok hs ih => exact ReachFrom.step a ih hok hs

/-- The invariant rule: what holds at the start and is kept by every step that meets `ok` holds of every state reached. -/
theorem ReachFrom.invariant {S : System σ α} {ok : σ → α → Prop} {I : σ → Prop} {s t : σ} (h : S.ReachFrom ok s t)
    (h0 : I s) (hstep : ∀ s a s', I s → ok s a → S.step s a = some s' → I s') : I t := by
  induction h with
  | refl => exact h0
  | step a _ hok hs ih => exact hstep _ a _ ih hok hs

/-- The invariant rule for a second invariant, with a first one already known of every state on the way. -/
theorem ReachFrom.invariant₂ {S : System σ α} {ok : σ → α → Prop} {J I : σ → Prop} {s t : σ} (h : S.ReachFrom ok s t)
    (hJ : ∀ u, S.ReachFrom ok s u → J u) (h0 : I s)
    (hstep : ∀ s a s', J s → I s → ok s a → S.step s a = some s' → I s') : I t := by
  induction h with
  | refl => exact h0
  | step a hr hok hs ih => exact hstep _ a _ (hJ _ hr) ih hok hs

/-! ## Simulation

`R` relates the states of `S` to those of `T`. When the initial states are related and every step of `S` is matched by some
steps of `T`, every state `S` reaches is related to one that `T` reaches. -/

/-- Forward simulation: one step of `S` is matched by any number of steps of `T`. -/
theorem ReachFrom.simulation {S : System σ α} {T : System τ β} {ok : σ → α → Prop} {ok' : τ → β → Prop}
    {R : σ → τ → Prop} {s : σ} (h : S.Reach ok s) (h0 : R S.init T.init)
    (hstep : ∀ s a s' t, R s t → ok s a → S.step s a = some s' → ∃ t', T.ReachFrom ok' t t' ∧ R s' t') :
    ∃ t, T.Reach ok' t ∧ R s t := by
  induction h with
  | refl => exact ⟨T.init, ReachFrom.refl, h0⟩
  | step a _ hok hs ih =>
    obtain ⟨t, ht, hr⟩ := ih
    obtain ⟨t', ht', hr'⟩ := hstep _ a _ t hr hok hs
    exact ⟨t', ht.trans ht', hr'⟩

/-- One step is a run of one step. -/
theorem ReachFrom.single {S : System σ α} {ok : σ → α → Prop} {s t : σ} (a : α) (hok : ok s a)
    (h : S.step s a = some t) : S.ReachFrom ok s t :=
  ReachFrom.step a ReachFrom.refl hok h

/-! ## High-water marks -/

/-- A run of one action more is a run and a step. -/
theorem run_concat (S : System σ α) (s : σ) (as : List α) (a : α) :
    S.run s (as ++ [a]) = (S.run s as).bind (fun t => S.step t a) := by
  induction as generalizing s with
  | nil =>
    simp only [List.nil_append, run, Option.bind_some]
    cases S.step s a <;> rfl
  | cons b as ih =>
    simp only [List.cons_append, run, Option.bind_assoc]
    exact congrArg _ (funext fun t => ih t)

/-- The run of `as` from `s` goes through `t`, which may be its start or its end. -/
def Along (S : System σ α) (s : σ) (as : List α) (t : σ) : Prop := ∃ before, before <+: as ∧ S.run s before = some t

/-- A run of one action more goes through the states that the run goes through, and ends in one more. -/
theorem along_concat (S : System σ α) (s : σ) (as : List α) (a : α) (t : σ) :
    S.Along s (as ++ [a]) t ↔ S.Along s as t ∨ S.run s (as ++ [a]) = some t := by
  constructor
  · rintro ⟨before, hbefore, hrun⟩
    rcases List.prefix_concat_iff.mp hbefore with rfl | hbefore
    · exact Or.inr hrun
    · exact Or.inl ⟨before, hbefore, hrun⟩
  · rintro (⟨before, hbefore, hrun⟩ | hrun)
    · exact ⟨before, hbefore.trans (List.prefix_append _ _), hrun⟩
    · exact ⟨_, List.prefix_refl _, hrun⟩

/-- The rule for a high-water mark: a mark that starts at a measure, is never less than it, and never falls, but rises only to the
measure itself, is the greatest value that the measure has had on the run. -/
theorem isGreatest_along {β : Type*} [Preorder β] {S : System σ α} (measure mark : σ → β) (hstart : mark S.init = measure S.init)
    (hle : ∀ s, S.Reachable s → measure s ≤ mark s)
    (hstep : ∀ s a t, S.Reachable s → S.step s a = some t → mark s ≤ mark t ∧ (mark t = mark s ∨ mark t = measure t))
    {as : List α} {s : σ} (h : S.run S.init as = some s) :
    IsGreatest {m | ∃ t, S.Along S.init as t ∧ m = measure t} (mark s) := by
  induction as using List.reverseRecOn generalizing s with
  | nil =>
    obtain rfl := Option.some.inj h
    refine ⟨⟨S.init, ⟨[], List.nil_prefix, rfl⟩, hstart⟩, ?_⟩
    rintro m ⟨t, ⟨before, hbefore, hrun⟩, rfl⟩
    obtain rfl := List.prefix_nil.mp hbefore
    obtain rfl := Option.some.inj hrun
    exact hle _ .refl
  | append_singleton as a ih =>
    obtain ⟨t, ht, hs⟩ := Option.bind_eq_some_iff.mp ((S.run_concat _ _ _).symm.trans h)
    have hreach : S.Reachable t := reachFrom_of_run .refl (S.meets_anyStep _ as) ht
    obtain ⟨hmem, hupper⟩ := ih ht
    obtain ⟨hrise, hmark⟩ := hstep t a s hreach hs
    constructor
    · rcases hmark with hmark | hmark
      · obtain ⟨u, hu, hm⟩ := hmem
        exact ⟨u, (S.along_concat _ _ _ _).mpr (Or.inl hu), hmark.trans hm⟩
      · exact ⟨s, (S.along_concat _ _ _ _).mpr (Or.inr h), hmark⟩
    · rintro m ⟨u, hu, rfl⟩
      rcases (S.along_concat _ _ _ _).mp hu with hu | hu
      · exact (hupper ⟨u, hu, rfl⟩).trans hrise
      · rw [h, Option.some.injEq] at hu
        exact hu ▸ hle s (.step a hreach trivial hs)

end System

end Lib
