import FostWright.Lib.System
import Mathlib.Algebra.BigOperators.Group.Finset.Basic
import Mathlib.Data.Fintype.Basic

/-!
# Progress

That a system comes to an end of its own. Some steps count as progress, and the environment lets them happen. Where each of them lowers
a measure, a run of them is no longer than the measure; where only the states of a goal have none of them, every such run that goes as
far as it can ends there (`Lowers.comesTo`).
-/

namespace Lib

namespace System

variable {σ α : Type*}

/-- No step that meets `ok` can be taken. -/
def Stuck (S : System σ α) (ok : σ → α → Prop) (s : σ) : Prop := ∀ a, ok s a → S.step s a = none

/-- From `s`, runs whose steps meet `ok` are no longer than a bound, there is one that cannot go on, and each that cannot go on has come
to the goal. -/
structure ComesTo (S : System σ α) (ok : σ → α → Prop) (bound : Nat) (goal : σ → Prop) (s : σ) : Prop where
  bounded : ∀ as t, S.Meets ok s as → S.run s as = some t → as.length ≤ bound
  ends : ∃ t, S.ReachFrom ok s t ∧ S.Stuck ok t
  goal : ∀ t, S.ReachFrom ok s t → S.Stuck ok t → goal t

/-- Another goal that holds where the goal does. -/
theorem ComesTo.mono {S : System σ α} {ok : σ → α → Prop} {bound : Nat} {goal goal' : σ → Prop} {s : σ} (h : S.ComesTo ok bound goal s)
    (himp : ∀ t, goal t → goal' t) : S.ComesTo ok bound goal' s :=
  ⟨h.bounded, h.ends, fun t ht hstuck => himp t (h.goal t ht hstuck)⟩

/-- Steps that meet `ok` keep an invariant, and lower a measure where it holds. -/
structure Lowers (S : System σ α) (ok : σ → α → Prop) (I : σ → Prop) (measure : σ → Nat) : Prop where
  keeps : ∀ s a t, I s → ok s a → S.step s a = some t → I t
  lowers : ∀ s a t, I s → ok s a → S.step s a = some t → measure t < measure s

namespace Lowers

variable {S : System σ α} {ok : σ → α → Prop} {I : σ → Prop} {measure : σ → Nat}

/-- A run is no longer than the measure falls. -/
theorem length_add_le (h : S.Lowers ok I measure) {s t : σ} {as : List α} (hs : I s) (hm : S.Meets ok s as)
    (hr : S.run s as = some t) : as.length + measure t ≤ measure s := by
  induction as generalizing s with
  | nil =>
    obtain rfl := Option.some.inj hr
    exact (Nat.zero_add _).le
  | cons a as ih =>
    obtain ⟨u, hu, hr⟩ := Option.bind_eq_some_iff.mp hr
    have hlt := h.lowers s a u hs hm.1 hu
    have hrest := ih (h.keeps s a u hs hm.1 hu) (hm.2 u hu) hr
    rw [List.length_cons]
    omega

/-- A run goes on until it cannot. -/
theorem exists_stuck (h : S.Lowers ok I measure) {s : σ} (hs : I s) : ∃ t, S.ReachFrom ok s t ∧ S.Stuck ok t := by
  induction hn : measure s using Nat.strongRecOn generalizing s with
  | _ n ih =>
    by_cases hstuck : S.Stuck ok s
    · exact ⟨s, .refl, hstuck⟩
    · unfold Stuck at hstuck
      push Not at hstuck
      obtain ⟨a, hok, hstep⟩ := hstuck
      obtain ⟨u, hu⟩ := Option.ne_none_iff_exists'.mp hstep
      obtain ⟨t, ht, hend⟩ := ih _ (hn ▸ h.lowers s a u hs hok hu) (h.keeps s a u hs hok hu) rfl
      exact ⟨t, (ReachFrom.single a hok hu).trans ht, hend⟩

/-- The rule for progress: a measure that falls, and a step to take wherever the goal has not been reached. -/
theorem comesTo (h : S.Lowers ok I measure) {goal : σ → Prop} {s : σ} (hs : I s) (hgoal : ∀ t, I t → S.Stuck ok t → goal t) :
    S.ComesTo ok (measure s) goal s := by
  refine ⟨?_, h.exists_stuck hs, ?_⟩
  · intro as t hm hr
    exact (Nat.le_add_right _ _).trans (h.length_add_le hs hm hr)
  · intro t ht hstuck
    exact hgoal t (ht.invariant hs h.keeps) hstuck

end Lowers

/-- When one part changes, the sum over the parts changes as the part does. -/
theorem sum_add_of_others {ι M : Type*} [Fintype ι] [DecidableEq ι] [AddCommMonoid M] {f g : ι → M} {i : ι}
    (h : ∀ j, j ≠ i → g j = f j) : ∑ j, g j + f i = ∑ j, f j + g i := by
  have hothers : ∑ j ∈ Finset.univ.erase i, g j = ∑ j ∈ Finset.univ.erase i, f j :=
    Finset.sum_congr rfl (fun j hj => h j (Finset.ne_of_mem_erase hj))
  rw [← Finset.add_sum_erase Finset.univ g (Finset.mem_univ i), ← Finset.add_sum_erase Finset.univ f (Finset.mem_univ i), hothers,
    add_right_comm, add_comm (g i), add_right_comm]

end System

end Lib
