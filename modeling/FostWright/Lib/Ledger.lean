import FostWright.Lib.System
import Mathlib.Algebra.Order.Group.Multiset

/-!
# A ledger of items

What any dispatcher of items is for, with nothing about how: items enter, each stays outstanding until it is finished, and none
is dropped. The ledger also has the forbidden action, `drop`, so that a concrete system can be shown to follow it whether or
not it loses something; `Lossless` runs are those without it. Items are counted, not named: equal items are different copies.
-/

namespace Lib

/-- Four bags of items: what entered, what is outstanding, what is done and what was dropped on the way. -/
structure Ledger (α : Type*) where
  entered : Multiset α
  outstanding : Multiset α
  done : Multiset α
  dropped : Multiset α

namespace Ledger

variable {α : Type*} [DecidableEq α]

/-- What can happen to an item. -/
inductive Action (α : Type*) where
  | enter (x : α)
  | finish (x : α)
  | drop (x : α)

/-- The ledger with nothing in it. -/
def empty : Ledger α := ⟨0, 0, 0, 0⟩

/-- An item enters at any time; only an outstanding item is finished or dropped. -/
def next (l : Ledger α) : Action α → Option (Ledger α)
  | .enter x => some { l with entered := x ::ₘ l.entered, outstanding := x ::ₘ l.outstanding }
  | .finish x =>
    if x ∈ l.outstanding then some { l with outstanding := l.outstanding.erase x, done := x ::ₘ l.done } else none
  | .drop x =>
    if x ∈ l.outstanding then some { l with outstanding := l.outstanding.erase x, dropped := x ::ₘ l.dropped } else none

/-- The ledger as a transition system. -/
def system : System (Ledger α) (Action α) := ⟨empty, next⟩

/-- No item is dropped. -/
def Lossless (_ : Ledger α) : Action α → Prop
  | .drop _ => False
  | _ => True

/-- Every item that entered is outstanding, done or dropped, as often as it entered. -/
def Balanced (l : Ledger α) : Prop := l.entered = l.outstanding + l.done + l.dropped

theorem balanced_next {l l' : Ledger α} {a : Action α} (hb : l.Balanced) (h : l.next a = some l') : l'.Balanced := by
  unfold Balanced at hb ⊢
  cases a with
  | enter x =>
    simp only [next, Option.some.injEq] at h
    subst h
    simp only [hb, Multiset.cons_add]
  | finish x =>
    simp only [next, Option.ite_none_right_eq_some, Option.some.injEq] at h
    obtain ⟨hx, rfl⟩ := h
    simp only [hb, Multiset.add_cons, ← Multiset.cons_add, Multiset.cons_erase hx]
  | drop x =>
    simp only [next, Option.ite_none_right_eq_some, Option.some.injEq] at h
    obtain ⟨hx, rfl⟩ := h
    simp only [hb, Multiset.add_cons, ← Multiset.cons_add, Multiset.cons_erase hx]

/-- Every ledger reached is balanced. -/
theorem balanced_of_reach {ok : Ledger α → Action α → Prop} {l : Ledger α} (h : system.Reach ok l) : l.Balanced :=
  h.invariant (by simp [system, empty, Balanced]) (fun _ _ _ hb _ hs => balanced_next hb hs)

/-- A ledger reached without a drop has dropped nothing. -/
theorem dropped_of_lossless {l : Ledger α} (h : system.Reach Lossless l) : l.dropped = 0 := by
  refine h.invariant (I := fun l => l.dropped = 0) rfl ?_
  intro l a l' hl hok hs
  cases a with
  | enter x =>
    simp only [system, next, Option.some.injEq] at hs
    exact hs ▸ hl
  | finish x =>
    simp only [system, next, Option.ite_none_right_eq_some, Option.some.injEq] at hs
    exact hs.2 ▸ hl
  | drop x => exact absurd hok id

/-- No item is done or outstanding more often than it entered, in any run. -/
theorem count_le_of_reach {ok : Ledger α → Action α → Prop} {l : Ledger α} (h : system.Reach ok l) (x : α) :
    l.done.count x + l.outstanding.count x ≤ l.entered.count x := by
  rw [balanced_of_reach h, Multiset.count_add, Multiset.count_add]
  omega

/-- Without a drop, every item is done or outstanding as often as it entered. -/
theorem count_eq_of_lossless {l : Ledger α} (h : system.Reach Lossless l) (x : α) :
    l.entered.count x = l.done.count x + l.outstanding.count x := by
  rw [balanced_of_reach h, dropped_of_lossless h, Multiset.count_add, Multiset.count_add, Multiset.count_zero]
  omega

end Ledger

end Lib
