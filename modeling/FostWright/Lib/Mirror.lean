import FostWright.Lib.System
import Mathlib.Data.Multiset.FinsetOps

/-!
# Outstanding items and their copies

One party keeps the set of the items it has given away and not got back; the copies of these items are somewhere else, out of
its sight. Giving an item away makes a copy of it, also when the item is in the set already; getting an item back takes it out of
the set, whether or not other copies of it are left. `Agree` is what the set says of the copies: each item of the set has one, and
where no item was given away twice the copies are the set.
-/

namespace Lib

/-- The set of one party, the copies, and everything that was given away so far. -/
structure Mirror (α : Type*) where
  work : Multiset α
  copies : Multiset α
  sent : Multiset α

namespace Mirror

variable {α : Type*} [DecidableEq α]

/-- What can happen to an item. -/
inductive Action (α : Type*) where
  | send (x : α)
  | settle (x : α)

/-- Nothing was given away. -/
def empty : Mirror α := ⟨0, 0, 0⟩

/-- An item is given away at any time; an item comes back where there is a copy of it. -/
def next (m : Mirror α) : Action α → Option (Mirror α)
  | .send x => some ⟨m.work.ndinsert x, x ::ₘ m.copies, x ::ₘ m.sent⟩
  | .settle x => if x ∈ m.copies then some { m with work := m.work.erase x, copies := m.copies.erase x } else none

/-- The two parties as a transition system. -/
def system : System (Mirror α) (Action α) := ⟨empty, next⟩

/-- What the set says of the copies. -/
structure Agree (m : Mirror α) : Prop where
  nodup : m.work.Nodup
  copied : ∀ x ∈ m.work, x ∈ m.copies
  given : ∀ x ∈ m.work, x ∈ m.sent
  exact : m.sent.Nodup → m.copies = m.work

theorem agree_next {m m' : Mirror α} {a : Action α} (hm : m.Agree) (h : m.next a = some m') : m'.Agree := by
  cases a with
  | send x =>
    cases h
    refine ⟨hm.nodup.ndinsert x, ?_, ?_, ?_⟩
    · intro y hy
      rcases Multiset.mem_ndinsert.mp hy with rfl | hy
      · exact Multiset.mem_cons_self y _
      · exact Multiset.mem_cons_of_mem (hm.copied y hy)
    · intro y hy
      rcases Multiset.mem_ndinsert.mp hy with rfl | hy
      · exact Multiset.mem_cons_self y _
      · exact Multiset.mem_cons_of_mem (hm.given y hy)
    · intro hsent
      obtain ⟨hx, hsent⟩ := Multiset.nodup_cons.mp hsent
      have hfresh : x ∉ m.work := fun hw => hx (hm.given x hw)
      simp only [Multiset.ndinsert_of_notMem hfresh, hm.exact hsent]
  | settle x =>
    simp only [next, Option.ite_none_right_eq_some, Option.some.injEq] at h
    obtain ⟨-, rfl⟩ := h
    refine ⟨hm.nodup.erase x, ?_, ?_, ?_⟩
    · intro y hy
      obtain ⟨hne, hw⟩ := hm.nodup.mem_erase_iff.mp hy
      exact (Multiset.mem_erase_of_ne hne).mpr (hm.copied y hw)
    · intro y hy
      exact hm.given y (Multiset.mem_of_mem_erase hy)
    · intro hsent
      simp only [hm.exact hsent]

/-- In every run the set and the copies agree. -/
theorem agree_of_reach {ok : Mirror α → Action α → Prop} {m : Mirror α} (h : system.Reach ok m) : m.Agree :=
  h.invariant ⟨Multiset.nodup_zero, (fun x hx => by cases hx), (fun x hx => by cases hx), fun _ => rfl⟩
    (fun _ _ _ hm _ hs => agree_next hm hs)

/-- In every run a copy is of an item that was given away. -/
theorem sent_of_copy {ok : Mirror α → Action α → Prop} {m : Mirror α} (h : system.Reach ok m) : ∀ x ∈ m.copies, x ∈ m.sent := by
  refine h.invariant (I := fun m => ∀ x ∈ m.copies, x ∈ m.sent) nofun ?_
  intro m a m' hm _ hs x hx
  cases a with
  | send y =>
    cases hs
    rcases Multiset.mem_cons.mp hx with rfl | hx
    · exact Multiset.mem_cons_self x _
    · exact Multiset.mem_cons_of_mem (hm x hx)
  | settle y =>
    obtain ⟨-, rfl⟩ := (Option.ite_none_right_eq_some.mp hs).imp_right Option.some.inj
    exact hm x (Multiset.mem_of_mem_erase hx)

end Mirror

end Lib
