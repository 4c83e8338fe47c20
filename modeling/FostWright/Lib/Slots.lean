import Mathlib.Data.List.Nodup

/-!
# Slots that are used again

A table of slots, each with an entry that may be gone. A new entry takes the first slot whose entry is gone, and a new slot at the
end when there is none (`occupy`); `visit` does something for each entry that is there, in the order of the slots, and counts them.
-/

namespace Lib

variable {α β : Type*} (gone : α → Prop) [DecidablePred gone]

/-- Put an entry in the first slot whose entry is gone, or in a new slot at the end. -/
def occupy (x : α) : List α → List α
  | [] => [x]
  | slot :: slots => if gone slot then x :: slots else slot :: occupy x slots

/-- Do something for each entry that is not gone, and count them. -/
def visit (act : β → α → β) : List α → β → Nat → β × Nat
  | [], state, count => (state, count)
  | slot :: slots, state, count =>
    if gone slot then visit act slots state count else visit act slots (act state slot) (count + 1)

variable {gone}

/-! ## Taking a slot -/

/-- A new slot is made only when no entry is gone. -/
theorem occupy_cases (x : α) (slots : List α) :
    (occupy gone x slots).length = slots.length ∨ (∀ slot ∈ slots, ¬gone slot) ∧ occupy gone x slots = slots ++ [x] := by
  induction slots with
  | nil => exact Or.inr ⟨by simp, rfl⟩
  | cons slot slots ih =>
    by_cases hslot : gone slot
    · exact Or.inl (by simp [occupy, hslot])
    · simp only [occupy, if_neg hslot]
      rcases ih with hlength | ⟨hall, hnew⟩
      · exact Or.inl (by rw [List.length_cons, hlength, List.length_cons])
      · refine Or.inr ⟨?_, by rw [hnew, List.cons_append]⟩
        intro other hother
        rcases List.mem_cons.mp hother with rfl | hother
        · exact hslot
        · exact hall other hother

/-- The entry is then in the table. -/
theorem self_mem_occupy (x : α) (slots : List α) : x ∈ occupy gone x slots := by
  induction slots with
  | nil => exact List.mem_singleton_self x
  | cons slot slots ih =>
    simp only [occupy]
    split
    · exact List.mem_cons_self
    · exact List.mem_cons_of_mem _ ih

/-- What is in the table is the entry or was there. -/
theorem mem_of_mem_occupy {x y : α} {slots : List α} (h : y ∈ occupy gone x slots) : y = x ∨ y ∈ slots := by
  induction slots with
  | nil => exact Or.inl (List.mem_singleton.mp h)
  | cons slot slots ih =>
    simp only [occupy] at h
    split at h
    · rcases List.mem_cons.mp h with rfl | h
      · exact Or.inl rfl
      · exact Or.inr (List.mem_cons_of_mem _ h)
    · rcases List.mem_cons.mp h with rfl | h
      · exact Or.inr List.mem_cons_self
      · exact (ih h).imp_right (List.mem_cons_of_mem _)

/-- An entry that is not gone keeps its slot. -/
theorem mem_occupy_of_mem {x y : α} {slots : List α} (h : y ∈ slots) (hy : ¬gone y) : y ∈ occupy gone x slots := by
  induction slots with
  | nil => cases h
  | cons slot slots ih =>
    simp only [occupy]
    rcases List.mem_cons.mp h with rfl | h
    · rw [if_neg hy]
      exact List.mem_cons_self
    · split
      · exact List.mem_cons_of_mem _ h
      · exact List.mem_cons_of_mem _ (ih h)

/-- A new entry leaves no entry in two slots. -/
theorem nodup_occupy {x : α} {slots : List α} (h : slots.Nodup) (hx : x ∉ slots) : (occupy gone x slots).Nodup := by
  induction slots with
  | nil => exact List.nodup_singleton x
  | cons slot slots ih =>
    obtain ⟨hslot, hslots⟩ := List.nodup_cons.mp h
    obtain ⟨hne, hx⟩ := not_or.mp (fun hmem => hx (List.mem_cons.mpr hmem))
    simp only [occupy]
    split
    · exact List.nodup_cons.mpr ⟨hx, hslots⟩
    · refine List.nodup_cons.mpr ⟨?_, ih hslots hx⟩
      intro hmem
      rcases mem_of_mem_occupy hmem with heq | hmem
      · exact hne heq.symm
      · exact hslot hmem

/-! ## Going over the slots -/

/-- The visits are to the entries that are not gone. -/
theorem visit_eq (act : β → α → β) (slots : List α) (state : β) (count : Nat) :
    visit gone act slots state count =
      ((slots.filter (fun slot => ¬gone slot)).foldl act state, count + (slots.filter (fun slot => ¬gone slot)).length) := by
  induction slots generalizing state count with
  | nil => rfl
  | cons slot slots ih =>
    rw [visit, List.filter_cons]
    by_cases hslot : gone slot
    · rw [if_pos hslot, if_neg (by simpa using hslot), ih]
    · rw [if_neg hslot, if_pos (by simpa using hslot), ih, List.foldl_cons, List.length_cons, Nat.add_right_comm, Nat.add_assoc]

end Lib
