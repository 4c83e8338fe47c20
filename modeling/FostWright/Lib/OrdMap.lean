import Mathlib.Algebra.BigOperators.Group.List.Basic
import Mathlib.Order.Lattice
import Mathlib.Tactic.Abel

/-!
# Ordered maps

A map kept as the list of its entries in strictly increasing key order, the order in which an iterator walks it. The order is
a field, so a map with a repeated key cannot be built. `total` sums a weight over the entries; `total_insert` and `total_erase`
say what an assignment and an erasure do to every such sum, whatever the key held before.
-/

namespace Lib

/-- A map from `κ` to `α`: its entries in strictly increasing key order. -/
structure OrdMap (κ : Type*) (α : Type*) [LinearOrder κ] where
  entries : List (κ × α)
  sorted : entries.Pairwise (fun a b => a.1 < b.1)

namespace OrdMap

variable {κ α : Type*} [LinearOrder κ]

/-- The map with no entry. -/
def empty : OrdMap κ α := ⟨[], List.Pairwise.nil⟩

/-- What the map holds at a key. -/
def find? (m : OrdMap κ α) (k : κ) : Option α := m.entries.lookup k

/-- The number of entries. -/
def size (m : OrdMap κ α) : Nat := m.entries.length

/-- The keys, in order. -/
def keys (m : OrdMap κ α) : List κ := m.entries.map Prod.fst

/-- Assignment on the list of entries: replace the value at the key, or put a new entry in its place. -/
def insertEntry (k : κ) (v : α) : List (κ × α) → List (κ × α)
  | [] => [(k, v)]
  | e :: es => if k < e.1 then (k, v) :: e :: es else if k = e.1 then (k, v) :: es else e :: insertEntry k v es

/-- The sum of a weight over the entries. -/
def total {M : Type*} [AddCommMonoid M] (m : OrdMap κ α) (f : κ → α → M) : M :=
  (m.entries.map (fun e => f e.1 e.2)).sum

/-! ## Assignment and erasure keep the order -/

/-- An entry of a list after an assignment is the one assigned or was there before. -/
theorem mem_insertEntry {k : κ} {v : α} {es : List (κ × α)} {e : κ × α} (h : e ∈ insertEntry k v es) :
    e = (k, v) ∨ e ∈ es := by
  induction es with
  | nil =>
    simp only [insertEntry, List.mem_singleton] at h
    exact Or.inl h
  | cons d ds ih =>
    simp only [insertEntry] at h
    split at h
    · exact List.mem_cons.mp h
    · split at h
      · rcases List.mem_cons.mp h with h | h
        · exact Or.inl h
        · exact Or.inr (List.mem_cons_of_mem _ h)
      · rcases List.mem_cons.mp h with h | h
        · exact Or.inr (h ▸ List.mem_cons_self)
        · exact (ih h).imp_right (List.mem_cons_of_mem _)

/-- Assignment keeps the entries in order. -/
theorem sorted_insertEntry (k : κ) (v : α) {es : List (κ × α)} (hs : es.Pairwise (fun a b => a.1 < b.1)) :
    (insertEntry k v es).Pairwise (fun a b => a.1 < b.1) := by
  induction es with
  | nil => exact List.pairwise_singleton _ _
  | cons d ds ih =>
    obtain ⟨hd, hds⟩ := List.pairwise_cons.mp hs
    simp only [insertEntry]
    split
    · rename_i hlt
      refine List.pairwise_cons.mpr ⟨?_, hs⟩
      intro e he
      rcases List.mem_cons.mp he with rfl | he
      · exact hlt
      · exact hlt.trans (hd e he)
    · rename_i hnlt
      split
      · rename_i heq
        exact List.pairwise_cons.mpr ⟨fun e he => heq ▸ hd e he, hds⟩
      · rename_i hne
        have hgt : d.1 < k := lt_of_le_of_ne (not_lt.mp hnlt) (Ne.symm hne)
        refine List.pairwise_cons.mpr ⟨?_, ih hds⟩
        intro e he
        rcases mem_insertEntry he with rfl | he
        · exact hgt
        · exact hd e he

/-- The map with `v` at `k`. -/
def insert (m : OrdMap κ α) (k : κ) (v : α) : OrdMap κ α :=
  ⟨insertEntry k v m.entries, sorted_insertEntry k v m.sorted⟩

/-- The map without the key `k`. -/
def erase (m : OrdMap κ α) (k : κ) : OrdMap κ α :=
  ⟨m.entries.filter (fun e => decide (e.1 ≠ k)), m.sorted.filter _⟩

/-! ## Look-up -/

/-- Looking a key up in a list of entries, one entry at a time. -/
theorem lookup_cons_ite (k : κ) (e : κ × α) (es : List (κ × α)) :
    (e :: es).lookup k = if e.1 = k then some e.2 else es.lookup k := by
  obtain ⟨k', v⟩ := e
  simp only [List.lookup_cons]
  by_cases h : k = k'
  · simp [h]
  · rw [beq_eq_false_iff_ne.mpr h, if_neg (Ne.symm h)]

/-- A key below every key of the list is not held. -/
theorem lookup_eq_none_of_lt {k : κ} {es : List (κ × α)} (h : ∀ e ∈ es, k < e.1) : es.lookup k = none := by
  induction es with
  | nil => rfl
  | cons d ds ih =>
    simp only [lookup_cons_ite]
    rw [if_neg (ne_of_gt (h d List.mem_cons_self)), ih (fun e he => h e (List.mem_cons_of_mem _ he))]

/-- What is looked up is an entry. -/
theorem mem_of_lookup {k : κ} {v : α} {es : List (κ × α)} (h : es.lookup k = some v) : (k, v) ∈ es := by
  induction es with
  | nil => cases h
  | cons d ds ih =>
    simp only [lookup_cons_ite] at h
    split at h
    · rename_i hk
      cases h
      exact hk ▸ List.mem_cons_self
    · exact List.mem_cons_of_mem _ (ih h)

/-- An entry of an ordered list is what its key looks up. -/
theorem lookup_of_mem {k : κ} {v : α} {es : List (κ × α)} (hs : es.Pairwise (fun a b => a.1 < b.1))
    (h : (k, v) ∈ es) : es.lookup k = some v := by
  induction es with
  | nil => cases h
  | cons d ds ih =>
    obtain ⟨hd, hds⟩ := List.pairwise_cons.mp hs
    simp only [lookup_cons_ite]
    rcases List.mem_cons.mp h with rfl | h
    · simp
    · rw [if_neg (ne_of_lt (hd _ h)), ih hds h]

/-- The entries are what the keys look up. -/
theorem mem_entries_iff (m : OrdMap κ α) (k : κ) (v : α) : (k, v) ∈ m.entries ↔ m.find? k = some v :=
  ⟨lookup_of_mem m.sorted, mem_of_lookup⟩

/-- A key is one of the keys of the map when the map holds something there. -/
theorem mem_keys_iff (m : OrdMap κ α) (k : κ) : k ∈ m.keys ↔ ∃ v, m.find? k = some v := by
  simp only [keys, List.mem_map, Prod.exists, exists_and_right, exists_eq_right, mem_entries_iff]

/-- No key occurs twice. -/
theorem nodup_keys (m : OrdMap κ α) : m.keys.Nodup := by
  unfold keys List.Nodup
  rw [List.pairwise_map]
  exact m.sorted.imp (fun h => ne_of_lt h)

@[simp] theorem find?_empty (k : κ) : (empty : OrdMap κ α).find? k = none := rfl

theorem lookup_insertEntry (k k' : κ) (v : α) {es : List (κ × α)} (hs : es.Pairwise (fun a b => a.1 < b.1)) :
    (insertEntry k v es).lookup k' = if k' = k then some v else es.lookup k' := by
  induction es with
  | nil => simp only [insertEntry, lookup_cons_ite, List.lookup_nil, eq_comm]
  | cons d ds ih =>
    obtain ⟨hd, hds⟩ := List.pairwise_cons.mp hs
    simp only [insertEntry]
    split
    · simp only [lookup_cons_ite, eq_comm (a := k)]
    · split
      · rename_i heq
        simp only [lookup_cons_ite, ← heq, eq_comm (a := k)]
        split <;> rfl
      · rename_i hne
        simp only [lookup_cons_ite, ih hds]
        by_cases hd' : d.1 = k'
        · have hk' : k' ≠ k := fun h => hne (h.symm.trans hd'.symm)
          simp [hd', hk']
        · simp [hd']

/-- Assignment: the key holds the new value, every other key what it held. -/
theorem find?_insert (m : OrdMap κ α) (k k' : κ) (v : α) :
    (m.insert k v).find? k' = if k' = k then some v else m.find? k' :=
  lookup_insertEntry k k' v m.sorted

@[simp] theorem find?_insert_self (m : OrdMap κ α) (k : κ) (v : α) : (m.insert k v).find? k = some v := by
  rw [find?_insert, if_pos rfl]

theorem lookup_eraseEntry (k k' : κ) (es : List (κ × α)) :
    (es.filter (fun e => decide (e.1 ≠ k))).lookup k' = if k' = k then none else es.lookup k' := by
  induction es with
  | nil => simp
  | cons d ds ih =>
    simp only [List.filter_cons]
    by_cases hd : d.1 = k
    · simp only [hd, ne_eq, not_true_eq_false, decide_false, Bool.false_eq_true, if_false, lookup_cons_ite, ih]
      by_cases hk : k' = k
      · simp [hk]
      · simp [hk, Ne.symm hk]
    · simp only [ne_eq, hd, not_false_eq_true, decide_true, if_true, lookup_cons_ite, ih]
      by_cases hk : k' = k
      · simp [hk, hd]
      · simp [hk]

/-- Erasure: the key holds nothing, every other key what it held. -/
theorem find?_erase (m : OrdMap κ α) (k k' : κ) : (m.erase k).find? k' = if k' = k then none else m.find? k' :=
  lookup_eraseEntry k k' m.entries

/-! ## Sums over the entries -/

section Totals

variable {M : Type*} [AddCommMonoid M]

@[simp] theorem total_empty (f : κ → α → M) : (empty : OrdMap κ α).total f = 0 := rfl

theorem sum_insertEntry (f : κ → α → M) (k : κ) (v : α) {es : List (κ × α)}
    (hs : es.Pairwise (fun a b => a.1 < b.1)) :
    ((insertEntry k v es).map (fun e => f e.1 e.2)).sum + (es.lookup k).elim 0 (f k) =
      (es.map (fun e => f e.1 e.2)).sum + f k v := by
  induction es with
  | nil => simp [insertEntry]
  | cons d ds ih =>
    obtain ⟨hd, hds⟩ := List.pairwise_cons.mp hs
    simp only [insertEntry]
    split
    · rename_i hlt
      have hnone : (d :: ds).lookup k = none := by
        refine lookup_eq_none_of_lt ?_
        intro e he
        rcases List.mem_cons.mp he with rfl | he
        · exact hlt
        · exact hlt.trans (hd e he)
      rw [hnone]
      simp only [List.map_cons, List.sum_cons, Option.elim_none]
      abel
    · split
      · rename_i heq
        simp only [List.map_cons, List.sum_cons, lookup_cons_ite, ← heq, if_true, Option.elim_some]
        abel
      · rename_i hne
        simp only [List.map_cons, List.sum_cons, lookup_cons_ite, Ne.symm hne, if_false]
        rw [add_assoc, ih hds, add_assoc]

/-- Assignment adds the weight of the new entry and takes away that of the entry it overwrites, if there is one. -/
theorem total_insert (m : OrdMap κ α) (f : κ → α → M) (k : κ) (v : α) :
    (m.insert k v).total f + (m.find? k).elim 0 (f k) = m.total f + f k v :=
  sum_insertEntry f k v m.sorted

theorem sum_eraseEntry (f : κ → α → M) (k : κ) {es : List (κ × α)} (hs : es.Pairwise (fun a b => a.1 < b.1)) :
    ((es.filter (fun e => decide (e.1 ≠ k))).map (fun e => f e.1 e.2)).sum + (es.lookup k).elim 0 (f k) =
      (es.map (fun e => f e.1 e.2)).sum := by
  induction es with
  | nil => simp
  | cons d ds ih =>
    obtain ⟨hd, hds⟩ := List.pairwise_cons.mp hs
    by_cases hk : d.1 = k
    · have hrest : ds.filter (fun e => decide (e.1 ≠ k)) = ds := by
        rw [List.filter_eq_self]
        intro e he
        simpa [← hk] using ne_of_gt (hd e he)
      simp only [List.filter_cons, hk, ne_eq, not_true_eq_false, decide_false, Bool.false_eq_true, if_false, lookup_cons_ite,
        if_true, Option.elim_some, List.map_cons, List.sum_cons]
      simp only [ne_eq] at hrest
      rw [hrest, add_comm]
    · simp only [List.filter_cons, ne_eq, hk, not_false_eq_true, decide_true, if_true, lookup_cons_ite, if_false, List.map_cons,
        List.sum_cons]
      rw [add_assoc]
      exact congrArg _ (ih hds)

/-- Erasure takes away the weight of the entry at the key, if there is one. -/
theorem total_erase (m : OrdMap κ α) (f : κ → α → M) (k : κ) :
    (m.erase k).total f + (m.find? k).elim 0 (f k) = m.total f :=
  sum_eraseEntry f k m.sorted

/-- Erasing a key that is held takes away exactly the weight of its entry. -/
theorem total_erase_of_find {m : OrdMap κ α} {k : κ} {v : α} (h : m.find? k = some v) (f : κ → α → M) :
    (m.erase k).total f + f k v = m.total f := by
  have := m.total_erase f k
  rwa [h] at this

end Totals

/-- The size counts every entry once. -/
theorem size_eq_total (m : OrdMap κ α) : m.size = m.total (fun _ _ => 1) := by
  simp [size, total]

/-- Assignment makes the map at most one entry larger. -/
theorem size_insert_le (m : OrdMap κ α) (k : κ) (v : α) : (m.insert k v).size ≤ m.size + 1 := by
  have := m.total_insert (fun _ _ => 1) k v
  rw [← size_eq_total, ← size_eq_total] at this
  omega

/-- Erasure makes no map larger. -/
theorem size_erase_le (m : OrdMap κ α) (k : κ) : (m.erase k).size ≤ m.size :=
  List.length_filter_le _ _

end OrdMap

end Lib
