import FostWright.Lib.Framing

/-!
# Reading a stream up to a delimiter

A reader takes frames off a stream that arrives in pieces. What has arrived is in a pipe until the reader moves some of it to its
buffer, which it does only while there is no delimiter in the buffer; a frame is then the buffer up to its first delimiter, and what
follows stays for the next one. Whatever the pieces, the frames taken and what is left are what has arrived (`Framed`).
-/

namespace Lib

variable {α : Type*}

/-- A reader: everything that has arrived so far, what of it is in the pipe and in the buffer, and whether the stream has ended. -/
structure Reader (α : Type*) where
  arrived : List α
  pipe : List α
  buffer : List α
  ended : Bool

/-- What moves a stream along. -/
inductive Feed (α : Type*) where
  /-- a piece of the stream arrives -/
  | arrive (piece : List α)
  /-- the stream ends -/
  | finish
  /-- the reader moves `k` elements to its buffer -/
  | readSome (k : Nat)

namespace Reader

/-- Nothing has arrived. -/
def start : Reader α := { arrived := [], pipe := [], buffer := [], ended := false }

/-- What has not been taken. -/
def left (r : Reader α) : List α := r.buffer ++ r.pipe

/-- The frames are those that have been taken. -/
def Framed (d : α) (r : Reader α) (ws : List (List α)) : Prop := (∀ w ∈ ws, d ∉ w) ∧ r.arrived = frames d ws ++ r.left

theorem framed_start (d : α) : (start : Reader α).Framed d [] := by
  refine ⟨?_, rfl⟩
  intro w hw
  cases hw

/-- Taking the frame that is there. -/
theorem Framed.take {d : α} {r : Reader α} {ws : List (List α)} (h : r.Framed d ws) {w rest : List α}
    (hbuffer : r.buffer = w ++ d :: rest) (hw : d ∉ w) : ({ r with buffer := rest } : Reader α).Framed d (ws ++ [w]) := by
  obtain ⟨hws, harrived⟩ := h
  refine ⟨?_, ?_⟩
  · intro v hv
    rcases List.mem_append.mp hv with hv | hv
    · exact hws v hv
    · rw [List.mem_singleton] at hv
      exact hv ▸ hw
  · simp [harrived, left, hbuffer, frames]

/-- What there is left to do. -/
def work (r : Reader α) : Nat := 2 * r.pipe.length + r.buffer.length

/-- Taking a frame leaves less to do. -/
theorem work_take {d : α} {r : Reader α} {w rest : List α} (h : r.buffer = w ++ d :: rest) :
    ({ r with buffer := rest } : Reader α).work < r.work := by
  simp only [work, h, List.length_append, List.length_cons]
  omega

variable [DecidableEq α]

/-- How much of the buffer is a frame with its delimiter, if there is a delimiter. -/
def readUntil (d : α) (r : Reader α) : Option Nat := (r.buffer.findIdx? (fun x => decide (x = d))).map (fun i => i + 1)

/-- One move of the stream. -/
def feed (d : α) (r : Reader α) : Feed α → Option (Reader α)
  | .arrive piece => if r.ended then none else some { r with arrived := r.arrived ++ piece, pipe := r.pipe ++ piece }
  | .finish => if r.ended then none else some { r with ended := true }
  | .readSome k =>
    if r.readUntil d = none ∧ 0 < k ∧ k ≤ r.pipe.length then
      some { r with pipe := r.pipe.drop k, buffer := r.buffer ++ r.pipe.take k }
    else none

/-- Nothing can be read, of what has arrived. -/
def Idle (d : α) (r : Reader α) : Prop := r.pipe = [] ∧ r.readUntil d = none

/-- Nothing more can be read: the stream has ended, and no frame is left. -/
def AtEnd (d : α) (r : Reader α) : Prop := r.ended = true ∧ r.Idle d

instance (d : α) (r : Reader α) : Decidable (r.Idle d) := inferInstanceAs (Decidable (_ ∧ _))

instance (d : α) (r : Reader α) : Decidable (r.AtEnd d) := inferInstanceAs (Decidable (_ ∧ _))

/-! ## What is read -/

/-- The frame that is there. -/
theorem readUntil_eq_some {d : α} {r : Reader α} {n : Nat} (h : r.readUntil d = some n) :
    ∃ w rest, r.buffer = w ++ d :: rest ∧ d ∉ w ∧ n = w.length + 1 := by
  obtain ⟨i, hi, rfl⟩ := Option.map_eq_some_iff.mp h
  obtain ⟨hlt, hd, hbefore⟩ := List.findIdx?_eq_some_iff_getElem.mp hi
  have hd' : r.buffer[i] = d := of_decide_eq_true hd
  refine ⟨r.buffer.take i, r.buffer.drop (i + 1), ?_, ?_, ?_⟩
  · rw [← hd', List.getElem_cons_drop, List.take_append_drop]
  · intro hmem
    obtain ⟨j, hj, heq⟩ := List.getElem_of_mem hmem
    rw [List.length_take] at hj
    rw [List.getElem_take] at heq
    have hne := hbefore j (by omega)
    simp [heq] at hne
  · rw [List.length_take]
    omega

/-- Without a frame there is no delimiter in the buffer. -/
theorem not_mem_of_readUntil {d : α} {r : Reader α} (h : r.readUntil d = none) : d ∉ r.buffer := by
  intro hmem
  have hnone := List.findIdx?_eq_none_iff.mp (Option.map_eq_none_iff.mp h) d hmem
  simp at hnone

/-- Moving the stream along does not change the frames that have been taken. -/
theorem Framed.feed {d : α} {r r' : Reader α} {ws : List (List α)} (h : r.Framed d ws) {f : Feed α} (hf : r.feed d f = some r') :
    r'.Framed d ws := by
  obtain ⟨hws, harrived⟩ := h
  refine ⟨hws, ?_⟩
  cases f with
  | arrive piece =>
    obtain ⟨-, rfl⟩ := (Option.ite_none_left_eq_some.mp hf).imp_right Option.some.inj
    simp [harrived, left]
  | finish =>
    obtain ⟨-, rfl⟩ := (Option.ite_none_left_eq_some.mp hf).imp_right Option.some.inj
    exact harrived
  | readSome k =>
    obtain ⟨-, rfl⟩ := (Option.ite_none_right_eq_some.mp hf).imp_right Option.some.inj
    simp [harrived, left]

/-- The frames taken are the first frames of what has arrived. -/
theorem Framed.unframe_arrived {d : α} {r : Reader α} {ws : List (List α)} (h : r.Framed d ws) :
    unframe d r.arrived = (ws ++ (unframe d r.left).1, (unframe d r.left).2) := by
  rw [h.2]
  exact unframe_frames h.1 r.left

/-- When nothing can be read, the frames taken are all frames of what has arrived, and its rest is in the buffer. -/
theorem Framed.unframe_idle {d : α} {r : Reader α} {ws : List (List α)} (h : r.Framed d ws) (hidle : r.Idle d) :
    unframe d r.arrived = (ws, r.buffer) := by
  obtain ⟨hpipe, hnone⟩ := hidle
  have hleft : r.left = r.buffer := by
    unfold left
    rw [hpipe, List.append_nil]
  rw [h.unframe_arrived, hleft, unframe_of_not_mem (not_mem_of_readUntil hnone), List.append_nil]

/-! ## Progress -/

/-- There is something to read, a frame to take, or nothing left. -/
theorem progress (d : α) (r : Reader α) :
    (∃ r', r.feed d (.readSome r.pipe.length) = some r' ∧ r'.work < r.work ∧ r'.ended = r.ended ∧ r'.arrived = r.arrived) ∨
      (∃ n, r.readUntil d = some n) ∨ r.Idle d := by
  cases hn : r.readUntil d with
  | some n => exact Or.inr (Or.inl ⟨n, rfl⟩)
  | none =>
    by_cases hpipe : r.pipe = []
    · exact Or.inr (Or.inr ⟨hpipe, hn⟩)
    · have hpos : 0 < r.pipe.length := List.length_pos_iff.mpr hpipe
      have hfeed : r.feed d (.readSome r.pipe.length) =
          some { r with pipe := r.pipe.drop r.pipe.length, buffer := r.buffer ++ r.pipe.take r.pipe.length } :=
        if_pos ⟨hn, hpos, Nat.le_refl _⟩
      refine Or.inl ⟨_, hfeed, ?_, rfl, rfl⟩
      simp only [work, List.length_drop, List.length_append, List.length_take]
      omega

/-- States with a reader, where its stream can be moved along and a frame that is there can be taken: from each of them another one is
reached in which nothing more can be read of what has arrived. -/
theorem exhaust (d : α) {σ : Type*} (reach : σ → Prop) (reader : σ → Reader α)
    (hmove : ∀ s k r, reach s → (reader s).feed d (.readSome k) = some r → ∃ t, reach t ∧ reader t = r)
    (htake : ∀ s w rest, reach s → (reader s).readUntil d = some (w.length + 1) → (reader s).buffer = w ++ d :: rest →
      ∃ t, reach t ∧ reader t = { reader s with buffer := rest }) {s : σ} (h : reach s) :
    ∃ t, reach t ∧ (reader t).arrived = (reader s).arrived ∧ (reader t).ended = (reader s).ended ∧ (reader t).Idle d := by
  induction hwork : (reader s).work using Nat.strongRecOn generalizing s with
  | _ n ih =>
    rcases (reader s).progress d with ⟨r, hfeed, hlt, hended, harrived⟩ | ⟨m, hread⟩ | hidle
    · obtain ⟨u, hu, rfl⟩ := hmove s _ r h hfeed
      obtain ⟨t, ht, harrived', hended', hidle⟩ := ih _ (hwork ▸ hlt) hu rfl
      exact ⟨t, ht, harrived'.trans harrived, hended'.trans hended, hidle⟩
    · obtain ⟨w, rest, hbuffer, -, rfl⟩ := readUntil_eq_some hread
      obtain ⟨u, hu, hreader⟩ := htake s w rest h hread hbuffer
      have hlt := hwork ▸ work_take hbuffer
      obtain ⟨t, ht, harrived, hended, hidle⟩ := ih _ hlt hu (congrArg work hreader)
      rw [hreader] at harrived hended
      exact ⟨t, ht, harrived, hended, hidle⟩
    · exact ⟨s, h, rfl, rfl, hidle⟩

end Reader

end Lib
