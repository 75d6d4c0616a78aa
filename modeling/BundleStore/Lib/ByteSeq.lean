import Mathlib.Data.List.Basic

set_option autoImplicit false

/-!
# Overwriting and slicing finite sequences

The contents of a file as a sequence: what a write at a position leaves behind,
and what a read of a range sees. A write past the end first fills the gap.
-/

/-- A string of bytes: a file name, a path, the content of a file. -/
abbrev Bytes : Type := List UInt8

namespace ByteSeq

variable {α : Type}

/-- The `n` entries from position `pos` on, as far as they exist. -/
def slice (c : List α) (pos n : ℕ) : List α :=
  (c.drop pos).take n

/-- The sequence after writing `b` at `pos`; a gap before it is filled. -/
def overwrite (fill : α) (c : List α) (pos : ℕ) (b : List α) : List α :=
  if b.isEmpty then c
  else c.take pos ++ List.replicate (pos - c.length) fill ++ b ++ c.drop (pos + b.length)

/-- To write nothing changes nothing. -/
@[simp] theorem overwrite_nil (fill : α) (c : List α) (pos : ℕ) :
    overwrite fill c pos [] = c := rfl

/-- What is written lies between what was before and what was behind, with a fill where the content
ended before. -/
theorem overwrite_of_ne_nil (fill : α) (c : List α) (pos : ℕ) {b : List α} (hb : b ≠ []) :
    overwrite fill c pos b =
      c.take pos ++ List.replicate (pos - c.length) fill ++ b ++ c.drop (pos + b.length) := by
  simp [overwrite, hb]

/-- A write covers its own range and never shortens the sequence. -/
theorem length_overwrite (fill : α) (c : List α) (pos : ℕ) {b : List α} (hb : b ≠ []) :
    (overwrite fill c pos b).length = max c.length (pos + b.length) := by
  rw [overwrite_of_ne_nil fill c pos hb]
  simp only [List.length_append, List.length_take, List.length_replicate, List.length_drop]
  omega

/-- A write at the end appends. -/
theorem overwrite_length (fill : α) (c b : List α) :
    overwrite fill c c.length b = c ++ b := by
  by_cases hb : b = []
  · simp [hb]
  · rw [overwrite_of_ne_nil fill c c.length hb]
    simp

/-- What the overwritten sequence holds at each place. -/
theorem getElem?_overwrite (fill : α) (s : List α) (pos : ℕ) {b : List α} (hb : b ≠ []) (i : ℕ) :
    (overwrite fill s pos b)[i]? =
      if i < pos then (if i < s.length then s[i]? else some fill)
      else if i < pos + b.length then b[i - pos]? else s[i]? := by
  rw [overwrite_of_ne_nil fill s pos hb]
  by_cases hpos : i < pos
  · by_cases hlen : i < s.length
    · simp only [List.append_assoc, hpos, hlen, if_true]
      rw [List.getElem?_append_left (by rw [List.length_take]; omega),
        List.getElem?_take_of_lt hpos]
    · simp only [List.append_assoc, hpos, hlen, if_true, if_false]
      rw [List.getElem?_append_right (by rw [List.length_take]; omega), List.length_take,
        List.getElem?_append_left (by rw [List.length_replicate]; omega), List.getElem?_replicate]
      rw [if_pos (by omega)]
  · have hfront : (s.take pos ++ List.replicate (pos - s.length) fill).length = pos := by
      rw [List.length_append, List.length_take, List.length_replicate]
      omega
    rw [if_neg hpos, List.append_assoc, List.getElem?_append_right (by omega), hfront]
    by_cases hb' : i < pos + b.length
    · rw [if_pos hb', List.getElem?_append_left (by omega)]
    · rw [if_neg hb', List.getElem?_append_right (by omega), List.getElem?_drop]
      congr 1
      omega

/-- Two pieces written one behind the other are written as one. -/
theorem overwrite_append (fill : α) (c : List α) (pos : ℕ) (b b' : List α) :
    overwrite fill (overwrite fill c pos b) (pos + b.length) b' =
      overwrite fill c pos (b ++ b') := by
  by_cases hb : b = []
  · simp [hb]
  by_cases hb' : b' = []
  · simp [hb']
  have hlen := length_overwrite fill c pos hb
  have hbb : b ++ b' ≠ [] := by simp [hb]
  apply List.ext_getElem?
  intro i
  rw [getElem?_overwrite fill _ _ hb', getElem?_overwrite fill _ _ hb,
    getElem?_overwrite fill _ _ hbb, hlen, List.length_append]
  by_cases hpos : i < pos
  · rw [if_pos (by omega), if_pos hpos, if_pos (by omega), if_pos hpos]
  · by_cases hfirst : i < pos + b.length
    · rw [if_pos hfirst, if_pos (by omega), if_neg hpos, if_pos hfirst, if_neg hpos,
        if_pos (by omega), List.getElem?_append_left (by omega)]
    · by_cases hsecond : i < pos + b.length + b'.length
      · rw [if_neg hfirst, if_pos hsecond, if_neg hpos, if_pos (by omega),
          List.getElem?_append_right (by omega)]
        congr 1
        omega
      · rw [if_neg hfirst, if_neg hsecond, if_neg hpos, if_neg hfirst, if_neg hpos,
          if_neg (by omega)]

/-- A byte that was written, or that was there before. -/
theorem getD_overwrite (fill : α) (c : List α) (pos : ℕ) (b : List α) (i : ℕ) :
    (overwrite fill c pos b).getD i fill =
      if pos ≤ i ∧ i < pos + b.length then b.getD (i - pos) fill else c.getD i fill := by
  by_cases hb : b = []
  · subst hb
    rw [overwrite_nil, if_neg (by simp only [List.length_nil]; omega)]
  · rw [List.getD_eq_getElem?_getD, getElem?_overwrite fill c pos hb]
    by_cases hpos : i < pos
    · have hout : ¬ (pos ≤ i ∧ i < pos + b.length) := by omega
      rw [if_pos hpos, if_neg hout]
      by_cases hlen : i < c.length
      · rw [if_pos hlen, List.getD_eq_getElem?_getD]
      · rw [if_neg hlen, List.getD_eq_getElem?_getD, List.getElem?_eq_none (by omega)]
        rfl
    · by_cases hb' : i < pos + b.length
      · rw [if_neg hpos, if_pos hb', if_pos (by omega), List.getD_eq_getElem?_getD]
      · rw [if_neg hpos, if_neg hb', if_neg (by omega), List.getD_eq_getElem?_getD]

/-- The written range holds what was written. -/
theorem slice_overwrite_self (fill : α) (c : List α) (pos : ℕ) (b : List α) :
    slice (overwrite fill c pos b) pos b.length = b := by
  by_cases hb : b = []
  · simp [hb, slice]
  · have hlen : (c.take pos ++ List.replicate (pos - c.length) fill).length = pos := by
      simp only [List.length_append, List.length_take, List.length_replicate]
      omega
    rw [overwrite_of_ne_nil fill c pos hb, slice, List.append_assoc, List.drop_left' hlen,
      List.take_left' rfl]

/-- A write leaves every range alone that ends before it and inside the old
sequence. -/
theorem slice_overwrite_below (fill : α) (c : List α) (pos : ℕ) (b : List α) {p n : ℕ}
    (hpos : p + n ≤ pos) (hlen : p + n ≤ c.length) :
    slice (overwrite fill c pos b) p n = slice c p n := by
  by_cases hb : b = []
  · simp [hb]
  · have hin : p + n ≤ (c.take pos).length := by
      rw [List.length_take]
      omega
    have htake : (overwrite fill c pos b).take (p + n) = c.take (p + n) := by
      rw [overwrite_of_ne_nil fill c pos hb, List.append_assoc, List.append_assoc,
        List.take_append_of_le_length hin, List.take_take, Nat.min_eq_left hpos]
    have hslice : ∀ d : List α, slice d p n = (d.take (p + n)).drop p := by
      intro d
      rw [slice, List.drop_take, Nat.add_sub_cancel_left]
    rw [hslice, hslice, htake]

/-- A slice is as long as asked for, or as what is left. -/
theorem length_slice (c : List α) (pos n : ℕ) :
    (slice c pos n).length = min n (c.length - pos) := by
  rw [slice, List.length_take, List.length_drop]

/-- A slice of a slice that starts inside it. -/
theorem slice_slice (c : List α) {pos n p m : ℕ} (h : p + m ≤ n) :
    slice (slice c pos n) p m = slice c (pos + p) m := by
  simp only [slice]
  rw [List.drop_take, List.drop_drop, List.take_take, Nat.min_eq_left (by omega)]

/-- What stands before and behind a place. -/
theorem split_at {l : List α} {k : ℕ} {a : α} (h : l[k]? = some a) :
    ∃ before after, l = before ++ a :: after ∧ before.length = k := by
  obtain ⟨hk, rfl⟩ := List.getElem?_eq_some_iff.mp h
  refine ⟨l.take k, l.drop (k + 1), ?_, ?_⟩
  · rw [List.getElem_cons_drop, List.take_append_drop]
  · rw [List.length_take]
    omega

/-- The element behind a front is replaced. -/
theorem set_middle (before after : List α) (a b : α) :
    (before ++ a :: after).set before.length b = before ++ b :: after := by
  simp

/-- The element behind a front is taken out. -/
theorem eraseIdx_middle (before after : List α) (a : α) :
    (before ++ a :: after).eraseIdx before.length = before ++ after := by
  rw [List.eraseIdx_append_of_length_le (Nat.le_refl _)]
  simp

end ByteSeq
