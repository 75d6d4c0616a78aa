import BundleStore.Lib.ByteSeq
import Mathlib.Tactic.Common

set_option autoImplicit false

/-!
# The first occurrence of a word

A search runs over the text from left to right. What the proofs need is where it does not
stop: a stretch without the first letter of the word, or one that ends with a letter that the
word does not have, cannot hold the beginning of an occurrence.
-/

namespace Search

variable {α : Type} [DecidableEq α]

/-- The position of the first occurrence. -/
def findIn (needle : List α) : List α → Option ℕ
  | [] => if needle = [] then some 0 else none
  | c :: rest => if needle.isPrefixOf (c :: rest) then some 0 else (findIn needle rest).map (· + 1)

/-- The position of the first occurrence that does not begin before `pos`. -/
def find (text needle : List α) (pos : ℕ) : Option ℕ :=
  if pos ≤ text.length then (findIn needle (text.drop pos)).map (pos + ·) else none

/-- No occurrence begins in `mid`. -/
def Clear (needle mid rest : List α) : Prop :=
  ∀ j < mid.length, ¬ needle <+: (mid ++ rest).drop j

section FindIn

variable {needle mid rest text : List α}

/-- What the text starts with is found at once. -/
theorem findIn_here (needle rest : List α) : findIn needle (needle ++ rest) = some 0 := by
  cases htext : needle ++ rest with
  | nil =>
      obtain ⟨rfl, -⟩ := List.append_eq_nil_iff.mp htext
      rfl
  | cons c cs =>
      have hpre : needle.isPrefixOf (c :: cs) = true := by
        rw [List.isPrefixOf_iff_prefix, ← htext]
        exact List.prefix_append needle rest
      simp only [findIn, hpre, if_true]

/-- The search passes over a clear stretch. -/
theorem findIn_clear (h : Clear needle mid rest) :
    findIn needle (mid ++ rest) = (findIn needle rest).map (mid.length + ·) := by
  induction mid with
  | nil => simp
  | cons c cs ih =>
      have hhead : needle.isPrefixOf (c :: (cs ++ rest)) = false := by
        rw [← Bool.not_eq_true, List.isPrefixOf_iff_prefix]
        exact h 0 (Nat.zero_lt_succ _)
      have htail : Clear needle cs rest := fun j hj => h (j + 1) (Nat.succ_lt_succ hj)
      rw [List.cons_append, findIn, hhead, if_neg Bool.false_ne_true, ih htail, Option.map_map]
      congr 1
      funext k
      simp only [Function.comp_apply, List.length_cons]
      omega

/-- What is found is there, and not before. -/
theorem findIn_some {k : ℕ} (h : findIn needle text = some k) :
    needle <+: text.drop k ∧ k ≤ text.length ∧ ∀ j < k, ¬ needle <+: text.drop j := by
  induction text generalizing k with
  | nil =>
      simp only [findIn] at h
      split at h
      · rename_i hnil
        cases h
        subst hnil
        exact ⟨List.nil_prefix, Nat.le_refl _, fun j hj => absurd hj (Nat.not_lt_zero j)⟩
      · cases h
  | cons c rest ih =>
      simp only [findIn] at h
      split at h
      · rename_i hpre
        cases h
        exact ⟨List.isPrefixOf_iff_prefix.mp hpre, Nat.zero_le _,
          fun j hj => absurd hj (Nat.not_lt_zero j)⟩
      · rename_i hpre
        obtain ⟨m, hm, rfl⟩ := Option.map_eq_some_iff.mp h
        obtain ⟨hhere, hle, hbefore⟩ := ih hm
        refine ⟨hhere, Nat.succ_le_succ hle, fun j hj => ?_⟩
        cases j with
        | zero => exact fun hzero => hpre (List.isPrefixOf_iff_prefix.mpr hzero)
        | succ j => exact hbefore j (Nat.lt_of_succ_lt_succ hj)

/-- What is not found is nowhere. -/
theorem findIn_none (h : findIn needle text = none) (j : ℕ) : ¬ needle <+: text.drop j := by
  induction text generalizing j with
  | nil =>
      simp only [findIn] at h
      split at h
      · cases h
      · rename_i hne
        simpa using hne
  | cons c rest ih =>
      simp only [findIn] at h
      split at h
      · cases h
      · rename_i hpre
        cases j with
        | zero => exact fun hzero => hpre (List.isPrefixOf_iff_prefix.mpr hzero)
        | succ j => exact ih (Option.map_eq_none_iff.mp h) j

omit [DecidableEq α] in
/-- A stretch without the first letter is clear. -/
theorem clear_of_head {c : α} {cs : List α} (h : c ∉ mid) : Clear (c :: cs) mid rest := by
  intro j hj hpre
  obtain ⟨tail, htail⟩ := hpre
  have hget : (mid ++ rest)[j]? = some c := by
    rw [← List.head?_drop, ← htail]
    rfl
  rw [List.getElem?_append_left hj] at hget
  exact h (List.mem_of_getElem? hget)

omit [DecidableEq α] in
/-- So is one without an occurrence, with a letter behind it that the word does not have. -/
theorem clear_of_stop {c : α} (hne : needle ≠ []) (hfree : ¬ needle <:+: mid) (hc : c ∉ needle) :
    Clear needle (mid ++ [c]) rest := by
  intro j hj hpre
  rw [List.length_append, List.length_singleton] at hj
  rw [List.append_assoc, List.singleton_append] at hpre
  have hshort : needle.length ≤ mid.length - j := by
    by_contra hlong
    apply hc
    obtain ⟨tail, htail⟩ := hpre
    have hget : (needle ++ tail)[mid.length - j]? = some c := by
      rw [htail, List.getElem?_drop, Nat.add_sub_cancel' (Nat.le_of_lt_succ hj),
        List.getElem?_append_right (Nat.le_refl _)]
      simp
    rw [List.getElem?_append_left (by omega)] at hget
    exact List.mem_of_getElem? hget
  have hpos := List.length_pos_of_ne_nil hne
  rw [List.drop_append_of_le_length (by omega)] at hpre
  have hinside : needle <+: mid.drop j :=
    List.prefix_of_prefix_length_le hpre (List.prefix_append _ _) (by simpa using hshort)
  exact hfree (hinside.isInfix.trans (List.drop_suffix j mid).isInfix)

omit [DecidableEq α] in
/-- Two parts are clear one after the other. -/
theorem Clear.append {mid' : List α} (h : Clear needle mid (mid' ++ rest))
    (h' : Clear needle mid' rest) : Clear needle (mid ++ mid') rest := by
  intro j hj hpre
  rw [List.append_assoc] at hpre
  by_cases hfirst : j < mid.length
  · exact h j hfirst hpre
  · rw [List.length_append] at hj
    refine h' (j - mid.length) (by omega) ?_
    rwa [List.drop_append, List.drop_of_length_le (by omega), List.nil_append] at hpre

/-- What does not occur is not found. -/
theorem findIn_eq_none (h : ¬ needle <:+: text) : findIn needle text = none := by
  cases hfind : findIn needle text with
  | none => rfl
  | some k =>
      have hpre := (findIn_some hfind).1
      exact absurd (hpre.isInfix.trans (List.drop_suffix k text).isInfix) h

end FindIn

/-! ## From a position on -/

section Find

variable {text needle front mid rest : List α} {pos k : ℕ}

/-- From behind a front on, places count from there. -/
theorem find_front (needle front rest : List α) :
    find (front ++ rest) needle front.length = (findIn needle rest).map (front.length + ·) := by
  rw [find, if_pos (by simp), List.drop_left]

/-- The search finds the word behind a clear stretch. -/
theorem find_clear (htext : text = front ++ (mid ++ (needle ++ rest))) (hpos : pos = front.length)
    (h : Clear needle mid (needle ++ rest)) : find text needle pos = some (pos + mid.length) := by
  rw [htext, hpos, find_front, findIn_clear h, findIn_here]
  rfl

/-- What is found from a position on is there, and not before. -/
theorem find_some (h : find text needle pos = some k) :
    pos ≤ k ∧ k ≤ text.length ∧ needle <+: text.drop k ∧
      ∀ j, pos ≤ j → j < k → ¬ needle <+: text.drop j := by
  unfold find at h
  split at h
  · obtain ⟨m, hm, rfl⟩ := Option.map_eq_some_iff.mp h
    obtain ⟨hhere, hle, hbefore⟩ := findIn_some hm
    rw [List.drop_drop] at hhere
    rw [List.length_drop] at hle
    refine ⟨Nat.le_add_right _ _, by omega, hhere, fun j hpos hj => ?_⟩
    have hearlier := hbefore (j - pos) (by omega)
    rwa [List.drop_drop, Nat.add_sub_cancel' hpos] at hearlier
  · cases h

/-- Words with other first letters are at other places. -/
theorem lt_of_find {c d : α} {cs ds : List α} {j : ℕ} (hcd : c ≠ d)
    (hj : find text (c :: cs) pos = some j) (hk : find text (d :: ds) j = some k) : j < k := by
  obtain ⟨-, -, ⟨rest, hc⟩, -⟩ := find_some hj
  obtain ⟨hle, -, ⟨rest', hd⟩, -⟩ := find_some hk
  refine Nat.lt_of_le_of_ne hle fun heq => hcd ?_
  rw [← heq, ← hc] at hd
  exact (List.cons.inj hd).1.symm

/-- No occurrence begins between the position and where the search ends. -/
theorem not_prefix_drop (hne : needle ≠ []) {j : ℕ} (hpos : pos ≤ j)
    (hj : ∀ k, find text needle pos = some k → j < k) : ¬ needle <+: text.drop j := by
  cases hfind : find text needle pos with
  | some k =>
      obtain ⟨-, -, -, hbefore⟩ := find_some hfind
      exact hbefore j hpos (hj k hfind)
  | none =>
      unfold find at hfind
      split at hfind
      · have hlater := findIn_none (Option.map_eq_none_iff.mp hfind) (j - pos)
        rwa [List.drop_drop, Nat.add_sub_cancel' hpos] at hlater
      · have hbehind : text.drop j = [] := List.drop_of_length_le (by omega)
        rw [hbehind, List.prefix_nil]
        exact hne

omit [DecidableEq α] in
/-- What stands between has no occurrence. -/
theorem not_infix_slice {n : ℕ} (h : ∀ j, pos ≤ j → j < pos + n → ¬ needle <+: text.drop j)
    (hne : needle ≠ []) : ¬ needle <:+: ByteSeq.slice text pos n := by
  rintro ⟨before, after, hslice⟩
  have hlen := congrArg List.length hslice
  have hpos := List.length_pos_of_ne_nil hne
  rw [ByteSeq.length_slice] at hlen
  simp only [List.length_append] at hlen
  refine h (pos + before.length) (by omega) (by omega) ?_
  have hdrop : (ByteSeq.slice text pos n).drop before.length = needle ++ after := by
    rw [← hslice, List.append_assoc, List.drop_left]
  rw [ByteSeq.slice, List.drop_take, List.drop_drop] at hdrop
  have hpre : needle <+: (text.drop (pos + before.length)).take (n - before.length) := by
    rw [hdrop]
    exact List.prefix_append needle after
  exact hpre.trans (List.take_prefix _ _)

end Find

end Search
