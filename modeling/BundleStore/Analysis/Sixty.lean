import BundleStore.Model.Sixty
import Mathlib.Data.Nat.Digits.Lemmas
import Mathlib.Tactic.Ring

set_option autoImplicit false

/-!
# The base-sixty numerals are read back

`toSixty` writes the digits of `Nat.digits 60`, and on a numeral whose value
fits an `int64_t` the running sum of `fromSixty` never wraps.
-/

namespace BundleStore

open Machine Text

/-- The character of a digit. -/
def sixtyDigit (d : ℕ) : UInt8 :=
  sixtyChar.getD d 0

/-- The tables of the two directions agree.
SOURCE: sixty.h:25,46-51 -/
theorem charTable_sixtyDigit {d : ℕ} (h : d < 60) :
    ¬(sixtyDigit d < 48 ∨ 122 < sixtyDigit d) ∧
      charTable.getD (sixtyDigit d - 48).toNat (-1) = d := by
  have hall : ∀ e ∈ List.range 60, ¬(sixtyDigit e < 48 ∨ 122 < sixtyDigit e) ∧
      charTable.getD (sixtyDigit e - 48).toNat (-1) = e := by decide
  exact hall d (List.mem_range.mpr h)

/-- The table of powers.
SOURCE: sixty.h:50-54 -/
theorem powTable_eq {k : ℕ} (h : k < 11) : powTable.getD k 0 = 60 ^ k := by
  have hall : ∀ e ∈ List.range 11, powTable.getD e 0 = 60 ^ e := by decide
  exact hall k (List.mem_range.mpr h)

/-- A digit is a letter or a decimal digit, so it never separates fields. -/
theorem sixtyDigit_ne_separator {d : ℕ} (h : d < 60) :
    sixtyDigit d ∉ ascii ",/._" ∧ sixtyDigit d ≠ 0 := by
  have hall : ∀ e ∈ List.range 60, sixtyDigit e ∉ ascii ",/._" ∧ sixtyDigit e ≠ 0 := by decide
  exact hall d (List.mem_range.mpr h)

/-- The digits of a number, the least significant first; zero has one digit. -/
def digits60 (n : ℕ) : List ℕ :=
  if n = 0 then [0] else Nat.digits 60 n

/-- The digits in base sixty are below sixty. -/
theorem digits60_lt {n d : ℕ} (h : d ∈ digits60 n) : d < 60 := by
  unfold digits60 at h
  split at h
  · simp only [List.mem_singleton] at h
    omega
  · exact Nat.digits_lt_base (by norm_num) h

/-- A number is read off its digits. -/
theorem ofDigits_digits60 (n : ℕ) : Nat.ofDigits 60 (digits60 n) = n := by
  unfold digits60
  split
  · rename_i h
    simp [h]
  · exact Nat.ofDigits_digits 60 n

/-- A number below a power of sixty has no more digits than the power. -/
theorem length_digits60_le {n k : ℕ} (hk : 0 < k) (h : n < 60 ^ k) : (digits60 n).length ≤ k := by
  unfold digits60
  split
  · exact hk
  · exact (Nat.digits_length_le_iff (by norm_num) n).mpr h

/-- Every number has a digit. -/
theorem length_digits60_pos (n : ℕ) : 0 < (digits60 n).length := by
  unfold digits60
  split
  · exact Nat.one_pos
  · rename_i h
    exact List.length_pos_of_ne_nil (Nat.digits_ne_nil_iff_ne_zero.mpr h)

/-- One round of the loop takes one digit off. -/
theorem digits60_of_div_ne_zero {n : ℕ} (h : n / 60 ≠ 0) :
    digits60 n = n % 60 :: digits60 (n / 60) := by
  have hn : n ≠ 0 := by
    rintro rfl
    exact h rfl
  rw [digits60, digits60, if_neg hn, if_neg h]
  exact Nat.digits_def' (by norm_num) (Nat.pos_of_ne_zero hn)

/-- A number below sixty has one digit. -/
theorem digits60_of_div_eq_zero {n : ℕ} (h : n / 60 = 0) : digits60 n = [n % 60] := by
  unfold digits60
  split
  · rename_i hn
    rw [hn]
  · rename_i hn
    rw [Nat.digits_def' (by norm_num) (Nat.pos_of_ne_zero hn), h, Nat.digits_zero]

/-- The loop leaves before its rounds run out, with all digits of the number. -/
theorem toSixtyLoop_rounds {rounds n : ℕ} (hr : 0 < rounds) (h : n < 60 ^ rounds) :
    toSixtyLoop rounds n = (digits60 n).map sixtyDigit := by
  induction rounds generalizing n with
  | zero => omega
  | succ r ih =>
      unfold toSixtyLoop
      by_cases hdiv : n / 60 = 0
      · rw [if_pos hdiv, digits60_of_div_eq_zero hdiv]
        rfl
      · have hlt : n / 60 < 60 ^ r := by
          rw [Nat.div_lt_iff_lt_mul (by norm_num), ← pow_succ]
          exact h
        have hr' : 0 < r := by
          rcases Nat.eq_zero_or_pos r with rfl | hpos
          · exact absurd (Nat.lt_one_iff.mp hlt) hdiv
          · exact hpos
        rw [if_neg hdiv, ih hr' hlt, digits60_of_div_ne_zero hdiv]
        rfl

/-- A number below 2^63 is written with its digits, the highest first.
SOURCE: sixty.h:14-36 -/
theorem toSixty_eq {n : ℕ} (h : n < 2 ^ 63) :
    toSixty n = (digits60 n).reverse.map sixtyDigit := by
  have hpow : n < 60 ^ 11 := h.trans (by norm_num)
  unfold toSixty
  rw [if_neg (by omega), Int.toNat_natCast, toSixtyLoop_rounds (by norm_num) hpow, List.map_reverse]

/-- Reading digits, the most significant first. The running sum stays below the
value of the numeral, so none of its steps leaves the range of `int64_t`. -/
theorem fromSixtyLoop_digits (ds : List ℕ) (ten : ℕ) (hds : ∀ d ∈ ds, d < 60)
    (hlen : ds.length ≤ 11) (hbound : ten + Nat.ofDigits 60 ds.reverse < 2 ^ 63) :
    fromSixtyLoop (ds.map sixtyDigit) ten = (ten + Nat.ofDigits 60 ds.reverse : ℕ) := by
  induction ds generalizing ten with
  | nil => simp [fromSixtyLoop]
  | cons d ds ih =>
      have hvalue : Nat.ofDigits 60 (d :: ds).reverse =
          Nat.ofDigits 60 ds.reverse + d * 60 ^ ds.length := by
        rw [List.reverse_cons, Nat.ofDigits_append, Nat.ofDigits_singleton, List.length_reverse]
        ring
      rw [hvalue] at hbound ⊢
      rw [List.length_cons] at hlen
      have htail := ih (ten + d * 60 ^ ds.length)
        (fun e he => hds e (List.mem_cons_of_mem d he)) (by omega) (by omega)
      have hprod : int64 ((d : ℤ) * 60 ^ ds.length) = (d * 60 ^ ds.length : ℕ) := by
        rw [← int64_natCast (n := d * 60 ^ ds.length) (by omega)]
        push_cast
        rfl
      have hsum := int64_natCast (n := ten + d * 60 ^ ds.length) (by omega)
      rw [Nat.cast_add] at hsum
      have hpow := powTable_eq (k := ds.length) (by omega)
      obtain ⟨hrange, hindex⟩ := charTable_sixtyDigit (hds d List.mem_cons_self)
      simp only [List.map_cons, fromSixtyLoop, List.length_map]
      rw [if_neg hrange, hindex, hpow, hprod, hsum, ← Nat.cast_add,
        if_neg (Int.not_lt.mpr (Int.natCast_nonneg _)), htail, Nat.add_assoc,
        Nat.add_comm (d * 60 ^ ds.length)]

/-- **Round trip.** A non-negative `int64_t` is read back from its numeral. -/
theorem fromSixty_toSixty_natCast {n : ℕ} (h : n < 2 ^ 63) : fromSixty (toSixty n) = n := by
  have hpow : n < 60 ^ 11 := h.trans (by norm_num)
  have hle := length_digits60_le (by norm_num) hpow
  have hpos := length_digits60_pos n
  have hlength : (toSixty n).length = (digits60 n).length := by
    rw [toSixty_eq h, List.length_map, List.length_reverse]
  have hsize : int32 (toSixty n).length = (digits60 n).length := by
    rw [hlength, int32_of_range] <;> omega
  unfold fromSixty
  simp only [hsize]
  rw [if_neg (by omega), Int.toNat_natCast, List.take_of_length_le (le_of_eq hlength),
    toSixty_eq h]
  have hloop := fromSixtyLoop_digits (digits60 n).reverse 0
    (fun d hd => digits60_lt (List.mem_reverse.mp hd)) (by simpa using hle)
    (by simpa [ofDigits_digits60] using h)
  simpa [ofDigits_digits60] using hloop

/-- The characters of a numeral. -/
theorem mem_toSixty {n : ℕ} (h : n < 2 ^ 63) {c : UInt8} (hc : c ∈ toSixty n) :
    c ∉ ascii ",/._" ∧ c ≠ 0 := by
  rw [toSixty_eq h, List.mem_map] at hc
  obtain ⟨d, hd, rfl⟩ := hc
  exact sixtyDigit_ne_separator (digits60_lt (List.mem_reverse.mp hd))

end BundleStore
