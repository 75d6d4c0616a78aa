import BundleStore.Lib.ByteSeq
import Mathlib.Data.List.GetD
import Mathlib.Tactic.NormNum

set_option autoImplicit false

/-!
# Machine integers

A value converted to a fixed-width type is reduced modulo the width: into the
range around zero for a signed type, from zero on for an unsigned one. In memory
a 32-bit value is four bytes, the least significant first.
-/

namespace Machine

/-- Conversion to a signed 32-bit integer. -/
def int32 (x : ℤ) : ℤ := x.bmod (2 ^ 32)

/-- Conversion to a signed 64-bit integer. -/
def int64 (x : ℤ) : ℤ := x.bmod (2 ^ 64)

/-- Conversion to an unsigned 32-bit integer. -/
def uint32 (x : ℤ) : ℕ := (x % 2 ^ 32).toNat

/-- Conversion to an unsigned 64-bit integer. -/
def uint64 (x : ℤ) : ℕ := (x % 2 ^ 64).toNat

/-- An `int` stays what it is. -/
theorem int32_of_range {x : ℤ} (hlo : -2 ^ 31 ≤ x) (hhi : x < 2 ^ 31) : int32 x = x := by
  unfold int32
  exact Int.bmod_eq_of_le (by omega) (by omega)

/-- A signed 64-bit number stays what it is. -/
theorem int64_of_range {x : ℤ} (hlo : -2 ^ 63 ≤ x) (hhi : x < 2 ^ 63) : int64 x = x := by
  unfold int64
  exact Int.bmod_eq_of_le (by omega) (by omega)

/-- A small number stays what it is as an `int`. -/
theorem int32_natCast {n : ℕ} (h : n < 2 ^ 31) : int32 n = n :=
  int32_of_range (by omega) (by omega)

/-- A small number stays what it is as a signed 64-bit number. -/
theorem int64_natCast {n : ℕ} (h : n < 2 ^ 63) : int64 n = n :=
  int64_of_range (by omega) (by omega)

/-- An unsigned 32-bit number stays what it is. -/
theorem uint32_natCast {n : ℕ} (h : n < 2 ^ 32) : uint32 n = n := by
  unfold uint32
  omega

/-- An unsigned 64-bit number stays what it is. -/
theorem uint64_natCast {n : ℕ} (h : n < 2 ^ 64) : uint64 n = n := by
  unfold uint64
  omega

/-- What is converted to 32 bits has 32 bits. -/
theorem uint32_lt (x : ℤ) : uint32 x < 2 ^ 32 := by
  unfold uint32
  omega

/-- What is converted to 64 bits has 64 bits. -/
theorem uint64_lt (x : ℤ) : uint64 x < 2 ^ 64 := by
  unfold uint64
  omega

/-- What is converted to an `int` is in its range. -/
theorem int32_range (x : ℤ) : -2 ^ 31 ≤ int32 x ∧ int32 x < 2 ^ 31 := by
  have hlo := Int.le_bmod (x := x) (m := 2 ^ 32) (by decide)
  have hhi := Int.bmod_lt (x := x) (m := 2 ^ 32) (by decide)
  unfold int32
  omega

/-- A signed 32-bit integer is recovered from its unsigned pattern. -/
theorem int32_uint32 (x : ℤ) : int32 (uint32 x) = int32 x := by
  have hmod : ((uint32 x : ℕ) : ℤ) = x % (2 ^ 32 : ℕ) := by
    unfold uint32
    omega
  unfold int32
  rw [hmod, Int.emod_bmod]

/-! ## In memory -/

/-- The bytes of a 32-bit value. -/
def le32 (n : ℕ) : Bytes :=
  [UInt8.ofNat n, UInt8.ofNat (n / 2 ^ 8), UInt8.ofNat (n / 2 ^ 16), UInt8.ofNat (n / 2 ^ 24)]

/-- The 32-bit value at a position; bytes past the end count as zero. -/
def readLe32 (b : Bytes) (pos : ℕ) : ℕ :=
  (b.getD pos 0).toNat + 2 ^ 8 * (b.getD (pos + 1) 0).toNat +
    2 ^ 16 * (b.getD (pos + 2) 0).toNat + 2 ^ 24 * (b.getD (pos + 3) 0).toNat

/-- A 32-bit word is four bytes. -/
@[simp] theorem length_le32 (n : ℕ) : (le32 n).length = 4 := rfl

/-- A 32-bit value is read back from where it stands. -/
theorem readLe32_append_le32 (front : Bytes) {n : ℕ} (h : n < 2 ^ 32) (rest : Bytes) :
    readLe32 (front ++ le32 n ++ rest) front.length = n := by
  have hat : ∀ k < 4, (front ++ le32 n ++ rest).getD (front.length + k) 0 = (le32 n).getD k 0 := by
    intro k hk
    rw [List.append_assoc, List.getD_append_right _ _ _ _ (by omega), Nat.add_sub_cancel_left,
      List.getD_append _ _ _ _ (by simpa using hk)]
  have h0 := hat 0 (by norm_num)
  have h1 := hat 1 (by norm_num)
  have h2 := hat 2 (by norm_num)
  have h3 := hat 3 (by norm_num)
  rw [Nat.add_zero] at h0
  simp only [readLe32, h0, h1, h2, h3]
  simp only [le32, List.getD_cons_zero, List.getD_cons_succ, UInt8.toNat_ofNat']
  omega

end Machine
