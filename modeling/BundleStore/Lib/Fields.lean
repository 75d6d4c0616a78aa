import BundleStore.Lib.ByteSeq
import Mathlib.Tactic.Ring
import Mathlib.Tactic.NormNum

set_option autoImplicit false

/-!
# Messages made of fields

A layout lists the fields of a message: numbers of a fixed size with their most
significant byte first, and strings behind a length of one byte. A message of a
layout is read in one way only, and what is read is what fits.
-/

namespace Fields

inductive Field
  /-- a number of so many bytes -/
  | num (size : ℕ)
  /-- a length of one byte, then that many bytes -/
  | name
  deriving DecidableEq

inductive Value
  | num (n : ℕ)
  | name (data : Bytes)
  deriving DecidableEq

/-! ## Numbers -/

/-- The lowest bytes of a number, the most significant one first. -/
def putNum : ℕ → ℕ → Bytes
  | 0, _ => []
  | size + 1, n => UInt8.ofNat (n / 256 ^ size) :: putNum size n

def readNum (b : Bytes) : ℕ := b.foldl (fun acc x => 256 * acc + x.toNat) 0

/-- A number takes the bytes of its size. -/
@[simp] theorem length_putNum (size n : ℕ) : (putNum size n).length = size := by
  induction size with
  | zero => rfl
  | succ size ih => simp [putNum, ih]

/-- Reading the bytes of a number adds its remainder behind what was read before. -/
theorem foldl_putNum (size n acc : ℕ) :
    (putNum size n).foldl (fun acc x => 256 * acc + x.toNat) acc =
      256 ^ size * acc + n % 256 ^ size := by
  induction size generalizing acc with
  | zero => simp [putNum, Nat.mod_one]
  | succ size ih =>
      have hdigit : (UInt8.ofNat (n / 256 ^ size)).toNat = n / 256 ^ size % 256 := by simp
      rw [putNum, List.foldl_cons, ih, hdigit, Nat.mod_pow_succ]
      ring

/-- Numbers that fit come back. -/
theorem readNum_putNum {size n : ℕ} (h : n < 256 ^ size) : readNum (putNum size n) = n := by
  rw [readNum, foldl_putNum, Nat.mul_zero, Nat.zero_add, Nat.mod_eq_of_lt h]

/-- What was read before is moved up by the bytes that follow. -/
theorem foldl_readNum (b : Bytes) (acc : ℕ) :
    b.foldl (fun acc x => 256 * acc + x.toNat) acc = 256 ^ b.length * acc + readNum b := by
  induction b generalizing acc with
  | nil => simp [readNum]
  | cons x b ih =>
      rw [readNum, List.foldl_cons, List.foldl_cons, ih, ih (256 * 0 + x.toNat), List.length_cons]
      ring

/-- The number of two pieces. -/
theorem readNum_append (b b' : Bytes) :
    readNum (b ++ b') = 256 ^ b'.length * readNum b + readNum b' := by
  rw [readNum, List.foldl_append, foldl_readNum]
  rfl

/-- The first byte is the highest. -/
theorem readNum_cons (x : UInt8) (b : Bytes) :
    readNum (x :: b) = 256 ^ b.length * x.toNat + readNum b := by
  have hsingle : readNum [x] = x.toNat := by simp [readNum]
  rw [← List.singleton_append, readNum_append, hsingle]

/-- A number is bounded by its bytes. -/
theorem readNum_lt (b : Bytes) : readNum b < 256 ^ b.length := by
  induction b with
  | nil => simp [readNum]
  | cons x b ih =>
      have hx : x.toNat ≤ 255 := Nat.le_of_lt_succ x.toNat_lt
      calc readNum (x :: b) = 256 ^ b.length * x.toNat + readNum b := readNum_cons x b
        _ < 256 ^ b.length * x.toNat + 256 ^ b.length := Nat.add_lt_add_left ih _
        _ ≤ 256 ^ b.length * 255 + 256 ^ b.length :=
          Nat.add_le_add_right (Nat.mul_le_mul_left _ hx) _
        _ = 256 ^ (x :: b).length := by rw [List.length_cons]; ring

/-- What stands before the bytes that are kept has no part in them. -/
theorem putNum_add_mul {size m : ℕ} (h : size ≤ m) (x n : ℕ) :
    putNum size (256 ^ m * x + n) = putNum size n := by
  induction size with
  | zero => rfl
  | succ size ih =>
      have hpow : 256 ^ m * x = 256 ^ size * (256 * (256 ^ (m - size - 1) * x)) := by
        have hm : m = size + 1 + (m - size - 1) := by omega
        calc 256 ^ m * x = 256 ^ (size + 1 + (m - size - 1)) * x := by rw [← hm]
          _ = 256 ^ size * (256 * (256 ^ (m - size - 1) * x)) := by ring
      have hhead : UInt8.ofNat ((256 ^ m * x + n) / 256 ^ size) = UInt8.ofNat (n / 256 ^ size) := by
        rw [hpow, Nat.mul_add_div (by positivity), ← UInt8.toNat_inj]
        simp
      rw [putNum, putNum, hhead, ih (by omega)]

/-- Bytes that are read are the bytes of the number. -/
theorem putNum_readNum (b : Bytes) : putNum b.length (readNum b) = b := by
  induction b with
  | nil => rfl
  | cons x b ih =>
      have hhead : (256 ^ b.length * x.toNat + readNum b) / 256 ^ b.length = x.toNat := by
        rw [Nat.mul_add_div (by positivity), Nat.div_eq_of_lt (readNum_lt b), Nat.add_zero]
      rw [List.length_cons, readNum_cons, putNum, hhead, putNum_add_mul le_rfl, ih]
      simp

/-- A number of several fields is put field by field. -/
theorem putNum_add (m size n : ℕ) :
    putNum (m + size) n = putNum m (n / 256 ^ size) ++ putNum size n := by
  induction m with
  | zero => simp [putNum]
  | succ m ih =>
      have hpow : n / 256 ^ (m + size) = n / 256 ^ size / 256 ^ m := by
        rw [Nat.div_div_eq_div_mul, ← pow_add, Nat.add_comm]
      rw [Nat.succ_add, putNum, putNum, ih, hpow, List.cons_append]

/-! ## Fields -/

def Field.put : Field → Value → Bytes
  | .num size, .num n => putNum size n
  | .name, .name data => UInt8.ofNat data.length :: data
  | _, _ => []

/-- The field can hold the value. -/
def Field.Fits : Field → Value → Prop
  | .num size, .num n => n < 256 ^ size
  | .name, .name data => data.length < 256
  | _, _ => False

/-- The value in front of some bytes, and what is behind it. -/
def Field.read : Field → Bytes → Option (Value × Bytes)
  | .num size, b =>
      if size ≤ b.length then some (.num (readNum (b.take size)), b.drop size) else none
  | .name, [] => none
  | .name, leng :: b =>
      if leng.toNat ≤ b.length then some (.name (b.take leng.toNat), b.drop leng.toNat) else none

/-- Reading finds the values that fit and were put, and nothing else. -/
theorem Field.read_eq_some {f : Field} {b rest : Bytes} {v : Value} :
    f.read b = some (v, rest) ↔ f.Fits v ∧ b = f.put v ++ rest := by
  cases f with
  | num size =>
      rw [Field.read]
      constructor
      · intro h
        split at h
        case isFalse => cases h
        case isTrue hsize =>
          cases h
          have hlength : (b.take size).length = size := by simp [hsize]
          refine ⟨?_, ?_⟩
          · have hlt := readNum_lt (b.take size)
            rwa [hlength] at hlt
          · have hput := putNum_readNum (b.take size)
            rw [hlength] at hput
            rw [Field.put, hput, List.take_append_drop]
      · rintro ⟨hfits, rfl⟩
        cases v with
        | name data => exact hfits.elim
        | num n =>
            have hlength := length_putNum size n
            simp [Field.put, hlength, readNum_putNum hfits]
  | name =>
      cases b with
      | nil =>
          refine iff_of_false (fun h => by cases h) ?_
          rintro ⟨hfits, hb⟩
          cases v with
          | num n => exact hfits
          | name data => cases hb
      | cons leng b =>
          rw [Field.read]
          constructor
          · intro h
            split at h
            case isFalse => cases h
            case isTrue hleng =>
              cases h
              have hlength : (b.take leng.toNat).length = leng.toNat := by simp [hleng]
              refine ⟨?_, ?_⟩
              · rw [Field.Fits, hlength]
                exact leng.toNat_lt
              · rw [Field.put, hlength, List.cons_append, List.take_append_drop]
                simp
          · rintro ⟨hfits, hb⟩
            cases v with
            | num n => exact hfits.elim
            | name data =>
                obtain ⟨rfl, rfl⟩ := List.cons.inj hb
                have hlength : (UInt8.ofNat data.length).toNat = data.length := by
                  simpa using Nat.mod_eq_of_lt hfits
                simp [hlength]

/-! ## Layouts -/

def putAll : List Field → List Value → Bytes
  | f :: layout, v :: values => f.put v ++ putAll layout values
  | _, _ => []

/-- The values of a message that has exactly these fields. -/
def readAll : List Field → Bytes → Option (List Value)
  | [], b => if b = [] then some [] else none
  | f :: layout, b => do
      let (v, rest) ← f.read b
      let values ← readAll layout rest
      pure (v :: values)

/-- A message is read as these values when they fit and it was put from them. -/
theorem readAll_eq_some {layout : List Field} {b : Bytes} {values : List Value} :
    readAll layout b = some values ↔
      List.Forall₂ Field.Fits layout values ∧ b = putAll layout values := by
  induction layout generalizing b values with
  | nil =>
      cases values with
      | nil => simp [readAll, putAll]
      | cons v values => exact iff_of_false (by simp [readAll]) (by rintro ⟨⟨⟩, -⟩)
  | cons f layout ih =>
      cases values with
      | nil =>
          refine iff_of_false (fun h => ?_) (by rintro ⟨⟨⟩, -⟩)
          obtain ⟨⟨v', rest⟩, -, h⟩ := Option.bind_eq_some_iff.mp h
          obtain ⟨values', -, h⟩ := Option.bind_eq_some_iff.mp h
          cases h
      | cons v values =>
          rw [readAll, List.forall₂_cons, putAll]
          constructor
          · intro h
            obtain ⟨⟨v', rest⟩, hread, h⟩ := Option.bind_eq_some_iff.mp h
            obtain ⟨values', hrest, h⟩ := Option.bind_eq_some_iff.mp h
            cases h
            obtain ⟨hfits, rfl⟩ := Field.read_eq_some.mp hread
            obtain ⟨hall, rfl⟩ := ih.mp hrest
            exact ⟨⟨hfits, hall⟩, rfl⟩
          · rintro ⟨⟨hfits, hall⟩, rfl⟩
            exact Option.bind_eq_some_iff.mpr ⟨_, Field.read_eq_some.mpr ⟨hfits, rfl⟩,
              Option.bind_eq_some_iff.mpr ⟨_, ih.mpr ⟨hall, rfl⟩, rfl⟩⟩

end Fields
