import BundleStore.Model.Url

set_option autoImplicit false

/-!
# The three hashes are one

The integers of the Python code are those of the C++ code without their width: a value
that is masked before it is used again is the value of the word.
-/

namespace BundleStore

open Machine

namespace PyBundle

/-- The mask keeps 32 bits. -/
theorem mask_eq (x : ℕ) : mask x = x % 2 ^ 32 :=
  Nat.and_two_pow_sub_one_eq_mod x 32

/-- A product is masked in Python where it wraps in C++. -/
theorem mul_murmurM (h : UInt32) :
    mask (murmurM * h.toNat) = (h * BundleStore.murmurM).toNat := by
  have hm : BundleStore.murmurM.toNat = murmurM := by decide
  rw [mask_eq, UInt32.toNat_mul, hm, Nat.mul_comm]

/-- `(h * m) ^ k`, which is masked only after the `^`. -/
theorem mul_murmurM_xor (h k : UInt32) :
    mask (murmurM * h.toNat ^^^ k.toNat) = (h * BundleStore.murmurM ^^^ k).toNat := by
  rw [mask_eq, Nat.xor_mod_two_pow, ← mask_eq, mul_murmurM, Nat.mod_eq_of_lt k.toNat_lt,
    UInt32.toNat_xor]

/-- A byte that is shifted within the word. -/
theorem toNat_shiftLeft (b : UInt8) {r : ℕ} (hr : r ≤ 24) :
    (b.toUInt32 <<< UInt32.ofNat r).toNat = b.toNat <<< r := by
  have hb : b.toNat < 2 ^ 8 := b.toNat_lt
  have hpow : 2 ^ r ≤ 2 ^ 24 := Nat.pow_le_pow_right (by norm_num) hr
  have hlt : b.toNat * 2 ^ r < 2 ^ 32 := by
    calc b.toNat * 2 ^ r ≤ b.toNat * 2 ^ 24 := Nat.mul_le_mul_left _ hpow
      _ < 2 ^ 8 * 2 ^ 24 := Nat.mul_lt_mul_of_pos_right hb (by norm_num)
      _ = 2 ^ 32 := by norm_num
  rw [UInt32.toNat_shiftLeft, UInt8.toNat_toUInt32, UInt32.toNat_ofNat', Nat.shiftLeft_eq,
    Nat.shiftLeft_eq, Nat.mod_eq_of_lt (show r < 2 ^ 32 by omega),
    Nat.mod_eq_of_lt (show r < 32 by omega), Nat.mod_eq_of_lt hlt]

/-- A shift of a word is a shift of its value. -/
theorem toNat_shiftRight (h : UInt32) {r : ℕ} (hr : r < 32) :
    (h >>> UInt32.ofNat r).toNat = h.toNat >>> r := by
  rw [UInt32.toNat_shiftRight, UInt32.toNat_ofNat', Nat.mod_eq_of_lt (show r < 2 ^ 32 by omega),
    Nat.mod_eq_of_lt hr]

/-- The word as Python puts it together. -/
theorem toNat_word32 (b₀ b₁ b₂ b₃ : UInt8) :
    (BundleStore.word32 b₀ b₁ b₂ b₃).toNat = word32 b₀ b₁ b₂ b₃ := by
  have h₁ : (b₁.toUInt32 <<< 8).toNat = b₁.toNat <<< 8 := toNat_shiftLeft b₁ (by norm_num)
  have h₂ : (b₂.toUInt32 <<< 16).toNat = b₂.toNat <<< 16 := toNat_shiftLeft b₂ (by norm_num)
  have h₃ : (b₃.toUInt32 <<< 24).toNat = b₃.toNat <<< 24 := toNat_shiftLeft b₃ (by norm_num)
  simp only [BundleStore.word32, UInt32.toNat_or, UInt8.toNat_toUInt32, h₁, h₂, h₃]
  rw [Nat.or_comm, Nat.or_comm (_ ||| _) (b₂.toNat <<< 16), Nat.or_comm b₀.toNat]
  simp only [word32, Nat.or_assoc]

/-- A word is mixed as its value is.
SOURCE: murmurhash2.cc:55-61 -/
theorem toNat_mixWord (k : UInt32) :
    (BundleStore.mixWord k).toNat = mixWord k.toNat := by
  have hshift : ((k * BundleStore.murmurM) >>> 24).toNat = (k * BundleStore.murmurM).toNat >>> 24 :=
    toNat_shiftRight _ (by norm_num)
  simp only [mixWord, BundleStore.mixWord]
  rw [mul_murmurM, ← hshift, ← UInt32.toNat_xor, mul_murmurM]

/-- A turn of the loop. -/
theorem murmurLoop_word (b₀ b₁ b₂ b₃ : UInt8) (rest : Bytes) (h : UInt32) :
    BundleStore.murmurLoop (b₀ :: b₁ :: b₂ :: b₃ :: rest) h =
      BundleStore.murmurLoop rest
        (h * BundleStore.murmurM ^^^ BundleStore.mixWord (BundleStore.word32 b₀ b₁ b₂ b₃)) := by
  delta BundleStore.murmurLoop
  rfl

/-- The simulation: at every turn of the loop both sides have the same `h`. -/
theorem murmurLoop_toNat (data : Bytes) (h : UInt32) :
    murmurLoop data h.toNat = (BundleStore.murmurLoop data h).toNat := by
  induction data, h using BundleStore.murmurLoop.induct with
  | case1 b₀ b₁ b₂ b₃ rest h ih =>
      rw [murmurLoop_word, murmurLoop, ← toNat_word32, ← toNat_mixWord, mul_murmurM_xor, ih]
  | case2 b₀ b₁ b₂ h =>
      have h₁ : (b₁.toUInt32 <<< 8).toNat = b₁.toNat <<< 8 := toNat_shiftLeft b₁ (by norm_num)
      have h₂ : (b₂.toUInt32 <<< 16).toNat = b₂.toNat <<< 16 := toNat_shiftLeft b₂ (by norm_num)
      rw [murmurLoop, ← h₁, ← h₂, ← UInt8.toNat_toUInt32 b₀, ← UInt32.toNat_xor,
        ← UInt32.toNat_xor, ← UInt32.toNat_xor, mul_murmurM]
      rfl
  | case3 b₀ b₁ h =>
      have h₁ : (b₁.toUInt32 <<< 8).toNat = b₁.toNat <<< 8 := toNat_shiftLeft b₁ (by norm_num)
      rw [murmurLoop, ← h₁, ← UInt8.toNat_toUInt32 b₀, ← UInt32.toNat_xor, ← UInt32.toNat_xor,
        mul_murmurM]
      rfl
  | case4 b₀ h =>
      rw [murmurLoop, ← UInt8.toNat_toUInt32 b₀, ← UInt32.toNat_xor, mul_murmurM]
      rfl
  | case5 h => rfl

/-- The last lines of the functions. -/
theorem finish_toNat (h : UInt32) :
    ((h ^^^ (h >>> 13)) * BundleStore.murmurM ^^^
        ((h ^^^ (h >>> 13)) * BundleStore.murmurM) >>> 15).toNat =
      mask (murmurM * (h.toNat ^^^ h.toNat >>> 13)) ^^^
        mask (murmurM * (h.toNat ^^^ h.toNat >>> 13)) >>> 15 := by
  have hfirst : (h >>> 13).toNat = h.toNat >>> 13 := toNat_shiftRight h (by norm_num)
  have hlast : ∀ k : UInt32, (k >>> 15).toNat = k.toNat >>> 15 := fun k =>
    toNat_shiftRight k (by norm_num)
  rw [← hfirst, ← UInt32.toNat_xor, mul_murmurM, UInt32.toNat_xor, hlast]

/-- The seed with the length, which fits. -/
theorem toNat_seed_xor {n : ℕ} (hn : n < 2 ^ 32) (seed : UInt32) :
    (seed ^^^ UInt32.ofNat n).toNat = seed.toNat ^^^ n := by
  rw [UInt32.toNat_xor, UInt32.toNat_ofNat', Nat.mod_eq_of_lt hn]

end PyBundle

/-- **One hash.** A string has the same hash in the Python code, in the C++ code for URLs
and in the C++ code for the ring, whatever the seed; with the seed 0 this is the hash that a
URL carries.
SOURCE: murmurhash2.cc:37-86, hash.h:24-65, murmur.py -/
theorem murmurHash2_agree (data : Bytes) (hlen : data.length < 2 ^ 31) (seed : UInt32) :
    PyBundle.murmurHash2 data seed.toNat = (murmurHash2 data data.length seed).toNat ∧
      murmurHash2 data data.length seed =
        Base.murmurHash2 data (UInt32.ofNat data.length) seed ∧
      PyBundle.murmurHash2 data 0 = (hashOf data).toNat := by
  have hword : UInt32.ofInt data.length = UInt32.ofNat data.length := by
    unfold UInt32.ofInt
    congr 1
    omega
  have htake : data.take (UInt32.ofNat data.length).toNat = data := by
    rw [UInt32.toNat_ofNat', Nat.mod_eq_of_lt (by omega), List.take_length]
  have hpython : ∀ seed : UInt32,
      PyBundle.murmurHash2 data seed.toNat = (murmurHash2 data data.length seed).toNat := by
    intro seed
    simp only [PyBundle.murmurHash2, murmurHash2, Int.toNat_natCast, List.take_length, hword]
    rw [PyBundle.finish_toNat, ← PyBundle.toNat_seed_xor (by omega), PyBundle.murmurLoop_toNat]
  refine ⟨hpython seed, ?_, ?_⟩
  · simp only [murmurHash2, Base.murmurHash2, Int.toNat_natCast, List.take_length, htake, hword]
  · rw [hashOf, int32_natCast hlen]
    exact hpython 0

/-- The three hashes of `abcd` agree. -/
theorem murmurHash2_agree_abcd :
    PyBundle.murmurHash2 (Text.ascii "abcd") (UInt32.toNat 0) =
        (murmurHash2 (Text.ascii "abcd") 4 0).toNat ∧
      murmurHash2 (Text.ascii "abcd") 4 0 = Base.murmurHash2 (Text.ascii "abcd") 4 0 ∧
      PyBundle.murmurHash2 (Text.ascii "abcd") 0 = (hashOf (Text.ascii "abcd")).toNat :=
  murmurHash2_agree (Text.ascii "abcd") (by decide) 0

end BundleStore
