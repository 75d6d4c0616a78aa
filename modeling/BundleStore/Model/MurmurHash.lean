import BundleStore.Lib.ByteSeq
import BundleStore.Lib.Machine

set_option autoImplicit false

/-!
# MurmurHash2

SOURCE: src/bundle/murmurhash2.cc:37-86, src/base3/hash.h:24-65, on a little-endian
machine; src/pybundle/murmur.py
-/

namespace BundleStore

/-- The multiplication constant `m`. -/
def murmurM : UInt32 := 0x5bd1e995

/-- The 32-bit word at `data`. -/
def word32 (b₀ b₁ b₂ b₃ : UInt8) : UInt32 :=
  b₀.toUInt32 ||| b₁.toUInt32 <<< 8 ||| b₂.toUInt32 <<< 16 ||| b₃.toUInt32 <<< 24

/-- What one word contributes. -/
def mixWord (k : UInt32) : UInt32 :=
  let k := k * murmurM
  let k := k ^^^ (k >>> 24)
  k * murmurM

/-- The `while`-loop over whole words, then the `switch` over the bytes that are
left, whose cases fall through. -/
def murmurLoop : Bytes → UInt32 → UInt32
  | b₀ :: b₁ :: b₂ :: b₃ :: rest, h =>
      murmurLoop rest (h * murmurM ^^^ mixWord (word32 b₀ b₁ b₂ b₃))
  | [b₀, b₁, b₂], h =>
      (h ^^^ b₂.toUInt32 <<< 16 ^^^ b₁.toUInt32 <<< 8 ^^^ b₀.toUInt32) * murmurM
  | [b₀, b₁], h => (h ^^^ b₁.toUInt32 <<< 8 ^^^ b₀.toUInt32) * murmurM
  | [b₀], h => (h ^^^ b₀.toUInt32) * murmurM
  | [], h => h

/-- `MurmurHash2(key, len, seed)`. A negative `len` enters neither the loop nor
a case of the `switch`. -/
def murmurHash2 (key : Bytes) (len : ℤ) (seed : UInt32) : UInt32 :=
  let h := murmurLoop (key.take len.toNat) (seed ^^^ UInt32.ofInt len)
  let h := h ^^^ (h >>> 13)
  let h := h * murmurM
  h ^^^ (h >>> 15)

namespace Base

/-- The `MurmurHash2` of `base3/hash.h`, whose `len` is unsigned. -/
def murmurHash2 (key : Bytes) (len seed : UInt32) : UInt32 :=
  let h := murmurLoop (key.take len.toNat) (seed ^^^ len)
  let h := h ^^^ (h >>> 13)
  let h := h * murmurM
  h ^^^ (h >>> 15)

end Base

namespace PyBundle

/-- `m`. -/
def murmurM : ℕ := 0x5bd1e995

/-- `x & 0xffffffff`: Python's integers have no width, and the source cuts them to 32 bits
in some places only. -/
def mask (x : ℕ) : ℕ :=
  x &&& 0xffffffff

/-- The `k` that is read at a place. -/
def word32 (b₀ b₁ b₂ b₃ : UInt8) : ℕ :=
  b₃.toNat <<< 24 ||| b₂.toNat <<< 16 ||| b₁.toNat <<< 8 ||| b₀.toNat

/-- What becomes of `k`. -/
def mixWord (k : ℕ) : ℕ :=
  let k := mask (murmurM * k)
  let k := k ^^^ (k >>> 24)
  mask (murmurM * k)

/-- The `while`-loop, then the branches over the bytes that are left. -/
def murmurLoop : Bytes → ℕ → ℕ
  | b₀ :: b₁ :: b₂ :: b₃ :: rest, h =>
      murmurLoop rest (mask (murmurM * h ^^^ mixWord (word32 b₀ b₁ b₂ b₃)))
  | [b₀, b₁, b₂], h => mask (murmurM * (h ^^^ b₂.toNat <<< 16 ^^^ b₁.toNat <<< 8 ^^^ b₀.toNat))
  | [b₀, b₁], h => mask (murmurM * (h ^^^ b₁.toNat <<< 8 ^^^ b₀.toNat))
  | [b₀], h => mask (murmurM * (h ^^^ b₀.toNat))
  | [], h => h

/-- `murmur.MurmurHash2(data, seed)`. -/
def murmurHash2 (data : Bytes) (seed : ℕ) : ℕ :=
  let h := murmurLoop data (seed ^^^ data.length)
  let h := h ^^^ (h >>> 13)
  let h := mask (murmurM * h)
  h ^^^ (h >>> 15)

end PyBundle

end BundleStore
