import BundleStore.Lib.Machine
import BundleStore.Lib.Text

set_option autoImplicit false

/-!
# Numbers in base sixty

SOURCE: src/bundle/sixty.h

A URL carries its numbers in base sixty, the most significant digit first, over
an alphabet without `I` and `i`.
-/

namespace BundleStore

open Machine Text

/-- `SixtyChar`: the digits in order. -/
def sixtyChar : Bytes :=
  ascii "ABCDEFGHJKLMNOPQRSTUVWXYZabcdefghjklmnopqrstuvwxyz0123456789"

/-- The digits of the `do`-loop, the least significant first. Eleven rounds are
enough for every `int64_t` (`toSixtyLoop_rounds`). -/
def toSixtyLoop : ℕ → ℕ → Bytes
  | 0, _ => []
  | rounds + 1, number =>
      sixtyChar.getD (number % 60) 0 ::
        if number / 60 = 0 then [] else toSixtyLoop rounds (number / 60)

/-- `ToSixty(int64_t)`: a negative number has no digits.
SOURCE: sixty.h:14-38 -/
def toSixty (number : ℤ) : Bytes :=
  if number < 0 then [] else (toSixtyLoop 11 number.toNat).reverse

/-- `CharTable`: the digit of each character from `'0'` to `'z'`. -/
def charTable : List ℤ :=
  [50, 51, 52, 53, 54, 55, 56, 57, 58, 59, -1, -1, -1, -1, -1, -1, -1, 0, 1, 2,
   3, 4, 5, 6, 7, -1, 8, 9, 10, 11, 12, 13, 14, 15, 16, 17, 18, 19, 20, 21,
   22, 23, 24, -1, -1, -1, -1, -1, -1, 25, 26, 27, 28, 29, 30, 31, 32, -1,
   33, 34, 35, 36, 37, 38, 39, 40, 41, 42, 43, 44, 45, 46, 47, 48, 49]

/-- `PowTable`. -/
def powTable : List ℤ :=
  [1, 60, 3600, 216000, 12960000,
   777600000, 46656000000, 2799360000000,
   167961600000000, 10077696000000000, 604661760000000000]

/-- The `for`-loop over the characters that are left; `ten` is the running sum.
A character outside the table's range ends it, and so does a sum below zero. -/
def fromSixtyLoop : Bytes → ℤ → ℤ
  | [], ten => ten
  | c :: rest, ten =>
      if c < 48 ∨ 122 < c then -1
      else
        let index := charTable.getD (c - 48).toNat (-1)
        let ten' := int64 (ten + int64 (index * powTable.getD rest.length 0))
        if ten' < 0 then -1 else fromSixtyLoop rest ten'

/-- `FromSixty`: the number, or `-1`.
SOURCE: sixty.h:44-82 -/
def fromSixty (num_sixty : Bytes) : ℤ :=
  let size := int32 num_sixty.length
  if size > 11 ∨ size = 0 then -1
  else fromSixtyLoop (num_sixty.take size.toNat) 0

end BundleStore
