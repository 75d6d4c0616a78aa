import BundleStore.Model.MurmurHash
import BundleStore.Model.PyBundle
import BundleStore.Model.Sixty
import Mathlib.Data.Int.Bitwise

set_option autoImplicit false

/-!
# The URLs of the Python bundle code

SOURCE: src/pybundle/bundle.py:245-327, src/pybundle/sixty.py

Integers have no width here. A function that raises returns `none`.
-/

namespace BundleStore

namespace PyBundle

open Text Posix

/-! ## Numbers in base sixty -/

/-- `sixty.ToSixty`. There are never more digits than the number says. -/
def toSixty (number : ℤ) : Bytes :=
  if number < 0 then [] else (toSixtyLoop (number.toNat + 1) number.toNat).reverse

/-- The `for`-loop of `FromSixty` over the characters that are left; the tables are
those of `sixty.h`, and a sum below zero goes on. -/
def fromSixtyLoop : Bytes → ℤ → ℤ
  | [], ten => ten
  | c :: rest, ten =>
      if c < 48 ∨ 122 < c then -1
      else
        let index := charTable.getD (c - 48).toNat (-1)
        fromSixtyLoop rest (ten + index * powTable.getD rest.length 0)

/-- `sixty.FromSixty`. -/
def fromSixty (sixty : Bytes) : ℤ :=
  if sixty.length > 11 then -1 else fromSixtyLoop sixty 0

/-! ## Hexadecimal numbers -/

/-- `'%x' % x` -/
def hex (x : ℤ) : Bytes :=
  if x < 0 then 45 :: hexadecimal x.natAbs else hexadecimal x.natAbs

/-- `'%08x' % x`: zeros after the sign, if there is room. -/
def hex08 (x : ℤ) : Bytes :=
  if x < 0 then
    45 :: if x.natAbs < 16 ^ 7 then (hex8 x.natAbs).tail else hexadecimal x.natAbs
  else if x.natAbs < 2 ^ 32 then hex8 x.natAbs
  else hexadecimal x.natAbs

def hexDigitValue (b : UInt8) : Option ℕ :=
  if 48 ≤ b ∧ b ≤ 57 then some (b.toNat - 48)
  else if 97 ≤ b ∧ b ≤ 102 then some (b.toNat - 87)
  else if 65 ≤ b ∧ b ≤ 70 then some (b.toNat - 55)
  else none

/-- `int(s, 16)`: white space around, a sign, `0x`, and digits. -/
def int16 (s : Bytes) : Option ℤ :=
  let s := s.dropWhile fun b => decide (IsSpace b)
  let s := (s.reverse.dropWhile fun b => decide (IsSpace b)).reverse
  let digits := if s.head? = some 45 ∨ s.head? = some 43 then s.tail else s
  let digits :=
    if digits.take 2 = ascii "0x" ∨ digits.take 2 = ascii "0X" then digits.drop 2 else digits
  if digits = [] then none
  else
    (digits.foldlM (fun n b => (hexDigitValue b).map (16 * n + ·)) 0).map fun n : ℕ =>
      if s.head? = some 45 then -(n : ℤ) else n

/-! ## URLs -/

/-- `s.split('/')` -/
def splitSlash (s : Bytes) : List Bytes :=
  s.splitOnP (· == slash)

/-- `'/'.join(arr)` -/
def joinSlash (arr : List Bytes) : Bytes :=
  [slash].intercalate arr

/-- The hash over the parts of a URL, built alike on both sides. -/
def urlHash (prefix_ bs : Bytes) (a : ℤ) (postfix_ : Bytes) : ℕ :=
  murmurHash2 (prefix_ ++ slash :: bs ++ slash :: hex a ++ 46 :: postfix_) 0

/-- `build_url`. -/
def buildUrl (prefix_ bid : Bytes) (offset length : ℕ) (postfix_ : Bytes) : Option Bytes :=
  match splitSlash bid with
  | arr₀ :: arr₁ :: _ => do
      let id ← int16 arr₁
      let bs := arr₀ ++ slash :: toSixty id
      let a := offset <<< 32 ||| length
      let b := urlHash prefix_ bs a postfix_
      let c := a ^^^ b
      some (prefix_ ++ slash :: bs ++ slash :: toSixty c ++ slash :: toSixty b ++ postfix_)
  | _ => none

/-- The `dict` that `extract_url` returns. -/
structure Extracted where
  prefix_ : Bytes
  bid : Bytes
  offset : ℤ
  length : ℤ
  deriving DecidableEq

/-- `extract_url`, which returns `None` where the hash is another. Without a dot
`url.rfind` is -1. -/
def extractUrl (url : Bytes) : Option (Option Extracted) :=
  let dot := (rfind 46 url).getD (url.length - 1)
  let postfix_ := url.drop dot
  let arr := splitSlash (url.take dot)
  let n := arr.length
  if n < 5 then none
  else
    let bid := arr.getD (n - 4) [] ++ slash :: hex08 (fromSixty (arr.getD (n - 3) []))
    let bs := joinSlash (ByteSeq.slice arr (n - 4) 2)
    let c := fromSixty (arr.getD (n - 2) [])
    let b := fromSixty (arr.getD (n - 1) [])
    let a := Int.xor c b
    let prefix_ := joinSlash (arr.take (n - 4))
    if (urlHash prefix_ bs a postfix_ : ℤ) = b then
      some (some { prefix_, bid, offset := a >>> (32 : ℕ), length := Int.land a 0xFFFFFFFF })
    else some none

end PyBundle

end BundleStore
