import BundleStore.Model.MurmurHash
import BundleStore.Model.Sixty
import Mathlib.Data.List.TakeWhile

set_option autoImplicit false

/-!
# URLs of stored files

SOURCE: src/bundle/bundle.cc:59-180

A URL names the bundle, the offset and the size of a file. `BuildSimple` writes
these in decimal, and `BuildWithEncode` in base sixty with a hash over them, which
`ExtractWithEncode` checks. `kNoHash` doubles as the error value of the number
parser.
-/

namespace BundleStore

open Machine Text

/-- `Info`, as its default constructor leaves it.
SOURCE: bundle.h:40-54 -/
structure Info where
  id : ℤ := -1
  name : Bytes := []
  offset : ℕ := 0
  size : ℕ := 0
  prefix_ : Bytes := []
  postfix_ : Bytes := []

/-- `ExtractUrl`: the record after a successful extraction, none after a failed
one. The URL is a C string. -/
abbrev ExtractUrl : Type := Bytes → Info → Option Info

/-- `BuildUrl`. -/
abbrev BuildUrl : Type := Info → Bytes

/-- What a function that takes a C string sees: the bytes before the first NUL. -/
def cstr (s : Bytes) : Bytes :=
  s.takeWhile (· != 0)

/-- A string without a NUL is its own C string. -/
theorem cstr_of_nul_free {s : Bytes} (h : 0 ∉ s) : cstr s = s := by
  unfold cstr
  refine List.takeWhile_eq_self_iff.mpr fun x hx => ?_
  simp only [bne_iff_ne, ne_eq]
  rintro rfl
  exact h hx

/-- The part between the last slash and the last dot, in `size_t` arithmetic:
without a slash it starts at the front, and a slash behind the dot makes the
count wrap, which takes everything.
SOURCE: bundle.cc:70,115 -/
def codedPart (u : Bytes) (dot : ℕ) (lastSlash : Option ℕ) : Bytes :=
  match lastSlash with
  | none => u.take dot
  | some s => if s < dot then ByteSeq.slice u (s + 1) (dot - s - 1) else u.drop (s + 1)

/-- `u.substr(0, last_slash)`: all of it when there is no slash. -/
def slashPrefix (u : Bytes) (lastSlash : Option ℕ) : Bytes :=
  match lastSlash with
  | none => u
  | some s => u.take s

/-- `boost::split(vs, part, boost::is_any_of(",/._"))`. -/
def splitFields (part : Bytes) : List Bytes :=
  part.splitOnP fun c => (ascii ",/._").contains c

/-- `ExtractSimple`. Where there are too few fields it has set the prefix already,
which no caller reads.
SOURCE: bundle.cc:59-84 -/
def extractSimple : ExtractUrl := fun url info =>
  let u := cstr url
  let lastSlash := rfind 47 u
  match rfind 46 u with
  | none => none
  | some dot =>
      match splitFields (codedPart u dot lastSlash) with
      | f₀ :: f₁ :: f₂ :: _ =>
          some { info with
            id := int32 (atol f₀)
            offset := uint64 (atol f₁)
            size := uint64 (atol f₂)
            prefix_ := slashPrefix u lastSlash
            postfix_ := u.drop dot }
      | _ => none

/-- `BuildSimple`.
SOURCE: bundle.cc:86-106 -/
def buildSimple : BuildUrl := fun info =>
  (if info.prefix_ ≠ [] then info.prefix_ ++ ascii "/" else []) ++
    (if info.id ≠ -1 then decimalInt info.id else info.name) ++
    ascii "," ++ decimal info.offset ++ ascii "," ++ decimal info.size ++
    (if info.postfix_ ≠ [] then info.postfix_ else [])

/-- The text that the hash is taken over, built alike on both sides.
SOURCE: bundle.cc:135-141,162-168 -/
def hashText (prefix_ : Bytes) (id : ℤ) (offset size : ℕ) (postfix_ : Bytes) : Bytes :=
  prefix_ ++ ascii "/" ++ decimalInt id ++ ascii "_" ++ decimal offset ++ ascii "_" ++
    decimal size ++ ascii "_" ++ postfix_

/-- `MurmurHash2(str.c_str(), str.size(), 0)`: the size is narrowed to `int`. -/
def hashOf (str : Bytes) : UInt32 :=
  murmurHash2 str (int32 str.length) 0

/-- `(uint32_t)-1`. -/
def kNoHash : UInt32 := 0xFFFFFFFF

/-- `ExtractWithEncode`.
SOURCE: bundle.cc:108-157 -/
def extractWithEncode : ExtractUrl := fun url info =>
  let u := cstr url
  let lastSlash := rfind 47 u
  match rfind 46 u with
  | none => none
  | some dot =>
      match splitFields (codedPart u dot lastSlash) with
      | [f₀, f₁, f₂, f₃] =>
          let hash := UInt32.ofNat (uint32 (fromSixty f₃))
          if hash = kNoHash then none
          else
            let prefix_ := slashPrefix u lastSlash
            let postfix_ := u.drop dot
            let id := int32 (fromSixty f₀)
            let offset := uint64 (fromSixty f₁)
            let size := uint64 (fromSixty f₂)
            if hashOf (hashText prefix_ id offset size postfix_) ≠ hash then none
            else some { info with id, offset, size, prefix_, postfix_ }
      | _ => none

/-- `BuildWithEncode`.
SOURCE: bundle.cc:159-180 -/
def buildWithEncode : BuildUrl := fun info =>
  let hash := hashOf (hashText info.prefix_ info.id info.offset info.size info.postfix_)
  info.prefix_ ++ ascii "/" ++ toSixty info.id ++ ascii "_" ++ toSixty (int64 info.offset) ++
    ascii "_" ++ toSixty (int64 info.size) ++ ascii "_" ++ toSixty hash.toNat ++ info.postfix_

end BundleStore
