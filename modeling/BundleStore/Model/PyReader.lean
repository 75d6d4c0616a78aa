import BundleStore.Model.PyUrl
import BundleStore.Model.Reader

set_option autoImplicit false

/-!
# Reading Python bundles

SOURCE: src/pybundle/bundle.py:30-52,368-407

`struct.unpack('IIII', ..)` reads four 32-bit numbers, the least significant byte first.
-/

namespace BundleStore

namespace PyBundle

open Machine

/-- What `walk` yields for a record; `userdata` is always empty. -/
structure Item where
  flag : ℕ
  url : Bytes
  content : Bytes
  deriving DecidableEq

/-- How a round of the loop in `walk` ends: `break`, a failed assertion, or a record and
the position behind it. -/
inductive WalkRound
  | breaks
  | fails
  | yields (item : Item) (pos : ℕ)

/-- `fp.read(n)` at a position; a negative count reads everything. -/
def fpRead (file : Bytes) (pos : ℕ) (n : ℤ) : Bytes :=
  if n < 0 then file.drop pos else ByteSeq.slice file pos n.toNat

/-- A round of the loop. A `seek` that fails is as good as one behind the end of the file.
SOURCE: bundle.py:382-407 -/
def walkRound (file : Bytes) (pos : ℕ) : WalkRound :=
  let pos := align1k pos
  let fileheader := fpRead file pos kFileHeaderSize
  if fileheader.length < kFileHeaderSize then .breaks
  else
    let magic := readLe32 fileheader 0
    let length := readLe32 fileheader 4
    let version := readLe32 fileheader 8
    let flag := readLe32 fileheader 12
    if magic ≠ kMAGIC then .fails
    else if version ≠ 1 then .fails
    else if flag ≠ 1 then .fails
    else
      match (fileheader.drop 16).findIdx? (· == 0) with
      | none => .fails
      | some pos_zero =>
          if pos_zero > 0 ∧ pos_zero < kFileHeaderSize - 16 then
            let url := ByteSeq.slice fileheader 16 pos_zero
            let content := fpRead file (pos + kFileHeaderSize) (length - kFileHeaderSize)
            .yields { flag, url, content } (pos + length)
          else .fails

/-- How `walk` ends, if its rounds are enough: by itself, or with an exception. -/
inductive WalkEnd
  | finished
  | raised
  | running
  deriving DecidableEq

/-- The loop of `walk` for some rounds: what it has yielded, and how it has ended. -/
def walkLoop (file : Bytes) : ℕ → ℕ → List Item × WalkEnd
  | 0, _ => ([], .running)
  | rounds + 1, pos =>
      match walkRound file pos with
      | .breaks => ([], .finished)
      | .fails => ([], .raised)
      | .yields item pos =>
          let (items, ending) := walkLoop file rounds pos
          (item :: items, ending)

/-- `walk`. -/
def walk (view : FileView) (filename : Bytes) (rounds : ℕ) : List Item × WalkEnd :=
  match view.fopen filename with
  | .error _ => ([], .raised)
  | .ok file => walkLoop file rounds kBundleHeaderSize

/-- `read`: the content, unless it raises. -/
def read (view : FileView) (place url : Bytes) (check_flag : Bool) : Option Bytes :=
  match extractUrl url with
  | none => none
  | some none => none
  | some (some o) =>
      match view.fopen (bundleFilename o.bid place) with
      | .error _ => none
      | .ok file =>
          if o.offset < 0 then none
          else
            let header := fpRead file o.offset.toNat kFileHeaderSize
            let magic := readLe32 header 0
            let length := readLe32 header 4
            let version := readLe32 header 8
            let flag := readLe32 header 12
            if header.length < 4 * 4 then none
            else if magic ≠ kMAGIC then none
            else if (length : ℤ) - kFileHeaderSize ≠ o.length then none
            else if version ≠ 1 then none
            else if check_flag = true ∧ flag ≠ kFILE_NORMAL then none
            else some (fpRead file (o.offset.toNat + header.length) (length - kFileHeaderSize))

end PyBundle

end BundleStore
