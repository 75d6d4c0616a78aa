import BundleStore.Model.FileLock
import BundleStore.Model.Setting

set_option autoImplicit false

/-!
# Records and the writer

SOURCE: src/bundle/bundle.h:11-26, src/bundle/bundle.cc:309-405

A record is a header of 512 bytes, the content, and what is missing to the next
multiple of 1024. The buffer it is put together in is not cleared first.
-/

namespace BundleStore

open Machine Text

/-- `FileHeader`, in the order of its fields in memory. -/
structure FileHeader where
  magic_ : ℕ
  version_ : ℕ
  flag_ : ℕ
  length_ : ℕ
  url_ : Bytes
  user_data_ : Bytes

namespace FileHeader

def kMAGIC_CODE : ℕ := 0xE4E4E4E4
def kVERSION : ℕ := 1
def kFILE_NORMAL : ℕ := 1

/-- The header as it lies in memory. -/
def bytes (h : FileHeader) : Bytes :=
  le32 h.magic_ ++ le32 h.version_ ++ le32 h.flag_ ++ le32 h.length_ ++ h.url_ ++ h.user_data_

/-- The header that lies at the front of a buffer. -/
def ofBytes (b : Bytes) : FileHeader where
  magic_ := readLe32 b 0
  version_ := readLe32 b 4
  flag_ := readLe32 b 8
  length_ := readLe32 b 12
  url_ := ByteSeq.slice b 16 kUrlSize
  user_data_ := ByteSeq.slice b (16 + kUrlSize) kUserDataSize

end FileHeader

/-- `strncpy(dst, src, n)`: the string cut at `n` bytes, or filled up with NULs. -/
def strncpy (src : Bytes) (n : ℕ) : Bytes :=
  (cstr src).take n ++ List.replicate (n - (cstr src).length) 0

/-- The size of a record, as it is computed in `size_t`. -/
def recordSize (buf_size : ℕ) : ℕ :=
  align1K (uint64 (kFileHeaderSize + buf_size))

/-- `int total`. -/
def recordTotal (buf_size : ℕ) : ℤ :=
  int32 (recordSize buf_size)

/-- The header that `Write` fills in. Without `user_data`, and behind a short
one, the field keeps what the heap held.
SOURCE: bundle.cc:361-371 -/
def recordHeader (heap url buf : Bytes) (user_data : Option Bytes) : FileHeader where
  magic_ := FileHeader.kMAGIC_CODE
  version_ := FileHeader.kVERSION
  flag_ := FileHeader.kFILE_NORMAL
  length_ := uint32 buf.length
  url_ := strncpy url kUrlSize
  user_data_ :=
    ByteSeq.overwrite 0 (ByteSeq.slice heap (16 + kUrlSize) kUserDataSize) 0
      ((user_data.getD []).take kUserDataSize)

/-- The buffer that is written, when the heap gave `heap` for it.
SOURCE: bundle.cc:359-373 -/
def recordBytes (heap url buf : Bytes) (user_data : Option Bytes) : Bytes :=
  (recordHeader heap url buf user_data).bytes ++ buf ++ heap.drop (kFileHeaderSize + buf.length)

/-- How a `Write` ends: it returns, with the value left in `*written`; `new`
throws because the size has become negative; or it stores behind the end of its
buffer, after which nothing is defined. -/
inductive WriteResult
  | returned (ret : ℤ) (written : ℕ)
  | threw
  | overran

/-- The result tells the caller that the record is stored. -/
def WriteResult.Succeeds : WriteResult → Prop
  | .returned ret _ => ret = 0
  | .threw | .overran => False

instance (result : WriteResult) : Decidable result.Succeeds :=
  match result with
  | .returned ret _ => inferInstanceAs (Decidable (ret = 0))
  | .threw | .overran => inferInstanceAs (Decidable False)

/-- The static `Writer::Write`, without `USE_CACHED_IO`. The position that
`lseek` returns is narrowed to `int`.
SOURCE: bundle.cc:329-390 -/
def writeRecord (bundle_file : Bytes) (offset : ℕ) (url buf : Bytes) (user_data : Option Bytes) :
    Sys WriteResult := do
  match ← Sys.openRdwr bundle_file with
  | none =>
      let e ← Sys.errno
      pure (.returned e 0)
  | some fd =>
      let (pos, fd) ← Sys.lseek fd offset
      if int32 pos = -1 then
        Sys.close fd
        pure (.returned Posix.EIO 0)
      else
        let total := recordTotal buf.length
        if total < 0 then pure .threw
        else if total < kFileHeaderSize + buf.length then pure .overran
        else
          let heap ← Sys.newChars total.toNat
          let n ← Sys.write fd (.record ⟨url, buf, user_data⟩) (recordBytes heap url buf user_data)
          Sys.close fd
          let ret := int32 n
          if ret < 0 ∨ ret ≠ total then
            let e ← Sys.errno
            pure (.returned e 0)
          else pure (.returned 0 buf.length)

/-- `Writer`. `Release` sets `filelock_` to NULL. -/
structure Writer where
  filename_ : Bytes
  filelock_ : Option FileLock
  builder_ : Option BuildUrl
  info_ : Info

namespace Writer

/-- `EnsureUrl`. -/
def ensureUrl (self : Writer) : Bytes :=
  match self.builder_ with
  | some builder => builder self.info_
  | none => []

/-- For the history: a `Write` that returns 0 is completed. -/
def note (self : Writer) (call : WriteCall) (result : WriteResult) : Sys Unit :=
  if result.Succeeds then Sys.completed self.filename_ self.info_.offset call else pure ()

/-- The two public `Write`s: with a URL of the caller's, or with the writer's own.
SOURCE: bundle.cc:315-327 -/
def writeUrl (self : Writer) (url buf : Bytes) (user_data : Option Bytes) : Sys WriteResult := do
  let result ← writeRecord self.filename_ self.info_.offset url buf user_data
  self.note ⟨url, buf, user_data⟩ result
  pure result

def write (self : Writer) (buf : Bytes) (user_data : Option Bytes) : Sys WriteResult :=
  self.writeUrl self.ensureUrl buf user_data

/-- `BatchWrite`: the writer afterwards, the result, and the URL where one was
handed out.
SOURCE: bundle.cc:392-405 -/
def batchWrite (self : Writer) (buf : Bytes) (user_data : Option Bytes) :
    Sys (Writer × WriteResult × Option Bytes) := do
  let self := { self with info_ := { self.info_ with size := buf.length } }
  let this_url := self.ensureUrl
  let result ← self.writeUrl this_url buf user_data
  match result with
  | .returned 0 written =>
      let offset := uint64 (self.info_.offset + recordSize buf.length)
      let self := { self with info_ := { self.info_ with offset } }
      pure (self, .returned 0 written, some this_url)
  | result => pure (self, result, none)

/-- `Release`, which the destructor calls too. -/
def release (self : Writer) : Sys Writer := do
  match self.filelock_ with
  | some filelock => filelock.destroy
  | none => pure ()
  pure { self with filelock_ := none }

end Writer

end BundleStore
