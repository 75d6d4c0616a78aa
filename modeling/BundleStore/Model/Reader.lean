import BundleStore.Model.Record

set_option autoImplicit false

/-!
# The reader

SOURCE: src/bundle/bundle.cc:217-307

A read sees one file as it is at that moment. A short `fread` at the end of the
file leaves `errno` as earlier calls have left it.
-/

namespace BundleStore

open Machine

/-- What `fopen(name, "r+b")` finds: the content of the file, or an error. -/
structure FileView where
  fopen : Bytes → Except ℕ Bytes
  error_ne_zero : ∀ name e, fopen name = .error e → e ≠ 0

/-- The files of a tree, as `fopen` finds them. -/
def treeView (t : Posix.Tree) (cwd : Posix.Loc) : FileView where
  fopen name :=
    match t.openRdwr cwd name with
    | .ok fd => .ok ((t.content fd.loc).getD [])
    | .error e => .error e
  error_ne_zero name e h := by
    split at h
    · cases h
    · rename_i hopen
      cases h
      exact Posix.Tree.openRdwr_error_ne_zero hopen

/-- What `Read(filename, ...)` returns and stores: `*readed`, the bytes at the
front of `buf`, and `user_data`. -/
structure ReadOut where
  ret : ℤ
  readed : Option ℕ := none
  buf : Bytes := []
  user_data : Option Bytes := none

/-- `Reader::Read(filename, ...)`; `user_data_size` is given with a `user_data`
buffer.
SOURCE: bundle.cc:262-307 -/
def readFile (view : FileView) (errno : ℕ) (filename : Bytes) (offset length buf_size : ℕ)
    (user_data_size : Option ℕ) : ReadOut :=
  if user_data_size.any (· < kUserDataSize) then { ret := Posix.EINVAL }
  else
    match view.fopen filename with
    | .error e => { ret := e }
    | .ok content =>
        if int64 offset < 0 then { ret := Posix.EINVAL }
        else
          let head := ByteSeq.slice content offset kFileHeaderSize
          let header := FileHeader.ofBytes head
          if head.length < kFileHeaderSize then { ret := Posix.EIO }
          else if FileHeader.kMAGIC_CODE ≠ header.magic_ then { ret := Posix.EIO }
          else if FileHeader.kVERSION ≠ header.version_ then { ret := Posix.EIO }
          else if header.length_ < length then { ret := Posix.EIO }
          else if FileHeader.kFILE_NORMAL ≠ header.flag_ then { ret := Posix.EIO }
          else
            let rsize := int32 (if length > buf_size then buf_size else length : ℕ)
            let buf := ByteSeq.slice content (offset + kFileHeaderSize) (uint64 rsize)
            let ret := int32 buf.length
            let readed := some (uint64 ret)
            if ret < rsize then { ret := errno, readed, buf }
            else
              let user_data := user_data_size.map fun _ => header.user_data_
              { ret := 0, readed, buf, user_data }

/-- How `Read(url, ...)` ends: it returns, having assigned the buffer and the
user data or not, or the allocation of the content throws. -/
inductive UrlRead
  | returned (ret : ℤ) (buf : Option Bytes) (user_data : Option Bytes)
  | threw

/-- `Reader::Read(url, ...)`; without `extract` the setting's is used.
SOURCE: bundle.cc:217-250 -/
def readUrl (setting : Setting) (view : FileView) (errno : ℕ) (url storage : Bytes)
    (extract : Option ExtractUrl) : UrlRead :=
  if url = [] then .returned (-1) none none
  else
    match (extract.getD setting.extract) (cstr url) {} with
    | none => .returned (-1) none none
    | some info =>
        if 2 ^ 63 ≤ info.size then .threw
        else
          let bundle_name := bundleFile setting storage info.prefix_ info.id
          let out := readFile view errno (cstr bundle_name) info.offset info.size info.size
            (some kUserDataSize)
          .returned out.ret (some (out.buf.take (out.readed.getD 0)))
            (some (out.user_data.getD (List.replicate kUserDataSize 0)))

end BundleStore
