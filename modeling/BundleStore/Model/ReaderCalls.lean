import BundleStore.Lib.Alongside
import BundleStore.Model.Reader
import BundleStore.Model.World

set_option autoImplicit false

/-!
# The calls of the reader

SOURCE: src/bundle/bundle.cc:217-307

`Reader::Read` beside processes that go on writing: every library call of it is one
call here. A stream may read ahead and keep what it has read, so what `fread` gives may
stem from any moment since the file was opened, byte by byte.
-/

namespace BundleStore

open Machine Posix

inductive ReadCall
  /-- `fopen(filename, "r+b")` -/
  | fopen (filename : Bytes)
  /-- `fseek(fp, offset, SEEK_SET)` -/
  | fseek (offset : ℕ)
  /-- `fread(buf, 1, n, fp)` -/
  | fread (n : ℕ)
  /-- the current value of `errno` -/
  | errno

/-- What a call returns: success or not, or the bytes. -/
@[reducible] def ReadCall.Answer : ReadCall → Type
  | fopen _ | fseek _ => Bool
  | fread _ => Bytes
  | errno => ℕ

abbrev Reading : Type → Type := Prog ReadCall ReadCall.Answer

namespace Reading

abbrev call (o : ReadCall) : Reading o.Answer := Prog.op o
abbrev fopen (filename : Bytes) : Reading Bool := call (.fopen filename)
abbrev fseek (offset : ℕ) : Reading Bool := call (.fseek offset)
abbrev fread (n : ℕ) : Reading Bytes := call (.fread n)
abbrev errno : Reading ℕ := call .errno

end Reading

namespace Reader

/-- `Reader::Read(filename, ...)`.
SOURCE: bundle.cc:262-307 -/
def readFile (filename : Bytes) (offset length buf_size : ℕ) (user_data_size : Option ℕ) :
    Reading ReadOut :=
  if user_data_size.any (· < kUserDataSize) then pure { ret := EINVAL }
  else do
    let fp ← Reading.fopen filename
    if fp = false then
      let e ← Reading.errno
      pure { ret := e }
    else
      let ret ← Reading.fseek offset
      if ret = false then
        let e ← Reading.errno
        pure { ret := e }
      else
        let head ← Reading.fread kFileHeaderSize
        let header := FileHeader.ofBytes head
        if head.length < kFileHeaderSize then pure { ret := EIO }
        else if FileHeader.kMAGIC_CODE ≠ header.magic_ then pure { ret := EIO }
        else if FileHeader.kVERSION ≠ header.version_ then pure { ret := EIO }
        else if header.length_ < length then pure { ret := EIO }
        else if FileHeader.kFILE_NORMAL ≠ header.flag_ then pure { ret := EIO }
        else
          let rsize := int32 (if length > buf_size then buf_size else length : ℕ)
          let buf ← Reading.fread (uint64 rsize)
          let ret := int32 buf.length
          let readed := some (uint64 ret)
          if ret < rsize then
            let e ← Reading.errno
            pure { ret := e, readed, buf }
          else
            let user_data := user_data_size.map fun _ => header.user_data_
            pure { ret := 0, readed, buf, user_data }

/-- `Reader::Read(url, ...)`.
SOURCE: bundle.cc:217-250 -/
def readUrl (setting : Setting) (url storage : Bytes) (extract : Option ExtractUrl) :
    Reading UrlRead :=
  if url = [] then pure (.returned (-1) none none)
  else
    match (extract.getD setting.extract) (cstr url) {} with
    | none => pure (.returned (-1) none none)
    | some info =>
        if 2 ^ 63 ≤ info.size then pure .threw
        else do
          let bundle_name := bundleFile setting storage info.prefix_ info.id
          let out ← readFile (cstr bundle_name) info.offset info.size info.size
            (some kUserDataSize)
          pure (.returned out.ret (some (out.buf.take (out.readed.getD 0)))
            (some (out.user_data.getD (List.replicate kUserDataSize 0))))

end Reader

/-! ## What the calls do -/

/-- An open stream: its file, its position, and the contents that the file has had since
it was opened. -/
structure Stream where
  loc : Loc
  pos : ℕ
  seen : List Bytes

/-- What a reader keeps. -/
structure ReaderState where
  stream : Option Stream := none
  errno : ℕ := 0

namespace ReaderState

def setErrno (r : ReaderState) (e : ℕ) : ReaderState :=
  { r with errno := e }

/-- The reader's stream has seen another content of its file. -/
def watch (t : Tree) (r : ReaderState) : ReaderState :=
  match r.stream with
  | none => r
  | some st =>
      match t.content st.loc with
      | none => r
      | some c => { r with stream := some { st with seen := c :: st.seen } }

/-- What `fread` may give: bytes that the file has had at their places, and fewer than
asked for only behind an end that the file has had, or when a `read` fails. -/
structure Delivers (fault : Prop) (st : Stream) (n : ℕ) (errno : ℕ) (bytes : Bytes)
    (errno' : ℕ) : Prop where
  length_le : bytes.length ≤ n
  had : ∀ (k : ℕ) (b : UInt8), bytes[k]? = some b →
    ∃ file ∈ st.seen, file[st.pos + k]? = some b
  short : bytes.length < n →
    (errno' = errno ∧ ∃ c ∈ st.seen, c.length ≤ st.pos + bytes.length) ∨ (fault ∧ errno' ≠ 0)

/-- What a call may answer on a tree; calls fail for a reason that is not in the tree only
with `fault`. -/
def Sem (cwd : Loc) (fault : Prop) (t : Tree) :
    (o : ReadCall) → ReaderState → o.Answer → ReaderState → Prop
  | .fopen filename, r, true, r' =>
      ∃ fd c, t.openRdwr cwd filename = .ok fd ∧ t.content fd.loc = some c ∧
        r' = { r with stream := some ⟨fd.loc, 0, [c]⟩ }
  | .fopen filename, r, false, r' =>
      ∃ e, (t.openRdwr cwd filename = .error e ∨ (fault ∧ e ≠ 0)) ∧ r' = r.setErrno e
  | .fseek offset, r, true, r' =>
      offset < 2 ^ 63 ∧ r' = { r with stream := r.stream.map fun st => { st with pos := offset } }
  | .fseek offset, r, false, r' =>
      ∃ e, ((2 ^ 63 ≤ offset ∧ e = EINVAL) ∨ (fault ∧ e ≠ 0)) ∧ r' = r.setErrno e
  | .fread n, r, bytes, r' =>
      ∃ st errno', r.stream = some st ∧ Delivers fault st n r.errno bytes errno' ∧
        r' = ⟨some { st with pos := st.pos + bytes.length }, errno'⟩
  | .errno, r, e, r' => e = r.errno ∧ r' = r

end ReaderState

/-- A reader beside processes that share a tree. -/
def reader {ι κ : Type} (cwd : Loc) (fault : Prop) :
    Observer ReadCall ReadCall.Answer (World ι κ) ReaderState where
  sem w := ReaderState.Sem cwd fault w.tree
  watch w := ReaderState.watch w.tree

/-! ## A reader on its own -/

/-- The calls on a tree that nobody changes, where none fails but for a reason in the
tree. -/
def ReaderState.serve (t : Tree) (cwd : Loc) :
    Prog.Handler ReadCall ReadCall.Answer ReaderState
  | .fopen filename, r =>
      match t.openRdwr cwd filename with
      | .ok fd => (true, { r with stream := some ⟨fd.loc, 0, [(t.content fd.loc).getD []]⟩ })
      | .error e => (false, r.setErrno e)
  | .fseek offset, r =>
      if offset < 2 ^ 63 then
        (true, { r with stream := r.stream.map fun st => { st with pos := offset } })
      else (false, r.setErrno EINVAL)
  | .fread n, r =>
      match r.stream with
      | none => ([], r)
      | some st =>
          let bytes := ByteSeq.slice (st.seen.headD []) st.pos n
          (bytes, { r with stream := some { st with pos := st.pos + bytes.length } })
  | .errno, r => (r.errno, r)

/-- A file that is opened has a content, and a stream is read after it was opened. -/
def ReaderState.serveOk (t : Tree) (cwd : Loc) : ReadCall → ReaderState → Bool
  | .fopen filename, _ =>
      match t.openRdwr cwd filename with
      | .ok fd => (t.content fd.loc).isSome
      | .error _ => true
  | .fread _, r => r.stream.any fun st => !st.seen.isEmpty
  | _, _ => true

end BundleStore
