import BundleStore.Lib.Machine
import BundleStore.Lib.Prog
import BundleStore.Lib.Search
import BundleStore.Model.Setting

set_option autoImplicit false

/-!
# The preloaded calls

SOURCE: src/mooseclient/preload.cc:66-233, src/base3/pathops.cc:75-89

A host program calls the functions of the C library. The preloaded ones keep the paths below the
mount point, and the descriptors of their table, for MooseFS, and pass the others on. A method of
a `moose::File` is one call here.
-/

namespace BundleStore

namespace Preload

open Machine

/-- The intercepted functions. The third argument of `open` may be missing. -/
inductive HostCall
  | open_ (pathname : Bytes) (flags : ℤ) (mode : Option ℕ)
  | creat (pathname : Bytes) (mode : ℕ)
  | read (fd : ℤ) (count : ℕ)
  | write (fd : ℤ) (buf : Bytes)
  | pread (fd : ℤ) (count : ℕ) (offset : ℤ)
  | pwrite (fd : ℤ) (buf : Bytes) (offset : ℤ)
  | lseek (fd offset whence : ℤ)
  | close (fd : ℤ)

/-- What is returned, for `read` and `pread` with what is stored. -/
abbrev HostCall.Answer : HostCall → Type
  | .read _ _ => ℤ × Bytes
  | .pread _ _ _ => ℤ × Bytes
  | _ => ℤ

/-- The methods of an opened `moose::File`. -/
inductive FileMethod
  | read (count : ℕ)
  | write (buf : Bytes)
  | pread (count : ℕ) (offset : ℤ)
  | pwrite (buf : Bytes) (offset : ℤ)
  | seek (offset whence : ℤ)
  | close

abbrev FileMethod.Answer : FileMethod → Type
  | .read _ => ℤ × Bytes
  | .pread _ _ => ℤ × Bytes
  | _ => ℤ

/-- A new `moose::File` after its `Open` or `Create`: what that has returned, the object, and
its inode. -/
structure NewFile where
  ret : ℤ
  f : ℕ
  inode : ℕ

/-- What the preloaded functions call. -/
inductive PreloadCall
  /-- The function of the C library. -/
  | real (c : HostCall)
  /-- `Open` of a new `moose::File`. -/
  | fileOpen (pathname : Bytes) (flags : ℤ) (mode : ℕ)
  /-- `Create` of a new `moose::File`. -/
  | fileCreate (pathname : Bytes) (mode : ℕ)
  | file (f : ℕ) (m : FileMethod)
  | delete (f : ℕ)
  /-- An exception leaves the function, and the host program ends. -/
  | uncaught

abbrev PreloadCall.Answer : PreloadCall → Type
  | .real c => c.Answer
  | .fileOpen _ _ _ => NewFile
  | .fileCreate _ _ => NewFile
  | .file _ m => m.Answer
  | .delete _ => Unit
  | .uncaught => Empty

abbrev Shimmed (α : Type) : Type :=
  Prog PreloadCall PreloadCall.Answer α

/-- The variables of the library. -/
structure Shim where
  mount_point_ : Bytes
  map_ : List (ℤ × ℕ)
  /-- There is a `master_`, and it has a session. -/
  session : Bool

/-- `SetMountPoint`, for a string that is not empty. -/
def setMountPoint (pathname : Bytes) : Bytes :=
  if pathname.getLast? ≠ some 47 then pathname ++ [47] else pathname

def isAbspath (path : Bytes) : Bool :=
  path.head? = some 47

/-- `cwd` is what `getcwd` has stored. -/
def toAbspath (cwd pathname : Bytes) : Bytes :=
  if isAbspath pathname then pathname else pathJoin cwd pathname

/-- `substr` throws behind the end of the string. -/
def toInterpath (mount_point_ abspath : Bytes) : Option Bytes :=
  if abspath.length < mount_point_.length then none
  else some (abspath.drop mount_point_.length)

def isTrappedFile (mount_point_ pathname : Bytes) : Bool :=
  let a := if pathname.getLast? ≠ some 47 then pathname ++ [47] else pathname
  match Search.find a mount_point_ 0 with
  | none => false
  | some pos =>
      if pos ≠ 0 then false
      else if a.length = pos then true
      else decide (pos < a.length ∧ a.getD pos 0 = 47)

namespace Shim

def getFile (st : Shim) (fd : ℤ) : Option ℕ :=
  st.map_.lookup fd

def connectReady (st : Shim) : Bool :=
  !st.mount_point_.isEmpty && st.session

/-- `map_[fd] = f` -/
def enter (st : Shim) (fd : ℤ) (f : ℕ) : Shim :=
  { st with map_ := (fd, f) :: st.map_.filter fun e => e.1 ≠ fd }

def erase (st : Shim) (fd : ℤ) : Shim :=
  { st with map_ := st.map_.filter fun e => e.1 ≠ fd }

/-- What `open` and `creat` do with a new file. -/
def newFile (st : Shim) (file : NewFile) : Shimmed (ℤ × Shim) :=
  if file.ret = 0 then pure (int32 file.inode, st.enter (int32 file.inode) file.f)
  else do
    Prog.op (PreloadCall.delete file.f)
    pure (-1, st)

/-- `open` and `creat`: `trapped` makes the new file, `real` is passed on. -/
def openWith (st : Shim) (cwd pathname : Bytes) (trapped : Shimmed NewFile) (real : Shimmed ℤ) :
    Shimmed (ℤ × Shim) :=
  let abspath := toAbspath cwd pathname
  if isTrappedFile st.mount_point_ abspath && st.connectReady then
    match toInterpath st.mount_point_ abspath with
    | none => Prog.call PreloadCall.uncaught fun x => nomatch x
    | some _ => do
        let file ← trapped
        st.newFile file
  else do
    let ret ← real
    pure (ret, st)

/-- `read`, `write`, `pread` and `pwrite`. -/
def transfer {α : Type} (st : Shim) (fd : ℤ) (method : ℕ → Shimmed α) (real : Shimmed α) :
    Shimmed (α × Shim) :=
  match st.getFile fd with
  | some f =>
      if st.connectReady then do
        let ret ← method f
        pure (ret, st)
      else do
        let ret ← real
        pure (ret, st)
  | none => do
      let ret ← real
      pure (ret, st)

/-- A call of the host program; `cwd` is its current directory. -/
def call (st : Shim) (cwd : Bytes) : (c : HostCall) → Shimmed (c.Answer × Shim)
  | .open_ pathname flags _ =>
      st.openWith cwd pathname (Prog.op (PreloadCall.fileOpen pathname flags 0))
        (Prog.op (PreloadCall.real (.open_ pathname flags none)))
  | .creat pathname mode =>
      st.openWith cwd pathname (Prog.op (PreloadCall.fileCreate pathname mode))
        (Prog.op (PreloadCall.real (.creat pathname mode)))
  | .read fd count =>
      st.transfer fd (fun f => Prog.op (PreloadCall.file f (.read count)))
        (Prog.op (PreloadCall.real (.read fd count)))
  | .write fd buf =>
      st.transfer fd (fun f => Prog.op (PreloadCall.file f (.write buf)))
        (Prog.op (PreloadCall.real (.write fd buf)))
  | .pread fd count offset =>
      st.transfer fd (fun f => Prog.op (PreloadCall.file f (.pread count offset)))
        (Prog.op (PreloadCall.real (.pread fd count offset)))
  | .pwrite fd buf offset =>
      st.transfer fd (fun f => Prog.op (PreloadCall.file f (.pwrite buf offset)))
        (Prog.op (PreloadCall.real (.pwrite fd buf offset)))
  | .close fd =>
      match st.getFile fd with
      | some f => do
          let _ ← Prog.op (PreloadCall.file f .close)
          Prog.op (PreloadCall.delete f)
          pure (0, st.erase fd)
      | none => do
          let ret ← Prog.op (PreloadCall.real (.close fd))
          pure (ret, st)
  | .lseek fd offset whence =>
      match st.getFile fd with
      | some f => do
          let ret ← Prog.op (PreloadCall.file f (.seek offset whence))
          pure (ret, st)
      | none => do
          -- the real function called here is `close`
          let ret ← Prog.op (PreloadCall.real (.close fd))
          pure (ret, st)

end Shim

end Preload

end BundleStore
