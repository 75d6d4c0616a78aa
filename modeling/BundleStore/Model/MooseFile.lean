import BundleStore.Lib.Text
import BundleStore.Model.MasterServer
import Mathlib.Data.Nat.Bitwise

set_option autoImplicit false

/-!
# Opening a file of MooseFS

SOURCE: src/mooseclient/moose.cc:1256-1345
-/

namespace BundleStore

namespace Moose

structure File where
  position_ : ℕ := 0
  inode_ : ℕ := 0
  truncate_in_close_ : Bool := false
  deriving DecidableEq

/-- What is in memory that the code reads before it has stored anything there. -/
structure Uninit where
  /-- the local `inode` of `Open` -/
  inode : ℕ
  /-- `st_size` of the local `stbuf` of `size()` -/
  st_size : ℕ

namespace File

/-- The second half of `Create`, after the parent has been found. -/
def createIn (self : File) (parent : ℕ) (name : Bytes) (mode : ℕ) : Master (ℤ × File) := do
  let (ret, out) ← MasterServer.create parent name mode
  if ret ≠ STATUS_OK then pure (ret, self)
  else pure (STATUS_OK, { self with inode_ := out.inode.getD 0, position_ := 0 })

/-- SOURCE: moose.cc:1297-1329 -/
def create (self : File) (pathname : Bytes) (mode : ℕ) : Master (ℤ × File) :=
  match Text.rfind 47 pathname with
  | some slash => do
      let (ret, out) ← MasterServer.lookupPath (pathname.take slash) true false
      if ret ≠ STATUS_OK then pure (ret, self)
      else createIn self (out.inode.getD 0) (pathname.drop (slash + 1)) mode
  | none => createIn self MFS_ROOT_ID pathname mode

/-- `oflags` -/
def openFlags (flags : ℕ) : ℕ :=
  if flags &&& O_ACCMODE = O_RDONLY then WANT_READ
  else if flags &&& O_ACCMODE = O_WRONLY then WANT_WRITE
  else if flags &&& O_ACCMODE = O_RDWR then WANT_READ ||| WANT_WRITE
  else 0

/-- The second half of `Open`: the request goes out with whatever `inode` holds. -/
def openInode (uninit : Uninit) (self : File) (inode flags : ℕ) : Master (ℤ × File) := do
  let self :=
    if flags &&& O_ACCMODE = O_WRONLY then { self with truncate_in_close_ := true } else self
  let (ret, out) ← MasterServer.openFile inode (openFlags flags) true
  if ret ≠ STATUS_OK then pure (ret, self)
  else
    let att := out.attr.getD FileAttribute.zero
    if flags &&& O_APPEND = O_APPEND then
      pure (STATUS_OK,
        { position_ := att.size uninit.st_size, inode_ := inode, truncate_in_close_ := true })
    else pure (STATUS_OK, { self with position_ := 0, inode_ := inode })

/-- SOURCE: moose.cc:1256-1295 -/
def openFile (uninit : Uninit) (self : File) (pathname : Bytes) (flags mode : ℕ) :
    Master (ℤ × File) := do
  let (ret, out) ← MasterServer.lookupPath pathname true false
  if ret = ERROR_ENOENT ∧ flags &&& O_CREAT ≠ 0 then self.create pathname mode
  else if ret = STATUS_OK ∧ flags &&& O_EXCL ≠ 0 then pure (-1, self)
  else self.openInode uninit (out.inode.getD uninit.inode) flags

/-- A `Truncate` that fails leaves the object as it was.
SOURCE: moose.cc:1331-1345 -/
def close (uninit : Uninit) (self : File) : Master (ℤ × File) :=
  if self.truncate_in_close_ then do
    let (ret, out) ← MasterServer.getAttr self.inode_
    let attr := out.attr.getD FileAttribute.zero
    if ret = STATUS_OK ∧ self.position_ < attr.size uninit.st_size then do
      let (ret, _) ← MasterServer.truncate self.inode_ 0 self.position_ true
      if ret ≠ STATUS_OK then pure (ret, self)
      else pure (0, { self with inode_ := 0, position_ := 0 })
    else pure (0, { self with inode_ := 0, position_ := 0 })
  else pure (0, { self with inode_ := 0, position_ := 0 })

end File

end Moose

end BundleStore
