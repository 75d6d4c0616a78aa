import BundleStore.Model.MooseData
import BundleStore.Model.Setting
import Mathlib.Logic.Function.Basic

set_option autoImplicit false

/-!
# Descriptors of MooseFS files

SOURCE: src/mooseclient/moose_c.cc:10-174, src/base3/pathops.cc:103-117

The descriptor of a file is its inode as an `int`, and `map_` has one object for
each descriptor.
-/

namespace BundleStore

namespace Moose

open Machine

/-- `map_` -/
abbrev Descriptors : Type := ℤ → Option File

/-- What `mfs_open` and `mfs_creat` do with an object whose `Open` or `Create` has
returned `ret`. -/
def Descriptors.enter (map_ : Descriptors) (ret : ℤ) (f : File) : ℤ × Descriptors :=
  if ret = 0 then (int32 f.inode_, Function.update map_ (int32 f.inode_) (some f))
  else (-1, map_)

/-- SOURCE: moose_c.cc:50-59 -/
def mfs_open (uninit : Uninit) (map_ : Descriptors) (pathname : Bytes) (flags mode : ℕ) :
    Client (ℤ × Descriptors) := do
  let (ret, f) ← onMaster (File.openFile uninit {} pathname flags mode)
  pure (map_.enter ret f)

/-- SOURCE: moose_c.cc:61-71 -/
def mfs_creat (map_ : Descriptors) (pathname : Bytes) (mode : ℕ) : Client (ℤ × Descriptors) := do
  let (ret, f) ← onMaster (File.create {} pathname mode)
  pure (map_.enter ret f)

/-- SOURCE: moose_c.cc:73-78 -/
def mfs_read (crc_32 : Bytes → UInt32) (rounds : ℕ) (stale : ℕ → ℕ) (map_ : Descriptors)
    (fd : ℤ) (buf : Buffer) (count : ℕ) : Client (ℤ × Descriptors) :=
  match map_ fd with
  | some f => do
      let (ret, f, _) ← f.read crc_32 rounds stale buf count
      pure (ret, Function.update map_ fd (some f))
  | none => pure (-1, map_)

/-- SOURCE: moose_c.cc:80-86 -/
def mfs_write (crc_32 : Bytes → UInt32) (rounds : ℕ) (map_ : Descriptors) (fd : ℤ)
    (data : Bytes) : Client (ℤ × Descriptors) :=
  match map_ fd with
  | some f => do
      let (ret, f) ← f.write crc_32 rounds data
      pure (ret, Function.update map_ fd (some f))
  | none => pure (-1, map_)

/-- What `Close` returns is not looked at.
SOURCE: moose_c.cc:104-113 -/
def mfs_close (uninit : Uninit) (map_ : Descriptors) (fd : ℤ) : Client (ℤ × Descriptors) :=
  match map_ fd with
  | some f => do
      let _ ← onMaster (f.close uninit)
      pure (0, Function.update map_ fd none)
  | none => pure (-1, map_)

/-- SOURCE: moose_c.cc:115-121 -/
def mfs_lseek (uninit : Uninit) (map_ : Descriptors) (fd offset whence : ℤ) :
    Client (ℤ × Descriptors) :=
  match map_ fd with
  | some f => do
      let (old_position, f) ← onMaster (f.seek uninit (uint64 offset) (uint32 whence))
      pure ((old_position.map fun p => int64 p).getD (-1), Function.update map_ fd (some f))
  | none => pure (-1, map_)

/-! ## Unlinking -/

/-- `base::Basename` -/
def basename (path : Bytes) : Bytes :=
  match Text.rfind 47 path with
  | some p => path.drop (p + 1)
  | none => path

/-- `extract`: the status, and the parent and the name behind it.
SOURCE: moose_c.cc:144-162 -/
def extract (pathname : Bytes) : Master (ℤ × ℕ × Bytes) := do
  if dirname pathname = [] then pure (0, MFS_ROOT_ID, basename pathname)
  else do
    let (ret, out) ← MasterServer.lookupPath (dirname pathname) true false
    pure (ret, out.inode.getD 0, basename pathname)

/-- SOURCE: moose_c.cc:164-174 -/
def mfs_unlink (pathname : Bytes) : Master ℤ := do
  let (ret, parent, name) ← extract pathname
  if ret = 0 then do
    let (ret, _) ← MasterServer.unlink parent name
    pure ret
  else pure ret

/-! ## A process and its calls -/

/-- A call of a process, with what its locals happen to hold. -/
inductive MfsCall
  | mfs_open (uninit : Uninit) (pathname : Bytes) (flags mode : ℕ)
  | mfs_creat (pathname : Bytes) (mode : ℕ)
  | mfs_read (rounds : ℕ) (stale : ℕ → ℕ) (fd : ℤ) (buf : Buffer) (count : ℕ)
  | mfs_write (rounds : ℕ) (fd : ℤ) (data : Bytes)
  | mfs_lseek (uninit : Uninit) (fd offset whence : ℤ)
  | mfs_close (uninit : Uninit) (fd : ℤ)

namespace MfsCall

def body (crc_32 : Bytes → UInt32) (map_ : Descriptors) : MfsCall → Client (ℤ × Descriptors)
  | mfs_open uninit pathname flags mode => Moose.mfs_open uninit map_ pathname flags mode
  | mfs_creat pathname mode => Moose.mfs_creat map_ pathname mode
  | mfs_read rounds stale fd buf count => Moose.mfs_read crc_32 rounds stale map_ fd buf count
  | mfs_write rounds fd data => Moose.mfs_write crc_32 rounds map_ fd data
  | mfs_lseek uninit fd offset whence => Moose.mfs_lseek uninit map_ fd offset whence
  | mfs_close uninit fd => Moose.mfs_close uninit map_ fd

/-- The descriptor that the call is given. -/
def descriptor : MfsCall → Option ℤ
  | mfs_open .. | mfs_creat .. => none
  | mfs_read _ _ fd _ _ => some fd
  | mfs_write _ fd _ => some fd
  | mfs_lseek _ fd _ _ => some fd
  | mfs_close _ fd => some fd

def closes : MfsCall → Option ℤ
  | mfs_close _ fd => some fd
  | _ => none

end MfsCall

/-- The calls of a client, with their answers. -/
abbrev ClientTrace : Type := Prog.Trace FileCall FileCall.Answer

/-- The calls of a process one after the other, each with what it has returned, from
an empty `map_` on; every call meets the condition. -/
inductive Session (crc_32 : Bytes → UInt32)
    (ok : Descriptors → MfsCall → ClientTrace → Prop) :
    List (MfsCall × ℤ) → Descriptors → Prop
  | nil : Session crc_32 ok [] fun _ => none
  | call {done : List (MfsCall × ℤ)} {map_ map_' : Descriptors} {call : MfsCall}
      {t : ClientTrace} {ret : ℤ} (h : Session crc_32 ok done map_)
      (hruns : (call.body crc_32 map_).Runs t (ret, map_')) (hok : ok map_ call t) :
      Session crc_32 ok (done ++ [(call, ret)]) map_'

end Moose

end BundleStore
