import BundleStore.Lib.Machine
import Mathlib.Data.Int.Notation
import Mathlib.Data.List.Range

set_option autoImplicit false

/-!
# The messages of the MooseFS client

SOURCE: src/moosefs/datapack.h, src/moosefs/MFSCommunication.h,
src/mooseclient/moose.cc

Numbers stand on the wire with their most significant byte first. A reader gets
a pointer into memory and a length that the sender has chosen; nothing ties the
bytes it reads to that length.
-/

namespace BundleStore

namespace Moose

/-! ## Numbers on the wire -/

/-- Memory from a read pointer on. -/
abbrev Mem : Type := ℕ → UInt8

def get8bit (ptr : Mem) (pos : ℕ) : ℕ := (ptr pos).toNat

def get16bit (ptr : Mem) (pos : ℕ) : ℕ :=
  get8bit ptr (pos + 1) + 256 * get8bit ptr pos

def get32bit (ptr : Mem) (pos : ℕ) : ℕ :=
  get8bit ptr (pos + 3) + 256 * (get8bit ptr (pos + 2) + 256 *
    (get8bit ptr (pos + 1) + 256 * get8bit ptr pos))

def get64bit (ptr : Mem) (pos : ℕ) : ℕ :=
  2 ^ 32 * get32bit ptr pos + get32bit ptr (pos + 4)

def put8bit (val : ℕ) : Bytes := [UInt8.ofNat val]

def put16bit (val : ℕ) : Bytes := [UInt8.ofNat (val / 2 ^ 8), UInt8.ofNat val]

def put32bit (val : ℕ) : Bytes :=
  [UInt8.ofNat (val / 2 ^ 24), UInt8.ofNat (val / 2 ^ 16), UInt8.ofNat (val / 2 ^ 8),
    UInt8.ofNat val]

def put64bit (val : ℕ) : Bytes := put32bit (val / 2 ^ 32) ++ put32bit val

/-! ## Constants -/

def STATUS_OK : ℤ := 0
def ERROR_ENOENT : ℤ := 3
def ERROR_EEXIST : ℤ := 5
def ERROR_IO : ℤ := 22

def MFS_ROOT_ID : ℕ := 1
def TYPE_FILE : ℕ := 102
def WANT_READ : ℕ := 1
def WANT_WRITE : ℕ := 2

/-- `((uint64_t)(MFSCHUNKSIZE)) << 31` -/
def MFS_MAX_FILE_SIZE : ℕ := 0x04000000 * 2 ^ 31

/-- The bits of the flags of `open`. -/
def O_ACCMODE : ℕ := 0o3
def O_RDONLY : ℕ := 0o0
def O_WRONLY : ℕ := 0o1
def O_RDWR : ℕ := 0o2
def O_CREAT : ℕ := 0o100
def O_EXCL : ℕ := 0o200
def O_APPEND : ℕ := 0o2000

/-! ## Attributes and chunks -/

/-- The 35 bytes that describe a file. -/
structure FileAttribute where
  buf : Fin 35 → UInt8

namespace FileAttribute

/-- `memset(buf, 0, sizeof(buf))` -/
def zero : FileAttribute := ⟨fun _ => 0⟩

/-- `memcpy(attr, ptr, 35)` -/
def ofMem (ptr : Mem) (pos : ℕ) : FileAttribute := ⟨fun i => ptr (pos + i)⟩

/-- The attribute as memory; nothing is read behind it. -/
def mem (self : FileAttribute) : Mem :=
  fun i => if h : i < 35 then self.buf ⟨i, h⟩ else 0

/-- `size()`: `mfs_attr_to_stat` stores the length of directories, symbolic links
and files, zero for the other types it knows, and nothing for a type it does not
know; `uninit` is what `st_size` was before.
SOURCE: moose.cc:84-180 -/
def size (self : FileAttribute) (uninit : ℕ) : ℕ :=
  let attrtype := get8bit self.mem 0
  if attrtype ∈ [100, 108, 102] then get64bit self.mem 27
  else if attrtype ∈ [113, 115, 98, 99] then 0
  else uninit

end FileAttribute

structure Location where
  ip : ℕ
  port : ℕ
  deriving DecidableEq

structure Chunk where
  id : ℕ := 0
  version : ℕ := 0
  location : List Location := []
  deriving DecidableEq

/-! ## Requests -/

/-- SOURCE: moose.cc:250-259 -/
def buildCommand (cmd length session_id : ℕ) : Bytes :=
  put32bit cmd ++ put32bit (4 + length) ++ put32bit session_id

/-- What the client asks the master for. -/
inductive Request
  | lookup (parent : ℕ) (name : Bytes)
  | getAttr (inode : ℕ)
  | truncate (inode opened attrlength : ℕ)
  | access (inode modemask : ℕ)
  | openFile (inode flags : ℕ)
  | mknod (parent : ℕ) (name : Bytes) (type mode rdev : ℕ)
  | mkdir (parent : ℕ) (name : Bytes) (mode : ℕ)
  | rmdir (parent : ℕ) (name : Bytes)
  | unlink (parent : ℕ) (name : Bytes)
  | readChunk (inode indx : ℕ)
  | writeChunk (inode indx : ℕ)
  | writeChunkEnd (chunkid inode length : ℕ)
  deriving DecidableEq

namespace Request

/-- `CUTOMA_FUSE_...`, with a `PROTO_BASE` of zero; the reply that is expected,
`MATOCU_FUSE_...`, is the next number. -/
def command : Request → ℕ
  | .access .. => 404
  | .lookup .. => 406
  | .getAttr .. => 408
  | .mknod .. => 416
  | .mkdir .. => 418
  | .unlink .. => 420
  | .rmdir .. => 422
  | .openFile .. => 430
  | .readChunk .. => 432
  | .writeChunk .. => 434
  | .writeChunkEnd .. => 436
  | .truncate .. => 464

def expect_cmd (request : Request) : ℕ := request.command + 1

/-- `uid_` and `gid_`, which stay as the constructor has set them. -/
def uid_ : ℕ := 0
def gid_ : ℕ := 0

/-- The length of a name is one byte, whatever the name. -/
def putName (name : Bytes) : Bytes := put8bit name.length ++ name

/-- The length that an operation passes to `BuildCommand`. -/
def messageLength : Request → ℕ
  | .lookup _ name => 13 + name.length
  | .getAttr .. => 12
  | .truncate .. => 21
  | .access .. => 13
  | .openFile .. => 13
  | .mknod _ name _ _ _ => 20 + name.length
  | .mkdir _ name _ => 15 + name.length
  | .rmdir _ name => 13 + name.length
  | .unlink _ name => 13 + name.length
  | .readChunk .. => 8
  | .writeChunk .. => 8
  | .writeChunkEnd .. => 20

/-- What follows the session id. -/
def body : Request → Bytes
  | .lookup parent name => put32bit parent ++ putName name ++ put32bit uid_ ++ put32bit gid_
  | .getAttr inode => put32bit inode ++ put32bit uid_ ++ put32bit gid_
  | .truncate inode opened attrlength =>
      put32bit inode ++ put8bit opened ++ put32bit uid_ ++ put32bit gid_ ++ put64bit attrlength
  | .access inode modemask =>
      put32bit inode ++ put32bit uid_ ++ put32bit gid_ ++ put8bit modemask
  | .openFile inode flags => put32bit inode ++ put32bit uid_ ++ put32bit gid_ ++ put8bit flags
  | .mknod parent name type mode rdev =>
      put32bit parent ++ putName name ++ put8bit type ++ put16bit mode ++ put32bit uid_ ++
        put32bit gid_ ++ put32bit rdev
  | .mkdir parent name mode =>
      put32bit parent ++ putName name ++ put16bit mode ++ put32bit uid_ ++ put32bit gid_
  | .rmdir parent name => put32bit parent ++ putName name ++ put32bit uid_ ++ put32bit gid_
  | .unlink parent name => put32bit parent ++ putName name ++ put32bit uid_ ++ put32bit gid_
  | .readChunk inode indx => put32bit inode ++ put32bit indx
  | .writeChunk inode indx => put32bit inode ++ put32bit indx
  | .writeChunkEnd chunkid inode length => put64bit chunkid ++ put32bit inode ++ put64bit length

/-- The buffer that `BuildCommand` starts and the body completes. -/
def encode (request : Request) (session_id : ℕ) : Bytes :=
  buildCommand request.command request.messageLength session_id ++ request.body

/-- `buf.used`: `Access` never sets it. -/
def used (request : Request) (session_id : ℕ) : ℕ :=
  match request with
  | .access .. => 0
  | _ => (request.encode session_id).length

end Request

/-- A reply: its length behind the packet id, as the client computes it, and the
memory from there on. -/
structure Reply where
  length : ℤ
  rptr : Mem

end Moose

end BundleStore
