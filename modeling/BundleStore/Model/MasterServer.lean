import BundleStore.Lib.Prog
import BundleStore.Model.MooseProtocol

set_option autoImplicit false

/-!
# The requests of the MooseFS client

SOURCE: src/mooseclient/moose.cc:456-764, 856-956

Each request is one exchange with the master. What an exchange does on the wire
is `BundleStore.Model.MasterConnection`; here it either brings the payload of a
reply of the expected command, or nothing.
-/

namespace BundleStore

namespace Moose

/-- What a request needs of the connection to the master. -/
inductive MasterCall
  /-- `SendAndReceive` -/
  | send (request : Request)
  /-- `Disconnect()` -/
  | disconnect

/-- `SendAndReceive` returns `NULL` for every exchange that brings no reply of
the expected command. -/
abbrev MasterCall.Answer : MasterCall → Type
  | .send _ => Option Reply
  | .disconnect => Unit

abbrev Master (α : Type) : Type := Prog MasterCall MasterCall.Answer α

/-- What a request stores through the pointers it is given. -/
structure Outputs where
  inode : Option ℕ := none
  attr : Option FileAttribute := none
  file_length : Option ℕ := none
  chunk : Option Chunk := none

/-- The status a request returns, and its outputs. -/
abbrev RpcResult : Type := ℤ × Outputs

namespace MasterServer

/-- The decoding that most requests share: a reply of one byte is a status, one
of the full length (`full`) is decoded by `outs`, and the answer to every other
one is `ERROR_IO`, for most requests after hanging up. -/
def exchange (request : Request) (hangup : Bool) (full : ℤ → Bool) (outs : Reply → Outputs) :
    Master RpcResult := do
  match ← Prog.op (MasterCall.send request) with
  | none => pure ( ERROR_IO, {})
  | some reply =>
      if reply.length = 1 then pure (get8bit reply.rptr 0, {})
      else if full reply.length then pure (STATUS_OK, outs reply)
      else if hangup then do
        Prog.op MasterCall.disconnect
        pure ( ERROR_IO, {})
      else pure ( ERROR_IO, {})

/-- An inode, then an attribute; a null pointer is left alone. -/
def entryOutputs (inode attr : Bool) (reply : Reply) : Outputs :=
  { inode := if inode then some (get32bit reply.rptr 0) else none
    attr := if attr then some (FileAttribute.ofMem reply.rptr 4) else none }

def attrOutputs (reply : Reply) : Outputs :=
  { attr := some (FileAttribute.ofMem reply.rptr 0) }

/-- `Lookup(parent, name, inode, attr)`; `inode` and `attr` tell whether the
pointers are given.
SOURCE: moose.cc:456-493 -/
def lookup (parent : ℕ) (name : Bytes) (inode attr : Bool) : Master RpcResult :=
  exchange (.lookup parent name) true (· == 39) (entryOutputs inode attr)

/-- SOURCE: moose.cc:533-560 -/
def getAttr (inode : ℕ) : Master RpcResult :=
  exchange (.getAttr inode) true (· == 35) attrOutputs

/-- The status byte of a short reply is compared with `STATUS_OK`, and the
result of the comparison is what `Truncate` returns.
SOURCE: moose.cc:562-587 -/
def truncate (inode opened attrlength : ℕ) (attr : Bool) : Master RpcResult := do
  match ← Prog.op (MasterCall.send (.truncate inode opened attrlength)) with
  | none => pure ( ERROR_IO, {})
  | some reply =>
      if reply.length = 1 then
        pure (if (get8bit reply.rptr 0 : ℤ) = STATUS_OK then 1 else 0, {})
      else if reply.length == 35 && attr then pure (STATUS_OK, attrOutputs reply)
      else do
        Prog.op MasterCall.disconnect
        pure ( ERROR_IO, {})

/-- SOURCE: moose.cc:589-606 -/
def access (inode modemask : ℕ) : Master RpcResult :=
  exchange (.access inode modemask) false (fun _ => false) fun _ => {}

/-- SOURCE: moose.cc:608-633 -/
def openFile (inode flags : ℕ) (attr : Bool) : Master RpcResult :=
  exchange (.openFile inode flags) true (fun length => length == 35 && attr) attrOutputs

/-- SOURCE: moose.cc:635-672 -/
def mknod (parent : ℕ) (name : Bytes) (type mode rdev : ℕ) (inode attr : Bool) :
    Master RpcResult :=
  exchange (.mknod parent name type mode rdev) false (· == 39) (entryOutputs inode attr)

/-- SOURCE: moose.cc:674-709 -/
def mkdir (parent : ℕ) (name : Bytes) (mode : ℕ) (inode attr : Bool) : Master RpcResult :=
  exchange (.mkdir parent name mode) true (· == 39) (entryOutputs inode attr)

/-- SOURCE: moose.cc:711-735 -/
def rmdir (parent : ℕ) (name : Bytes) : Master RpcResult :=
  exchange (.rmdir parent name) true (fun _ => false) fun _ => {}

/-- SOURCE: moose.cc:737-759 -/
def unlink (parent : ℕ) (name : Bytes) : Master RpcResult :=
  exchange (.unlink parent name) true (fun _ => false) fun _ => {}

/-- `Create(parent, name, mode, inode)` -/
def create (parent : ℕ) (name : Bytes) (mode : ℕ) : Master RpcResult :=
  mknod parent name TYPE_FILE (mode &&& 0o7777) 0 true false

/-- The locations of a chunk: six bytes each, for as long as any byte is left. -/
def locations (ptr : Mem) (left : ℤ) : List Location :=
  (List.range ((left + 5) / 6).toNat).map fun k =>
    ⟨get32bit ptr (20 + 6 * k), get16bit ptr (24 + 6 * k)⟩

/-- The length of the file, then the chunk and where it is. -/
def chunkOutputs (file_length chunk : Bool) (reply : Reply) : Outputs :=
  { file_length := if file_length then some (get64bit reply.rptr 0) else none
    chunk :=
      if chunk then
        some
          { id := get64bit reply.rptr 8
            version := get32bit reply.rptr 16
            location := locations reply.rptr (reply.length - 20) }
      else none }

/-- Every reply that is not one byte long is decoded.
SOURCE: moose.cc:856-893 -/
def readChunk (inode indx : ℕ) (file_length chunk : Bool) : Master RpcResult := do
  match ← Prog.op (MasterCall.send (.readChunk inode indx)) with
  | none => pure ( ERROR_IO, {})
  | some reply =>
      if reply.length = 1 then pure (get8bit reply.rptr 0, {})
      else pure (STATUS_OK, chunkOutputs file_length chunk reply)

/-- The lengths of a chunk reply. -/
def chunkLength (length : ℤ) : Bool := !(length < 20 || (length - 20) % 6 != 0)

/-- SOURCE: moose.cc:895-936 -/
def writeChunk (inode indx : ℕ) (file_length chunk : Bool) : Master RpcResult :=
  exchange (.writeChunk inode indx) true chunkLength (chunkOutputs file_length chunk)

/-- SOURCE: moose.cc:938-956 -/
def writeChunkEnd (chunkid inode length : ℕ) : Master RpcResult :=
  exchange (.writeChunkEnd chunkid inode length) false (fun _ => false) fun _ => {}

/-! ## Looking up a path -/

/-- The loop over the components of a path. Empty components are skipped; the
first status other than `STATUS_OK` ends it. -/
def lookupFrom (inode_temp : ℕ) (attr_temp : FileAttribute) :
    List Bytes → Master (ℤ × ℕ × FileAttribute)
  | [] => pure (STATUS_OK, inode_temp, attr_temp)
  | copy :: rest =>
      if copy.isEmpty then lookupFrom inode_temp attr_temp rest
      else do
        let (ret, out) ← lookup inode_temp copy true true
        let inode_temp := out.inode.getD inode_temp
        let attr_temp := out.attr.getD attr_temp
        if ret ≠ STATUS_OK then pure (ret, inode_temp, attr_temp)
        else lookupFrom inode_temp attr_temp rest

/-- `Lookup(name, inode, attr)`: the outputs are stored at the very end.
SOURCE: moose.cc:495-531 -/
def lookupPath (name : Bytes) (inode attr : Bool) : Master RpcResult := do
  let (ret, inode_temp, attr_temp) ←
    lookupFrom MFS_ROOT_ID FileAttribute.zero (name.splitOn 47)
  if ret ≠ STATUS_OK then pure (ret, {})
  else
    pure (STATUS_OK,
      { inode := if inode then some inode_temp else none
        attr := if attr then some attr_temp else none })

end MasterServer

end Moose

end BundleStore
