import BundleStore.Model.ChunkServer
import BundleStore.Model.MooseFile

set_option autoImplicit false

/-!
# Reading and writing a file of MooseFS

SOURCE: src/mooseclient/moose.cc:1347-1558

A call goes through the chunks of its range one after the other. Connections to
chunk servers come from `Cached` and are given back to it; what it does with
them is `BundleStore.Model.Cached`.
-/

namespace BundleStore

namespace Moose

open Machine

/-- The two places that ask how long ago the client has registered. -/
inductive ClockSite
  | noLocation
  | readFailed
  deriving DecidableEq

inductive FileCall
  | master (o : MasterCall)
  /-- on the connection of a chunk server -/
  | net (o : NetCall)
  /-- `Cached::Create` -/
  | create (ip port : ℕ) (is_read : Bool)
  /-- `Cached::Return` -/
  | giveBack (cs : ChunkServer) (is_read : Bool)
  /-- `delete cs` -/
  | delete (cs : ChunkServer)
  /-- `time(0) - last_registered_` -/
  | sinceRegistered (site : ClockSite)
  | sleep

abbrev FileCall.Answer : FileCall → Type
  | .master o => o.Answer
  | .net o => o.Answer
  | .create _ _ _ => Option ChunkServer
  | .giveBack _ _ => Unit
  | .delete _ => Unit
  | .sinceRegistered _ => ℤ
  | .sleep => Unit

abbrev Client (α : Type) : Type := Prog FileCall FileCall.Answer α

def onMaster {α : Type} (p : Master α) : Client α :=
  p.embed FileCall.master fun _ => Equiv.refl _

def onNet {α : Type} (p : Net α) : Client α :=
  p.embed FileCall.net fun _ => Equiv.refl _

def M64 : ℕ := 64 * 1024 * 1024
def K64 : ℕ := 64 * 1024
def EFBIG : ℕ := 27

namespace File

variable (crc_32 : Bytes → UInt32)

/-- Where the chunk at `write_position` starts, and how much of it there is to do. -/
def chunkOffset (write_position : ℕ) (chunk_index : ℤ) : ℕ :=
  uint64 (write_position - chunk_index * M64)

/-- The end of the chunk is computed from an `int` that may overflow. -/
def chunkSize (end_ write_position : ℕ) (chunk_index : ℤ) : ℕ :=
  uint64 (min end_ (uint64 (int32 (chunk_index + 1) * M64)) - (write_position : ℤ))

/-! ## Reading -/

/-- The locations are tried in order until one gives a connection. -/
def findServer : List Location → Client (Option ChunkServer)
  | [] => pure none
  | loc :: rest => do
      match ← Prog.op (FileCall.create loc.ip loc.port true) with
      | some cs => pure (some cs)
      | none => findServer rest

/-- The loop over the chunks: where it has ended, or `none` for `return 0`.
`stale` is what the local `file_length` holds before it is stored to. -/
def readLoop (stale : ℕ → ℕ) (self : File) :
    ℕ → ℕ → ℕ → ℤ → Buffer → ℕ → Client (Option ℕ × Buffer)
  | 0, _, _, _, _, _ => Prog.call (.net .forever) Empty.elim
  | rounds + 1, end_, write_position, chunk_index, buf, pos => do
      let (status, out) ←
        onMaster (MasterServer.readChunk self.inode_ (uint32 chunk_index) true true)
      if status ≠ STATUS_OK then pure (none, buf)
      else
        let file_length := out.file_length.getD (stale rounds)
        let chunk := out.chunk.getD {}
        let end_ := min end_ file_length
        if file_length < self.position_ then pure (none, buf)
        else
          let chunk_offset := chunkOffset write_position chunk_index
          let chunk_size := chunkSize end_ write_position chunk_index
          let again (buf : Buffer) : Client (Option ℕ × Buffer) := do
            Prog.op FileCall.sleep
            readLoop stale self rounds end_ write_position chunk_index buf pos
          if chunk.location.length < 1 then do
            let elapsed ← Prog.op (FileCall.sinceRegistered .noLocation)
            if elapsed < 10 then again buf else pure (none, buf)
          else do
            match ← findServer chunk.location with
            | none => pure (none, buf)
            | some cs =>
                let nextChunk (buf : Buffer) : Client (Option ℕ × Buffer) := do
                  Prog.op (FileCall.giveBack cs true)
                  let write_position := uint64 (write_position + chunk_size)
                  if end_ ≤ write_position then pure (some write_position, buf)
                  else
                    readLoop stale self rounds end_ write_position (int32 (chunk_index + 1)) buf
                      (pos + chunk_size)
                let (ret, buf) ←
                  onNet
                    (cs.readBlock crc_32 rounds chunk (uint32 chunk_offset) (uint32 chunk_size) buf
                      pos)
                if ret ≠ STATUS_OK then do
                  Prog.op (FileCall.delete cs)
                  let elapsed ← Prog.op (FileCall.sinceRegistered .readFailed)
                  if elapsed < 10 then again buf else nextChunk buf
                else nextChunk buf

/-- `Read(buf, count)`
SOURCE: moose.cc:1442-1529 -/
def read (rounds : ℕ) (stale : ℕ → ℕ) (self : File) (buf : Buffer) (count : ℕ) :
    Client (ℕ × File × Buffer) :=
  if MFS_MAX_FILE_SIZE ≤ self.position_ then pure (EFBIG, self, buf)
  else do
    let (reached, buf) ←
      readLoop crc_32 stale self rounds (uint64 (self.position_ + count)) self.position_
        (self.position_ / 2 ^ 26 : ℕ) buf 0
    match reached with
    | none => pure (0, self, buf)
    | some write_position =>
        pure (uint32 ((write_position : ℤ) - self.position_),
          { self with position_ := write_position }, buf)

/-! ## Writing -/

/-- The loop over the blocks of a chunk; the server is deleted when one fails. -/
def writeBlocks (cs : ChunkServer) (chunk : Chunk) (chunk_offset chunk_size : ℕ) (data : Bytes) :
    ℕ → ℕ → ℕ → ℕ → ℕ → Client (Option ℕ)
  | 0, _, _, _, _ => Prog.call (.net .forever) Empty.elim
  | rounds + 1, chunk_pos, blockno, writeid, pos => do
      let block_offset := uint32 (chunk_pos - (blockno * K64 : ℤ))
      let block_size :=
        uint32 (min (uint64 (chunk_offset + chunk_size)) (uint64 ((blockno + 1) * K64)) -
          (chunk_pos : ℤ))
      let ret ← onNet (cs.writeBlock crc_32 chunk writeid (blockno % 2 ^ 16)
        (block_offset % 2 ^ 16) (ByteSeq.slice data pos block_size))
      if ret ≠ STATUS_OK then do
        Prog.op (FileCall.delete cs)
        pure none
      else if uint64 (chunk_offset + chunk_size) ≤ uint64 (chunk_pos + block_size) then
        pure (some (pos + block_size))
      else
        writeBlocks cs chunk chunk_offset chunk_size data rounds (uint64 (chunk_pos + block_size))
          (uint64 (blockno + 1)) (uint32 (writeid + 1)) (pos + block_size)

/-- The loop over the chunks. Without a location the process has crashed; a server
whose `WriteBlockInit` fails is neither given back nor deleted. -/
def writeLoop (self : File) (end_ : ℕ) (data : Bytes) :
    ℕ → ℕ → ℤ → ℕ → Client (Option ℕ)
  | 0, _, _, _ => Prog.call (.net .forever) Empty.elim
  | rounds + 1, write_position, chunk_index, pos => do
      let (status, out) ←
        onMaster (MasterServer.writeChunk self.inode_ (uint32 chunk_index) true true)
      if status ≠ STATUS_OK then pure none
      else
        let chunk := out.chunk.getD {}
        let chunk_offset := chunkOffset write_position chunk_index
        let chunk_size := chunkSize end_ write_position chunk_index
        match chunk.location with
        | [] => Prog.call (.net .forever) Empty.elim
        | loc :: _ => do
            match ← findWriter loc with
            | none => pure none
            | some cs => do
                let (ret, writeid) ← onNet (cs.writeBlockInit chunk)
                if ret ≠ STATUS_OK then pure none
                else do
                  match ← writeBlocks crc_32 cs chunk chunk_offset chunk_size data rounds
                    chunk_offset (chunk_offset / 2 ^ 16) writeid pos with
                  | none => pure none
                  | some pos => do
                      Prog.op (FileCall.giveBack cs false)
                      let write_position := uint64 (write_position + chunk_size)
                      let (ret, _) ← onMaster
                        (MasterServer.writeChunkEnd chunk.id self.inode_ write_position)
                      if ret ≠ STATUS_OK then pure none
                      else if end_ ≤ write_position then pure (some write_position)
                      else
                        writeLoop self end_ data rounds write_position (int32 (chunk_index + 1)) pos
where
  /-- Two attempts at the first location. -/
  findWriter (loc : Location) : Client (Option ChunkServer) := do
    match ← Prog.op (FileCall.create loc.ip loc.port false) with
    | some cs => pure (some cs)
    | none => Prog.op (FileCall.create loc.ip loc.port false)

/-- `Write(buf, count)`
SOURCE: moose.cc:1350-1440 -/
def write (rounds : ℕ) (self : File) (data : Bytes) : Client (ℕ × File) := do
  match ← writeLoop crc_32 self (uint64 (self.position_ + data.length)) data rounds self.position_
    (int32 (self.position_ / 2 ^ 26 : ℕ)) 0 with
  | none => pure (0, self)
  | some write_position => pure (uint32 data.length, { self with position_ := write_position })

/-! ## Seeking -/

def SEEK_SET : ℕ := 0
def SEEK_CUR : ℕ := 1

/-- The position before, or `none` for `-1`.
SOURCE: moose.cc:1531-1545 -/
def seek (uninit : Uninit) (self : File) (offset whence : ℕ) : Master (Option ℕ × File) := do
  let (ret, out) ← MasterServer.getAttr self.inode_
  let attr := out.attr.getD FileAttribute.zero
  if ret = STATUS_OK then
    if whence = SEEK_SET ∧ offset ≤ attr.size uninit.st_size then
      pure (some self.position_, { self with position_ := offset })
    else if whence = SEEK_CUR ∧ uint64 (offset + self.position_) ≤ attr.size uninit.st_size then
      pure (some self.position_, { self with position_ := uint64 (self.position_ + offset) })
    else pure (none, self)
  else pure (none, self)

end File

end Moose

end BundleStore
