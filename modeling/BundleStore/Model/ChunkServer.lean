import BundleStore.Lib.Machine
import BundleStore.Lib.Runs
import BundleStore.Model.MasterConnection
import BundleStore.Model.MasterServer

set_option autoImplicit false

/-!
# The chunk servers

SOURCE: src/mooseclient/moose.cc:51-55, 960-1254

A file is kept in chunks of 64 MiB, each on the servers that the master names. A
block of a chunk comes with its checksum.
-/

namespace BundleStore

namespace Moose

open Machine

/-! ## The checksum -/

/-- `mycrc32(0, block, leng)`, where `crc_32` is the `checksum` of a `boost::crc_32_type` that has
processed the bytes.
SOURCE: moose.cc:51-55 -/
def mycrc32 (crc_32 : Bytes → UInt32) (block : Bytes) : ℕ :=
  (crc_32 block).toNat

/-- One bit of the reflected polynomial division. -/
def crcShift (c : UInt32) : UInt32 :=
  if c &&& 1 = 1 then (c >>> 1) ^^^ 0xEDB88320 else c >>> 1

def crcByte (c : UInt32) (b : UInt8) : UInt32 :=
  (List.range 8).foldl (fun c _ => crcShift c) (c ^^^ b.toUInt32)

/-- The CRC-32 bit by bit: the reflected polynomial, and a register that starts with ones and is
turned over in the end. -/
def bitwiseCrc (block : Bytes) : UInt32 :=
  block.foldl crcByte 0xFFFFFFFF ^^^ 0xFFFFFFFF

/-- What is documented of `boost::crc_32_type`. -/
def IsCrc32 (crc_32 : Bytes → UInt32) : Prop :=
  ∀ block, crc_32 block = bitwiseCrc block

/-! ## A connection to a chunk server -/

/-- A `ChunkServer` object: which one it is, and its members. -/
structure ChunkServer where
  id : ℕ
  socket_ : ℤ
  ip_ : ℕ
  port_ : ℕ
  deriving DecidableEq

def CUTOCS_READ : ℕ := 200
def CSTOCU_READ_STATUS : ℕ := 201
def CSTOCU_READ_DATA : ℕ := 202
def CUTOCS_WRITE : ℕ := 210
def CUTOCS_WRITE_DATA : ℕ := 212

namespace ChunkServer

variable (crc_32 : Bytes → UInt32)

def readRequest (chunk : Chunk) (offset size : ℕ) : Bytes :=
  put32bit CUTOCS_READ ++ put32bit 20 ++ put64bit chunk.id ++ put32bit chunk.version ++
    put32bit offset ++ put32bit size

/-- The rest of a `READ_STATUS` packet, the end of the blocks.
SOURCE: moose.cc:1036-1062 -/
def readStatus (socket_ : ℤ) (chunk : Chunk) (length size : ℕ) (input : Buffer) : Net ℤ :=
  if length ≠ 9 then pure (-1)
  else do
    let (ret, input) ← tcptoread socket_ input 0 9
    if ret ≠ 9 then pure (-1)
    else if get8bit (input.memAt 0) 8 ≠ 0 then pure (-1)
    else if get64bit (input.memAt 0) 0 ≠ chunk.id then pure (-1)
    else if size ≠ 0 then pure (-1)
    else pure 0

/-- What the header of a data packet tells, and whether it is the block that
comes next. -/
def expectsBlock (chunk : Chunk) (length offset size : ℕ) (ptr : Mem) : Bool :=
  let blockno := get16bit ptr 8
  let blockoffset := get16bit ptr 10
  let blocksize := get32bit ptr 12
  let breq := min size (65536 - blockoffset)
  get64bit ptr 0 = chunk.id && length = (20 + blocksize) % 2 ^ 32 && blocksize ≠ 0 &&
    blockno = offset / 2 ^ 16 && blockoffset = offset % 2 ^ 16 && blocksize = breq

/-- The rest of a `READ_DATA` packet: the size of the block that has been stored
at `pos`, or `none` for a packet that is refused.
SOURCE: moose.cc:1064-1145 -/
def readData (socket_ : ℤ) (chunk : Chunk) (length offset size : ℕ) (input buff : Buffer)
    (pos : ℕ) : Net (Option ℕ × Buffer × Buffer) :=
  if length < 20 then pure (none, input, buff)
  else do
    let input ← input.alloca 20
    let (ret, input) ← tcptoread socket_ input 0 20
    if ret ≠ 20 then pure (none, input, buff)
    else if expectsBlock chunk length offset size (input.memAt 0) then do
      let blocksize := get32bit (input.memAt 0) 12
      let blockcrc := get32bit (input.memAt 0) 16
      let (readed, buff) ← tcptoread socket_ buff pos blocksize
      if readed ≠ blocksize then pure (none, input, buff)
      else if blockcrc ≠ mycrc32 crc_32 (ByteSeq.slice buff.mem pos blocksize) then
        pure (none, input, buff)
      else pure (some blocksize, input, buff)
    else pure (none, input, buff)

/-- The packets of `ReadBlock`; one that is neither data nor status is read again
from behind its header. -/
def readBlockLoop (socket_ : ℤ) (chunk : Chunk) :
    ℕ → ℕ → ℕ → Buffer → Buffer → ℕ → Net (ℤ × Buffer)
  | 0, _, _, _, _, _ => Prog.call .forever Empty.elim
  | rounds + 1, offset, size, input, buff, pos => do
      let (ret, input) ← tcptoread socket_ input 0 8
      if ret ≠ 8 then pure ( ERROR_IO, buff)
      else
        let cmd := get32bit (input.memAt 0) 0
        let length := get32bit (input.memAt 0) 4
        if cmd = CSTOCU_READ_STATUS then do
          let ret ← readStatus socket_ chunk length size input
          pure (ret, buff)
        else if cmd = CSTOCU_READ_DATA then do
          let (block, input, buff) ←
            readData crc_32 socket_ chunk length offset size input buff pos
          match block with
          | none => pure (-1, buff)
          | some blocksize =>
              readBlockLoop socket_ chunk rounds ((offset + blocksize) % 2 ^ 32)
                (size - blocksize) input buff (pos + blocksize)
        else readBlockLoop socket_ chunk rounds offset size input buff pos

/-- `ReadBlock(chunk, offset, size, buff + pos)`
SOURCE: moose.cc:1001-1146 -/
def readBlock (rounds : ℕ) (self : ChunkServer) (chunk : Chunk) (offset size : ℕ)
    (buff : Buffer) (pos : ℕ) : Net (ℤ × Buffer) := do
  let ret ← Prog.op (NetCall.write self.socket_ (readRequest chunk offset size))
  if ret ≠ 28 then pure ( ERROR_IO, buff)
  else do
    let input ← Buffer.alloca {} 20
    readBlockLoop crc_32 self.socket_ chunk rounds offset size input buff pos

/-- The chain of the servers behind the first one. -/
def putChain (locations : List Location) : Bytes :=
  locations.flatMap fun loc => put32bit loc.ip ++ put16bit loc.port

/-- The status that a chunk server sends back: the write id and the status. -/
def readWriteStatus (socket_ : ℤ) (buf : Buffer) : Net (Option (ℕ × ℤ)) := do
  let buf ← buf.alloca (8 + 13)
  let (ret, buf) ← tcptoread socket_ buf 0 (8 + 13)
  if ret ≠ 8 + 13 then pure none
  else pure (some (get32bit (buf.memAt 0) 16, get8bit (buf.memAt 0) 20))

/-- `WriteBlockInit(chunk, &writeid)`; the write is not checked.
SOURCE: moose.cc:1148-1189 -/
def writeBlockInit (self : ChunkServer) (chunk : Chunk) : Net (ℤ × ℕ) := do
  let chain := putChain (chunk.location.drop 1)
  let buf ← Buffer.alloca {} (8 + 12 + chain.length)
  let message := put32bit CUTOCS_WRITE ++ put32bit (12 + chain.length) ++ put64bit chunk.id ++
    put32bit chunk.version ++ chain
  let buf := { buf.store 0 message with used := message.length }
  let _ ← Prog.op (NetCall.write self.socket_ buf.data)
  match ← readWriteStatus self.socket_ buf with
  | none => pure ( ERROR_IO, 0)
  | some (writeid, status) =>
      if status ≠ STATUS_OK then pure (status, 0) else pure (STATUS_OK, writeid)

/-- SOURCE: moose.cc:1191-1254 -/
def writeBlock (self : ChunkServer) (chunk : Chunk) (writeid blockno offset : ℕ)
    (block : Bytes) : Net ℤ := do
  let message := put32bit CUTOCS_WRITE_DATA ++ put32bit (24 + block.length) ++
    put64bit chunk.id ++ put32bit writeid ++ put16bit blockno ++ put16bit offset ++
    put32bit block.length ++ put32bit (mycrc32 crc_32 block)
  let ret ← Prog.op (NetCall.write self.socket_ message)
  if ret ≠ 32 then pure (-1)
  else do
    let ret ← Prog.op (NetCall.write self.socket_ block)
    if ret ≠ block.length then pure (-1)
    else do
      match ← readWriteStatus self.socket_ {} with
      | none => pure ERROR_IO
      | some (_, status) => if status ≠ STATUS_OK then pure status else pure STATUS_OK

end ChunkServer

end Moose

end BundleStore
