import BundleStore.Lib.Prog
import BundleStore.Model.MooseProtocol

set_option autoImplicit false

/-!
# The connection to the master

SOURCE: src/mooseclient/moose.cc:59-80, 182-248, 340-373, 812-850

A request is written from a buffer, and its reply is read into the same buffer.
What `Connect` does to obtain a registered connection is one call here; its body
is `BundleStore.Model.Registration`.

With `NDEBUG` the assertions are empty.
-/

namespace BundleStore

namespace Moose

/-- What `read` gives: that many bytes, or none with a result that is not
positive. -/
structure Received (count : ℕ) where
  ret : ℤ
  data : Bytes
  length_eq : data.length = ret.toNat
  length_le : data.length ≤ count

inductive NetCall
  /-- `Connect(hostaddr_, hostaddr_len_, false)` -/
  | connectMaster
  | socket
  /-- `connect(fd, addr, addr_len)` -/
  | connect (fd : ℤ) (addr : Bytes)
  /-- `write(fd, data, size)` -/
  | write (fd : ℤ) (data : Bytes)
  /-- `read(fd, ptr + pos, count)` -/
  | read (fd : ℤ) (pos count : ℕ)
  /-- `new uint8_t[len]` for the buffer -/
  | alloc (len : ℕ)
  | shutdown (fd : ℤ)
  | close (fd : ℤ)
  | sleep
  | time
  /-- no answer ever comes -/
  | forever

/-- `Connect` sets `master_socket_` and leaves a `session_id_` when it succeeds; new
memory holds anything. -/
abbrev NetCall.Answer : NetCall → Type
  | .connectMaster => Option (ℤ × ℕ)
  | .socket => ℤ
  | .connect _ _ => ℤ
  | .write _ _ => ℤ
  | .read _ _ count => Received count
  | .alloc len => { mem : Bytes // mem.length = len }
  | .shutdown _ => Unit
  | .close _ => Unit
  | .sleep => Unit
  | .time => ℤ
  | .forever => Empty

abbrev Net (α : Type) : Type := Prog NetCall NetCall.Answer α

/-- The memory of a `Buffer`, and how much of it is in use. -/
structure Buffer where
  mem : Bytes := []
  used : ℕ := 0
  deriving DecidableEq

namespace Buffer

/-- The bytes in use. -/
def data (buf : Buffer) : Bytes := buf.mem.take buf.used

/-- `Alloca(len)`: a buffer that is too small is thrown away. -/
def alloca (buf : Buffer) (len : ℕ) : Net Buffer := do
  if buf.mem.length < len then do
    let mem ← Prog.op (NetCall.alloc len)
    pure { buf with mem := mem.val }
  else pure buf

def store (buf : Buffer) (pos : ℕ) (data : Bytes) : Buffer :=
  { buf with mem := ByteSeq.overwrite 0 buf.mem pos data }

/-- The memory from a position on. -/
def memAt (buf : Buffer) (pos : ℕ) : Mem := fun i => buf.mem.getD (pos + i) 0

end Buffer

/-- The loop of `tcptoread`; a round that does not end it reads at least one
byte. -/
def tcptoreadLoop (fd : ℤ) (pos leng : ℕ) : ℕ → ℕ → Buffer → Net (ℤ × Buffer)
  | 0, rcvd, buf => pure (rcvd, buf)
  | rounds + 1, rcvd, buf =>
      if rcvd < leng then do
        let i ← Prog.op (NetCall.read fd (pos + rcvd) (leng - rcvd))
        if i.ret ≤ 0 then pure (i.ret, buf)
        else
          tcptoreadLoop fd pos leng rounds (rcvd + i.data.length)
            (buf.store (pos + rcvd) i.data)
      else pure (rcvd, buf)

/-- `tcptoread(sock, ptr + pos, leng)` -/
def tcptoread (fd : ℤ) (buf : Buffer) (pos leng : ℕ) : Net (ℤ × Buffer) :=
  tcptoreadLoop fd pos leng leng 0 buf

/-- `ANTOAN_NOP` -/
def ANTOAN_NOP : ℕ := 0

/-- What `ReadCommand` returns and stores: `*cmd_`, `*length_`. -/
structure CommandOut where
  ret : Bool
  cmd : ℕ := 0
  length : ℕ := 0

/-- The loop over the `NOP` commands, to the first other header; `none` is a
failure. The rounds bound how many commands a run is followed through. -/
def readHeader (fd : ℤ) : ℕ → Buffer → Net (Option (ℕ × ℕ) × Buffer)
  | 0, _ => Prog.call .forever Empty.elim
  | rounds + 1, input => do
      let (ret, input) ← tcptoread fd input 0 8
      if ret ≤ 0 ∨ ret ≠ 8 then pure (none, input)
      else
        let cmd := get32bit (input.memAt 0) 0
        let length := get32bit (input.memAt 0) 4
        if cmd = ANTOAN_NOP then do
          let (_, input) ← tcptoread fd input 0 4
          readHeader fd rounds input
        else pure (some (cmd, length), input)

/-- SOURCE: moose.cc:201-248 -/
def readCommand (rounds : ℕ) (fd : ℤ) (input : Buffer) : Net (CommandOut × Buffer) := do
  let input ← input.alloca 8
  let (header, input) ← readHeader fd rounds input
  match header with
  | none => pure (⟨false, 0, 0⟩, input)
  | some (cmd, length) =>
      if 64 * 1024 * 1024 < length then pure (⟨false, 0, 0⟩, input)
      else do
        let input ← input.alloca (8 + length)
        let (ret, input) ← tcptoread fd input 8 length
        pure (⟨ret == length, cmd, length⟩, input)

/-- `last_registered_` is a variable of the file, beside the one object. -/
structure MasterServer where
  master_socket_ : ℤ := 0
  session_id_ : ℕ := 0
  auto_reconnect_ : Bool := true
  hostaddr_ : Option Bytes := none
  last_registered_ : ℤ := 0
  deriving DecidableEq

namespace MasterServer

/-- The retries of `EnsureConnect`: whether the first one has succeeded. -/
def connectLoop (self : MasterServer) : ℕ → Net MasterServer
  | 0 => pure self
  | retry + 1 => do
      match ← Prog.op NetCall.connectMaster with
      | some (sock, sid) => pure { self with master_socket_ := sock, session_id_ := sid }
      | none => do
          Prog.op NetCall.sleep
          connectLoop self retry

/-- `EnsureConnect()`: eleven attempts; the time is kept when the first of them
has failed.
SOURCE: moose.cc:340-359 -/
def ensureConnect (self : MasterServer) : Net MasterServer := do
  if self.master_socket_ ≠ 0 then pure self
  else if self.hostaddr_.isNone || !self.auto_reconnect_ then pure self
  else do
    match ← Prog.op NetCall.connectMaster with
    | some (sock, sid) => pure { self with master_socket_ := sock, session_id_ := sid }
    | none => do
        Prog.op NetCall.sleep
        let self ← self.connectLoop 10
        let now ← Prog.op NetCall.time
        pure { self with last_registered_ := now }

/-- `Disconnect()` -/
def disconnect (self : MasterServer) : Net MasterServer := do
  if self.master_socket_ ≠ 0 then do
    Prog.op (NetCall.shutdown self.master_socket_)
    Prog.op (NetCall.close self.master_socket_)
    pure { self with master_socket_ := 0 }
  else pure self

/-- The loop of `SendAndReceive`, with the reply that ended it. -/
def sendLoop (rounds : ℕ) :
    ℕ → MasterServer → Buffer → Net (Option (CommandOut × Buffer) × MasterServer)
  | 0, self, _ => pure (none, self)
  | retry + 1, self, buf => do
      let ret ← Prog.op (NetCall.write self.master_socket_ buf.data)
      if ret = 0 then do
        let self ← self.disconnect
        let self ← self.ensureConnect
        sendLoop rounds retry self buf
      else do
        let (command, buf) ← readCommand rounds self.master_socket_ buf
        if command.ret then pure (some (command, buf), self)
        else do
          let self ← self.disconnect
          let self ← self.ensureConnect
          sendLoop rounds retry self buf

/-- Four attempts; a reply is the payload behind the packet id.
SOURCE: moose.cc:812-850 -/
def sendAndReceive (rounds : ℕ) (self : MasterServer) (buf : Buffer) (expect_cmd : ℕ) :
    Net (Option Reply × MasterServer) := do
  let self ← self.ensureConnect
  let (command, self) ← sendLoop rounds 4 self buf
  match command with
  | none => pure (none, self)
  | some (command, buf) =>
      if command.cmd = expect_cmd then
        pure (some { length := (command.length : ℤ) - 4, rptr := buf.memAt 12 }, self)
      else pure (none, self)

end MasterServer

end Moose

end BundleStore
