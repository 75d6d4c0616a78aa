import BundleStore.Lib.Runs
import BundleStore.Lib.Text
import BundleStore.Model.MasterConnection
import BundleStore.Model.MasterServer

set_option autoImplicit false

/-!
# Registering at the master

SOURCE: src/mooseclient/moose.cc:265-338, 375-440

`Connect` opens a socket, sends a registration and takes the first reply for its
answer. Over the calls below, reading that reply is one call; `registerCalls`
carries each of them out on the network, and `masterCalls` does so for the calls
of the requests.
-/

namespace BundleStore

namespace Moose

/-- A reply as `ReadCommand` leaves it: its command and length, and the memory
behind the header. -/
structure RegisterReply where
  cmd : ℕ
  length : ℕ
  payload : Mem

inductive RegisterCall
  | socket
  | connect (fd : ℤ) (addr : Bytes)
  | write (fd : ℤ) (data : Bytes)
  /-- `ReadCommand` -/
  | readCommand (fd : ℤ)
  | close (fd : ℤ)

abbrev RegisterCall.Answer : RegisterCall → Type
  | .socket => ℤ
  | .connect _ _ => ℤ
  | .write _ _ => ℤ
  | .readCommand _ => Option RegisterReply
  | .close _ => Unit

abbrev Register (α : Type) : Type := Prog RegisterCall RegisterCall.Answer α

def CUTOMA_FUSE_REGISTER : ℕ := 400
def MATOCU_FUSE_REGISTER : ℕ := 401
def REGISTER_NEWSESSION : ℕ := 2
def REGISTER_RECONNECT : ℕ := 3

def FUSE_REGISTER_BLOB_ACL : Bytes :=
  Text.ascii "DjI1GAQDULI5d2YjA26ypc3ovkhjvhciTQVx3CS4nYgtBoUcsljiVpsErJENHaw0"

namespace MasterServer

/-- `info` and `subfolder`, with the zero bytes that end them. -/
def info : Bytes := Text.ascii "/libmoose/mount" ++ [0]
def subfolder : Bytes := Text.ascii "/" ++ [0]

/-- The size of the buffer for a registration, whichever it is. -/
def messageLength : ℕ := 8 + 64 + 13 + info.length + subfolder.length

/-- `VERSMAJ`, `VERSMID`, `VERSMIN` -/
def putVersion : Bytes := put16bit 1 ++ put8bit 1 ++ put8bit 1

/-- SOURCE: moose.cc:375-429 -/
def buildRegister (self : MasterServer) : Bytes :=
  if self.session_id_ = 0 then
    put32bit CUTOMA_FUSE_REGISTER ++ put32bit (64 + 13 + info.length + subfolder.length) ++
      FUSE_REGISTER_BLOB_ACL ++ put8bit REGISTER_NEWSESSION ++ putVersion ++
      put32bit info.length ++ info ++ put32bit subfolder.length ++ subfolder
  else
    put32bit CUTOMA_FUSE_REGISTER ++ put32bit (64 + 1 + 4 + 4) ++
      FUSE_REGISTER_BLOB_ACL ++ put8bit REGISTER_RECONNECT ++ put32bit self.session_id_ ++
      putVersion

/-- `GotRegister`: neither the command nor the length is looked at. -/
def gotRegister (self : MasterServer) (payload : Mem) : MasterServer :=
  if self.session_id_ = 0 then { self with session_id_ := get32bit payload 0 } else self

/-- `Connect(addr, addr_len, remember_address)`
SOURCE: moose.cc:276-338 -/
def connect (self : MasterServer) (addr : Bytes) (remember_address : Bool) :
    Register (Bool × MasterServer) := do
  let sock ← Prog.op RegisterCall.socket
  if sock < 0 then pure (false, self)
  else do
    let ret ← Prog.op (RegisterCall.connect sock addr)
    if ret < 0 then do
      Prog.op (RegisterCall.close sock)
      pure (false, self)
    else do
      let ret ← Prog.op (RegisterCall.write sock self.buildRegister)
      if ret = 0 then do
        Prog.op (RegisterCall.close sock)
        pure (false, self)
      else do
        match ← Prog.op (RegisterCall.readCommand sock) with
        | none => do
            Prog.op (RegisterCall.close sock)
            pure (false, self)
        | some reply =>
            let self := self.gotRegister reply.payload
            let self := if remember_address then { self with hostaddr_ := some addr } else self
            pure (true, { self with master_socket_ := sock })

end MasterServer

/-! ## The layers -/

/-- The calls of `Connect` on the network; they share one buffer. -/
def registerCalls (rounds : ℕ) : (o : RegisterCall) → Buffer → Net (o.Answer × Buffer)
  | .socket, buf => do
      let fd ← Prog.op NetCall.socket
      pure (fd, buf)
  | .connect fd addr, buf => do
      let ret ← Prog.op (NetCall.connect fd addr)
      pure (ret, buf)
  | .write fd data, buf => do
      let buf ← buf.alloca MasterServer.messageLength
      let buf := { buf.store 0 data with used := data.length }
      let ret ← Prog.op (NetCall.write fd buf.data)
      pure (ret, buf)
  | .readCommand fd, buf => do
      let (command, buf) ← readCommand rounds fd buf
      pure (if command.ret then some ⟨command.cmd, command.length, buf.memAt 8⟩ else none, buf)
  | .close fd, buf => do
      Prog.op (NetCall.close fd)
      pure ((), buf)

/-- The calls of the requests on the network. -/
def masterCalls (rounds : ℕ) : (o : MasterCall) → MasterServer → Net (o.Answer × MasterServer)
  | .send request, self =>
      let buf : Buffer :=
        { mem := request.encode self.session_id_, used := request.used self.session_id_ }
      self.sendAndReceive rounds buf request.expect_cmd
  | .disconnect, self => do
      let self ← self.disconnect
      pure ((), self)

end Moose

end BundleStore
