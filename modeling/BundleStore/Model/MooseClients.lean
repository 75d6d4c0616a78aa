import BundleStore.Lib.Parties
import BundleStore.Model.MooseDescriptors

set_option autoImplicit false

/-!
# Clients of one master

SOURCE: src/mooseclient/moose_c.cc:50-71, 144-174, src/bundle/filelock.h:72-84

The master executes a request in one step. A reply may be lost, to any request but
a lookup; the request is then sent again, a few times at most, and may be executed
each time. Nothing that these clients ask for makes or removes a directory.
-/

namespace BundleStore

namespace Moose

/-- A directory, by its inode, and a name in it. -/
abbrev Entry : Type := ℕ × Bytes

/-- The names that the master knows at first. -/
structure Tree where
  isDir : ℕ → Bool
  entry : Entry → Option ℕ
  under : ∀ key inode, entry key = some inode → isDir key.1 = true

/-- What happens to names: the `n`-th call of a client has made one, a name has been
removed, the `n`-th call of a client has returned with success from an exclusive
open. -/
inductive Event (ι : Type)
  | made (i : ι) (n : ℕ) (key : Entry)
  | unlinked (key : Entry)
  | opened (i : ι) (n : ℕ) (pathname : Bytes)

/-- The names that the master knows, and what has happened so far. -/
structure Names (ι : Type) where
  entry : Entry → Option ℕ
  log : List (Event ι)

/-- What a client does: the `n`-th call of it sends a request once, or returns. -/
inductive TransmitCall
  | transmit (n : ℕ) (request : Request)
  | opened (n : ℕ) (pathname : Bytes)
  /-- anything but a request -/
  | other (o : FileCall)

/-- No answer is a reply that has been lost. -/
abbrev TransmitCall.Answer : TransmitCall → Type
  | .transmit _ _ => Option Reply
  | .opened _ _ => Unit
  | .other o => o.Answer

/-- Sending a request until a reply arrives, a few times more than once. -/
def transmitLoop (n : ℕ) (request : Request) :
    ℕ → Prog TransmitCall TransmitCall.Answer (Option Reply)
  | 0 => Prog.op (TransmitCall.transmit n request)
  | retry + 1 => do
      match ← Prog.op (TransmitCall.transmit n request) with
      | some reply => pure (some reply)
      | none => transmitLoop n request retry

/-- The calls of a file, as the `n`-th call of a client carries them out. -/
def transmitted (retries : ℕ) :
    (o : FileCall) → ℕ → Prog TransmitCall TransmitCall.Answer (o.Answer × ℕ)
  | .master (.send request), n => do
      let answer ← transmitLoop n request retries
      pure (answer, n)
  | .master .disconnect, n => pure ((), n)
  | o, n => do
      let answer ← Prog.op (TransmitCall.other o)
      pure (answer, n)

/-! ## The master -/

namespace Names

variable {ι : Type}

def make (s : Names ι) (i : ι) (n : ℕ) (key : Entry) (inode : ℕ) : Names ι where
  entry := Function.update s.entry key (some inode)
  log := s.log ++ [.made i n key]

def unlink (s : Names ι) (key : Entry) : Names ι where
  entry := Function.update s.entry key none
  log := s.log ++ [.unlinked key]

/-- A reply to a lookup: the entry there is, or `ENOENT`. -/
def LookupReply (found : Option ℕ) (reply : Reply) : Prop :=
  match found with
  | some inode => reply.length = 39 ∧ get32bit reply.rptr 0 = inode
  | none => reply.length = 1 ∧ (get8bit reply.rptr 0 : ℤ) = ERROR_ENOENT

/-- `Mknod` has made a file, and its inode is in the reply, if that arrives. -/
def MknodMakes (tree : Tree) (s : Names ι) (i : ι) (n : ℕ) (key : Entry) (a : Option Reply)
    (s' : Names ι) : Prop :=
  ∃ inode, s.entry key = none ∧ tree.isDir key.1 = true ∧ tree.isDir inode = false ∧
    s' = s.make i n key inode ∧
      ∀ reply, a = some reply → reply.length = 39 ∧ get32bit reply.rptr 0 = inode

/-- `Mknod` has made nothing: the request was lost, or the reply is a status. -/
def MknodRefuses (s : Names ι) (key : Entry) (a : Option Reply) (s' : Names ι) : Prop :=
  s' = s ∧ ∀ reply, a = some reply → reply.length = 1 ∧ (get8bit reply.rptr 0 : ℤ) ≠ STATUS_OK ∧
    (s.entry key ≠ none → (get8bit reply.rptr 0 : ℤ) = ERROR_EEXIST)

/-- One request. Only files are unlinked; `Mkdir` and `Rmdir`, which would change the
directories, are not sent. -/
def Transmit (tree : Tree) (s : Names ι) (i : ι) (n : ℕ) (request : Request) (a : Option Reply)
    (s' : Names ι) : Prop :=
  match request with
  | .lookup parent name =>
      s' = s ∧ ∃ reply, a = some reply ∧ LookupReply (s.entry (parent, name)) reply
  | .mknod parent name _ _ _ =>
      MknodMakes tree s i n (parent, name) a s' ∨ MknodRefuses s (parent, name) a s'
  | .unlink parent name =>
      (∃ inode, s.entry (parent, name) = some inode ∧ tree.isDir inode = false ∧
        s' = s.unlink (parent, name)) ∨ s' = s
  | _ => s' = s

end Names

/-! ## The clients -/

/-- The descriptors of a client, and how many calls it has made. -/
structure ClientState where
  map_ : Descriptors := fun _ => none
  calls : ℕ := 0

inductive ClientUse
  | mfs_open (uninit : Uninit) (pathname : Bytes) (flags mode : ℕ)
  | mfs_creat (pathname : Bytes) (mode : ℕ)
  | mfs_unlink (pathname : Bytes)

/-- The flags that `FileLock` opens its lock file with. -/
def exclusive : ℕ := O_CREAT ||| O_EXCL ||| O_RDWR

/-- Clients of a master, which sends a request `retries` times more than once. -/
def clientSystem {ι : Type} (tree : Tree) (retries : ℕ) :
    System TransmitCall TransmitCall.Answer ι (Names ι) ClientState ClientUse where
  sem i o s a s' :=
    match o with
    | .transmit n request => s.Transmit tree i n request a s'
    | .opened n pathname => s' = { s with log := s.log ++ [.opened i n pathname] }
    | .other _ => s' = s
  enabled _ _ _ _ := true
  body _ l use :=
    match use with
    | .mfs_open uninit pathname flags mode => do
        let r ← (mfs_open uninit l.map_ pathname flags mode).lower (transmitted retries) l.calls
        if flags = exclusive ∧ r.1.1 ≠ -1 then do
          Prog.op (TransmitCall.opened l.calls pathname)
          pure { map_ := r.1.2, calls := l.calls + 1 }
        else pure { map_ := r.1.2, calls := l.calls + 1 }
    | .mfs_creat pathname mode => do
        let r ← (mfs_creat l.map_ pathname mode).lower (transmitted retries) l.calls
        pure { map_ := r.1.2, calls := l.calls + 1 }
    | .mfs_unlink pathname => do
        let _ ← (onMaster (mfs_unlink pathname)).lower (transmitted retries) l.calls
        pure { l with calls := l.calls + 1 }

/-- At first the names are those of the tree, and no client has called anything. -/
def ClientInit {ι : Type} (tree : Tree)
    (c : Config TransmitCall TransmitCall.Answer ι (Names ι) ClientState) : Prop :=
  c.shared = ⟨tree.entry, []⟩ ∧ ∀ i, c.thread i = .ret {}

end Moose

end BundleStore
