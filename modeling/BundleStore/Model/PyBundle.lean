import BundleStore.Lib.Attempts
import BundleStore.Lib.Machine
import BundleStore.Lib.Parties
import BundleStore.Lib.Text
import BundleStore.Model.World

set_option autoImplicit false

/-!
# The Python bundle code

SOURCE: src/pybundle/bundle.py:54-226,329-367, src/pybundle/filelock.py

Processes with one thread each share a place and a lock place. A function that
raises returns `none`, or `false` where it returns nothing else. `_last_id` and
what a call of `allocate` has in hand belong to the process; between two rounds of
the loop in `allocate` the call is pending.
-/

namespace BundleStore

namespace PyBundle

open Machine Posix

/-! ## Paths and directories -/

/-- `os.path.split`. -/
def split (p : Bytes) : Bytes × Bytes :=
  let i := match Text.rfind slash p with
    | some i => i + 1
    | none => 0
  let head := p.take i
  (if head.all (· == slash) then head else (head.reverse.dropWhile (· == slash)).reverse, p.drop i)

/-- `os.path.join`. -/
def join (a b : Bytes) : Bytes :=
  if b.head? = some slash then b
  else if a = [] ∨ a.getLast? = some slash then a ++ b
  else a ++ slash :: b

/-- `os.path.dirname`. -/
def dirname (p : Bytes) : Bytes :=
  (split p).1

/-- `os.stat`: the size, or the number of the error. -/
def stat (path : Bytes) : Sys (Except ℕ ℕ) := do
  match ← Sys.lstat path with
  | some st_size => pure (.ok st_size)
  | none => do
      let e ← Sys.errno
      pure (.error e)

/-- `os.mkdir`: the number of the error, if there is one. -/
def mkdir (name : Bytes) : Sys (Option ℕ) := do
  if ← Sys.mkdir name then pure none
  else do
    let e ← Sys.errno
    pure (some e)

/-- `os.makedirs`; every round works on a shorter path. -/
def makedirs : ℕ → Bytes → Sys (Option ℕ)
  | 0, _ => pure none
  | fuel + 1, name => do
      let (head, tail) :=
        if (split name).2 = [] then split (split name).1 else split name
      if head = [] ∨ tail = [] then mkdir name
      else do
        let there ← Sys.access head
        if there then mkdir name
        else do
          let e ← makedirs fuel head
          if e ≠ none ∧ e ≠ some EEXIST then pure e
          else if tail = [46] then pure none
          else mkdir name

/-- `if not os.path.exists(folder): os.makedirs(folder)` -/
def ensureDir (folder : Bytes) : Sys Bool := do
  if ← Sys.access folder then pure true
  else do
    let e ← makedirs (folder.length + 1) folder
    pure e.isNone

/-! ## The lock file -/

/-- A `FileLock` with its descriptor while that is open. -/
structure FileLock where
  lockfile : Bytes
  fd : Option Fd := none
  is_locked : Bool := false
  deriving DecidableEq

namespace FileLock

/-- SOURCE: filelock.py:31-37 -/
def tryAcquire (self : FileLock) : Sys FileLock := do
  match ← Sys.openExcl self.lockfile with
  | none => pure self
  | some fd => pure { self with fd := some fd, is_locked := true }

/-- The lock as `release` leaves it; `os.close` raises where the descriptor is closed
already, and a failing one leaves what a failing `os.unlink` leaves.
SOURCE: filelock.py:58-66 -/
def release (self : FileLock) : Sys FileLock :=
  match self.is_locked, self.fd with
  | true, some fd => do
      Sys.close fd
      if ← Sys.unlink self.lockfile then pure { self with fd := none, is_locked := false }
      else pure { self with fd := none }
  | _, _ => pure self

end FileLock

/-! ## Writers -/

def kFILE_NORMAL : ℕ := 1
def kMAGIC : ℕ := 0xE4E4E4E4
def kBundleCountPerDay : ℕ := 50 * 400
def kMaxBundleSize : ℕ := 2 * 1024 * 1024 * 1024
def kBundleHeaderSize : ℕ := 1024
def kFileHeaderSize : ℕ := 512

def align1k (v : ℕ) : ℕ :=
  if v % 1024 ≠ 0 then v + 1024 - v % 1024 else v

/-- `s.ljust(width, chr(0))` -/
def ljust (s : Bytes) (width : ℕ) : Bytes :=
  s ++ List.replicate (width - s.length) 0

/-- `time.strftime('%Y%m%d', tm)` -/
structure Day where
  text : Bytes
  ne_nil : text ≠ []
  digits : ∀ b ∈ text, Text.IsDigit b

def newBid (id : ℕ) (tm : Day) : Bytes :=
  tm.text ++ slash :: Text.hex8 id

def bundleFilename (bid place : Bytes) : Bytes :=
  join place bid

structure Writer where
  flock : FileLock
  filename : Bytes
  bid : Bytes
  offset : ℕ
  length : ℕ
  url : Option Bytes := none

namespace Writer

/-- What `write` puts at the offset. -/
def huge (self : Writer) (url content : Bytes) : Bytes :=
  le32 kMAGIC ++ le32 (self.length + kFileHeaderSize) ++ le32 1 ++ le32 kFILE_NORMAL ++
    ljust url 256 ++ List.replicate (256 - 4 * 4) 0 ++
      ljust content (align1k (kFileHeaderSize + content.length) - kFileHeaderSize)

/-- The length that `write` returns, or 0. It raises without a URL, where the offset
is not aligned, and where `struct.pack` has no room for the length.
SOURCE: bundle.py:72-122 -/
def write (self : Writer) (content : Bytes) : Sys (Option ℕ) :=
  match self.url with
  | none => pure none
  | some url => do
      match ← Sys.openRdwr self.filename with
      | none => pure none
      | some fp => do
          let (pos, fp) ← Sys.lseek fp self.offset
          if pos ≠ self.offset then pure none
          else if self.offset ≠ align1k self.offset then pure none
          else if 2 ^ 32 ≤ self.length + kFileHeaderSize then pure none
          else do
            let count ← Sys.write fp (.record ⟨url, content, none⟩) (self.huge url content)
            Sys.close fp
            if count < 0 then pure none
            else if count = (self.huge url content).length then pure (some self.length)
            else pure (some 0)

/-- `__del__`, and the one of the lock behind it. -/
def del (self : Writer) : Sys FileLock := do
  let flock ← self.flock.release
  flock.release

end Writer

/-! ## `allocate` -/

/-- What all processes have in common. -/
structure Places where
  cwd : Loc
  place : Bytes
  lock_place : Bytes

/-- `'%s/%s' % (_lock_place, bid)` -/
def Places.lockFile (L : Places) (bid : Bytes) : Bytes :=
  L.lock_place ++ slash :: bid

/-- The header of a bundle. -/
def bundleHeader (now : Bytes) : Bytes :=
  ljust (Text.ascii "opi-corp.com file store\n1.0\n" ++ now ++ Text.ascii "\n") kBundleHeaderSize

/-- `create`, and the `close` behind it.
SOURCE: bundle.py:329-344 -/
def create (filename : Bytes) : Sys Bool := do
  if ← ensureDir (dirname filename) then do
    let now ← Sys.localtime
    match ← Sys.openTrunc filename with
    | none => pure false
    | some fp => do
        let count ← Sys.write fp .bundleHeader (bundleHeader now)
        Sys.close fp
        pure (count == kBundleHeaderSize)
  else pure false

/-- A call of `allocate` between two rounds of its loop; `flock` is the local that
the last round has left. -/
structure Pending where
  length : ℕ
  tm : Day
  loop_count : ℕ := 0
  flock : Option FileLock := none

/-- What a round ends in: `continue`, an exception, or `return Writer(..)`. -/
inductive Round
  | again (flock : Option FileLock)
  | raised (flock : Option FileLock)
  | returned (w : Writer)

/-- After a whole round of ids one is chosen behind them. -/
def chooseId (loop_count last_id : ℕ) : Sys ℕ :=
  if kBundleCountPerDay ≤ loop_count then do
    let r ← Sys.rand
    pure (kBundleCountPerDay + (r % 100 + 1))
  else pure last_id

/-- The first `stat` makes `allocate` go on to the next id. -/
def skips : Except ℕ ℕ → Bool
  | .error e => e != ENOENT
  | .ok st_size => decide (kMaxBundleSize < st_size)

/-- With the lock: the bundle is created if there was none when `stat` was called
before. -/
def place (L : Places) (pending : Pending) (bid : Bytes) (statinfo : Except ℕ ℕ)
    (flock : FileLock) (last_id : ℕ) : Sys (ℕ × Round) := do
  let fn_bundle := bundleFilename bid L.place
  let writer (offset : ℕ) : Writer :=
    { flock, filename := fn_bundle, bid, offset, length := pending.length }
  match statinfo with
  | .error _ => do
      if ← create fn_bundle then pure (last_id, .returned (writer kBundleHeaderSize))
      else pure (last_id, .raised (some flock))
  | .ok _ => do
      match ← stat fn_bundle with
      | .error _ => pure (last_id, .raised (some flock))
      | .ok st_size =>
          if kMaxBundleSize < st_size then pure (last_id + 1, .again (some flock))
          else if st_size < kBundleHeaderSize then pure (last_id, .raised (some flock))
          else pure (last_id, .returned (writer st_size))

/-- `flock` is bound to another lock, so the one before it goes. -/
def rebind : Option FileLock → Sys (Option FileLock)
  | none => pure none
  | some flock => do
      let flock ← flock.release
      pure (some flock)

/-- One round of the loop in `allocate`.
SOURCE: bundle.py:167-220 -/
def allocateRound (L : Places) (pending : Pending) (last_id : ℕ) : Sys (ℕ × Round) := do
  let last_id ← chooseId pending.loop_count last_id
  let bid := newBid (last_id % kBundleCountPerDay) pending.tm
  let statinfo ← stat (bundleFilename bid L.place)
  if skips statinfo then pure (last_id + 1, .again pending.flock)
  else do
    let fn_lock := L.lockFile bid
    if ← ensureDir (dirname fn_lock) then do
      let _ ← rebind pending.flock
      let flock ← FileLock.tryAcquire { lockfile := fn_lock }
      if flock.is_locked then place L pending bid statinfo flock last_id
      else pure (last_id + 1, .again (some flock))
    else pure (last_id, .raised pending.flock)

/-- What a call of `allocate` leaves: `_last_id`, and a writer unless it has raised. -/
abbrev Allocated : Type := ℕ × Option Writer

/-- A round with the counting in front of it. -/
def countedRound (L : Places) (call : Pending × ℕ) : Sys ((Pending × ℕ) ⊕ Allocated) := do
  let pending := { call.1 with loop_count := call.1.loop_count + 1 }
  let (last_id, round) ← allocateRound L pending call.2
  match round with
  | .again flock => pure (.inl ({ pending with flock }, last_id))
  | .raised _ => pure (.inr (last_id, none))
  | .returned w => pure (.inr (last_id, some w))

/-- `_last_id` when it has not been used yet. -/
def startId : Option ℕ → Sys ℕ
  | some last_id => pure last_id
  | none => do
      let pid ← Sys.getpid
      pure (pid % 10)

/-- `allocate`, as far as it gets in a number of rounds; `none` while it has not
returned. -/
def allocate (L : Places) (length : ℕ) (tm : Day) (last_id : Option ℕ) (rounds : ℕ) :
    Sys (Option Allocated) := do
  let last_id ← startId last_id
  Prog.attempts (countedRound L) rounds ({ length, tm }, last_id)

/-! ## Processes -/

/-- A record that `write` has returned the length of. -/
structure Written where
  bid : Bytes
  offset : ℕ
  huge : Bytes
  deriving DecidableEq

/-- A writer is used for one `write`. -/
structure Live where
  writer : Writer
  written : Bool := false

/-- A process between its programs. `unwound` are the locks in frames that an exception
has left and a traceback still keeps; `history` is what no program reads. -/
structure Process where
  last_id : Option ℕ := none
  pending : Option Pending := none
  live : List Live := []
  unwound : List FileLock := []
  history : List Written := []

/-- What a process may do next; `k` is the place of a writer among the live ones, or
of a lock among those that were left. Any URL may be ensured. -/
inductive ProcessOp
  | allocate (length : ℕ) (tm : Day)
  | nextRound
  | ensureUrl (k : ℕ) (url : Bytes)
  | write (k : ℕ) (content : Bytes)
  | release (k : ℕ)
  | collect (k : ℕ)

namespace Process

def canRun (process : Process) : ProcessOp → Bool
  | .allocate _ _ => process.pending.isNone
  | .nextRound => process.pending.isSome
  | .ensureUrl k _ | .release k => process.pending.isNone && decide (k < process.live.length)
  | .write k _ => process.pending.isNone && process.live[k]?.any fun live => !live.written
  | .collect k => decide (k < process.unwound.length)

/-- After a round of the loop. -/
def afterRound (process : Process) (pending : Pending) : ℕ × Round → Process
  | (last_id, .again flock) =>
      { process with
        last_id := some last_id
        pending := some { pending with flock } }
  | (last_id, .raised flock) =>
      { process with
        last_id := some last_id
        pending := none
        unwound := flock.toList ++ process.unwound }
  | (last_id, .returned w) =>
      { process with
        last_id := some last_id
        pending := none
        live := { writer := w } :: process.live }

/-- After `write`. -/
def afterWrite (process : Process) (k : ℕ) (live : Live) (content : Bytes) (result : Option ℕ) :
    Process :=
  let record : Written :=
    ⟨live.writer.bid, live.writer.offset, live.writer.huge (live.writer.url.getD []) content⟩
  { process with
    live := process.live.set k { live with written := true }
    history :=
      if result = some live.writer.length then record :: process.history else process.history }

def run (L : Places) (process : Process) : ProcessOp → Sys Process
  | .allocate length tm =>
      match process.last_id with
      | some _ => pure { process with pending := some { length, tm } }
      | none => do
          let pid ← Sys.getpid
          pure { process with last_id := some (pid % 10), pending := some { length, tm } }
  | .nextRound =>
      match process.pending with
      | none => pure process
      | some pending => do
          let pending := { pending with loop_count := pending.loop_count + 1 }
          let result ← allocateRound L pending (process.last_id.getD 0)
          pure (process.afterRound pending result)
  | .ensureUrl k url =>
      match process.live[k]? with
      | none => pure process
      | some live =>
          let writer := { live.writer with url := some url }
          pure { process with live := process.live.set k { live with writer } }
  | .write k content =>
      match process.live[k]? with
      | none => pure process
      | some live => do
          let result ← live.writer.write content
          pure (process.afterWrite k live content result)
  | .release k =>
      match process.live[k]? with
      | none => pure process
      | some live => do
          let _ ← live.writer.del
          pure { process with live := process.live.eraseIdx k }
  | .collect k =>
      match process.unwound[k]? with
      | none => pure process
      | some flock => do
          let _ ← flock.release
          pure { process with unwound := process.unwound.eraseIdx k }

end Process

/-- The processes `ι` on a file system. -/
def system {ι : Type} [DecidableEq ι] (L : Places) :
    System SysCall SysCall.Answer ι (World ι ι) Process ProcessOp where
  sem := World.Sem L.cwd id
  enabled _ process op _ := process.canRun op
  body _ process op := process.run L op

end PyBundle

end BundleStore
