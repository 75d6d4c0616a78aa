import BundleStore.Lib.Posix
import BundleStore.Lib.Prog
import Mathlib.Data.Int.Notation

set_option autoImplicit false

/-!
# The calls of the bundle code

What the code asks of its surroundings: the file system, `errno`, the heap, the
clock, the process, and `last_id_`, which the threads of a process share. Each is
one call, so that the calls of several threads and processes can interleave
between any two of them. The answer of a call that may fail is what its return
value tells; the rest is in `errno`, which is read by a call of its own.

A descriptor is never copied and never shared, so it is passed as a value that
carries its position.

Two things serve the history of a run and are no part of the code's calls: a record
`write` names what it is the record of, and `Write` tells when it returns 0.
-/

namespace BundleStore

/-- What `Write` stores: a URL, the content, and user data. -/
structure WriteCall where
  url : Bytes
  buf : Bytes
  user_data : Option Bytes
  deriving DecidableEq

/-- The two places that call `write`. The one in `Write` says what `Write` was called
with. -/
inductive WriteSite
  | bundleHeader
  | record (call : WriteCall)
  deriving DecidableEq

/-- The places that read `last_id_` in an iteration of `Allocate`. -/
inductive LastIdSite
  | init
  | lockName
  | fileName
  | infoId
  deriving DecidableEq

inductive SysCall
  /-- `open(path, O_RDWR | O_EXCL | O_CREAT)` -/
  | openExcl (path : Bytes)
  /-- `open(path, O_RDWR | O_CREAT | O_TRUNC)` -/
  | openTrunc (path : Bytes)
  /-- `open(path, O_RDWR)` -/
  | openRdwr (path : Bytes)
  /-- `lseek(fd, offset, SEEK_SET)` -/
  | lseek (fd : Posix.Fd) (offset : ℕ)
  | write (fd : Posix.Fd) (site : WriteSite) (data : Bytes)
  | close (fd : Posix.Fd)
  | access (path : Bytes)
  | mkdir (path : Bytes)
  | unlink (path : Bytes)
  | lstat (path : Bytes)
  /-- the current value of `errno` -/
  | errno
  /-- `new char[n]`, whose bytes are whatever the heap held -/
  | newChars (n : ℕ)
  | rand
  | getpid
  /-- `strftime` of the local time -/
  | localtime
  | getLastId (site : LastIdSite)
  | setLastId (id : ℤ)
  /-- `last_id_ ++` -/
  | incLastId
  /-- No call of the code: a `Write` at this offset of the file returns 0. -/
  | completed (path : Bytes) (offset : ℕ) (call : WriteCall)

/-- What a call returns: a descriptor or none, a result or `-1`, success or not. -/
@[reducible] def SysCall.Answer : SysCall → Type
  | openExcl _ | openTrunc _ | openRdwr _ => Option Posix.Fd
  | lseek _ _ => ℤ × Posix.Fd
  | write _ _ _ => ℤ
  | close _ => Unit
  | access _ | mkdir _ | unlink _ => Bool
  | lstat _ => Option ℕ
  | errno => ℕ
  | newChars _ => Bytes
  | rand | getpid => ℕ
  | localtime => Bytes
  | getLastId _ => ℤ
  | setLastId _ | incLastId => Unit
  | completed _ _ _ => Unit

/-- Programs over these calls. -/
abbrev Sys : Type → Type := Prog SysCall SysCall.Answer

namespace Sys

abbrev call (o : SysCall) : Sys o.Answer := Prog.op o
abbrev openExcl (path : Bytes) : Sys (Option Posix.Fd) := call (.openExcl path)
abbrev openTrunc (path : Bytes) : Sys (Option Posix.Fd) := call (.openTrunc path)
abbrev openRdwr (path : Bytes) : Sys (Option Posix.Fd) := call (.openRdwr path)
abbrev lseek (fd : Posix.Fd) (offset : ℕ) : Sys (ℤ × Posix.Fd) := call (.lseek fd offset)
abbrev write (fd : Posix.Fd) (site : WriteSite) (data : Bytes) : Sys ℤ :=
  call (.write fd site data)
abbrev close (fd : Posix.Fd) : Sys Unit := call (.close fd)
abbrev access (path : Bytes) : Sys Bool := call (.access path)
abbrev mkdir (path : Bytes) : Sys Bool := call (.mkdir path)
abbrev unlink (path : Bytes) : Sys Bool := call (.unlink path)
abbrev lstat (path : Bytes) : Sys (Option ℕ) := call (.lstat path)
abbrev errno : Sys ℕ := call .errno
abbrev newChars (n : ℕ) : Sys Bytes := call (.newChars n)
abbrev rand : Sys ℕ := call .rand
abbrev getpid : Sys ℕ := call .getpid
abbrev localtime : Sys Bytes := call .localtime
abbrev getLastId (site : LastIdSite) : Sys ℤ := call (.getLastId site)
abbrev setLastId (id : ℤ) : Sys Unit := call (.setLastId id)
abbrev incLastId : Sys Unit := call .incLastId
abbrev completed (path : Bytes) (offset : ℕ) (done : WriteCall) : Sys Unit :=
  call (.completed path offset done)

end Sys

end BundleStore
