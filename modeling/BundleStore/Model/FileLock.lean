import BundleStore.Model.System

set_option autoImplicit false

/-!
# The lock file

SOURCE: src/bundle/filelock.h

A `FileLock` holds its lock while the file exists that its `open` created. It
remembers in `locked_` how its last attempt went; `Unlock` leaves that alone.
-/

namespace BundleStore

structure FileLock where
  lockfile_ : Bytes
  timeout_ : ℤ := 10000
  delay_ : ℤ := 500
  locked_ : Bool := false
  deriving DecidableEq

namespace FileLock

/-- `Lock(name)`: the file did not exist and was created.
SOURCE: filelock.h:73-85 -/
def lockName (name : Bytes) : Sys Bool := do
  match ← Sys.openExcl name with
  | none => pure false
  | some fd =>
      Sys.close fd
      pure true

/-- `Unlock(name)`. -/
def unlockName (name : Bytes) : Sys Bool :=
  Sys.unlink name

/-- `TryLock()`; the result is the new `locked_`. -/
def tryLock (self : FileLock) : Sys FileLock := do
  let locked ← lockName self.lockfile_
  pure { self with locked_ := locked }

/-- What one attempt of the loop in `Lock()` ends in. -/
inductive Attempt
  | stopped (self : FileLock)
  | again (self : FileLock) (delay : ℤ)

/-- The lock object as the attempt leaves it. -/
def Attempt.object : Attempt → FileLock
  | .stopped self => self
  | .again self _ => self

/-- One round of the loop in `Lock()`: another one follows a failed attempt
until the doubled delay reaches the timeout.
SOURCE: filelock.h:35-51 -/
def lockAttempt (self : FileLock) (delay : ℤ) : Sys Attempt := do
  let locked ← lockName self.lockfile_
  let self := { self with locked_ := locked }
  if locked then pure (.stopped self)
  else if delay < self.timeout_ then pure (.again self (delay + delay))
  else pure (.stopped self)

/-- `Unlock()`. -/
def unlock (self : FileLock) : Sys Unit :=
  if self.locked_ then do
    let _ ← unlockName self.lockfile_
    pure ()
  else pure ()

/-- `~FileLock()`. -/
def destroy (self : FileLock) : Sys Unit :=
  if self.locked_ then unlock self else pure ()

end FileLock

end BundleStore
