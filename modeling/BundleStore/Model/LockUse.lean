import BundleStore.Lib.Parties
import BundleStore.Model.FileLock
import BundleStore.Model.World

set_option autoImplicit false

/-!
# Lock objects in use

Any number of `FileLock` objects, in any processes, on which the public
operations are called in any order. An object is between operations, inside the
loop of `Lock()`, or destroyed.
-/

namespace BundleStore

open Posix

inductive LockObject
  | alive (self : FileLock)
  | looping (self : FileLock) (delay : ℤ)
  | destroyed

/-- The operations; `again` is the next round of the loop in `Lock()`. -/
inductive LockOp
  | tryLock
  | lock
  | again
  | unlock
  | destroy

namespace LockObject

/-- Which operation may come next. -/
def canRun : LockObject → LockOp → Bool
  | alive _, .tryLock | alive _, .lock | alive _, .unlock | alive _, .destroy => true
  | looping _ _, .again => true
  | _, _ => false

/-- One round of `Lock()`. -/
def round (self : FileLock) (delay : ℤ) : Sys LockObject := do
  match ← self.lockAttempt delay with
  | .stopped self => pure (alive self)
  | .again self delay => pure (looping self delay)

def run : LockObject → LockOp → Sys LockObject
  | alive self, .tryLock => do
      let self ← self.tryLock
      pure (alive self)
  | alive self, .lock => round self self.delay_
  | looping self delay, .again => round self delay
  | alive self, .unlock => do
      self.unlock
      pure (alive self)
  | alive self, .destroy => do
      self.destroy
      pure destroyed
  | object, _ => pure object

end LockObject

/-- An `unlink` fails only for a reason that the tree gives. -/
def UnlinkWorks {ι κ : Type} (cwd : Loc) :
    (o : SysCall) → World ι κ → o.Answer → Prop
  | .unlink p, w, removed => removed = false → ∃ e, w.tree.unlink cwd p = .error e
  | _, _, _ => True

section System

variable {ι κ : Type} [DecidableEq ι] [DecidableEq κ] (cwd : Loc) (proc : ι → κ)

/-- The objects `ι` and the operations that run on them. -/
def lockSystem : System SysCall SysCall.Answer ι (World ι κ) LockObject LockOp where
  sem i o w a w' := World.Sem cwd proc i o w a w' ∧ UnlinkWorks cwd o w a
  enabled _ object op _ := object.canRun op
  body _ object op := object.run op

/-- At first the objects are new and the lock file does not exist. -/
def LockInit (name : Bytes) (c : Config SysCall SysCall.Answer ι (World ι κ) LockObject) : Prop :=
  c.shared.tree.content (canon cwd name) = none ∧
    (∀ i, c.shared.holds i (canon cwd name) = false ∧
      c.shared.gaveUp i (canon cwd name) = false) ∧
    ∀ i, ∃ self : FileLock, c.thread i = .ret (.alive self) ∧ self.lockfile_ = name ∧
      self.locked_ = false

end System

end BundleStore
