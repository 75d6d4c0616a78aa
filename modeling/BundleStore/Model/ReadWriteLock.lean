import BundleStore.Lib.CondVar
import BundleStore.Lib.Machine

set_option autoImplicit false

/-!
# The read-write lock

SOURCE: src/base3/rwlock.h

The counters are of type `unsigned int`. A thread calls `ReadLock` or `WriteLock`
when it does not hold the lock, and the `Unlock` that goes with it when it does.
-/

namespace BundleStore

open CondVar Machine

structure ReadWriteLock where
  readers_ : ℕ := 0
  writers_ : ℕ := 0
  read_waiters_ : ℕ := 0
  write_waiters_ : ℕ := 0
  deriving DecidableEq

namespace ReadWriteLock

/-- `cond_read_` and `cond_write_` -/
inductive Cond
  | read
  | write
  deriving DecidableEq

/-- How a thread holds the lock. -/
inductive Role
  | idle
  | reading
  | writing
  deriving DecidableEq

inductive Op
  | readLock
  | readUnlock
  | writeLock
  | writeUnlock
  deriving DecidableEq

def readLock (self : ReadWriteLock) : Segment ReadWriteLock Role Cond :=
  if self.writers_ ≠ 0 ∨ self.write_waiters_ ≠ 0 then
    { state := { self with read_waiters_ := uint32 (self.read_waiters_ + 1) }
      next := .waits .read }
  else
    { state := { self with readers_ := uint32 (self.readers_ + 1) }
      next := .returns .reading }

/-- `ReadLock` from behind `cond_read_.wait`. -/
def readWoken (self : ReadWriteLock) : Segment ReadWriteLock Role Cond :=
  if self.writers_ ≠ 0 ∨ self.write_waiters_ ≠ 0 then { state := self, next := .waits .read }
  else
    { state := { self with read_waiters_ := uint32 (self.read_waiters_ - 1)
                           readers_ := uint32 (self.readers_ + 1) }
      next := .returns .reading }

def readUnlock (self : ReadWriteLock) : Segment ReadWriteLock Role Cond where
  state := { self with readers_ := uint32 (self.readers_ - 1) }
  notify := if self.write_waiters_ ≠ 0 then .one .write else .none
  next := .returns .idle

def writeLock (self : ReadWriteLock) : Segment ReadWriteLock Role Cond :=
  if self.readers_ ≠ 0 ∨ self.writers_ ≠ 0 then
    { state := { self with write_waiters_ := uint32 (self.write_waiters_ + 1) }
      next := .waits .write }
  else { state := { self with writers_ := 1 }, next := .returns .writing }

/-- `WriteLock` from behind `cond_write_.wait`. -/
def writeWoken (self : ReadWriteLock) : Segment ReadWriteLock Role Cond :=
  if self.readers_ ≠ 0 ∨ self.writers_ ≠ 0 then { state := self, next := .waits .write }
  else
    { state := { self with write_waiters_ := uint32 (self.write_waiters_ - 1), writers_ := 1 }
      next := .returns .writing }

def writeUnlock (self : ReadWriteLock) : Segment ReadWriteLock Role Cond where
  state := { self with writers_ := 0 }
  notify :=
    if self.write_waiters_ ≠ 0 then .one .write
    else if self.read_waiters_ ≠ 0 then .all .read
    else .none
  next := .returns .idle

/-- Locking and unlocking in pairs. -/
def calls : Role → Op → Bool
  | .idle, .readLock => true
  | .idle, .writeLock => true
  | .reading, .readUnlock => true
  | .writing, .writeUnlock => true
  | _, _ => false

def object : Object ReadWriteLock Role Cond Op where
  start
    | .readLock => readLock
    | .readUnlock => readUnlock
    | .writeLock => writeLock
    | .writeUnlock => writeUnlock
  resume
    | .read => readWoken
    | .write => writeWoken
  Calls r o := calls r o = true

/-- A new lock, and nobody uses it. -/
def initial (ι : Type) : Config ι ReadWriteLock Role Cond where
  state := {}
  place _ := .out .idle

end ReadWriteLock

end BundleStore
