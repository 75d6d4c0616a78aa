import BundleStore.Lib.Parties
import BundleStore.Model.Allocate
import BundleStore.Model.World

set_option autoImplicit false

/-!
# Callers of the bundle code

A caller is a thread that calls `Allocate` and then uses the writers it got. It
may hold several writers. Between two passes of the loop in `Allocate` the call
is pending.
-/

namespace BundleStore

open Machine Posix

/-- How a writer has been used so far: whether `Write` was called with it, and the offset and
the size that it had before its first `BatchWrite`. -/
structure Use where
  written : Bool := false
  batch : Option (ℕ × ℕ) := none
  deriving DecidableEq

namespace Use

/-- The writer was not used. -/
def fresh : Use := {}

/-- After a `Write`. -/
def wrote (use : Use) : Use :=
  { use with written := true }

/-- The offset and the size that `Allocate` has given, for a writer that has these now. -/
def announced (use : Use) (offset size : ℕ) : ℕ × ℕ :=
  use.batch.getD (offset, size)

/-- After a `BatchWrite`, before which the writer had this offset and this size. -/
def batched (use : Use) (offset size : ℕ) : Use :=
  { use with batch := some (use.announced offset size) }

/-- A fresh writer has written nothing. -/
@[simp] theorem fresh_written : fresh.written = false := rfl

/-- A writer that has written has written. -/
@[simp] theorem wrote_written (use : Use) : use.wrote.written = true := rfl

/-- A batch is not a `Write`. -/
@[simp] theorem batched_written (use : Use) (offset size : ℕ) :
    (use.batched offset size).written = use.written := rfl

/-- Of a fresh writer the room that was announced is all there. -/
@[simp] theorem announced_fresh (offset size : ℕ) :
    fresh.announced offset size = (offset, size) := rfl

/-- A `Write` takes nothing off what a batch may use. -/
@[simp] theorem announced_wrote (use : Use) (offset size : ℕ) :
    use.wrote.announced offset size = use.announced offset size := rfl

/-- The offset and the size that a writer has later do not matter. -/
@[simp] theorem announced_batched (use : Use) (offset size offset' size' : ℕ) :
    (use.batched offset size).announced offset' size' = use.announced offset size := rfl

/-- A writer that has written is not fresh. -/
theorem wrote_ne_fresh (use : Use) : use.wrote ≠ fresh :=
  fun h => absurd (congrArg written h) (by simp)

/-- A writer in a batch is not fresh. -/
theorem batched_ne_fresh (use : Use) (offset size : ℕ) : use.batched offset size ≠ fresh :=
  fun h => Option.some_ne_none _ (congrArg batch h)

end Use

structure LiveWriter where
  writer : Writer
  use : Use := .fresh

/-- How it has been used after a `BatchWrite`. -/
def LiveWriter.batched (live : LiveWriter) : Use :=
  live.use.batched live.writer.info_.offset live.writer.info_.size

/-- A caller between its programs: the pending `Allocate` with its `loop_count`,
every writer that an `Allocate` has returned, as it was returned, and the writers
that have not been released. -/
structure Caller where
  pending : Option (AllocateCall × ℤ) := none
  allocated : List (AllocateCall × Writer) := []
  live : List LiveWriter := []

/-- What a caller may do next. `k` is the place of a writer among the live ones.
`Write` takes a URL, or the writer's own. -/
inductive CallerOp
  | allocate (call : AllocateCall)
  | nextPass
  | write (k : ℕ) (url : Option Bytes) (buf : Bytes) (user_data : Option Bytes)
  | batchWrite (k : ℕ) (buf : Bytes) (user_data : Option Bytes)
  | release (k : ℕ)

namespace Caller

def canRun (caller : Caller) : CallerOp → Bool
  | .allocate _ => caller.pending.isNone
  | .nextPass => caller.pending.isSome
  | .write k _ _ _ | .batchWrite k _ _ | .release k =>
      caller.pending.isNone && decide (k < caller.live.length)

/-- After a pass of the loop. -/
def afterPass (caller : Caller) (call : AllocateCall) (loop_count : ℤ) : Pass → Caller
  | .null => { caller with pending := none }
  | .again => { caller with pending := some (call, loop_count) }
  | .writer w =>
      { pending := none
        allocated := caller.allocated ++ [(call, w)]
        live := caller.live ++ [{ writer := w }] }

/-- What a test finds of every live writer it finds of the one at a place. -/
theorem of_all_live {caller : Caller} {k : ℕ} {live : LiveWriter} {test : LiveWriter → Bool}
    (h : caller.live[k]?.all test = true) (hk : caller.live[k]? = some live) :
    test live = true := by
  rw [hk, Option.all_some] at h
  exact h

/-- The `k`-th live writer is replaced. -/
def setLive (caller : Caller) (k : ℕ) (live : LiveWriter) : Caller :=
  { caller with live := caller.live.set k live }

/-- The next pass of a pending `Allocate`. -/
def nextPass (setting : Setting) (caller : Caller) : Sys Caller :=
  match caller.pending with
  | none => pure caller
  | some (call, count) => do
      let loop_count := count + 1
      let pass ← allocatePass setting call loop_count
      pure (caller.afterPass call loop_count pass)

/-- Something is done with the `k`-th live writer. -/
def onLive (caller : Caller) (k : ℕ) (f : LiveWriter → Sys Caller) : Sys Caller :=
  match caller.live[k]? with
  | none => pure caller
  | some live => f live

def run (setting : Setting) (caller : Caller) : CallerOp → Sys Caller
  | .allocate call => do
      enterAllocate
      pure { caller with pending := some (call, 0) }
  | .nextPass => caller.nextPass setting
  | .write k url buf user_data =>
      caller.onLive k fun live => do
        let _ ← live.writer.writeUrl (url.getD live.writer.ensureUrl) buf user_data
        pure (caller.setLive k { live with use := live.use.wrote })
  | .batchWrite k buf user_data =>
      caller.onLive k fun live => do
        let result ← live.writer.batchWrite buf user_data
        pure (caller.setLive k { writer := result.1, use := live.batched })
  | .release k =>
      caller.onLive k fun live => do
        let _ ← live.writer.release
        pure { caller with live := caller.live.eraseIdx k }

end Caller

section System

variable {ι κ : Type} [DecidableEq ι] [DecidableEq κ]

/-- The callers `ι`, each in the process `proc` says, that share the file system
and the setting. -/
def storeSystem (cwd : Loc) (proc : ι → κ) (setting : Setting) :
    System SysCall SysCall.Answer ι (World ι κ) Caller CallerOp where
  sem := World.Sem cwd proc
  enabled _ caller op _ := caller.canRun op
  body _ caller op := caller.run setting op

end System

end BundleStore
