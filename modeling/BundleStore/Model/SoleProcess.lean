import BundleStore.Model.Allocate
import BundleStore.Model.World

set_option autoImplicit false

/-!
# One process whose calls succeed

One process uses a storage, one call of the bundle code after the other. What it asks of
the file system succeeds, or fails where the code has an answer to it: a lock file, or a
directory that is to be made, is there already; a directory or a bundle is missing.
-/

namespace BundleStore

open Machine Posix

namespace SoleProcess

/-- A call that does not fail in another way, and no `lstat` finds a directory. -/
def Succeeds (cwd : Loc) :
    (o : SysCall) → World Unit Unit → o.Answer → World Unit Unit → Prop
  | .openExcl p, w, none, w' =>
      w'.errno () = EEXIST ∧ (w.tree.content (canon cwd p)).isSome = true ∨ w'.errno () = ENOENT
  | .openTrunc _, _, none, _ => False
  | .openRdwr _, _, none, _ => False
  | .lseek _ _, _, r, _ => r.1 ≠ -1
  | .write _ _ data, _, count, _ => count = data.length
  | .access _, _, false, w' => w'.errno () = ENOENT
  | .mkdir _, _, false, w' => w'.errno () = EEXIST
  | .unlink _, _, removed, _ => removed = true
  | .lstat p, w, some _, _ => (w.tree.content (canon cwd p)).isSome = true
  | .lstat _, _, none, w' => w'.errno () = ENOENT
  | _, _, _, _ => True

/-- What a call of the process may answer and leave behind. -/
def calls (cwd : Loc) (o : SysCall) (w : World Unit Unit) (a : o.Answer) (w' : World Unit Unit) :
    Prop :=
  World.Sem cwd id () o w a w' ∧ Succeeds cwd o w a w'

/-- What the process does with the storage: `Allocate`, `Write` and `Release`. -/
inductive Act
  | allocate (call : AllocateCall) (rounds : ℕ)
  | write (writer : Writer) (url : Option Bytes) (buf : Bytes) (user_data : Option Bytes)
  | release (writer : Writer)

def Act.body (setting : Setting) : Act → Sys Unit
  | .allocate call rounds => do
      let _ ← BundleStore.allocate setting call rounds
      pure ()
  | .write writer url buf user_data => do
      let _ ← writer.writeUrl (url.getD writer.ensureUrl) buf user_data
      pure ()
  | .release writer => do
      let _ ← writer.release
      pure ()

/-- The id that the passes of an `Allocate` begin with. -/
def Begins (w : World Unit Unit) (first : ℤ) : Prop :=
  if w.lastId () = -1 then ∃ pid : ℕ, 0 < pid ∧ pid < 2 ^ 31 ∧ first = (pid % 10 : ℕ)
  else first = w.lastId ()

/-- A call of `Allocate` for a storage that can be told from its path: no `..` leads back
out of a directory that is missing. The lock directory is a C string for which `mkdirs`
has room, and the ids to come are `int`s. -/
structure Ready (cwd : Loc) (setting : Setting) (call : AllocateCall) (w : World Unit Unit) :
    Prop where
  size_lt : call.size < 2 ^ 62
  lock_dir_lt : call.lockDir.length < 300
  lock_dir_nul : 0 ∉ call.lockDir
  storage : w.tree.Direct cwd call.storage
  plain : ∀ c ∈ components call.bundlePrefix, c ≠ dotdot
  ids : ∀ first, Begins w first → 0 ≤ first ∧ first + setting.bundle_count_per_day ≤ 2 ^ 31

/-- Acts that are done one after the other, each `Allocate` as it should be. -/
def Ran (cwd : Loc) (setting : Setting) : World Unit Unit → List Act → World Unit Unit → Prop
  | w, [], w' => w' = w
  | w, act :: acts, w' =>
      (∀ call rounds, act = .allocate call rounds → Ready cwd setting call w) ∧
        ∃ w₁, (act.body setting).Executes (calls cwd) w () w₁ ∧ Ran cwd setting w₁ acts w'

/-! ## What is there for an id -/

section Places

variable (cwd : Loc) (setting : Setting) (call : AllocateCall)

def lockAt (id : ℤ) : Loc :=
  canon cwd (lockFile call.lockDir id)

def bundleAt (id : ℤ) : Loc :=
  canon cwd (bundleFile setting call.storage call.bundlePrefix id)

/-- The bundle of an id can take the record: nobody has its lock, and it is absent or has
room. -/
structure Takes (t : Tree) (id : ℤ) : Prop where
  unlocked : t.content (lockAt cwd call id) = none
  room : ∀ c, t.content (bundleAt cwd setting call id) = some c →
    c.length + align1K (kFileHeaderSize + call.size) ≤ setting.max_bundle_size

/-- Where the record of a writer for the id goes. -/
def offsetAt (t : Tree) (id : ℤ) : ℕ :=
  match t.content (bundleAt cwd setting call id) with
  | some c => c.length
  | none => kBundleHeaderSize

/-- The lock file of the id is there, and its bundle, made anew if it was absent. No other
file has changed. -/
structure Placed (t : Tree) (id : ℤ) (t' : Tree) : Prop where
  lock : t'.content (lockAt cwd call id) = some []
  kept : ∀ c, t.content (bundleAt cwd setting call id) = some c →
    t'.content (bundleAt cwd setting call id) = some c
  created : t.content (bundleAt cwd setting call id) = none →
    ∃ now_str, t'.content (bundleAt cwd setting call id) = some (bundleHeader now_str)
  others : ∀ l, l ≠ lockAt cwd call id → l ≠ bundleAt cwd setting call id →
    t'.content l = t.content l

/-- The writer for an id. -/
def writerFor (t : Tree) (id : ℤ) : Writer :=
  newWriter setting call { lockfile_ := lockFile call.lockDir id, locked_ := true }
    (bundleFile setting call.storage call.bundlePrefix id) (offsetAt cwd setting call t id) id

end Places

end SoleProcess

end BundleStore
