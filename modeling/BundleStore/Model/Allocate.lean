import BundleStore.Lib.Attempts
import BundleStore.Model.Record

set_option autoImplicit false

/-!
# Allocating a writer

SOURCE: src/bundle/bundle.cc:414-569, src/base3/mkdirs.cc:23-90

`Allocate` goes round a loop until it has a writer or gives up. `allocatePass` is
one pass of that loop: a caller among others (`BundleStore.Model.Session`) goes on
to the next one, and `allocate` is a whole call. `last_id_` is read anew at every
place where the code names it.
-/

namespace BundleStore

open Machine Posix Text

/-! ## Directories -/

/-- The string that `mkdirs` works on: at most 299 bytes, without one slash at
the end. -/
def mkdirsPath (pathname : Bytes) : Bytes :=
  let path := (cstr pathname).take 299
  if path.getLast? = some slash then path.dropLast else path

/-- The paths that `mkdirs` makes, one after the other. A slash or `./` at the
front is part of each. -/
def mkdirsSubpaths (pathname : Bytes) : List Bytes :=
  let path := mkdirsPath pathname
  let front :=
    if path.head? = some slash then 1 else if path.take 2 = [46, slash] then 2 else 0
  let names := components (path.drop front)
  (List.range names.length).map fun n =>
    path.take front ++ [slash].intercalate (names.take (n + 1))

/-- The loop of `mkdirs`: a directory that is there already counts as made. -/
def mkdirsFrom : List Bytes → Sys Bool
  | [] => pure true
  | subpath :: rest => do
      if ← Sys.mkdir subpath then mkdirsFrom rest
      else
        let e ← Sys.errno
        if e = EEXIST then mkdirsFrom rest else pure false

/-- `mkdirs`, true when it returns 0. -/
def mkdirs (pathname : Bytes) : Sys Bool :=
  mkdirsFrom (mkdirsSubpaths pathname)

/-- The check that `Allocate` makes of a directory: it is there, or it can be made.
SOURCE: bundle.cc:483-492,524-533 -/
def checkDir (dir : Bytes) : Sys Bool := do
  if ← Sys.access dir then pure true else mkdirs dir

/-! ## The bundle file -/

/-- The 1024 bytes at the front of a bundle. -/
def bundleHeader (now_str : Bytes) : Bytes :=
  let text :=
    (ascii "bundle file store\n1.0\n" ++ now_str ++ ascii "\n").take (kBundleHeaderSize - 1)
  text ++ List.replicate (kBundleHeaderSize - text.length) 0

/-- The header of a bundle has the size that is reserved for it. -/
theorem length_bundleHeader (now_str : Bytes) :
    (bundleHeader now_str).length = kBundleHeaderSize := by
  unfold bundleHeader
  simp only [List.length_append, List.length_replicate, List.length_take]
  omega

/-- `CreateBundle`, without `USE_CACHED_IO`. -/
def createBundle (filename : Bytes) : Sys Bool := do
  match ← Sys.openTrunc filename with
  | none => pure false
  | some fd =>
      let now_str ← Sys.localtime
      let ret ← Sys.write fd .bundleHeader (bundleHeader now_str)
      Sys.close fd
      pure (int32 ret = kBundleHeaderSize)

/-! ## `Allocate` -/

/-- The arguments of `Allocate`. -/
structure AllocateCall where
  prefix_ : Bytes
  postfix_ : Bytes
  size : ℕ
  storage : Bytes
  lock_path : Option Bytes := none
  builder : Option BuildUrl := none

namespace AllocateCall

/-- The prefix without a slash at its front. -/
def bundlePrefix (call : AllocateCall) : Bytes :=
  if call.prefix_.head? = some slash then call.prefix_.drop 1 else call.prefix_

def lockDir (call : AllocateCall) : Bytes :=
  match call.lock_path with
  | none => pathJoin call.storage (ascii ".lock")
  | some lock_path => lock_path

end AllocateCall

/-- What comes before the loop. -/
def enterAllocate : Sys Unit := do
  let id ← Sys.getLastId .init
  if id = -1 then
    let pid ← Sys.getpid
    Sys.setLastId (pid % 10 : ℕ)
  else pure ()

/-- After enough passes an id is chosen at random. -/
def chooseId (setting : Setting) (loop_count : ℤ) : Sys Unit :=
  if loop_count > setting.bundle_count_per_day then do
    let r ← Sys.rand
    Sys.setLastId (int32 (setting.bundle_count_per_day + (r % 100 : ℕ)))
  else pure ()

/-- What the first part of a pass ends in. -/
inductive LockStep
  | null
  | again
  | locked (filelock : FileLock)

/-- The lock file of an id. -/
def lockFile (lock_dir : Bytes) (id : ℤ) : Bytes :=
  pathJoin lock_dir (decimalInt id)

/-- Try the lock, and once more after the lock directory has been checked. -/
def lockOrMakeDir (lock_dir lock_file : Bytes) : Sys LockStep := do
  let filelock ← FileLock.tryLock { lockfile_ := lock_file }
  if filelock.locked_ then pure (.locked filelock)
  else
    let made ← checkDir lock_dir
    if made then
      let filelock ← filelock.tryLock
      if filelock.locked_ then pure (.locked filelock)
      else
        Sys.incLastId
        filelock.destroy
        pure .again
    else
      filelock.destroy
      pure .null

/-- `1 try lock`. -/
def lockBundle (lock_dir : Bytes) : Sys LockStep := do
  let id ← Sys.getLastId .lockName
  lockOrMakeDir lock_dir (lockFile lock_dir id)

/-- What the second and third part of a pass end in. -/
inductive PlaceStep
  | null
  | again
  | placed (bundle_file : Bytes) (offset : ℕ)

/-- The bundle is there and another record makes it too large. The sum is taken
in `size_t`. -/
def exceeds (setting : Setting) (size : ℕ) : Option ℕ → Prop
  | some st_size => setting.max_bundle_size < uint64 (st_size + recordSize size : ℕ)
  | none => False

instance (setting : Setting) (size : ℕ) (stat : Option ℕ) :
    Decidable (exceeds setting size stat) :=
  match stat with
  | some _ => inferInstanceAs (Decidable (_ < _))
  | none => inferInstanceAs (Decidable False)

/-- `3 maybe create bundle`, where there is none. -/
def createMissing (bundle_file : Bytes) (filelock : FileLock) : Sys PlaceStep := do
  let made ← checkDir (dirname bundle_file)
  if made then
    let created ← createBundle bundle_file
    if created then pure (.placed bundle_file kBundleHeaderSize)
    else
      filelock.destroy
      pure .null
  else
    filelock.destroy
    pure .null

/-- `2 check bundle file` and what follows from it. Where `lstat` fails for
another reason than that there is no bundle, the lock is not released. -/
def checkBundle (setting : Setting) (size : ℕ) (bundle_file : Bytes) (filelock : FileLock) :
    Sys PlaceStep := do
  let stat ← Sys.lstat bundle_file
  if exceeds setting size stat then
    Sys.incLastId
    filelock.destroy
    pure .again
  else
    let stat_errno ← Sys.errno
    match stat with
    | some st_size => pure (.placed bundle_file st_size)
    | none =>
        if stat_errno = ENOENT then createMissing bundle_file filelock
        else
          Sys.incLastId
          pure .again

/-- The bundle of the id that `last_id_` now has. -/
def placeBundle (setting : Setting) (call : AllocateCall) (filelock : FileLock) :
    Sys PlaceStep := do
  let id ← Sys.getLastId .fileName
  checkBundle setting call.size (bundleFile setting call.storage call.bundlePrefix id) filelock

/-- What a pass ends in: `return NULL`, `continue`, or a writer. -/
inductive Pass
  | null
  | again
  | writer (w : Writer)

/-- The writer that is returned. -/
def newWriter (setting : Setting) (call : AllocateCall) (filelock : FileLock)
    (bundle_file : Bytes) (offset : ℕ) (id : ℤ) : Writer where
  filename_ := bundle_file
  filelock_ := some filelock
  builder_ := some (call.builder.getD setting.build)
  info_ :=
    { id, offset
      size := call.size
      prefix_ := call.bundlePrefix
      postfix_ := call.postfix_ }

/-- One pass of the loop. -/
def allocatePass (setting : Setting) (call : AllocateCall) (loop_count : ℤ) : Sys Pass := do
  chooseId setting loop_count
  match ← lockBundle call.lockDir with
  | .null => pure .null
  | .again => pure .again
  | .locked filelock =>
      match ← placeBundle setting call filelock with
      | .null => pure .null
      | .again => pure .again
      | .placed bundle_file offset =>
          let id ← Sys.getLastId .infoId
          pure (.writer (newWriter setting call filelock bundle_file offset id))

/-- A pass with the counting in front of it. It ends in the new `loop_count`, or in
what `Allocate` returns. `loop_count` is an integer that does not overflow. -/
def allocateRound (setting : Setting) (call : AllocateCall) (count : ℤ) :
    Sys (ℤ ⊕ Option Writer) := do
  let loop_count := count + 1
  match ← allocatePass setting call loop_count with
  | .null => pure (.inr none)
  | .again => pure (.inl loop_count)
  | .writer w => pure (.inr (some w))

/-- `Allocate`, as far as it gets in a number of passes; `none` while it has not
returned. -/
def allocate (setting : Setting) (call : AllocateCall) (rounds : ℕ) :
    Sys (Option (Option Writer)) := do
  enterAllocate
  Prog.attempts (allocateRound setting call) rounds 0

end BundleStore
