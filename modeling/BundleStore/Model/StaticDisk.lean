import BundleStore.Model.Allocate
import BundleStore.Model.World

set_option autoImplicit false

/-!
# A disk that nobody else changes

One process runs, and every call that fails for a reason outside of the tree (a directory that may
not be written, say) fails each time it is made. `rand` is a stream of numbers.
-/

namespace BundleStore

open Machine Posix

/-- What a call answers when it fails, if it can. -/
def SysCall.failure : (o : SysCall) → Option o.Answer
  | .openExcl _ => some none
  | .openTrunc _ => some none
  | .openRdwr _ => some none
  | .lstat _ => some none
  | .access _ => some false
  | .mkdir _ => some false
  | .unlink _ => some false
  | .write _ _ _ => some (-1 : ℤ)
  | _ => none

structure StaticDisk where
  cwd : Loc
  /-- The calls that fail whatever the tree looks like, with their error numbers. -/
  refuse : SysCall → Option ℕ
  rand : ℕ → ℕ
  pid : ℕ
  now : Bytes
  spurious : ∀ o e, refuse o = some e → Spurious e
  rand_lt : ∀ n, rand n < 2 ^ 31
  pid_range : 0 < pid ∧ pid < 2 ^ 31
  now_lt : now.length < 100

namespace StaticDisk

/-- The state of the process and its disk, and how many random numbers were drawn. -/
abbrev State : Type :=
  World Unit Unit × ℕ

def surroundings (d : StaticDisk) : World.Surroundings where
  heap n := List.replicate n 0
  rand := 0
  pid := d.pid
  now := d.now

/-- A call that is refused fails, any other one does what the tree says. -/
def answered (d : StaticDisk) (o : SysCall) (s : State) : o.Answer × State :=
  match o.failure, d.refuse o with
  | some a, some e => (a, (s.1.setErrno () e, s.2))
  | _, _ =>
      let r := World.serve d.cwd id d.surroundings () o s.1
      (r.1, (r.2, s.2))

def serve (d : StaticDisk) : Prog.Handler SysCall SysCall.Answer State
  | .rand, s => (d.rand s.2, (s.1, s.2 + 1))
  | o, s => d.answered o s

/-- What surrounds a disk is sound. -/
theorem surroundings_sound (d : StaticDisk) : d.surroundings.Sound where
  heap _ := List.length_replicate
  rand := Nat.two_pow_pos 31
  pid := d.pid_range
  now := d.now_lt

/-- Such a disk answers as the calls may. -/
theorem serve_sem (d : StaticDisk) (o : SysCall) (s : State) :
    World.Sem d.cwd id () o s.1 (d.serve o s).1 (d.serve o s).2.1 := by
  have htree : World.Sem d.cwd id () o s.1 (World.serve d.cwd id d.surroundings () o s.1).1
      (World.serve d.cwd id d.surroundings () o s.1).2 :=
    World.serve_sem d.cwd id d.surroundings_sound () o s.1
  have hanswered : World.Sem d.cwd id () o s.1 (d.answered o s).1 (d.answered o s).2.1 := by
    unfold answered
    split
    · rename_i a e hfail hrefuse
      have hspurious := d.spurious o e hrefuse
      cases o with
      | write fd site data =>
          cases hfail
          exact .inr ⟨rfl, e, hspurious.1, rfl⟩
      | openExcl | openTrunc | openRdwr | lstat | access | mkdir | unlink =>
          cases hfail
          exact ⟨e, .inr hspurious, rfl⟩
      | lseek | close | errno | newChars | rand | getpid | localtime | getLastId | setLastId
        | incLastId | completed => cases hfail
    · exact htree
  cases o with
  | rand => exact ⟨d.rand_lt s.2, rfl⟩
  | openExcl | openTrunc | openRdwr | lseek | write | close | access | mkdir | unlink | lstat
    | errno | newChars | getpid | localtime | getLastId | setLastId | incLastId | completed =>
      exact hanswered

/-! ## What the calls of `Allocate` find -/

/-- A call on the tree, where it is not refused. -/
def onTree {α : Type} (d : StaticDisk) (o : SysCall) (r : Except ℕ α) : Except ℕ α :=
  match d.refuse o with
  | some e => .error e
  | none => r

def excl (d : StaticDisk) (t : Tree) (p : Bytes) : Except ℕ (Fd × Tree) :=
  d.onTree (.openExcl p) (t.openExcl d.cwd p)

def makeDir (d : StaticDisk) (t : Tree) (p : Bytes) : Except ℕ Tree :=
  d.onTree (.mkdir p) (t.mkdir d.cwd p)

/-- The size that `lstat` gives. -/
def bundleSize (d : StaticDisk) (t : Tree) (p : Bytes) : Except ℕ ℕ :=
  d.onTree (.lstat p)
    (match t.stat d.cwd p with
    | .ok (.file c) => if c.length < 2 ^ 63 then .ok c.length else .error EFBIG
    | .ok .dir => .ok 4096
    | .error e => .error e)

/-- A file after its `unlink`. -/
def removed (d : StaticDisk) (t : Tree) (p : Bytes) : Tree :=
  match d.onTree (.unlink p) (t.unlink d.cwd p) with
  | .ok t' => t'
  | .error _ => t

/-- The directories are there, or are made; the tree afterwards. -/
def makeDirs (d : StaticDisk) : List Bytes → Tree → Bool × Tree
  | [], t => (true, t)
  | p :: rest, t =>
      match d.makeDir t p with
      | .ok t' => d.makeDirs rest t'
      | .error e => if e = EEXIST then d.makeDirs rest t else (false, t)

def readyDir (d : StaticDisk) (t : Tree) (dir : Bytes) : Bool × Tree :=
  match d.onTree (.access dir) (t.stat d.cwd dir) with
  | .ok _ => (true, t)
  | .error _ => d.makeDirs (mkdirsSubpaths dir) t

/-- Whether the lock file can be created, if need be in a directory that is made for it, and the
tree afterwards; nothing where the directory cannot be made. -/
def lockAt (d : StaticDisk) (lock_dir lock_file : Bytes) (t : Tree) : Option (Bool × Tree) :=
  match d.excl t lock_file with
  | .ok r => some (true, r.2)
  | .error _ =>
      match d.readyDir t lock_dir with
      | (false, _) => none
      | (true, t) =>
          match d.excl t lock_file with
          | .ok r => some (true, r.2)
          | .error _ => some (false, t)

end StaticDisk

end BundleStore
