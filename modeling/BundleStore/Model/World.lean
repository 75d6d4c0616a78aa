import BundleStore.Lib.Machine
import BundleStore.Model.System
import Mathlib.Logic.Function.Basic

set_option autoImplicit false

/-!
# What the calls do

The state that threads and processes share, and what each call may answer and
leave behind. Threads are `ι`; `proc` says to which process a thread belongs, and
`last_id_` belongs to the process. All threads have the working directory `cwd`.

A call on the file system does what the tree says, or it fails for a reason that
the tree does not know (permissions, a full disk, an interrupt): then the tree
stays as it is. Such a failure never pretends that a path does not exist or that
it exists already.
-/

namespace BundleStore

open Machine Posix

/-- A record that `write` has accepted whole: where it was written, what `Write` was
called with, and the bytes. -/
structure LogEntry where
  offset : ℕ
  call : WriteCall
  record : Bytes
  deriving DecidableEq

/-- What has happened to a file: the records that were accepted whole, and the
`Write`s that have returned 0, with their offsets, each in their order. -/
structure History where
  accepted : List LogEntry := []
  completed : List (ℕ × WriteCall) := []

namespace History

def accept (h : History) (entry : LogEntry) : History :=
  { h with accepted := h.accepted ++ [entry] }

def complete (h : History) (offset : ℕ) (call : WriteCall) : History :=
  { h with completed := h.completed ++ [(offset, call)] }

/-- What is accepted comes behind what has been. -/
@[simp] theorem accept_accepted (h : History) (entry : LogEntry) :
    (h.accept entry).accepted = h.accepted ++ [entry] := rfl

/-- To accept completes nothing. -/
@[simp] theorem accept_completed (h : History) (entry : LogEntry) :
    (h.accept entry).completed = h.completed := rfl

/-- To complete accepts nothing. -/
@[simp] theorem complete_accepted (h : History) (offset : ℕ) (call : WriteCall) :
    (h.complete offset call).accepted = h.accepted := rfl

/-- What is completed comes behind what has been. -/
@[simp] theorem complete_completed (h : History) (offset : ℕ) (call : WriteCall) :
    (h.complete offset call).completed = h.completed ++ [(offset, call)] := rfl

end History

/-- The shared state. `holds`, `gaveUp`, `lockRead`, `overtaken` and `log` record history, no
program reads them: who created a lock file and has not removed it, who has removed one and
has not created it since, the id a thread last read for its lock name, whether another thread
of its process has changed `last_id_` since then, and what has happened to a file. -/
structure World (ι κ : Type) where
  tree : Tree
  errno : ι → ℕ
  lastId : κ → ℤ
  holds : ι → Loc → Bool
  lockRead : ι → ℤ
  log : Loc → History
  gaveUp : ι → Loc → Bool := fun _ _ => false
  overtaken : ι → Bool := fun _ => false

/-- Before any program has run: `last_id_` is -1 in every process. -/
def World.start {ι κ : Type} (tree : Tree) : World ι κ where
  tree := tree
  errno _ := 0
  lastId _ := -1
  holds _ _ := false
  lockRead _ := -1
  log _ := {}

/-- An error that a call may give whatever the tree looks like. -/
def Spurious (e : ℕ) : Prop :=
  e ≠ 0 ∧ e ≠ ENOENT ∧ e ≠ EEXIST

namespace World

variable {ι κ : Type}

def setTree (w : World ι κ) (t : Tree) : World ι κ :=
  { w with tree := t }

/-- After `write` has accepted the first `n` bytes. -/
def wrote (w : World ι κ) (fd : Fd) (site : WriteSite) (data : Bytes) (n : ℕ) : World ι κ :=
  { w with
    tree := w.tree.write fd (data.take n)
    log :=
      match site with
      | .bundleHeader => w.log
      | .record call =>
          if n = data.length then
            Function.update w.log fd.loc ((w.log fd.loc).accept ⟨fd.pos, call, data⟩)
          else w.log }

/-- After a `Write` to a file has returned 0. -/
def completed (w : World ι κ) (l : Loc) (offset : ℕ) (call : WriteCall) : World ι κ :=
  { w with log := Function.update w.log l ((w.log l).complete offset call) }

/-- The records of all files that were accepted whole. -/
def accepted (w : World ι κ) (l : Loc) : List LogEntry :=
  (w.log l).accepted

/-- The tree is the new one. -/
@[simp] theorem setTree_tree (w : World ι κ) (t : Tree) : (w.setTree t).tree = t := rfl

/-- A new tree changes no lock. -/
@[simp] theorem setTree_holds (w : World ι κ) (t : Tree) : (w.setTree t).holds = w.holds := rfl

section Threads

variable [DecidableEq ι]

def setErrno (w : World ι κ) (i : ι) (e : ℕ) : World ι κ :=
  { w with errno := Function.update w.errno i e }

/-- `holds i l` after a lock file was created or removed. -/
def setHolds (w : World ι κ) (i : ι) (l : Loc) (b : Bool) : World ι κ :=
  { w with
    holds := Function.update w.holds i (Function.update (w.holds i) l b)
    gaveUp := Function.update w.gaveUp i (Function.update (w.gaveUp i) l !b) }

/-- After thread `i` has read `last_id_` at a place. -/
def readLastId (w : World ι κ) (i : ι) (site : LastIdSite) (id : ℤ) : World ι κ :=
  if site = .lockName then
    { w with
      lockRead := Function.update w.lockRead i id
      overtaken := Function.update w.overtaken i false }
  else w

/-- An error number changes no file. -/
@[simp] theorem setErrno_tree (w : World ι κ) (i : ι) (e : ℕ) :
    (w.setErrno i e).tree = w.tree := rfl

/-- An error number changes no lock. -/
@[simp] theorem setErrno_holds (w : World ι κ) (i : ι) (e : ℕ) :
    (w.setErrno i e).holds = w.holds := rfl

/-- A lock that is noted changes no file. -/
@[simp] theorem setHolds_tree (w : World ι κ) (i : ι) (l : Loc) (b : Bool) :
    (w.setHolds i l b).tree = w.tree := rfl

/-- What is noted of a lock is known of it. -/
@[simp] theorem setHolds_self (w : World ι κ) (i : ι) (l : Loc) (b : Bool) :
    (w.setHolds i l b).holds i l = b := by
  simp [setHolds]

/-- What is noted of a lock is known of no other one. -/
theorem setHolds_ne (w : World ι κ) {i j : ι} {l m : Loc} (b : Bool) (h : j ≠ i ∨ m ≠ l) :
    (w.setHolds i l b).holds j m = w.holds j m := by
  unfold setHolds
  by_cases hj : j = i
  · subst hj
    have hm : m ≠ l := h.resolve_left (fun hne => hne rfl)
    simp [hm]
  · simp [hj]

/-- Who does not hold a lock any more has given it up. -/
@[simp] theorem setHolds_gaveUp_self (w : World ι κ) (i : ι) (l : Loc) (b : Bool) :
    (w.setHolds i l b).gaveUp i l = !b := by
  simp [setHolds]

/-- What is given up is one lock of one process. -/
theorem setHolds_gaveUp_ne (w : World ι κ) {i j : ι} {l m : Loc} (b : Bool)
    (h : j ≠ i ∨ m ≠ l) : (w.setHolds i l b).gaveUp j m = w.gaveUp j m := by
  unfold setHolds
  by_cases hj : j = i
  · subst hj
    have hm : m ≠ l := h.resolve_left (fun hne => hne rfl)
    simp [hm]
  · simp [hj]

/-- To read `last_id_` changes no file. -/
@[simp] theorem readLastId_tree (w : World ι κ) (i : ι) (site : LastIdSite) (id : ℤ) :
    (w.readLastId i site id).tree = w.tree := by
  unfold readLastId
  split <;> rfl

/-- A call failed, for the reason the tree gives or for another. -/
def Refused {α : Type} (w : World ι κ) (i : ι) (r : Except ℕ α) (w' : World ι κ) : Prop :=
  ∃ e, (r = .error e ∨ Spurious e) ∧ w' = w.setErrno i e

/-- A call that failed without an effect on the tree. -/
def Failed (w : World ι κ) (i : ι) (w' : World ι κ) : Prop :=
  ∃ e, e ≠ 0 ∧ w' = w.setErrno i e

end Threads

section Calls

variable [DecidableEq ι] [DecidableEq κ] (cwd : Loc) (proc : ι → κ)

/-- After thread `i` has changed `last_id_`, which overtakes the other threads of its
process. -/
def setLastId (w : World ι κ) (i : ι) (id : ℤ) : World ι κ :=
  { w with
    lastId := Function.update w.lastId (proc i) id
    overtaken := fun j => w.overtaken j || decide (j ≠ i ∧ proc j = proc i) }

/-- `Sem i o w a w'`: the call `o` of thread `i` may answer `a` and leave `w'`. -/
def Sem (i : ι) : (o : SysCall) → World ι κ → o.Answer → World ι κ → Prop
  | .openExcl p, w, some fd, w' =>
      ∃ t, w.tree.openExcl cwd p = .ok (fd, t) ∧ w' = (w.setTree t).setHolds i fd.loc true
  | .openExcl p, w, none, w' => w.Refused i (w.tree.openExcl cwd p) w'
  | .openTrunc p, w, some fd, w' =>
      ∃ t, w.tree.openTrunc cwd p = .ok (fd, t) ∧ w' = w.setTree t
  | .openTrunc p, w, none, w' => w.Refused i (w.tree.openTrunc cwd p) w'
  | .openRdwr p, w, some fd, w' => w.tree.openRdwr cwd p = .ok fd ∧ w' = w
  | .openRdwr p, w, none, w' => w.Refused i (w.tree.openRdwr cwd p) w'
  | .lseek fd offset, w, (pos, fd'), w' =>
      (offset < 2 ^ 63 ∧ pos = offset ∧ fd' = { fd with pos := offset } ∧ w' = w) ∨
        (pos = -1 ∧ fd' = fd ∧ w.Failed i w')
  | .write fd site data, w, count, w' =>
      (∃ n : ℕ, count = n ∧ n ≤ data.length ∧ fd.pos + n < 2 ^ 63 ∧ w' = w.wrote fd site data n) ∨
        (count = -1 ∧ w.Failed i w')
  | .close _, w, (), w' => w' = w ∨ w.Failed i w'
  | .access p, w, true, w' => (∃ n, w.tree.stat cwd p = .ok n) ∧ w' = w
  | .access p, w, false, w' => w.Refused i (w.tree.stat cwd p) w'
  | .mkdir p, w, true, w' => ∃ t, w.tree.mkdir cwd p = .ok t ∧ w' = w.setTree t
  | .mkdir p, w, false, w' => w.Refused i (w.tree.mkdir cwd p) w'
  | .unlink p, w, true, w' =>
      ∃ t, w.tree.unlink cwd p = .ok t ∧ w' = (w.setTree t).setHolds i (canon cwd p) false
  | .unlink p, w, false, w' => w.Refused i (w.tree.unlink cwd p) w'
  | .lstat p, w, some size, w' =>
      size < 2 ^ 63 ∧ w' = w ∧
        ((∃ c, w.tree.stat cwd p = .ok (.file c) ∧ size = c.length) ∨
          w.tree.stat cwd p = .ok .dir)
  | .lstat p, w, none, w' => w.Refused i (w.tree.stat cwd p) w'
  | .errno, w, e, w' => e = w.errno i ∧ w' = w
  | .newChars n, w, heap, w' => heap.length = n ∧ w' = w
  | .rand, w, r, w' => r < 2 ^ 31 ∧ w' = w
  | .getpid, w, pid, w' => 0 < pid ∧ pid < 2 ^ 31 ∧ w' = w
  | .localtime, w, now, w' => now.length < 100 ∧ w' = w
  | .getLastId site, w, id, w' => id = w.lastId (proc i) ∧ w' = w.readLastId i site id
  | .setLastId id, w, (), w' => w' = w.setLastId proc i id
  | .incLastId, w, (), w' => w' = w.setLastId proc i (int32 (w.lastId (proc i) + 1))
  | .completed p offset call, w, (), w' => w' = w.completed (canon cwd p) offset call

/-- The answer to a call whose outcome the tree decides. -/
def answer {α β : Type} (w : World ι κ) (i : ι) (r : Except ℕ α) (failed : β)
    (done : α → β × World ι κ) : β × World ι κ :=
  match r with
  | .ok a => done a
  | .error e => (failed, w.setErrno i e)

/-- What is not a matter of the tree: the heap, `rand`, the process id, the clock. -/
structure Surroundings where
  heap : ℕ → Bytes
  rand : ℕ
  pid : ℕ
  now : Bytes

/-- A clear heap in process 10, on the day of the examples. -/
def Surroundings.plain : Surroundings where
  heap n := List.replicate n 0
  rand := 0
  pid := 10
  now := [50, 48, 49, 50, 45, 48, 53, 45, 49, 52]

/-- The environment in which no call fails unless the tree says so, and every
`write` takes everything. -/
def serve (env : Surroundings) (i : ι) : Prog.Handler SysCall SysCall.Answer (World ι κ)
  | .openExcl p, w =>
      w.answer i (w.tree.openExcl cwd p) none fun r =>
        (some r.1, (w.setTree r.2).setHolds i r.1.loc true)
  | .openTrunc p, w =>
      w.answer i (w.tree.openTrunc cwd p) none fun r => (some r.1, w.setTree r.2)
  | .openRdwr p, w => w.answer i (w.tree.openRdwr cwd p) none fun fd => (some fd, w)
  | .lseek fd offset, w =>
      if offset < 2 ^ 63 then ((offset, { fd with pos := offset }), w)
      else ((-1, fd), w.setErrno i EINVAL)
  | .write fd site data, w =>
      if fd.pos + data.length < 2 ^ 63 then ((data.length : ℤ), w.wrote fd site data data.length)
      else ((-1 : ℤ), w.setErrno i EFBIG)
  | .close _, w => ((), w)
  | .access p, w => w.answer i (w.tree.stat cwd p) false fun _ => (true, w)
  | .mkdir p, w => w.answer i (w.tree.mkdir cwd p) false fun t => (true, w.setTree t)
  | .unlink p, w =>
      w.answer i (w.tree.unlink cwd p) false fun t =>
        (true, (w.setTree t).setHolds i (canon cwd p) false)
  | .lstat p, w =>
      w.answer i (w.tree.stat cwd p) none fun n =>
        match n with
        | .file c => if c.length < 2 ^ 63 then (some c.length, w) else (none, w.setErrno i EFBIG)
        | .dir => (some 4096, w)
  | .errno, w => (w.errno i, w)
  | .newChars n, w => (env.heap n, w)
  | .rand, w => (env.rand, w)
  | .getpid, w => (env.pid, w)
  | .localtime, w => (env.now, w)
  | .getLastId site, w => (w.lastId (proc i), w.readLastId i site (w.lastId (proc i)))
  | .setLastId id, w => ((), w.setLastId proc i id)
  | .incLastId, w => ((), w.setLastId proc i (int32 (w.lastId (proc i) + 1)))
  | .completed p offset call, w => ((), w.completed (canon cwd p) offset call)

/-- What the surroundings must give for their answers to be possible ones. -/
structure Surroundings.Sound (env : Surroundings) : Prop where
  heap : ∀ n, (env.heap n).length = n
  rand : env.rand < 2 ^ 31
  pid : 0 < env.pid ∧ env.pid < 2 ^ 31
  now : env.now.length < 100

/-- The plain surroundings are sound. -/
theorem Surroundings.plain_sound : Surroundings.plain.Sound where
  heap n := List.length_replicate
  rand := by decide
  pid := by decide
  now := by decide

/-- The faultless environment answers as the calls may. -/
theorem serve_sem {env : Surroundings} (henv : env.Sound) (i : ι) (o : SysCall)
    (w : World ι κ) :
    Sem cwd proc i o w (serve cwd proc env i o w).1 (serve cwd proc env i o w).2 := by
  have hspurious : Spurious EFBIG ∧ Spurious EINVAL := by
    unfold Spurious
    decide
  cases o with
  | openExcl p =>
      simp only [serve, answer]
      cases h : w.tree.openExcl cwd p with
      | ok r => exact ⟨r.2, h, rfl⟩
      | error e => exact ⟨e, .inl h, rfl⟩
  | openTrunc p =>
      simp only [serve, answer]
      cases h : w.tree.openTrunc cwd p with
      | ok r => exact ⟨r.2, h, rfl⟩
      | error e => exact ⟨e, .inl h, rfl⟩
  | openRdwr p =>
      simp only [serve, answer]
      cases h : w.tree.openRdwr cwd p with
      | ok fd => exact ⟨h, rfl⟩
      | error e => exact ⟨e, .inl h, rfl⟩
  | lseek fd offset =>
      simp only [serve]
      by_cases h : offset < 2 ^ 63
      · rw [if_pos h]
        exact .inl ⟨h, rfl, rfl, rfl⟩
      · rw [if_neg h]
        exact .inr ⟨rfl, rfl, EINVAL, by decide, rfl⟩
  | write fd site data =>
      simp only [serve]
      by_cases h : fd.pos + data.length < 2 ^ 63
      · rw [if_pos h]
        exact .inl ⟨data.length, rfl, le_refl _, h, rfl⟩
      · rw [if_neg h]
        exact .inr ⟨rfl, EFBIG, by decide, rfl⟩
  | close fd => exact .inl rfl
  | access p =>
      simp only [serve, answer]
      cases h : w.tree.stat cwd p with
      | ok n => exact ⟨⟨n, h⟩, rfl⟩
      | error e => exact ⟨e, .inl h, rfl⟩
  | mkdir p =>
      simp only [serve, answer]
      cases h : w.tree.mkdir cwd p with
      | ok t => exact ⟨t, h, rfl⟩
      | error e => exact ⟨e, .inl h, rfl⟩
  | unlink p =>
      simp only [serve, answer]
      cases h : w.tree.unlink cwd p with
      | ok t => exact ⟨t, h, rfl⟩
      | error e => exact ⟨e, .inl h, rfl⟩
  | lstat p =>
      simp only [serve, answer]
      cases h : w.tree.stat cwd p with
      | error e => exact ⟨e, .inl h, rfl⟩
      | ok n =>
          cases n with
          | dir => exact ⟨by norm_num, rfl, .inr h⟩
          | file c =>
              by_cases hsize : c.length < 2 ^ 63
              · simp only [hsize, if_true]
                exact ⟨hsize, rfl, .inl ⟨c, h, rfl⟩⟩
              · simp only [hsize, if_false]
                exact ⟨EFBIG, .inr hspurious.1, rfl⟩
  | errno => exact ⟨rfl, rfl⟩
  | newChars n => exact ⟨henv.heap n, rfl⟩
  | rand => exact ⟨henv.rand, rfl⟩
  | getpid => exact ⟨henv.pid.1, henv.pid.2, rfl⟩
  | localtime => exact ⟨henv.now, rfl⟩
  | getLastId site => exact ⟨rfl, rfl⟩
  | setLastId id => rfl
  | incLastId => rfl
  | completed p offset call => rfl

end Calls

end World

end BundleStore
