import BundleStore.Analysis.Calls
import Mathlib.Data.Finset.Card

set_option autoImplicit false

/-!
# The lock files that `Allocate` leaves

A lock file is one that an exclusive open has made and no `unlink` has removed. A
call that returns leaves one more when it returns a writer, and no other, unless
an `lstat` has failed with another number than `ENOENT` on the way: that branch
goes on to the next id without deleting its `FileLock`.
-/

namespace BundleStore

open Machine Posix

/-- What is known of the surroundings of one call: the lock files there are,
`last_id_` and `errno`. `otherError` tells whether an `lstat` has failed for another
reason than that nothing is there. -/
structure LockState where
  files : Finset Bytes
  lastId : ℤ
  errno : ℕ
  otherError : Bool := false

namespace LockState

/-- A call that changes no lock file and does not fail as `otherError` tells. -/
def Other (s s' : LockState) : Prop :=
  ∃ e, s' = { s with errno := e }

/-- Every call may succeed or fail with any number. An exclusive open that succeeds
found no file, and `unlink` succeeds where there is one. -/
def Sem : (o : SysCall) → LockState → o.Answer → LockState → Prop
  | .openExcl p, s, some _, s' =>
      p ∉ s.files ∧ ∃ e, s' = { s with files := insert p s.files, errno := e }
  | .unlink p, s, true, s' =>
      p ∈ s.files ∧ ∃ e, s' = { s with files := s.files.erase p, errno := e }
  | .unlink p, s, false, s' => p ∉ s.files ∧ s.Other s'
  | .lstat _, s, none, s' =>
      ∃ e, s' = { s with errno := e, otherError := s.otherError || decide (e ≠ ENOENT) }
  | .errno, s, e, s' => e = s.errno ∧ s' = s
  | .getLastId _, s, id, s' => id = s.lastId ∧ s' = s
  | .setLastId id, s, (), s' => s' = { s with lastId := id }
  | .incLastId, s, (), s' => s' = { s with lastId := int32 (s.lastId + 1) }
  | _, s, _, s' => s.Other s'

/-- The lock files, the id and the history are as before. -/
structure Same (s s' : LockState) : Prop where
  files : s'.files = s.files
  lastId : s'.lastId = s.lastId
  otherError : s'.otherError = s.otherError

/-- A state is the same as itself. -/
theorem Same.refl (s : LockState) : s.Same s :=
  ⟨rfl, rfl, rfl⟩

/-- Sameness of the locks is transitive. -/
theorem Same.trans {s₁ s₂ s₃ : LockState} (h : s₁.Same s₂) (h' : s₂.Same s₃) : s₁.Same s₃ :=
  ⟨h'.files.trans h.files, h'.lastId.trans h.lastId, h'.otherError.trans h.otherError⟩

/-- A step elsewhere leaves the locks. -/
theorem Other.same {s s' : LockState} (h : s.Other s') : s.Same s' := by
  obtain ⟨e, rfl⟩ := h
  exact ⟨rfl, rfl, rfl⟩

/-- One more lock file than before. -/
structure Gains (s : LockState) (p : Bytes) (s' : LockState) : Prop where
  free : p ∉ s.files
  files : s'.files = insert p s.files
  lastId : s'.lastId = s.lastId
  otherError : s'.otherError = s.otherError

/-- A lock gained after steps that leave the locks. -/
theorem Gains.of_same {s s₁ s₂ : LockState} {p : Bytes} (h : s.Same s₁) (h' : s₁.Gains p s₂) :
    s.Gains p s₂ := by
  refine ⟨?_, ?_, h'.lastId.trans h.lastId, h'.otherError.trans h.otherError⟩
  · rw [← h.files]
    exact h'.free
  · rw [h'.files, h.files]

/-- A lock gained before steps that leave the locks. -/
theorem Gains.same {s s₁ s₂ : LockState} {p : Bytes} (h : s.Gains p s₁) (h' : s₁.Same s₂) :
    s.Gains p s₂ :=
  ⟨h.free, h'.files.trans h.files, h'.lastId.trans h.lastId, h'.otherError.trans h.otherError⟩

/-- A lock that was gained is there. -/
theorem Gains.mem {s s' : LockState} {p : Bytes} (h : s.Gains p s') : p ∈ s'.files := by
  rw [h.files]
  exact Finset.mem_insert_self p s.files

end LockState

open LockState

/-! ## The parts of a pass -/

section Parts

variable {s s' : LockState}

/-- Calls on directories leave the locks. -/
theorem same_of_dirCalls {α : Type} {p : Sys α} {a : α} (hp : p.Calls IsDirCall)
    (h : p.Executes LockState.Sem s a s') : s.Same s' := by
  refine h.kept (I := fun t => s.Same t) hp ?_ (Same.refl s)
  intro o t x t' ho ht hsem
  refine ht.trans ?_
  cases o with
  | access p => exact Other.same hsem
  | mkdir p => exact Other.same hsem
  | errno =>
      obtain ⟨-, rfl⟩ := hsem
      exact Same.refl t'
  | _ => exact absurd ho id

/-- An attempt that fails leaves everything as it is. -/
theorem tryLock_executes {self self' : FileLock}
    (h : self.tryLock.Executes LockState.Sem s self' s') :
    self'.lockfile_ = self.lockfile_ ∧
      (self'.locked_ = true ∧ s.Gains self.lockfile_ s' ∨
        self'.locked_ = false ∧ s.Same s') := by
  unfold FileLock.tryLock FileLock.lockName at h
  simp only [Prog.op_bind, Prog.call_bind, Prog.executes_call] at h
  obtain ⟨fd, s₁, hopen, hrest⟩ := h
  cases fd with
  | none =>
      obtain ⟨rfl, rfl⟩ := hrest
      exact ⟨rfl, .inr ⟨rfl, Other.same hopen⟩⟩
  | some fd =>
      obtain ⟨hfree, e, rfl⟩ := hopen
      obtain ⟨_, s₂, hclose, rfl, rfl⟩ := hrest
      have hgains : s.Gains self.lockfile_
          { s with files := insert self.lockfile_ s.files, errno := e } := ⟨hfree, rfl, rfl, rfl⟩
      exact ⟨rfl, .inl ⟨rfl, hgains.same (Other.same hclose)⟩⟩

/-- The destructor of a held lock removes its file. -/
theorem destroy_executes_locked {self : FileLock} (hlocked : self.locked_ = true)
    (hmem : self.lockfile_ ∈ s.files) (h : self.destroy.Executes LockState.Sem s () s') :
    s'.files = s.files.erase self.lockfile_ ∧ s'.otherError = s.otherError := by
  unfold FileLock.destroy FileLock.unlock FileLock.unlockName at h
  rw [if_pos hlocked, if_pos hlocked] at h
  obtain ⟨removed, s₁, hunlink, -, rfl⟩ := h
  cases removed with
  | false => exact absurd hmem hunlink.1
  | true =>
      obtain ⟨-, e, rfl⟩ := hunlink
      exact ⟨rfl, rfl⟩

/-- The destructor of an object that holds no lock does nothing.
SOURCE: filelock.h:31-35 -/
theorem destroy_executes_unlocked {self : FileLock} (hlocked : self.locked_ = false)
    (h : self.destroy.Executes LockState.Sem s () s') : s' = s := by
  unfold FileLock.destroy at h
  rw [hlocked, if_neg Bool.false_ne_true] at h
  exact h.2

/-- What the first part of a pass leaves. -/
def LocksOne (s s' : LockState) (lock_file : Bytes) : LockStep → Prop
  | .locked filelock =>
      filelock.lockfile_ = lock_file ∧ filelock.locked_ = true ∧ s.Gains lock_file s'
  | _ => s'.files = s.files ∧ s'.otherError = s.otherError

/-- The first half of a pass takes at most the lock it was asked for.
SOURCE: bundle.cc:479-502 -/
theorem lockOrMakeDir_executes {lock_dir lock_file : Bytes} {step : LockStep}
    (h : (lockOrMakeDir lock_dir lock_file).Executes LockState.Sem s step s') :
    LocksOne s s' lock_file step := by
  unfold lockOrMakeDir at h
  obtain ⟨filelock, s₁, htry, hrest⟩ := Prog.executes_bind.mp h
  obtain ⟨hfile, ⟨hlocked, hgains⟩ | ⟨hlocked, hsame⟩⟩ := tryLock_executes htry
  · rw [if_pos hlocked] at hrest
    obtain ⟨rfl, rfl⟩ := hrest
    exact ⟨hfile, hlocked, hgains⟩
  rw [hlocked, if_neg Bool.false_ne_true] at hrest
  obtain ⟨made, s₂, hdir, hrest⟩ := Prog.executes_bind.mp hrest
  have hsame₂ := hsame.trans (same_of_dirCalls (checkDir_calls lock_dir) hdir)
  cases made with
  | false =>
      rw [if_neg Bool.false_ne_true] at hrest
      obtain ⟨_, s₃, hdestroy, rfl, rfl⟩ := Prog.executes_bind.mp hrest
      have heq := destroy_executes_unlocked hlocked hdestroy
      subst heq
      exact ⟨hsame₂.files, hsame₂.otherError⟩
  | true =>
      rw [if_pos rfl] at hrest
      obtain ⟨filelock', s₃, htry', hrest⟩ := Prog.executes_bind.mp hrest
      obtain ⟨hfile', ⟨hlocked', hgains⟩ | ⟨hlocked', hsame₃⟩⟩ := tryLock_executes htry'
      · rw [if_pos hlocked'] at hrest
        obtain ⟨rfl, rfl⟩ := hrest
        rw [hfile] at hgains
        exact ⟨hfile'.trans hfile, hlocked', hgains.of_same hsame₂⟩
      · rw [hlocked', if_neg Bool.false_ne_true] at hrest
        simp only [Prog.op_bind, Prog.executes_call] at hrest
        obtain ⟨_, s₄, hinc, hrest⟩ := hrest
        obtain ⟨_, s₅, hdestroy, rfl, rfl⟩ := Prog.executes_bind.mp hrest
        have heq := destroy_executes_unlocked hlocked' hdestroy
        subst heq hinc
        have hall := hsame₂.trans hsame₃
        exact ⟨hall.files, hall.otherError⟩

/-- What the rest of a pass leaves, when it starts with the lock. -/
def PlacesOne (s s' : LockState) (lock_file : Bytes) : PlaceStep → Prop
  | .null => s'.files = s.files.erase lock_file ∧ s'.otherError = s.otherError
  | .again =>
      s'.files = s.files.erase lock_file ∧ s'.otherError = s.otherError ∨
        s'.files = s.files ∧ s'.otherError = true
  | .placed _ _ => s.Same s'

/-- `CreateBundle` leaves the locks.
SOURCE: bundle.cc:414-454 -/
theorem createBundle_executes {file : Bytes} {created : Bool}
    (h : (createBundle file).Executes LockState.Sem s created s') : s.Same s' := by
  unfold createBundle at h
  obtain ⟨fd, s₁, hopen, hrest⟩ := h
  cases fd with
  | none =>
      obtain ⟨-, rfl⟩ := hrest
      exact Other.same hopen
  | some fd =>
      obtain ⟨now_str, s₂, htime, ret, s₃, hwrite, _, s₄, hclose, -, rfl⟩ := hrest
      exact (Other.same hopen).trans <| (Other.same htime).trans <|
        (Other.same hwrite).trans (Other.same hclose)

/-- What the second half of a pass does, after steps that leave the locks. -/
theorem PlacesOne.of_same {s₁ : LockState} {lock_file : Bytes} {step : PlaceStep}
    (hsame : s.Same s₁) (h : PlacesOne s₁ s' lock_file step) : PlacesOne s s' lock_file step := by
  cases step with
  | null => exact ⟨hsame.files ▸ h.1, h.2.trans hsame.otherError⟩
  | again =>
      rcases h with ⟨hfiles, hother⟩ | ⟨hfiles, hother⟩
      · exact .inl ⟨hsame.files ▸ hfiles, hother.trans hsame.otherError⟩
      · exact .inr ⟨hfiles.trans hsame.files, hother⟩
  | placed file offset => exact hsame.trans h

variable {filelock : FileLock}

/-- A pass that gives up with NULL has given up its lock. -/
theorem destroy_null_executes {step : PlaceStep} (hlocked : filelock.locked_ = true)
    (hmem : filelock.lockfile_ ∈ s.files)
    (h : (filelock.destroy >>= fun _ => (pure .null : Sys PlaceStep)).Executes
      LockState.Sem s step s') : PlacesOne s s' filelock.lockfile_ step := by
  obtain ⟨_, s₁, hdestroy, rfl, rfl⟩ := Prog.executes_bind.mp h
  exact destroy_executes_locked hlocked hmem hdestroy

/-- The making of a bundle keeps the lock, or gives it up with NULL.
SOURCE: bundle.cc:518-539 -/
theorem createMissing_executes {file : Bytes} {step : PlaceStep}
    (hlocked : filelock.locked_ = true) (hmem : filelock.lockfile_ ∈ s.files)
    (h : (createMissing file filelock).Executes LockState.Sem s step s') :
    PlacesOne s s' filelock.lockfile_ step := by
  unfold createMissing at h
  obtain ⟨made, s₁, hdir, hrest⟩ := Prog.executes_bind.mp h
  have hsame := same_of_dirCalls (checkDir_calls _) hdir
  cases made with
  | false =>
      rw [← hsame.files] at hmem
      exact (destroy_null_executes hlocked hmem hrest).of_same hsame
  | true =>
      rw [if_pos rfl] at hrest
      obtain ⟨created, s₂, hcreate, hrest⟩ := Prog.executes_bind.mp hrest
      have hsame₂ := hsame.trans (createBundle_executes hcreate)
      cases created with
      | false =>
          rw [← hsame₂.files] at hmem
          exact (destroy_null_executes hlocked hmem hrest).of_same hsame₂
      | true =>
          obtain ⟨rfl, rfl⟩ := hrest
          exact hsame₂

/-- The bundle is full: the next id, and the lock goes. -/
theorem giveUp_executes {step : PlaceStep} (hlocked : filelock.locked_ = true)
    (hmem : filelock.lockfile_ ∈ s.files)
    (h : (Sys.incLastId >>= fun _ => filelock.destroy >>= fun _ =>
      (pure .again : Sys PlaceStep)).Executes LockState.Sem s step s') :
    PlacesOne s s' filelock.lockfile_ step := by
  simp only [Prog.op_bind, Prog.executes_call] at h
  obtain ⟨_, s₁, rfl, hrest⟩ := h
  obtain ⟨_, s₂, hdestroy, rfl, rfl⟩ := Prog.executes_bind.mp hrest
  exact .inl (destroy_executes_locked (s := { s with lastId := int32 (s.lastId + 1) }) hlocked
    hmem hdestroy)

/-- The second half of a pass keeps the lock of a writer and gives up every other, but for the error
of `lstat`.
SOURCE: bundle.cc:504-550 -/
theorem checkBundle_executes {setting : Setting} {size : ℕ} {file : Bytes} {step : PlaceStep}
    (hlocked : filelock.locked_ = true) (hmem : filelock.lockfile_ ∈ s.files)
    (h : (checkBundle setting size file filelock).Executes LockState.Sem s step s') :
    PlacesOne s s' filelock.lockfile_ step := by
  unfold checkBundle at h
  simp only [Prog.op_bind, Prog.executes_call] at h
  obtain ⟨stat, s₁, hstat, hrest⟩ := h
  cases stat with
  | some st_size =>
      have hsame : s.Same s₁ := Other.same hstat
      rw [← hsame.files] at hmem
      by_cases hfull : exceeds setting size (some st_size)
      · rw [if_pos hfull] at hrest
        exact (giveUp_executes hlocked hmem hrest).of_same hsame
      · rw [if_neg hfull] at hrest
        obtain ⟨_, s₂, ⟨-, rfl⟩, rfl, rfl⟩ := hrest
        exact hsame
  | none =>
      rw [if_neg (show ¬ exceeds setting size none from id)] at hrest
      obtain ⟨stat_errno, s₂, ⟨herrno, rfl⟩, hrest⟩ := hrest
      obtain ⟨e, rfl⟩ := hstat
      have he : stat_errno = e := herrno
      subst stat_errno
      dsimp only at hrest
      by_cases hnoent : e = ENOENT
      · -- there is no bundle, and nothing is noted
        rw [if_pos hnoent] at hrest
        have hsame : s.Same
            { s with errno := e, otherError := s.otherError || decide (e ≠ ENOENT) } :=
          ⟨rfl, rfl, by simp [hnoent]⟩
        rw [← hsame.files] at hmem
        exact (createMissing_executes hlocked hmem hrest).of_same hsame
      · -- the branch that keeps its lock
        rw [if_neg hnoent] at hrest
        obtain ⟨_, s₃, rfl, rfl, rfl⟩ := hrest
        exact .inr ⟨rfl, by simp [hnoent]⟩

end Parts

/-! ## The passes -/

section Passes

variable {setting : Setting} {call : AllocateCall} {s s' : LockState}

/-- What comes before the loop leaves the locks.
SOURCE: bundle.cc:459-471 -/
theorem same_of_enterAllocate (h : enterAllocate.Executes LockState.Sem s () s') :
    s'.files = s.files ∧ s'.otherError = s.otherError := by
  unfold enterAllocate at h
  simp only [Prog.op_bind, Prog.executes_call] at h
  obtain ⟨id, s₁, ⟨rfl, rfl⟩, hrest⟩ := h
  split at hrest
  · obtain ⟨pid, s₂, ⟨e, rfl⟩, _, s₃, rfl, -, rfl⟩ := hrest
    exact ⟨rfl, rfl⟩
  · obtain ⟨-, rfl⟩ := hrest
    exact ⟨rfl, rfl⟩

/-- The draw of an id leaves the locks.
SOURCE: bundle.cc:473-477 -/
theorem same_of_chooseId {loop_count : ℤ}
    (h : (chooseId setting loop_count).Executes LockState.Sem s () s') :
    s'.files = s.files ∧ s'.otherError = s.otherError := by
  unfold chooseId at h
  split at h
  · obtain ⟨r, s₁, ⟨e, rfl⟩, _, s₂, rfl, -, rfl⟩ := h
    exact ⟨rfl, rfl⟩
  · obtain ⟨-, rfl⟩ := h
    exact ⟨rfl, rfl⟩

/-- The writer owns the one lock file that is new: the one of its id. -/
structure OwnsNew (lock_dir : Bytes) (files files' : Finset Bytes) (w : Writer) : Prop where
  lock : ∃ filelock, w.filelock_ = some filelock ∧ filelock.locked_ = true ∧
    filelock.lockfile_ = lockFile lock_dir w.info_.id
  free : lockFile lock_dir w.info_.id ∉ files
  files : files' = insert (lockFile lock_dir w.info_.id) files

/-- What a pass leaves. The second case of `again` is the branch that keeps its lock. -/
def PassLeaves (call : AllocateCall) (s s' : LockState) : Pass → Prop
  | .null => s'.files = s.files ∧ s'.otherError = s.otherError
  | .again =>
      s'.files = s.files ∧ s'.otherError = s.otherError ∨
        (∃ p, p ∉ s.files ∧ s'.files = insert p s.files) ∧ s'.otherError = true
  | .writer w => OwnsNew call.lockDir s.files s'.files w ∧ s'.otherError = s.otherError

/-- A pass leaves the locks as its end says.
SOURCE: bundle.cc:472-569 -/
theorem allocatePass_executes {loop_count : ℤ} {pass : Pass}
    (h : (allocatePass setting call loop_count).Executes LockState.Sem s pass s') :
    PassLeaves call s s' pass := by
  unfold allocatePass lockBundle placeBundle at h
  obtain ⟨_, s₀, hchoose, hrest⟩ := Prog.executes_bind.mp h
  obtain ⟨hfiles, hother⟩ := same_of_chooseId hchoose
  simp only [PassLeaves, ← hfiles, ← hother]
  obtain ⟨step, s₁, hlock, hrest⟩ := Prog.executes_bind.mp hrest
  simp only [Prog.op_bind, Prog.executes_call] at hlock
  obtain ⟨id, s, ⟨rfl, rfl⟩, hlock⟩ := hlock
  have hone := lockOrMakeDir_executes hlock
  cases step with
  | null =>
      obtain ⟨rfl, rfl⟩ := hrest
      exact hone
  | again =>
      obtain ⟨rfl, rfl⟩ := hrest
      exact .inl hone
  | locked filelock =>
      obtain ⟨hlockfile, hlocked, hgains⟩ := hone
      have hmem := hgains.mem
      rw [← hlockfile] at hmem
      obtain ⟨place, s₂, hplace, hrest⟩ := Prog.executes_bind.mp hrest
      simp only [Prog.op_bind, Prog.executes_call] at hplace
      obtain ⟨id', s₁, ⟨rfl, rfl⟩, hplace⟩ := hplace
      have hplaces := checkBundle_executes hlocked hmem hplace
      rw [hlockfile] at hplaces
      have herase : s₁.files.erase (lockFile call.lockDir s.lastId) = s.files := by
        rw [hgains.files, Finset.erase_insert hgains.free]
      cases place with
      | null =>
          obtain ⟨rfl, rfl⟩ := hrest
          exact ⟨hplaces.1.trans herase, hplaces.2.trans hgains.otherError⟩
      | again =>
          obtain ⟨rfl, rfl⟩ := hrest
          rcases hplaces with ⟨hgone, hsame⟩ | ⟨hkept, htrue⟩
          · exact .inl ⟨hgone.trans herase, hsame.trans hgains.otherError⟩
          · exact .inr ⟨⟨_, hgains.free, hkept.trans hgains.files⟩, htrue⟩
      | placed bundle_file offset =>
          simp only [Prog.op_bind, Prog.executes_call] at hrest
          obtain ⟨infoId, s₂, ⟨rfl, rfl⟩, rfl, rfl⟩ := hrest
          have hall := hgains.same hplaces
          have hid : lockFile call.lockDir s'.lastId = lockFile call.lockDir s.lastId := by
            rw [hall.lastId]
          refine ⟨⟨⟨filelock, rfl, hlocked, hlockfile.trans hid.symm⟩, ?_, ?_⟩, hall.otherError⟩
          · show lockFile call.lockDir s'.lastId ∉ s.files
            rw [hid]
            exact hall.free
          · show s'.files = insert (lockFile call.lockDir s'.lastId) s.files
            rw [hid]
            exact hall.files

/-- Between two passes: locks have been left behind where an `lstat` has failed. -/
structure LeftBehind (files : Finset Bytes) (s : LockState) : Prop where
  subset : files ⊆ s.files
  iff : s.files = files ↔ s.otherError = false

/-- What is asked of a call: the lock files are those from before, with the one of the
returned writer. -/
def LockFrame (call : AllocateCall) (files files' : Finset Bytes) : Option Writer → Prop
  | none => files' = files
  | some w => OwnsNew call.lockDir files files' w

/-- What is left behind after a pass that goes on. -/
theorem LeftBehind.next {files : Finset Bytes} (hs : LeftBehind files s)
    (h : PassLeaves call s s' .again) : LeftBehind files s' := by
  rcases h with ⟨hfiles, hother⟩ | ⟨⟨p, hfree, hfiles⟩, htrue⟩
  · constructor
    · rw [hfiles]
      exact hs.subset
    · rw [hfiles, hother]
      exact hs.iff
  · constructor
    · rw [hfiles]
      exact hs.subset.trans (Finset.subset_insert p s.files)
    · have hne : s'.files ≠ files := by
        intro heq
        have hp : p ∈ s'.files := by
          rw [hfiles]
          exact Finset.mem_insert_self p s.files
        rw [heq] at hp
        exact hfree (hs.subset hp)
      simp [hne, htrue]

/-- What a call leaves that returns: locks that have been left behind on the way, and the
lock of the writer. -/
def CallLeaves (call : AllocateCall) (files : Finset Bytes) (s' : LockState) :
    Option Writer → Prop
  | none => LeftBehind files s'
  | some w => ∃ s, LeftBehind files s ∧ OwnsNew call.lockDir s.files s'.files w ∧
      s'.otherError = s.otherError

/-- What is left behind after a pass that ends with NULL. -/
theorem LeftBehind.null {files : Finset Bytes} (hs : LeftBehind files s)
    (h : PassLeaves call s s' .null) : CallLeaves call files s' none := by
  constructor
  · rw [h.1]
    exact hs.subset
  · rw [h.1, h.2]
    exact hs.iff

/-- The locks of other ids that were left behind are all that is too much. -/
theorem CallLeaves.lockFrame_iff {files : Finset Bytes} {result : Option Writer}
    (h : CallLeaves call files s' result) :
    LockFrame call files s'.files result ↔ s'.otherError = false := by
  cases result with
  | none => exact h.iff
  | some w =>
      obtain ⟨s, hs, ⟨hlock, hfree, hfiles⟩, hother⟩ := h
      have hfree' := Finset.notMem_mono hs.subset hfree
      rw [hother, ← hs.iff]
      constructor
      · intro hframe
        have heq := hfiles.symm.trans hframe.files
        rw [← Finset.erase_insert hfree, heq, Finset.erase_insert hfree']
      · intro heq
        exact ⟨hlock, hfree', by rw [hfiles, heq]⟩

/-- A call that returns, where locks have been left behind before. -/
theorem allocate_executes {rounds : ℕ} {files : Finset Bytes} {result : Option Writer}
    (hs : LeftBehind files s)
    (h : (allocate setting call rounds).Executes LockState.Sem s (some result) s') :
    CallLeaves call files s' result := by
  unfold allocate at h
  obtain ⟨_, s₁, henter, hloop⟩ := Prog.executes_bind.mp h
  obtain ⟨hfiles, hother⟩ := same_of_enterAllocate henter
  have hstart : LeftBehind files s₁ := by
    constructor
    · rw [hfiles]
      exact hs.subset
    · rw [hfiles, hother]
      exact hs.iff
  refine hloop.attempts (I := fun _ => LeftBehind files)
    (Q := fun result s => CallLeaves call files s result) ?_ ?_ hstart
  · intro count s count' s' hs hround
    obtain ⟨pass, s₂, hpass, hend⟩ := Prog.executes_bind.mp hround
    have hleaves := allocatePass_executes hpass
    cases pass with
    | again =>
        obtain ⟨-, rfl⟩ := hend
        exact hs.next hleaves
    | null => exact absurd hend.1 (by simp)
    | writer w => exact absurd hend.1 (by simp)
  · intro count s result s' hs hround
    obtain ⟨pass, s₂, hpass, hend⟩ := Prog.executes_bind.mp hround
    have hleaves := allocatePass_executes hpass
    cases pass with
    | again => exact absurd hend.1 (by simp)
    | null =>
        obtain ⟨hr, rfl⟩ := hend
        cases hr
        exact hs.null hleaves
    | writer w =>
        obtain ⟨hr, rfl⟩ := hend
        cases hr
        exact ⟨s, hs, hleaves⟩

/-- Before any call nothing is left behind. -/
theorem leftBehind_start (files : Finset Bytes) (lastId : ℤ) (errno : ℕ) :
    LeftBehind files { files, lastId, errno } := by
  constructor
  · exact Finset.Subset.refl files
  · simp

/-- A call that returns keeps the frame of its lock files if and only if none of its
`lstat`s has failed for another reason than that there was no bundle.
SOURCE: bundle.cc:456-572, filelock.h:31-88 -/
theorem lock_frame_iff {rounds : ℕ} {files : Finset Bytes} {lastId : ℤ} {errno : ℕ}
    {result : Option Writer}
    (h : (allocate setting call rounds).Executes LockState.Sem { files, lastId, errno }
      (some result) s') :
    LockFrame call files s'.files result ↔ s'.otherError = false :=
  (allocate_executes (leftBehind_start files lastId errno) h).lockFrame_iff

end Passes

/-! ## Two calls -/

/-- Surroundings where only `lstat` fails, with what it is told for each path. -/
def LockState.answer (stat : Bytes → Except ℕ ℕ) :
    Prog.Handler SysCall SysCall.Answer LockState
  | .openExcl p, s =>
      if p ∈ s.files then (none, s)
      else (some ⟨[], 0⟩, { s with files := insert p s.files })
  | .unlink p, s =>
      if p ∈ s.files then (true, { s with files := s.files.erase p }) else (false, s)
  | .lstat p, s =>
      match stat p with
      | .ok size => (some size, s)
      | .error e =>
          (none, { s with errno := e, otherError := s.otherError || decide (e ≠ ENOENT) })
  | .openTrunc _, s | .openRdwr _, s => (some ⟨[], 0⟩, s)
  | .lseek fd offset, s => ((offset, { fd with pos := offset }), s)
  | .write _ _ data, s => ((data.length : ℤ), s)
  | .close _, s => ((), s)
  | .access _, s => (true, s)
  | .mkdir _, s => (true, s)
  | .errno, s => (s.errno, s)
  | .newChars n, s => (List.replicate n 0, s)
  | .rand, s | .getpid, s => ((0 : ℕ), s)
  | .localtime, s => (([] : Bytes), s)
  | .getLastId _, s => (s.lastId, s)
  | .setLastId id, s => ((), { s with lastId := id })
  | .incLastId, s => ((), { s with lastId := int32 (s.lastId + 1) })
  | .completed _ _ _, s => ((), s)

/-- The answers of the examples are answers that may be given. -/
theorem LockState.answer_sem (stat : Bytes → Except ℕ ℕ) (o : SysCall) (s : LockState) :
    Sem o s (answer stat o s).1 (answer stat o s).2 := by
  cases o with
  | openExcl p =>
      simp only [answer]
      split
      · exact ⟨s.errno, rfl⟩
      · exact ⟨‹_›, s.errno, rfl⟩
  | unlink p =>
      simp only [answer]
      split
      · exact ⟨‹_›, s.errno, rfl⟩
      · exact ⟨‹_›, s.errno, rfl⟩
  | lstat p =>
      simp only [answer]
      split
      · exact ⟨s.errno, rfl⟩
      · exact ⟨_, rfl⟩
  | errno => exact ⟨rfl, rfl⟩
  | getLastId site => exact ⟨rfl, rfl⟩
  | setLastId id => rfl
  | incLastId => rfl
  | _ => exact ⟨s.errno, rfl⟩

/-- An upload for which no lock directory is named. -/
def photoCall : AllocateCall where
  prefix_ := Text.ascii "p"
  postfix_ := Text.ascii ".jpg"
  size := 3
  storage := Text.ascii "s"

/-- An allocation of the examples that ends is an execution. -/
theorem LockState.exists_executes (stat : Bytes → Except ℕ ℕ) (rounds : ℕ) (s : LockState)
    (h : ((allocate defaultSetting photoCall rounds).run (answer stat) s).1.isSome = true) :
    ∃ result, (allocate defaultSetting photoCall rounds).Executes LockState.Sem s (some result)
      ((allocate defaultSetting photoCall rounds).run (answer stat) s).2 := by
  obtain ⟨result, hresult⟩ := Option.isSome_iff_exists.mp h
  refine ⟨result, ?_⟩
  rw [← hresult]
  exact Prog.executes_run_of_sem (answer_sem stat) _ s

/-- Another process holds the lock of id 3, and id 4 has a bundle. -/
theorem lock_frame_four :
    ∃ result s', (allocate defaultSetting photoCall 2).Executes LockState.Sem
        { files := {Text.ascii "s/.lock/3"}, lastId := 3, errno := 0 } (some result) s' ∧
      LockFrame photoCall {Text.ascii "s/.lock/3"} s'.files result := by
  obtain ⟨result, h⟩ := LockState.exists_executes (fun _ => .ok 1024) 2
    { files := {Text.ascii "s/.lock/3"}, lastId := 3, errno := 0 } (by decide +kernel)
  exact ⟨result, _, h, (lock_frame_iff h).mpr (by decide +kernel)⟩

/-- The `lstat` of bundle 3 fails with `EACCES`: its lock file is there when the writer
of id 4 is returned. -/
theorem not_lock_frame :
    ¬ ∀ setting call rounds files lastId errno result s',
      (allocate setting call rounds).Executes LockState.Sem { files, lastId, errno }
        (some result) s' → LockFrame call files s'.files result := by
  intro h
  let stat (path : Bytes) : Except ℕ ℕ :=
    if path = Text.ascii "s/p/00000000/00000003" then .error EACCES else .ok 1024
  obtain ⟨result, hrun⟩ := LockState.exists_executes stat 2
    { files := ∅, lastId := 3, errno := 0 } (by decide +kernel)
  have hframe := h _ _ _ _ _ _ _ _ hrun
  have hfiles : ((allocate defaultSetting photoCall 2).run (LockState.answer stat)
      { files := ∅, lastId := 3, errno := 0 }).2.files =
      {Text.ascii "s/.lock/3", Text.ascii "s/.lock/4"} := by
    decide +kernel
  rw [hfiles] at hframe
  cases result with
  | none => exact absurd hframe (by simp [LockFrame])
  | some w =>
      have hcard := congrArg Finset.card hframe.files
      rw [Finset.card_insert_of_notMem hframe.free] at hcard
      revert hcard
      decide

end BundleStore
