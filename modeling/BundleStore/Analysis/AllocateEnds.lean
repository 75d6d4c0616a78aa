import BundleStore.Model.StaticDisk

set_option autoImplicit false

/-!
# When `Allocate` comes to an end

On a disk that nobody else changes a pass that takes no bundle comes back to the loop for one of
three reasons: the lock file cannot be created, the bundle is full, or `lstat` fails. When every id
in turn has one of them, the loop has no end.
-/

namespace BundleStore

open Machine Posix

namespace StaticDisk

/-! ## The ids in turn -/

/-- The id of a pass, and how many random numbers have been drawn. -/
def choose (d : StaticDisk) (count loop_count : ℤ) (c : ℤ × ℕ) : ℤ × ℕ :=
  if loop_count > count then (int32 (count + (d.rand c.2 % 100 : ℕ)), c.2 + 1) else c

/-- What `last_id_` is before a pass, from the first one on. -/
def before (d : StaticDisk) (count first : ℤ) : ℕ → ℤ × ℕ
  | 0 => (first, 0)
  | n + 1 =>
      let c := d.choose count (n + 1) (d.before count first n)
      (int32 (c.1 + 1), c.2)

/-- The ids that are tried, one after the other: from the first one on, and after
`bundle_count_per_day` passes at random. -/
def candidate (d : StaticDisk) (count first : ℤ) (n : ℕ) : ℤ × ℕ :=
  d.choose count (n + 1) (d.before count first n)

/-- The id that the first pass begins with. -/
def firstId (d : StaticDisk) (w : World Unit Unit) : ℤ :=
  if w.lastId () = -1 then (d.pid % 10 : ℕ) else w.lastId ()

/-- Why a pass takes no bundle and does not return, and the tree it leaves. -/
inductive PassedOver (d : StaticDisk) (setting : Setting) (call : AllocateCall) (id : ℤ)
    (t : Tree) : Tree → Prop
  /-- The lock file cannot be created, although its directory is there. -/
  | locked {t' : Tree} :
      d.lockAt call.lockDir (lockFile call.lockDir id) t = some (false, t') →
      PassedOver d setting call id t t'
  /-- The bundle has no room for the record. -/
  | full {t' : Tree} {size : ℕ} :
      d.lockAt call.lockDir (lockFile call.lockDir id) t = some (true, t') →
      d.bundleSize t' (bundleFile setting call.storage call.bundlePrefix id) = .ok size →
      exceeds setting call.size (some size) →
      PassedOver d setting call id t (d.removed t' (lockFile call.lockDir id))
  /-- `lstat` fails, but not because there is no bundle. The lock stays. -/
  | unknown {t' : Tree} {e : ℕ} :
      d.lockAt call.lockDir (lockFile call.lockDir id) t = some (true, t') →
      d.bundleSize t' (bundleFile setting call.storage call.bundlePrefix id) = .error e →
      e ≠ ENOENT → PassedOver d setting call id t t'

/-- Every id in turn is passed over. -/
def Starves (d : StaticDisk) (setting : Setting) (call : AllocateCall) (w : World Unit Unit) :
    Prop :=
  ∃ trees : ℕ → Tree, trees 0 = w.tree ∧ ∀ n,
    PassedOver d setting call (d.candidate setting.bundle_count_per_day (d.firstId w) n).1
      (trees n) (trees (n + 1))

/-- `Allocate` returns after a number of passes. -/
def Ends (d : StaticDisk) (setting : Setting) (call : AllocateCall) (w : World Unit Unit) : Prop :=
  ∃ rounds, ((allocate setting call rounds).run d.serve (w, 0)).1 ≠ none

/-! ## What the calls answer -/

variable {d : StaticDisk}

/-- A call that the disk refuses fails with the error it gives. -/
theorem answered_refused {o : SysCall} {a : o.Answer} {e : ℕ} (hfail : o.failure = some a)
    (h : d.refuse o = some e) (s : State) :
    d.answered o s = (a, (s.1.setErrno () e, s.2)) := by
  unfold answered
  rw [hfail, h]

/-- A call that the disk does not refuse is carried out on the tree. -/
theorem answered_tree {o : SysCall} (h : o.failure = none ∨ d.refuse o = none) (s : State) :
    d.answered o s = ((World.serve d.cwd id d.surroundings () o s.1).1,
      ((World.serve d.cwd id d.surroundings () o s.1).2, s.2)) := by
  unfold answered
  rcases h with h | h
  · rw [h]
  · rw [h]
    cases o.failure with
    | none => rfl
    | some a => rfl

/-- What the disk answers to the making of a lock file. -/
theorem serve_openExcl (p : Bytes) (s : State) :
    d.serve (.openExcl p) s =
      match d.excl s.1.tree p with
      | .ok r => (some r.1, ((s.1.setTree r.2).setHolds () r.1.loc true, s.2))
      | .error e => (none, (s.1.setErrno () e, s.2)) := by
  show d.answered (.openExcl p) s = _
  unfold excl onTree
  cases h : d.refuse (.openExcl p) with
  | some e => exact answered_refused rfl h s
  | none =>
      rw [answered_tree (.inr h)]
      simp only [World.serve, World.answer]
      cases s.1.tree.openExcl d.cwd p with
      | ok r => rfl
      | error e => rfl

/-- What the disk answers to `access`. -/
theorem serve_access (p : Bytes) (s : State) :
    d.serve (.access p) s =
      match d.onTree (.access p) (s.1.tree.stat d.cwd p) with
      | .ok _ => (true, s)
      | .error e => (false, (s.1.setErrno () e, s.2)) := by
  show d.answered (.access p) s = _
  unfold onTree
  cases h : d.refuse (.access p) with
  | some e => exact answered_refused rfl h s
  | none =>
      rw [answered_tree (.inr h)]
      simp only [World.serve, World.answer]
      cases s.1.tree.stat d.cwd p with
      | ok r => rfl
      | error e => rfl

/-- What the disk answers to `mkdir`. -/
theorem serve_mkdir (p : Bytes) (s : State) :
    d.serve (.mkdir p) s =
      match d.makeDir s.1.tree p with
      | .ok t => (true, (s.1.setTree t, s.2))
      | .error e => (false, (s.1.setErrno () e, s.2)) := by
  show d.answered (.mkdir p) s = _
  unfold makeDir onTree
  cases h : d.refuse (.mkdir p) with
  | some e => exact answered_refused rfl h s
  | none =>
      rw [answered_tree (.inr h)]
      simp only [World.serve, World.answer]
      cases s.1.tree.mkdir d.cwd p with
      | ok r => rfl
      | error e => rfl

/-- What the disk answers to `lstat` on a bundle. -/
theorem serve_lstat (p : Bytes) (s : State) :
    d.serve (.lstat p) s =
      match d.bundleSize s.1.tree p with
      | .ok size => (some size, s)
      | .error e => (none, (s.1.setErrno () e, s.2)) := by
  show d.answered (.lstat p) s = _
  unfold bundleSize onTree
  cases h : d.refuse (.lstat p) with
  | some e => exact answered_refused rfl h s
  | none =>
      rw [answered_tree (.inr h)]
      simp only [World.serve, World.answer]
      cases s.1.tree.stat d.cwd p with
      | error e => rfl
      | ok n =>
          cases n with
          | dir => rfl
          | file c =>
              dsimp only
              split
              · rfl
              · rfl

/-- What the disk answers to `unlink`. -/
theorem serve_unlink (p : Bytes) (s : State) :
    ∃ removed w', d.serve (.unlink p) s = (removed, (w', s.2)) ∧
      w'.tree = d.removed s.1.tree p ∧ w'.lastId = s.1.lastId := by
  show ∃ removed w', d.answered (.unlink p) s = _ ∧ _
  unfold StaticDisk.removed onTree
  cases h : d.refuse (.unlink p) with
  | some e => exact ⟨_, _, answered_refused rfl h s, rfl, rfl⟩
  | none =>
      rw [answered_tree (.inr h)]
      simp only [World.serve, World.answer]
      cases s.1.tree.unlink d.cwd p with
      | ok r => exact ⟨_, _, rfl, rfl, rfl⟩
      | error e => exact ⟨_, _, rfl, rfl, rfl⟩

/-! ## Programs on the disk -/

/-- What the passes depend on. -/
def shown (s : State) : Tree × ℤ × ℕ :=
  (s.1.tree, s.1.lastId (), s.2)

/-- From every state that shows `v` the program returns `a`, in a state that shows `v'`. -/
def Leads {α : Type} (d : StaticDisk) (p : Sys α) (v : Tree × ℤ × ℕ) (a : α)
    (v' : Tree × ℤ × ℕ) : Prop :=
  ∀ s, shown s = v → ∃ s', p.run d.serve s = (a, s') ∧ shown s' = v'

variable {α β : Type} {v v₁ v' : Tree × ℤ × ℕ} {t t' : Tree} {c : ℤ × ℕ}

/-- A program that only returns leads nowhere. -/
theorem Leads.pure (a : α) : Leads d (pure a) v a v :=
  fun s hs => ⟨s, rfl, hs⟩

/-- Programs that lead on lead on together. -/
theorem Leads.bind {p : Sys α} {f : α → Sys β} {a : α} {b : β} (hp : Leads d p v a v₁)
    (hf : Leads d (f a) v₁ b v') : Leads d (p >>= f) v b v' := by
  intro s hs
  obtain ⟨s₁, hrun, hs₁⟩ := hp s hs
  rw [Prog.run_bind, hrun]
  exact hf s₁ hs₁

/-- A run of two programs is the run of the second where the first has led. -/
theorem Leads.run_bind {p : Sys α} {f : α → Sys β} {a : α} {s : State} (hp : Leads d p v a v₁)
    (hs : shown s = v) :
    ∃ s₁, shown s₁ = v₁ ∧ (p >>= f).run d.serve s = (f a).run d.serve s₁ := by
  obtain ⟨s₁, hrun, hs₁⟩ := hp s hs
  exact ⟨s₁, hs₁, by rw [Prog.run_bind, hrun]⟩

/-- A lock file that can be made is made. -/
theorem leads_openExcl_ok {p : Bytes} {r : Fd × Tree} (h : d.excl t p = .ok r) :
    Leads d (Sys.openExcl p) (t, c) (some r.1) (r.2, c) := by
  rintro s hs
  obtain ⟨rfl, rfl⟩ := Prod.mk.inj hs
  refine ⟨((s.1.setTree r.2).setHolds () r.1.loc true, s.2), ?_, rfl⟩
  show d.serve (.openExcl p) s = _
  rw [serve_openExcl, h]

/-- A lock file that cannot be made is not made. -/
theorem leads_openExcl_error {p : Bytes} {e : ℕ} (h : d.excl t p = .error e) :
    Leads d (Sys.openExcl p) (t, c) none (t, c) := by
  rintro s hs
  obtain ⟨rfl, rfl⟩ := Prod.mk.inj hs
  refine ⟨(s.1.setErrno () e, s.2), ?_, rfl⟩
  show d.serve (.openExcl p) s = _
  rw [serve_openExcl, h]

/-- A `close` leads nowhere. -/
theorem leads_close (fd : Fd) : Leads d (Sys.close fd) v () v :=
  fun s hs => ⟨s, rfl, hs⟩

/-- The counter of ids goes on by one, as an `int`. -/
theorem leads_incLastId : Leads d Sys.incLastId (t, c) () (t, int32 (c.1 + 1), c.2) := by
  rintro s hs
  obtain ⟨rfl, rfl⟩ := Prod.mk.inj hs
  refine ⟨(s.1.setLastId id () (int32 (s.1.lastId () + 1)), s.2), rfl, ?_⟩
  simp [shown, World.setLastId]

/-- The counter of ids is read as it is. -/
theorem leads_getLastId (site : LastIdSite) : Leads d (Sys.getLastId site) (t, c) c.1 (t, c) := by
  rintro s hs
  obtain ⟨rfl, rfl⟩ := Prod.mk.inj hs
  refine ⟨(s.1.readLastId () site (s.1.lastId ()), s.2), rfl, ?_⟩
  simp only [shown, World.readLastId]
  split
  · rfl
  · rfl

/-- A lock is got if its file can be made.
SOURCE: filelock.h:72-84 -/
theorem leads_lockName_ok {p : Bytes} {r : Fd × Tree} (h : d.excl t p = .ok r) :
    Leads d (FileLock.lockName p) (t, c) true (r.2, c) :=
  (leads_openExcl_ok h).bind ((leads_close r.1).bind (Leads.pure true))

/-- A lock is not got if its file cannot be made.
SOURCE: filelock.h:72-84 -/
theorem leads_lockName_error {p : Bytes} {e : ℕ} (h : d.excl t p = .error e) :
    Leads d (FileLock.lockName p) (t, c) false (t, c) :=
  (leads_openExcl_error h).bind (Leads.pure false)

/-- The destructor of an object that holds its lock takes the lock file away.
SOURCE: filelock.h:31-35 -/
theorem leads_destroy {self : FileLock} (h : self.locked_ = true) :
    Leads d self.destroy (t, c) () (d.removed t self.lockfile_, c) := by
  have hunlock : Leads d (do
      let _ ← FileLock.unlockName self.lockfile_
      pure ()) (t, c) () (d.removed t self.lockfile_, c) := by
    rintro s hs
    obtain ⟨rfl, rfl⟩ := Prod.mk.inj hs
    obtain ⟨removed, w', hserve, htree, hid⟩ := serve_unlink (d := d) self.lockfile_ s
    refine ⟨(w', s.2), ?_, ?_⟩
    · show ((), (d.serve (.unlink self.lockfile_) s).2) = _
      rw [hserve]
    · rw [shown, htree, hid]
  unfold FileLock.destroy FileLock.unlock
  rwa [if_pos h, if_pos h]

/-- After a failure `errno` is the error of it. -/
theorem run_errno (e : ℕ) (s : State) :
    Sys.errno.run d.serve (s.1.setErrno () e, s.2) = (e, (s.1.setErrno () e, s.2)) := by
  show (Function.update s.1.errno () e (), _) = _
  rw [Function.update_self]
  rfl

/-- `mkdirs` makes the directories that the disk lets it make.
SOURCE: mkdirs.cc:23-90 -/
theorem leads_mkdirsFrom (ps : List Bytes) (t : Tree) :
    Leads d (mkdirsFrom ps) (t, c) (d.makeDirs ps t).1 ((d.makeDirs ps t).2, c) := by
  induction ps generalizing t with
  | nil => exact Leads.pure true
  | cons p ps ih =>
      rintro s hs
      obtain ⟨rfl, rfl⟩ := Prod.mk.inj hs
      have hrun : (Sys.mkdir p).run d.serve s = _ := serve_mkdir p s
      rw [mkdirsFrom, makeDirs, Prog.run_bind, hrun]
      cases d.makeDir s.1.tree p with
      | ok t' => exact ih t' (s.1.setTree t', s.2) rfl
      | error e =>
          show ∃ s', Prog.run d.serve (Sys.errno >>= _) (s.1.setErrno () e, s.2) = _ ∧ _
          rw [Prog.run_bind, run_errno]
          dsimp only
          split
          · exact ih s.1.tree (s.1.setErrno () e, s.2) rfl
          · exact ⟨(s.1.setErrno () e, s.2), rfl, rfl⟩

/-- The directory of the locks is there, or is made, or cannot be.
SOURCE: bundle.cc:484-494 -/
theorem leads_checkDir (dir : Bytes) (t : Tree) :
    Leads d (checkDir dir) (t, c) (d.readyDir t dir).1 ((d.readyDir t dir).2, c) := by
  rintro s hs
  obtain ⟨rfl, rfl⟩ := Prod.mk.inj hs
  have hrun : (Sys.access dir).run d.serve s = _ := serve_access dir s
  rw [checkDir, readyDir, Prog.run_bind, hrun]
  cases d.onTree (.access dir) (s.1.tree.stat d.cwd dir) with
  | ok n => exact ⟨s, rfl, rfl⟩
  | error e => exact leads_mkdirsFrom _ s.1.tree (s.1.setErrno () e, s.2) rfl

/-! ## The lock -/

/-- The lock object of a pass. -/
def passLock (lock_file : Bytes) (locked : Bool) : FileLock :=
  { lockfile_ := lock_file, locked_ := locked }

/-- `TryLock` takes the lock if its file can be made. -/
theorem leads_tryLock_ok {lock_file : Bytes} {locked : Bool} {r : Fd × Tree}
    (h : d.excl t lock_file = .ok r) :
    Leads d (passLock lock_file locked).tryLock (t, c) (passLock lock_file true) (r.2, c) :=
  (leads_lockName_ok h).bind (Leads.pure _)

/-- `TryLock` does not take the lock if its file cannot be made. -/
theorem leads_tryLock_error {lock_file : Bytes} {locked : Bool} {e : ℕ}
    (h : d.excl t lock_file = .error e) :
    Leads d (passLock lock_file locked).tryLock (t, c) (passLock lock_file false) (t, c) :=
  (leads_lockName_error h).bind (Leads.pure _)

/-- The first part of a pass, as `lockAt` says. -/
theorem leads_lockOrMakeDir (lock_dir lock_file : Bytes) :
    match d.lockAt lock_dir lock_file t with
    | none => ∃ v', Leads d (lockOrMakeDir lock_dir lock_file) (t, c) .null v'
    | some (true, t') =>
        Leads d (lockOrMakeDir lock_dir lock_file) (t, c) (.locked (passLock lock_file true))
          (t', c)
    | some (false, t') =>
        Leads d (lockOrMakeDir lock_dir lock_file) (t, c) .again (t', int32 (c.1 + 1), c.2) := by
  unfold lockAt lockOrMakeDir
  cases hfirst : d.excl t lock_file with
  | ok r => exact (leads_tryLock_ok hfirst).bind (Leads.pure _)
  | error e =>
      have hdir := leads_checkDir (d := d) (c := c) lock_dir t
      generalize d.readyDir t lock_dir = ready at hdir ⊢
      obtain ⟨_ | _, t₁⟩ := ready
      · refine ⟨(t₁, c), Leads.bind (leads_tryLock_error hfirst) ?_⟩
        refine Leads.bind hdir ?_
        exact Leads.bind (Leads.pure ()) (Leads.pure _)
      · dsimp only
        cases hsecond : d.excl t₁ lock_file with
        | ok r =>
            refine Leads.bind (leads_tryLock_error hfirst) ?_
            refine Leads.bind hdir ?_
            refine Leads.bind (leads_tryLock_ok hsecond) ?_
            exact Leads.pure _
        | error e =>
            refine Leads.bind (leads_tryLock_error hfirst) ?_
            refine Leads.bind hdir ?_
            refine Leads.bind (leads_tryLock_error hsecond) ?_
            refine Leads.bind leads_incLastId ?_
            exact Leads.bind (Leads.pure ()) (Leads.pure _)

/-! ## The bundle -/

/-- A bundle that is made needs no further pass.
SOURCE: bundle.cc:518-539 -/
theorem createMissing_returns (bundle_file : Bytes) (filelock : FileLock) :
    (createMissing bundle_file filelock).Returns (· ≠ .again) := by
  unfold createMissing
  refine (Prog.returns_true _).bind fun made _ => Prog.Returns.ite (fun _ => ?_) fun _ => ?_
  · refine (Prog.returns_true _).bind fun created _ => Prog.Returns.ite (fun _ => ?_) fun _ => ?_
    · exact PlaceStep.noConfusion
    · exact (Prog.returns_true _).bind fun _ _ => PlaceStep.noConfusion
  · exact (Prog.returns_true _).bind fun _ _ => PlaceStep.noConfusion

/-- The second part of a pass, as `lstat` says. -/
theorem run_checkBundle (setting : Setting) (size : ℕ) (bundle_file lock_file : Bytes) :
    match d.bundleSize t bundle_file with
    | .ok st_size =>
        if exceeds setting size (some st_size) then
          Leads d (checkBundle setting size bundle_file (passLock lock_file true)) (t, c) .again
            (d.removed t lock_file, int32 (c.1 + 1), c.2)
        else
          Leads d (checkBundle setting size bundle_file (passLock lock_file true)) (t, c)
            (.placed bundle_file st_size) (t, c)
    | .error e =>
        if e = ENOENT then
          ∀ s, shown s = (t, c) →
            ((checkBundle setting size bundle_file (passLock lock_file true)).run d.serve s).1 ≠
              .again
        else
          Leads d (checkBundle setting size bundle_file (passLock lock_file true)) (t, c) .again
            (t, int32 (c.1 + 1), c.2) := by
  cases hsize : d.bundleSize t bundle_file with
  | ok st_size =>
      have hstat : Leads d (Sys.lstat bundle_file) (t, c) (some st_size) (t, c) := by
        rintro s hs
        obtain ⟨rfl, rfl⟩ := Prod.mk.inj hs
        exact ⟨s, (serve_lstat bundle_file s).trans (by rw [hsize]), rfl⟩
      dsimp only
      unfold checkBundle
      split
      · rename_i hexceeds
        refine Leads.bind hstat ?_
        rw [if_pos hexceeds]
        refine Leads.bind leads_incLastId ?_
        exact Leads.bind (leads_destroy rfl) (Leads.pure _)
      · rename_i hexceeds
        refine Leads.bind hstat ?_
        rw [if_neg hexceeds]
        intro s hs
        exact ⟨s, rfl, hs⟩
  | error e =>
      have hrun : ∀ s, shown s = (t, c) →
          (checkBundle setting size bundle_file (passLock lock_file true)).run d.serve s =
            (if e = ENOENT then createMissing bundle_file (passLock lock_file true)
              else do
                Sys.incLastId
                pure .again).run d.serve (s.1.setErrno () e, s.2) := by
        rintro s hs
        obtain ⟨rfl, rfl⟩ := Prod.mk.inj hs
        have hstat : (Sys.lstat bundle_file).run d.serve s =
            (none, (s.1.setErrno () e, s.2)) :=
          (serve_lstat bundle_file s).trans (by rw [hsize])
        unfold checkBundle
        rw [Prog.run_bind, hstat]
        dsimp only
        rw [if_neg (show ¬ exceeds setting size none from not_false), Prog.run_bind, run_errno]
      dsimp only
      split
      · rename_i hnone
        intro s hs
        rw [hrun s hs, if_pos hnone]
        exact (createMissing_returns _ _).run d.serve _
      · rename_i hother
        intro s hs
        rw [hrun s hs, if_neg hother]
        have hinc : Leads d (do
            Sys.incLastId
            pure PlaceStep.again) (t, c) .again (t, int32 (c.1 + 1), c.2) :=
          Leads.bind leads_incLastId (Leads.pure _)
        exact hinc (s.1.setErrno () e, s.2) hs

/-! ## A pass -/

/-- The draw of an id goes on as the disk's draws say.
SOURCE: bundle.cc:473-477 -/
theorem leads_chooseId (setting : Setting) (loop_count : ℤ) :
    Leads d (chooseId setting loop_count) (t, c) ()
      (t, d.choose setting.bundle_count_per_day loop_count c) := by
  unfold chooseId choose
  split
  · rintro s hs
    obtain ⟨rfl, rfl⟩ := Prod.mk.inj hs
    refine ⟨(s.1.setLastId id () (int32 (setting.bundle_count_per_day + (d.rand s.2 % 100 : ℕ))),
      s.2 + 1), rfl, ?_⟩
    simp [shown, World.setLastId]
  · exact Leads.pure ()

/-- A pass locks the bundle of the id it has drawn. -/
theorem leads_lockBundle {lock_dir : Bytes} {step : LockStep}
    (h : Leads d (lockOrMakeDir lock_dir (lockFile lock_dir c.1)) (t, c) step v') :
    Leads d (lockBundle lock_dir) (t, c) step v' :=
  Leads.bind (leads_getLastId _) h

/-- With the lock, the bundle decides. -/
theorem passedOver_locked {setting : Setting} {call : AllocateCall} {id : ℤ} {t₁ : Tree}
    (hat : d.lockAt call.lockDir (lockFile call.lockDir id) t = some (true, t₁)) :
    PassedOver d setting call id t t' ↔
      (∃ size,
        d.bundleSize t₁ (bundleFile setting call.storage call.bundlePrefix id) = .ok size ∧
        exceeds setting call.size (some size) ∧
        t' = d.removed t₁ (lockFile call.lockDir id)) ∨
      ∃ e, d.bundleSize t₁ (bundleFile setting call.storage call.bundlePrefix id) = .error e ∧
        e ≠ ENOENT ∧ t' = t₁ := by
  constructor
  · intro h
    cases h with
    | locked h => cases hat.symm.trans h
    | full h hsize hexceeds =>
        cases hat.symm.trans h
        exact .inl ⟨_, hsize, hexceeds, rfl⟩
    | unknown h hsize hother =>
        cases hat.symm.trans h
        exact .inr ⟨_, hsize, hother, rfl⟩
  · rintro (⟨size, hsize, hexceeds, rfl⟩ | ⟨e, hsize, hother, rfl⟩)
    · exact .full hat hsize hexceeds
    · exact .unknown hat hsize hother

/-- There is one tree that a pass can leave. -/
theorem PassedOver.unique {setting : Setting} {call : AllocateCall} {id : ℤ} {t₁ t₂ : Tree}
    (h₁ : PassedOver d setting call id t t₁) (h₂ : PassedOver d setting call id t t₂) :
    t₁ = t₂ := by
  cases h₁ with
  | locked hat =>
      cases h₂ with
      | locked hat' =>
          cases hat.symm.trans hat'
          rfl
      | full hat' => cases hat.symm.trans hat'
      | unknown hat' => cases hat.symm.trans hat'
  | full hat hsize hexceeds =>
      rcases (passedOver_locked hat).mp h₂ with ⟨size, -, -, rfl⟩ | ⟨e, hsize', -⟩
      · rfl
      · cases hsize.symm.trans hsize'
  | unknown hat hsize hother =>
      rcases (passedOver_locked hat).mp h₂ with ⟨size, hsize', -⟩ | ⟨e, -, -, rfl⟩
      · cases hsize.symm.trans hsize'
      · rfl

/-- A pass returns when the bundle is not passed over. -/
theorem pass_returns {setting : Setting} {call : AllocateCall} {loop_count : ℤ} {c' : ℤ × ℕ}
    {t₁ : Tree} {filelock : FileLock}
    (hchoose : Leads d (chooseId setting loop_count) (t, c) () (t, c'))
    (hlock : Leads d (lockBundle call.lockDir) (t, c') (.locked filelock) (t₁, c'))
    (hplace : ∀ s, shown s = (t₁, c') →
      ((placeBundle setting call filelock).run d.serve s).1 ≠ .again) (s : State)
    (hs : shown s = (t, c)) :
    ((allocatePass setting call loop_count).run d.serve s).1 ≠ .again := by
  unfold allocatePass
  obtain ⟨s₁, hs₁, hrun₁⟩ := hchoose.run_bind hs
  rw [hrun₁]
  obtain ⟨s₂, hs₂, hrun₂⟩ := hlock.run_bind hs₁
  rw [hrun₂]
  have hreturns := hplace s₂ hs₂
  dsimp only
  rw [Prog.run_bind]
  cases hplaced : ((placeBundle setting call filelock).run d.serve s₂).1 with
  | null => exact Pass.noConfusion
  | again => exact absurd hplaced hreturns
  | placed bundle_file offset => exact Pass.noConfusion

/-- A pass comes back to the loop exactly when its id is passed over. -/
theorem pass_cases (setting : Setting) (call : AllocateCall) (loop_count : ℤ) (c : ℤ × ℕ)
    (t : Tree) :
    (∃ t', PassedOver d setting call (d.choose setting.bundle_count_per_day loop_count c).1 t t' ∧
      Leads d (allocatePass setting call loop_count) (t, c) .again
        (t', int32 ((d.choose setting.bundle_count_per_day loop_count c).1 + 1),
          (d.choose setting.bundle_count_per_day loop_count c).2)) ∨
    (∀ t', ¬ PassedOver d setting call
        (d.choose setting.bundle_count_per_day loop_count c).1 t t') ∧
      ∀ s, shown s = (t, c) →
        ((allocatePass setting call loop_count).run d.serve s).1 ≠ .again := by
  have hchoose := leads_chooseId (d := d) (t := t) (c := c) setting loop_count
  generalize d.choose setting.bundle_count_per_day loop_count c = c' at hchoose ⊢
  have hlock := leads_lockOrMakeDir (d := d) (t := t) (c := c') call.lockDir
    (lockFile call.lockDir c'.1)
  cases hat : d.lockAt call.lockDir (lockFile call.lockDir c'.1) t with
  | none =>
      rw [hat] at hlock
      obtain ⟨v', hlock⟩ := hlock
      refine .inr ⟨fun t' hpassed => ?_, fun s hs => ?_⟩
      · cases hpassed with
        | locked h => cases hat.symm.trans h
        | full h => cases hat.symm.trans h
        | unknown h => cases hat.symm.trans h
      · have hpass : Leads d (allocatePass setting call loop_count) (t, c) .null v' :=
          Leads.bind hchoose (Leads.bind (leads_lockBundle hlock) (Leads.pure _))
        obtain ⟨s', hrun, -⟩ := hpass s hs
        rw [hrun]
        exact Pass.noConfusion
  | some at_ =>
      rw [hat] at hlock
      obtain ⟨_ | _, t₁⟩ := at_
      · exact .inl ⟨t₁, .locked hat,
          Leads.bind hchoose (Leads.bind (leads_lockBundle hlock) (Leads.pure _))⟩
      have hplace := run_checkBundle (d := d) (t := t₁) (c := c') setting call.size
        (bundleFile setting call.storage call.bundlePrefix c'.1) (lockFile call.lockDir c'.1)
      simp only [passedOver_locked hat]
      cases hsize : d.bundleSize t₁ (bundleFile setting call.storage call.bundlePrefix c'.1) with
      | ok st_size =>
          rw [hsize] at hplace
          dsimp only at hplace
          by_cases hexceeds : exceeds setting call.size (some st_size)
          · rw [if_pos hexceeds] at hplace
            refine .inl ⟨_, .inl ⟨st_size, rfl, hexceeds, rfl⟩, ?_⟩
            refine Leads.bind hchoose (Leads.bind (leads_lockBundle hlock) ?_)
            exact Leads.bind (Leads.bind (leads_getLastId _) hplace) (Leads.pure _)
          · rw [if_neg hexceeds] at hplace
            refine .inr ⟨fun t' hpassed => ?_, pass_returns hchoose (leads_lockBundle hlock) ?_⟩
            · rcases hpassed with ⟨size, heq, hexceeds', -⟩ | ⟨e, heq, -⟩
              · cases heq
                exact hexceeds hexceeds'
              · cases heq
            · intro s hs
              have hplaced : Leads d (placeBundle setting call (passLock _ true)) (t₁, c') _ _ :=
                Leads.bind (leads_getLastId .fileName) hplace
              obtain ⟨s', hrun, -⟩ := hplaced s hs
              exact ne_of_eq_of_ne (congrArg Prod.fst hrun) PlaceStep.noConfusion
      | error e =>
          rw [hsize] at hplace
          dsimp only at hplace
          by_cases hnone : e = ENOENT
          · rw [if_pos hnone] at hplace
            refine .inr ⟨fun t' hpassed => ?_, pass_returns hchoose (leads_lockBundle hlock) ?_⟩
            · rcases hpassed with ⟨size, heq, -⟩ | ⟨e', heq, hother, -⟩
              · cases heq
              · cases heq
                exact hother hnone
            · intro s hs
              obtain ⟨s', hs', hrun⟩ := (leads_getLastId .fileName).run_bind hs
              exact ne_of_eq_of_ne (congrArg Prod.fst hrun) (hplace s' hs')
          · rw [if_neg hnone] at hplace
            refine .inl ⟨_, .inr ⟨e, rfl, hnone, rfl⟩, ?_⟩
            refine Leads.bind hchoose (Leads.bind (leads_lockBundle hlock) ?_)
            exact Leads.bind (Leads.bind (leads_getLastId _) hplace) (Leads.pure _)

/-! ## The loop -/

/-- A pass that ends without a place leads to the next. -/
theorem leads_round {setting : Setting} {call : AllocateCall} {count : ℤ}
    (h : Leads d (allocatePass setting call (count + 1)) v .again v') :
    Leads d (allocateRound setting call count) v (.inl (count + 1)) v' :=
  Leads.bind h (Leads.pure _)

/-- A pass that ends with a place ends the loop. -/
theorem round_returns {setting : Setting} {call : AllocateCall} {count : ℤ} {s : State}
    (h : ((allocatePass setting call (count + 1)).run d.serve s).1 ≠ .again) (k : ℤ) :
    ((allocateRound setting call count).run d.serve s).1 ≠ .inl k := by
  unfold allocateRound
  dsimp only
  rw [Prog.run_bind]
  cases hpass : ((allocatePass setting call (count + 1)).run d.serve s).1 with
  | null => exact Sum.inr_ne_inl
  | again => exact absurd hpass h
  | writer w => exact Sum.inr_ne_inl

/-- Before the loop the first id is drawn and nothing else happens.
SOURCE: bundle.cc:462-471 -/
theorem leads_enterAllocate (w : World Unit Unit) :
    Leads d enterAllocate (w.tree, w.lastId (), 0) () (w.tree, d.firstId w, 0) := by
  unfold enterAllocate firstId
  refine Leads.bind (leads_getLastId .init) ?_
  dsimp only
  split
  · rintro s hs
    obtain ⟨htree, hs⟩ := Prod.mk.inj hs
    obtain ⟨-, hdrawn⟩ := Prod.mk.inj hs
    refine ⟨(s.1.setLastId id () (d.pid % 10 : ℕ), s.2), rfl, ?_⟩
    simp [shown, World.setLastId, htree, hdrawn]
  · exact Leads.pure ()

variable {setting : Setting} {call : AllocateCall} {first : ℤ}

/-- A round of the loop, at its turn. -/
theorem round_cases (setting : Setting) (call : AllocateCall) (first : ℤ) (n : ℕ) (t : Tree) :
    (∃ t', PassedOver d setting call (d.candidate setting.bundle_count_per_day first n).1 t t' ∧
      Leads d (allocateRound setting call n)
        (t, d.before setting.bundle_count_per_day first n) (.inl (n + 1))
        (t', d.before setting.bundle_count_per_day first (n + 1))) ∨
    (∀ t', ¬ PassedOver d setting call
        (d.candidate setting.bundle_count_per_day first n).1 t t') ∧
      ∀ s, shown s = (t, d.before setting.bundle_count_per_day first n) →
        ∀ k, ((allocateRound setting call n).run d.serve s).1 ≠ .inl k := by
  rcases pass_cases (d := d) setting call (n + 1)
    (d.before setting.bundle_count_per_day first n) t with ⟨t', hpassed, hpass⟩ | ⟨hnone, hpass⟩
  · exact .inl ⟨t', hpassed, leads_round hpass⟩
  · exact .inr ⟨hnone, fun s hs => round_returns (hpass s hs)⟩

/-- While every id in turn is passed over, the loop goes on. -/
theorem endless_of_passedOver {trees : ℕ → Tree}
    (h : ∀ n, PassedOver d setting call (d.candidate setting.bundle_count_per_day first n).1
      (trees n) (trees (n + 1))) (rounds n : ℕ) (s : State)
    (hs : shown s = (trees n, d.before setting.bundle_count_per_day first n)) :
    ((Prog.attempts (allocateRound setting call) rounds n).run d.serve s).1 = none := by
  induction rounds generalizing n s with
  | zero => rfl
  | succ rounds ih =>
      rcases round_cases setting call first n (trees n) with ⟨t', hpassed, hround⟩ | ⟨hnone, -⟩
      · obtain rfl := hpassed.unique (h n)
        obtain ⟨s', hrun, hs'⟩ := hround s hs
        rw [Prog.run_attempts_succ_inl hrun]
        exact ih (n + 1) s' hs'
      · exact absurd (h n) (hnone _)

/-- Where the loop goes on for ever, every id in turn is passed over. -/
theorem passedOver_of_endless {s : State}
    (hs : (shown s).2 = d.before setting.bundle_count_per_day first 0)
    (h : ∀ rounds,
      ((Prog.attempts (allocateRound setting call) rounds 0).run d.serve s).1 = none) :
    ∃ trees : ℕ → Tree, trees 0 = s.1.tree ∧ ∀ n,
      PassedOver d setting call (d.candidate setting.bundle_count_per_day first n).1
        (trees n) (trees (n + 1)) := by
  obtain ⟨seq, hstart, hnext⟩ := Prog.attempts_endless_iff.mp h
  have hround (n : ℕ) (hcount : (seq n).1 = n)
      (hbefore : (shown (seq n).2).2 = d.before setting.bundle_count_per_day first n) :
      ((seq (n + 1)).1 = (n + 1 : ℕ) ∧
        (shown (seq (n + 1)).2).2 = d.before setting.bundle_count_per_day first (n + 1)) ∧
      PassedOver d setting call (d.candidate setting.bundle_count_per_day first n).1
        (seq n).2.1.tree (seq (n + 1)).2.1.tree := by
    have hshown : shown (seq n).2 =
        ((seq n).2.1.tree, d.before setting.bundle_count_per_day first n) :=
      Prod.ext rfl hbefore
    have hrun := hnext n
    rw [hcount] at hrun
    rcases round_cases setting call first n (seq n).2.1.tree with
      ⟨t', hpassed, hleads⟩ | ⟨-, hreturns⟩
    · obtain ⟨s', hrun', hs'⟩ := hleads _ hshown
      obtain ⟨hcount', hstate⟩ := Prod.mk.inj (hrun.symm.trans hrun')
      rw [← hstate] at hs'
      have htree : (seq (n + 1)).2.1.tree = t' := congrArg Prod.fst hs'
      exact ⟨⟨Sum.inl.inj hcount', congrArg Prod.snd hs'⟩, htree ▸ hpassed⟩
    · exact absurd (congrArg Prod.fst hrun) (hreturns _ hshown _)
  have hkept (n : ℕ) : (seq n).1 = n ∧
      (shown (seq n).2).2 = d.before setting.bundle_count_per_day first n := by
    induction n with
    | zero =>
        rw [hstart]
        exact ⟨rfl, hs⟩
    | succ n ih => exact (hround n ih.1 ih.2).1
  refine ⟨fun n => (seq n).2.1.tree, ?_, fun n => (hround n (hkept n).1 (hkept n).2).2⟩
  show (seq 0).2.1.tree = s.1.tree
  rw [hstart]

/-- **`Allocate` comes to an end exactly when not every id in turn is passed over.**
SOURCE: bundle.cc:456-572 -/
theorem allocate_ends_iff (d : StaticDisk) (setting : Setting) (call : AllocateCall)
    (w : World Unit Unit) : d.Ends setting call w ↔ ¬ d.Starves setting call w := by
  obtain ⟨s, hrun, hs⟩ := leads_enterAllocate (d := d) w (w, 0) rfl
  have hloop (rounds : ℕ) : ((allocate setting call rounds).run d.serve (w, 0)).1 =
      ((Prog.attempts (allocateRound setting call) rounds 0).run d.serve s).1 := by
    rw [allocate, Prog.run_bind, hrun]
  unfold Ends
  simp only [hloop]
  rw [← not_iff_not, not_not, not_exists]
  simp only [not_not]
  constructor
  · intro h
    obtain ⟨trees, hfirst, hpassed⟩ := passedOver_of_endless (congrArg Prod.snd hs) h
    exact ⟨trees, hfirst.trans (congrArg Prod.fst hs), hpassed⟩
  · rintro ⟨trees, hfirst, hpassed⟩ rounds
    exact endless_of_passedOver hpassed rounds 0 s (hs.trans (by rw [hfirst]; rfl))

/-- A disk on which no lock file can be created. -/
def unwritable : StaticDisk where
  cwd := []
  refuse o :=
    match o with
    | .openExcl _ => some EACCES
    | _ => none
  rand _ := 0
  pid := 10
  now := World.Surroundings.plain.now
  spurious o e h := by
    cases o with
    | openExcl p =>
        cases h
        unfold Spurious
        decide
    | _ => cases h
  rand_lt _ := Nat.two_pow_pos 31
  pid_range := World.Surroundings.plain_sound.pid
  now_lt := World.Surroundings.plain_sound.now

/-- A call with its lock files in the root directory. -/
def rootLocks : AllocateCall where
  prefix_ := Text.ascii "p"
  postfix_ := Text.ascii ".jpg"
  size := 3
  storage := Text.ascii "/s"
  lock_path := some (Text.ascii "/")

/-- On the disk that cannot be written no lock is got and nothing changes. -/
theorem lockAt_unwritable (lock_file : Bytes) :
    unwritable.lockAt (Text.ascii "/") lock_file Tree.bare = some (false, Tree.bare) := by
  have hroot : unwritable.onTree (.access (Text.ascii "/"))
      (Tree.bare.stat unwritable.cwd (Text.ascii "/")) = .ok .dir := by
    rfl
  have hexcl : unwritable.excl Tree.bare lock_file = .error EACCES := by
    rfl
  rw [lockAt, hexcl, readyDir, hroot]
  dsimp only
  rw [hexcl]

/-- With a lock directory that is there and may not be written, there is no end. -/
theorem not_allocate_ends :
    ¬ ∀ (d : StaticDisk) (setting : Setting) (call : AllocateCall) (w : World Unit Unit),
      d.Ends setting call w := by
  intro hall
  obtain ⟨rounds, hends⟩ := hall unwritable defaultSetting rootLocks (World.start Tree.bare)
  obtain ⟨s, hrun, hs⟩ :=
    leads_enterAllocate (d := unwritable) (World.start Tree.bare) (World.start Tree.bare, 0) rfl
  rw [allocate, Prog.run_bind, hrun] at hends
  exact hends (endless_of_passedOver (fun n => .locked (lockAt_unwritable _)) rounds 0 s hs)

end StaticDisk

end BundleStore
