import BundleStore.Analysis.Calls
import BundleStore.Model.LockUse

set_option autoImplicit false

/-!
# When the lock file excludes

A lock is held by the object whose `open` created the file, until its `unlink`
removes it. `Unlock` leaves `locked_` set, so a later `Unlock` or the destructor
of the same object removes whatever lock file is there by then; and a second
`TryLock` of the holder clears `locked_`, so its destructor leaves the file. In
runs without these two uses the lock excludes. That an object which never had the lock
removes no file is due to `locked_`, which every `unlink` looks at.
-/

namespace BundleStore

open Posix

section Mutex

variable {ι κ : Type} [DecidableEq ι] [DecidableEq κ] (cwd : Loc) (proc : ι → κ) (name : Bytes)

/-- What mutual exclusion says of one state: one holder at most, the
file is there exactly while a holder lives, and only a holder's step takes it
away. -/
structure MutexHolds (S : System SysCall SysCall.Answer ι (World ι κ) LockObject LockOp)
    (c : Config SysCall SysCall.Answer ι (World ι κ) LockObject) : Prop where
  exclusive : ∀ i j, c.shared.holds i (canon cwd name) = true →
    c.shared.holds j (canon cwd name) = true → i = j
  exists_iff : (c.shared.tree.content (canon cwd name)).isSome = true ↔
    ∃ i, c.shared.holds i (canon cwd name) = true ∧ c.thread i ≠ .ret .destroyed
  not_stolen : ∀ i o k a w', c.thread i = .call o k → S.sem i o c.shared a w' →
    (c.shared.tree.content (canon cwd name)).isSome = true →
    w'.tree.content (canon cwd name) = none → c.shared.holds i (canon cwd name) = true

/-- An `unlink` by an object that has given the lock up before finds no file. -/
def FreshUnlink (i : ι) : (o : SysCall) → World ι κ → o.Answer → World ι κ → Prop
  | .unlink _, w, _, _ =>
      w.gaveUp i (canon cwd name) = true → w.tree.content (canon cwd name) = none
  | _, _, _, _ => True

/-- An object that holds the lock is not destroyed with `locked_` cleared. -/
def keepsTrack (i : ι) : LockObject → LockOp → World ι κ → Bool
  | .alive self, .destroy, w => !w.holds i (canon cwd name) || self.locked_
  | _, _, _ => true

/-- The runs in which every step meets the two conditions. -/
def trackedSystem : System SysCall SysCall.Answer ι (World ι κ) LockObject LockOp :=
  (lockSystem cwd proc).restrict (FreshUnlink cwd name) (keepsTrack cwd name)

/-- The invariant: the file and the holder come and go together. -/
structure LockInv (w : World ι κ) : Prop where
  exclusive : ∀ i j, w.holds i (canon cwd name) = true → w.holds j (canon cwd name) = true → i = j
  file_of_holds : ∀ i, w.holds i (canon cwd name) = true →
    (w.tree.content (canon cwd name)).isSome = true
  holds_of_file : (w.tree.content (canon cwd name)).isSome = true →
    ∃ i, w.holds i (canon cwd name) = true
  lookup : (w.tree.content (canon cwd name)).isSome = true →
    w.tree.lookup cwd name = .ok (canon cwd name)

/-- No object's holding is changed by another object. -/
def lockDiscipline : Discipline ι (World ι κ) where
  Inv := LockInv cwd name
  Frame i w w' := w'.holds i (canon cwd name) = w.holds i (canon cwd name) ∧
    w'.gaveUp i (canon cwd name) = w.gaveUp i (canon cwd name)
  frame_refl _ _ := ⟨rfl, rfl⟩
  frame_trans _ _ _ _ h h' := ⟨h'.1.trans h.1, h'.2.trans h.2⟩

/-- The object has had the lock. -/
def Had (i : ι) (w : World ι κ) : Prop :=
  w.holds i (canon cwd name) = true ∨ w.gaveUp i (canon cwd name) = true

/-- What is known of an object between its operations: where `locked_` is set, it has had the
lock. -/
def ObjectInv (i : ι) : LockObject → World ι κ → Prop
  | .alive self, w => self.lockfile_ = name ∧ (self.locked_ = true → Had cwd name i w)
  | .looping self _, _ => self.lockfile_ = name
  | .destroyed, w => w.holds i (canon cwd name) = false

variable {cwd proc name}

omit [DecidableEq ι] [DecidableEq κ] in
/-- That an object has had its lock is stable. -/
theorem had_stable (i : ι) :
    (lockDiscipline (ι := ι) (κ := κ) cwd name).Stable i (Had cwd name i) := by
  intro w w' _ _ hframe h
  unfold Had
  rw [hframe.1, hframe.2]
  exact h

omit [DecidableEq ι] [DecidableEq κ] in
/-- What is known of an object is stable. -/
theorem objectInv_stable (i : ι) (object : LockObject) :
    (lockDiscipline (ι := ι) (κ := κ) cwd name).Stable i (ObjectInv cwd name i object) := by
  intro w w' hinv hinv' hframe h
  cases object with
  | alive self => exact ⟨h.1, fun hlocked => had_stable i w w' hinv hinv' hframe (h.2 hlocked)⟩
  | looping self delay => exact h
  | destroyed => exact Eq.trans hframe.1 h

omit [DecidableEq ι] [DecidableEq κ] in
/-- A step that leaves the tree and the holders alone. -/
theorem allowed_of_same {i : ι} {w w' : World ι κ} (hinv : LockInv cwd name w)
    (htree : w'.tree = w.tree) (hholds : w'.holds = w.holds) (hgave : w'.gaveUp = w.gaveUp) :
    (lockDiscipline cwd name).Allowed i w w' := by
  constructor
  · constructor
    · rw [hholds]
      exact hinv.exclusive
    · rw [hholds, htree]
      exact hinv.file_of_holds
    · rw [hholds, htree]
      exact hinv.holds_of_file
    · rw [htree]
      exact hinv.lookup
  · intro j _
    exact ⟨by rw [hholds], by rw [hgave]⟩

/-- Creating the file makes its creator the one holder. -/
theorem openExcl_allowed {i : ι} {w w' : World ι κ} {a : Option Fd} (hinv : LockInv cwd name w)
    (hsem : World.Sem cwd proc i (.openExcl name) w a w') :
    (lockDiscipline cwd name).Allowed i w w' ∧ (a.isSome = true → Had cwd name i w') := by
  cases a with
  | none =>
      obtain ⟨e, -, rfl⟩ := hsem
      exact ⟨allowed_of_same hinv rfl rfl rfl, fun h => by cases h⟩
  | some fd =>
      obtain ⟨t, hopen, rfl⟩ := hsem
      obtain ⟨rfl, hnone, hcan, rfl⟩ := Tree.openExcl_ok hopen
      have hfree : ∀ j, w.holds j (canon cwd name) = false := by
        intro j
        by_contra hj
        have hfile := hinv.file_of_holds j (by simpa using hj)
        simp [Tree.content, hnone] at hfile
      refine ⟨⟨?_, ?_⟩, fun _ => .inl (World.setHolds_self _ _ _ _)⟩
      · constructor
        · intro j k hj hk
          by_cases hji : j = i
          · by_cases hki : k = i
            · rw [hji, hki]
            · rw [World.setHolds_ne _ _ (.inl hki), World.setTree_holds, hfree k] at hk
              cases hk
          · rw [World.setHolds_ne _ _ (.inl hji), World.setTree_holds, hfree j] at hj
            cases hj
        · intro j _
          simp [Tree.content_setFile_self hcan]
        · intro _
          exact ⟨i, World.setHolds_self _ _ _ _⟩
        · intro _
          have hlook := Tree.onPath_lookup hopen
          exact (Tree.grows_setFile w.tree _ _).lookup hlook
      · intro j hj
        exact ⟨World.setHolds_ne _ _ (.inl hj), World.setHolds_gaveUp_ne _ _ (.inl hj)⟩

/-- After an `unlink` by an object that has had the lock, the object does not hold it, and
has given it up. -/
theorem unlink_allowed {i : ι} {w w' : World ι κ} {a : Bool} (hinv : LockInv cwd name w)
    (hhad : Had cwd name i w) (hsem : World.Sem cwd proc i (.unlink name) w a w')
    (hworks : UnlinkWorks cwd (.unlink name) w a)
    (hfresh : FreshUnlink cwd name i (.unlink name) w a w') :
    (lockDiscipline cwd name).Allowed i w w' ∧ w'.holds i (canon cwd name) = false ∧
      w'.gaveUp i (canon cwd name) = true := by
  cases a with
  | false =>
      obtain ⟨e, -, rfl⟩ := hsem
      have hfree : ¬ w.holds i (canon cwd name) = true := by
        -- the path led to the file when it was created, and still would
        intro hholds
        have hfile := hinv.file_of_holds i hholds
        obtain ⟨e', he'⟩ := hworks rfl
        obtain ⟨c, hc⟩ := Option.isSome_iff_exists.mp hfile
        rw [Tree.unlink_of_lookup (hinv.lookup hfile) hc] at he'
        cases he'
      exact ⟨allowed_of_same hinv rfl rfl rfl, by simpa using hfree, hhad.resolve_left hfree⟩
  | true =>
      obtain ⟨t, hunlink, rfl⟩ := hsem
      have ht := Tree.unlink_ok hunlink
      subst ht
      refine ⟨⟨?_, ?_⟩, World.setHolds_self _ _ _ _, World.setHolds_gaveUp_self _ _ _ _⟩
      · have hgone : ((w.setTree (w.tree.remove (canon cwd name))).setHolds i (canon cwd name)
            false).tree.content (canon cwd name) = none := Tree.content_remove_self _ _
        have hfree : ∀ j, ((w.setTree (w.tree.remove (canon cwd name))).setHolds i (canon cwd name)
            false).holds j (canon cwd name) = false := by
          intro j
          by_cases hj : j = i
          · rw [hj]
            exact World.setHolds_self _ _ _ _
          · rw [World.setHolds_ne _ _ (.inl hj), World.setTree_holds]
            by_contra hholds
            have hj' : w.holds j (canon cwd name) = true := by simpa using hholds
            rcases hhad with hi | hgave
            · exact hj (hinv.exclusive j i hj' hi)
            · have hfile := hinv.file_of_holds j hj'
              rw [hfresh hgave] at hfile
              cases hfile
        constructor
        · intro j k hj
          rw [hfree j] at hj
          cases hj
        · intro j hj
          rw [hfree j] at hj
          cases hj
        · intro hfile
          rw [hgone] at hfile
          cases hfile
        · intro hfile
          rw [hgone] at hfile
          cases hfile
      · intro j hj
        exact ⟨World.setHolds_ne _ _ (.inl hj), World.setHolds_gaveUp_ne _ _ (.inl hj)⟩

/-- A `close` is allowed to everyone. -/
theorem close_allowed {i : ι} {w w' : World ι κ} {fd : Fd} (hinv : LockInv cwd name w)
    (hsem : World.Sem cwd proc i (.close fd) w () w') :
    (lockDiscipline cwd name).Allowed i w w' := by
  rcases hsem with rfl | ⟨e, -, rfl⟩
  · exact allowed_of_same hinv rfl rfl rfl
  · exact allowed_of_same hinv rfl rfl rfl

/-! ## The operations -/

/-- A lock that is got was free, and its file is the object's.
SOURCE: filelock.h:72-84 -/
theorem lockName_triple (i : ι) :
    (lockDiscipline cwd name).Triple (trackedSystem cwd proc name).sem i (fun _ => True)
      (FileLock.lockName name) fun locked w => locked = true → Had cwd name i w := by
  unfold FileLock.lockName
  apply Discipline.Triple.call (R := fun (a : Option Fd) w => a.isSome = true → Had cwd name i w)
    (Discipline.Stable.const True)
  · intro w a w' hinv _ hsem
    exact openExcl_allowed hinv hsem.1.1
  · intro a
    cases a with
    | none => exact Discipline.Triple.ret fun _ _ _ h => by cases h
    | some fd =>
        apply Discipline.Triple.call (R := fun _ => Had cwd name i)
          (Discipline.Stable.imp fun _ => had_stable i)
        · intro w a w' hinv hhad hsem
          have hallowed := close_allowed hinv hsem.1.1
          refine ⟨hallowed, ?_⟩
          rcases hsem.1.1 with rfl | ⟨e, -, rfl⟩
          · exact hhad rfl
          · exact hhad rfl
        · intro _
          exact Discipline.Triple.ret fun _ _ h _ => h

/-- `TryLock` says what it has got.
SOURCE: filelock.h:56-60 -/
theorem tryLock_triple (i : ι) {self : FileLock} (hself : self.lockfile_ = name) :
    (lockDiscipline cwd name).Triple (trackedSystem cwd proc name).sem i (fun _ => True)
      self.tryLock fun self' w =>
        self'.lockfile_ = name ∧ (self'.locked_ = true → Had cwd name i w) := by
  unfold FileLock.tryLock
  rw [hself]
  apply Discipline.Triple.bind (lockName_triple i)
  intro locked
  exact Discipline.Triple.ret fun _ _ h => ⟨rfl, h⟩

/-- A round of `Lock` says what it has got.
SOURCE: filelock.h:37-54 -/
theorem round_triple (i : ι) {self : FileLock} (delay : ℤ) (hself : self.lockfile_ = name) :
    (lockDiscipline cwd name).Triple (trackedSystem cwd proc name).sem i (fun _ => True)
      (LockObject.round self delay) (ObjectInv cwd name i) := by
  unfold LockObject.round FileLock.lockAttempt
  rw [hself]
  apply Discipline.Triple.bind (R := fun attempt w => attempt.object.lockfile_ = name ∧
    (attempt.object.locked_ = true → Had cwd name i w))
  · apply Discipline.Triple.bind (lockName_triple i)
    intro locked
    apply Discipline.Triple.ite
    · intro _
      exact Discipline.Triple.ret fun _ _ h => ⟨rfl, h⟩
    · intro _
      apply Discipline.Triple.ite
      · intro _
        exact Discipline.Triple.ret fun _ _ h => ⟨rfl, h⟩
      · intro _
        exact Discipline.Triple.ret fun _ _ h => ⟨rfl, h⟩
  · intro attempt
    cases attempt with
    | stopped self' => exact Discipline.Triple.ret fun _ _ h => h
    | again self' delay' => exact Discipline.Triple.ret fun _ _ h => h.1

/-- `Unlock` of an object that remembers the lock leaves it without. -/
theorem unlock_triple (i : ι) {self : FileLock} (hself : self.lockfile_ = name) :
    (lockDiscipline cwd name).Triple (trackedSystem cwd proc name).sem i
      (fun w => self.locked_ = true → Had cwd name i w) self.unlock fun _ w =>
        self.locked_ = true → w.holds i (canon cwd name) = false ∧
          w.gaveUp i (canon cwd name) = true := by
  unfold FileLock.unlock FileLock.unlockName
  rw [hself]
  apply Discipline.Triple.ite
  · intro hlocked
    apply Discipline.Triple.call (R := fun _ w => w.holds i (canon cwd name) = false ∧
      w.gaveUp i (canon cwd name) = true) (Discipline.Stable.imp fun _ => had_stable i)
    · intro w a w' hinv hhad hsem
      exact unlink_allowed hinv (hhad hlocked) hsem.1.1 hsem.1.2 hsem.2
    · intro _
      exact Discipline.Triple.ret fun _ _ h _ => h
  · intro hlocked
    exact Discipline.Triple.ret fun _ _ _ h => absurd h hlocked

/-- The destructor of an object that remembers a lock it holds. -/
theorem destroy_triple (i : ι) {self : FileLock} (hself : self.lockfile_ = name) :
    (lockDiscipline cwd name).Triple (trackedSystem cwd proc name).sem i
      (fun w => (self.locked_ = true → Had cwd name i w) ∧
        (w.holds i (canon cwd name) = false ∨ self.locked_ = true)) self.destroy
      fun _ w => w.holds i (canon cwd name) = false := by
  unfold FileLock.destroy
  apply Discipline.Triple.ite
  · intro hlocked
    apply Discipline.Triple.conseq (unlock_triple i hself)
    · exact fun _ _ h => h.1
    · exact fun _ _ _ h => (h hlocked).1
  · intro hlocked
    apply Discipline.Triple.ret
    intro w _ h
    exact h.2.resolve_right hlocked

/-- Every operation that a tracked run starts keeps what is known of its object. -/
theorem run_triple (i : ι) (object : LockObject) (op : LockOp) :
    (lockDiscipline cwd name).Triple (trackedSystem cwd proc name).sem i
      (fun w => (trackedSystem cwd proc name).enabled i object op w = true ∧
        ObjectInv cwd name i object w)
      ((trackedSystem cwd proc name).body i object op) (ObjectInv cwd name i) := by
  show Discipline.Triple _ _ i _ (object.run op) _
  cases object with
  | destroyed =>
      have hbody : LockObject.run .destroyed op = .ret .destroyed := by
        cases op <;> rfl
      rw [hbody]
      exact Discipline.Triple.ret fun _ _ h => h.2
  | looping self delay =>
      intro w hinv ⟨hen, hself⟩
      cases op with
      | again => exact round_triple i delay hself w hinv trivial
      | tryLock => cases hen
      | lock => cases hen
      | unlock => cases hen
      | destroy => cases hen
  | alive self =>
      intro w hinv ⟨hen, hself, hhad⟩
      cases op with
      | again => cases hen
      | lock => exact round_triple i self.delay_ hself w hinv trivial
      | tryLock =>
          have hcall : (lockDiscipline cwd name).Triple (trackedSystem cwd proc name).sem i _ _ _ :=
            tryLock_triple i hself
          have h := Discipline.Triple.bind hcall
            (f := fun self' => (pure (.alive self') : Sys LockObject)) (Q := ObjectInv cwd name i)
            fun self' => Discipline.Triple.ret fun _ _ h => h
          exact h w hinv trivial
      | unlock =>
          have hcall : (lockDiscipline cwd name).Triple (trackedSystem cwd proc name).sem i _ _ _ :=
            unlock_triple i hself
          have h := Discipline.Triple.bind hcall
            (f := fun _ => (pure (.alive self) : Sys LockObject)) (Q := ObjectInv cwd name i)
            fun _ => Discipline.Triple.ret fun _ _ h =>
              ⟨hself, fun hlocked => .inr (h hlocked).2⟩
          exact h w hinv hhad
      | destroy =>
          have hcall : (lockDiscipline cwd name).Triple (trackedSystem cwd proc name).sem i _ _ _ :=
            destroy_triple i hself
          have h := Discipline.Triple.bind hcall
            (f := fun _ => (pure .destroyed : Sys LockObject)) (Q := ObjectInv cwd name i)
            fun _ => Discipline.Triple.ret fun _ _ h => h
          refine h w hinv ⟨hhad, ?_⟩
          have hkeeps : (!w.holds i (canon cwd name) || self.locked_) = true := hen
          simpa using hkeeps

/-- In a state that a tracked run reaches the lock excludes.
SOURCE: filelock.h:31-88 -/
theorem lock_mutex {c : Config SysCall SysCall.Answer ι (World ι κ) LockObject}
    (hc : (trackedSystem cwd proc name).Reachable (LockInit cwd name) c) :
    MutexHolds cwd name (trackedSystem cwd proc name) c := by
  have hinit : ∀ c : Config SysCall SysCall.Answer ι (World ι κ) LockObject, LockInit cwd name c →
      (lockDiscipline cwd name).Inv c.shared ∧ ∀ i, (lockDiscipline cwd name).Safe
        (trackedSystem cwd proc name).sem i (ObjectInv cwd name i) (c.thread i) c.shared := by
    intro c ⟨hnone, hfree, hobjects⟩
    constructor
    · constructor
      · intro i j hi
        rw [(hfree i).1] at hi
        cases hi
      · intro i hi
        rw [(hfree i).1] at hi
        cases hi
      · intro hfile
        rw [hnone] at hfile
        cases hfile
      · intro hfile
        rw [hnone] at hfile
        cases hfile
    · intro i
      obtain ⟨self, hthread, hself, hlocked⟩ := hobjects i
      rw [hthread]
      refine ⟨hself, fun h => ?_⟩
      rw [hlocked] at h
      cases h
  obtain ⟨hinv, hsafe⟩ := Discipline.reachable_safe objectInv_stable run_triple hinit hc
  constructor
  · exact hinv.exclusive
  · constructor
    · intro hfile
      obtain ⟨i, hi⟩ := hinv.holds_of_file hfile
      refine ⟨i, hi, ?_⟩
      intro hdead
      have hfree := Discipline.reachable_idle objectInv_stable run_triple hinit hc hdead
      rw [show c.shared.holds i (canon cwd name) = false from hfree] at hi
      cases hi
    · rintro ⟨i, hi, -⟩
      exact hinv.file_of_holds i hi
  · intro i o k a w' hcall hsem hfile hgone
    obtain ⟨j, hj⟩ := hinv.holds_of_file hfile
    by_cases hij : j = i
    · rw [← hij]
      exact hj
    · -- the step leaves the other holder, and so its file
      have hstep := hsafe i
      rw [hcall] at hstep
      obtain ⟨⟨hinv', hframe⟩, -⟩ := hstep c.shared hinv ⟨rfl, rfl⟩ a w' hsem
      have hstays := hinv'.file_of_holds j ((hframe j hij).1.trans hj)
      rw [hgone] at hstays
      cases hstays

end Mutex

/-! ## Runs of two objects -/

/-- Two new objects of two processes on the lock file `x` in the root. -/
def twoLocks : Config SysCall SysCall.Answer Bool (World Bool Bool) LockObject where
  shared := World.start Tree.bare
  thread _ := .ret (.alive { lockfile_ := [120] })

/-- The example begins without a lock. -/
theorem twoLocks_init : LockInit [] [120] twoLocks := by
  refine ⟨by decide, fun _ => ⟨rfl, rfl⟩, ?_⟩
  intro i
  exact ⟨_, rfl, rfl, rfl⟩

/-- The faultless environment removes every file that there is. -/
theorem serve_unlinkWorks (i : Bool) (o : SysCall) (w : World Bool Bool) :
    (lockSystem [] id).sem i o w (World.serve [] id World.Surroundings.plain i o w).1
      (World.serve [] id World.Surroundings.plain i o w).2 := by
  refine ⟨World.serve_sem _ _ World.Surroundings.plain_sound _ _ _, ?_⟩
  cases o with
  | unlink p =>
      intro hfailed
      simp only [World.serve, World.answer] at hfailed
      cases h : w.tree.unlink [] p with
      | ok t =>
          rw [h] at hfailed
          cases hfailed
      | error e => exact ⟨e, rfl⟩
  | _ => trivial

/-- An object runs an operation to its end. -/
def lockMoves (i : Bool) (op : LockOp) :
    List (System.Move SysCall SysCall.Answer Bool (World Bool Bool) LockOp) :=
  System.runMoves i op 2 (World.serve [] id World.Surroundings.plain)

/-- The first object locks and unlocks, then the second locks. -/
def handOver : List (System.Move SysCall SysCall.Answer Bool (World Bool Bool) LockOp) :=
  lockMoves true .tryLock ++ lockMoves true .unlock ++ lockMoves false .tryLock

/-- The moves of the two objects are made by whole operations. -/
theorem handOver_fair {m : System.Move SysCall SysCall.Answer Bool (World Bool Bool) LockOp}
    (hm : m ∈ handOver) : m.Fair (lockSystem [] id) := by
  unfold handOver at hm
  rw [List.mem_append, List.mem_append] at hm
  rcases hm with (hm | hm) | hm
  · exact System.fair_of_mem_runMoves serve_unlinkWorks hm
  · exact System.fair_of_mem_runMoves serve_unlinkWorks hm
  · exact System.fair_of_mem_runMoves serve_unlinkWorks hm

/-- `FreshUnlink` as a test. -/
def freshUnlink (i : Bool) : (o : SysCall) → World Bool Bool → o.Answer → World Bool Bool → Bool
  | .unlink _, w, _, _ =>
      !w.gaveUp i (canon [] [120]) || (w.tree.content (canon [] [120])).isNone
  | _, _, _, _ => true

/-- The test of a fresh unlink finds only such. -/
theorem freshUnlink_sound (i : Bool) (o : SysCall) (w : World Bool Bool) (a : o.Answer)
    (w' : World Bool Bool) (h : freshUnlink i o w a w' = true) :
    FreshUnlink [] [120] i o w a w' := by
  cases o with
  | unlink p =>
      intro hgave
      simp only [freshUnlink, hgave, Bool.not_true, Bool.false_or,
        Option.isNone_iff_eq_none] at h
      exact h
  | _ => trivial

/-- The first object then fails to lock, which clears `locked_`, and is destroyed. -/
def handOverAndGo : List (System.Move SysCall SysCall.Answer Bool (World Bool Bool) LockOp) :=
  handOver ++ lockMoves true .tryLock ++ lockMoves true .destroy

/-- The lock is handed over as it should be, and the second object has it in the end. -/
theorem lock_mutex_handOver :
    MutexHolds [] [120] (trackedSystem [] id [120])
        ((trackedSystem [] id [120]).play twoLocks handOverAndGo) ∧
      (((trackedSystem [] id [120]).play twoLocks handOverAndGo).shared.holds false
        (canon [] [120])) = true := by
  constructor
  · apply lock_mutex
    apply System.play_reachable_restrict twoLocks_init handOverAndGo ?_ freshUnlink
      freshUnlink_sound
    · decide +kernel
    · intro m hm
      unfold handOverAndGo at hm
      rw [List.mem_append, List.mem_append] at hm
      rcases hm with (hm | hm) | hm
      · exact handOver_fair hm
      · exact System.fair_of_mem_runMoves serve_unlinkWorks hm
      · exact System.fair_of_mem_runMoves serve_unlinkWorks hm
  · decide +kernel

/-- The destructor of the first object then takes the second one's lock file
away, since `Unlock` did not clear `locked_`. -/
theorem not_lock_mutex :
    ¬ ∀ c, (lockSystem [] id).Reachable (LockInit [] [120]) c →
      MutexHolds (ι := Bool) (κ := Bool) [] [120] (lockSystem [] id) c := by
  intro h
  have hreach := System.play_reachable (S := lockSystem [] id) twoLocks_init
    (handOver ++ lockMoves true .destroy) (by
      intro m hm
      rcases List.mem_append.mp hm with hm | hm
      · exact handOver_fair hm
      · exact System.fair_of_mem_runMoves serve_unlinkWorks hm)
  have hiff := (h _ hreach).exists_iff
  have hfile := hiff.mpr ⟨false, by decide +kernel, fun hdead => LockObject.noConfusion
    (Prog.ret.inj hdead)⟩
  revert hfile
  decide +kernel

end BundleStore
