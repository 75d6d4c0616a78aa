import BundleStore.Analysis.Calls
import BundleStore.Model.Session

set_option autoImplicit false

/-!
# `Allocate` in several threads

`Allocate` reads `last_id_` three times for one writer: for the lock name, for
the file name and for `info_.id`. The writer is consistent when the later reads
see what the first one saw; another thread's increment between them separates
lock, file and id.
-/

namespace BundleStore

open Posix

section Threads

variable {ι κ : Type} [DecidableEq ι] [DecidableEq κ] (cwd : Loc) (proc : ι → κ)
variable (setting : Setting)

/-- Id, file and lock of a writer belong together. -/
structure Consistent (call : AllocateCall) (writer : Writer) : Prop where
  file : writer.filename_ = bundleFile setting call.storage call.bundlePrefix writer.info_.id
  lock : ∃ filelock, writer.filelock_ = some filelock ∧ filelock.locked_ = true ∧
    filelock.lockfile_ = lockFile call.lockDir writer.info_.id

/-- A thread that was overtaken finds `last_id_` as it read it for its lock name. -/
def IdUnchanged (i : ι) : (o : SysCall) → World ι κ → o.Answer → World ι κ → Prop
  | .getLastId .fileName, w, _, _ | .getLastId .infoId, w, _, _ =>
      w.overtaken i = true → w.lastId (proc i) = w.lockRead i
  | _, _, _, _ => True

/-- The runs in which this is always so. -/
def steadySystem : System SysCall SysCall.Answer ι (World ι κ) Caller CallerOp :=
  (storeSystem cwd proc setting).restrict (IdUnchanged proc) fun _ _ _ _ => true

/-- Nobody else changes what a thread has read for its lock name; and whoever changes
`last_id_` overtakes it. -/
def readDiscipline : Discipline ι (World ι κ) where
  Inv _ := True
  Frame i w w' := w'.lockRead i = w.lockRead i ∧
    (w'.overtaken i = false → w.overtaken i = false ∧ w'.lastId (proc i) = w.lastId (proc i))
  frame_refl _ _ := ⟨rfl, fun h => ⟨h, rfl⟩⟩
  frame_trans _ _ _ _ h h' := by
    refine ⟨h'.1.trans h.1, fun hnot => ?_⟩
    obtain ⟨hmid, heq'⟩ := h'.2 hnot
    obtain ⟨hfirst, heq⟩ := h.2 hmid
    exact ⟨hfirst, heq'.trans heq⟩

/-- The thread has read `id` for its lock name, and has not changed `last_id_` since. -/
def HasRead (i : ι) (id : ℤ) (w : World ι κ) : Prop :=
  w.lockRead i = id ∧ (w.overtaken i = false → w.lastId (proc i) = id)

/-- Every writer that a caller has got is consistent. -/
def WritersConsistent (_ : ι) (caller : Caller) (_ : World ι κ) : Prop :=
  ∀ entry ∈ caller.allocated, Consistent setting entry.1 entry.2

variable {cwd proc setting} {i : ι} {id : ℤ}

omit [DecidableEq ι] [DecidableEq κ] in
/-- What a thread has read of `last_id_` is stable. -/
theorem hasRead_stable (id : ℤ) : (readDiscipline proc).Stable i (HasRead proc i id) := by
  rintro w w' - - ⟨hread, hkept⟩ ⟨hid, hlast⟩
  refine ⟨hread.trans hid, fun hnot => ?_⟩
  obtain ⟨hbefore, heq⟩ := hkept hnot
  exact heq.trans (hlast hbefore)

/-- Every call of a thread is allowed to the others. -/
theorem allowed_of_sem {o : SysCall} {w w' : World ι κ} {a : o.Answer}
    (hsem : (steadySystem cwd proc setting).sem i o w a w') :
    (readDiscipline proc).Allowed i w w' :=
  ⟨trivial, fun _ hj => ⟨hsem.1.effect.lockRead_ne hj, hsem.1.effect.overtaken_ne hj⟩⟩

/-- What holds of the results of a program is a postcondition of it. -/
theorem returns_triple {α : Type} {p : Sys α} {ψ : α → Prop} (hreturns : p.Returns ψ) :
    (readDiscipline proc).Triple (steadySystem cwd proc setting).sem i
      (fun _ => True) p fun a _ => ψ a :=
  (Discipline.Triple.of_calls (Prog.calls_true p) hreturns (Discipline.Stable.const True)
    fun _ _ _ _ _ _ _ hsem => ⟨allowed_of_sem hsem, trivial⟩).post fun _ _ _ h => h.1

/-- The calls that neither read an id for a lock name nor change `last_id_`. -/
def KeepsRead (o : SysCall) : Prop :=
  o ≠ .getLastId .lockName ∧ o ≠ .incLastId ∧ ∀ id, o ≠ .setLastId id

/-- A call that keeps the id read keeps what a thread has read. -/
theorem hasRead_of_effect {o : SysCall} (ho : KeepsRead o) {w w' : World ι κ}
    (h : World.Effect cwd proc i w o w') (hread : HasRead proc i id w) :
    HasRead proc i id w' := by
  refine ⟨(h.lockRead_eq ho.1).trans hread.1, ?_⟩
  cases h with
  | readId site =>
      have hsite : site ≠ .lockName := fun heq => ho.1 (by rw [heq])
      unfold World.readLastId
      rw [if_neg hsite]
      exact hread.2
  | setId m => exact absurd rfl (ho.2.2 m)
  | incId => exact absurd rfl ho.2.1
  | _ => exact hread.2

/-- A thread's own program keeps what it has read, as long as it makes only such calls. -/
theorem keeps_hasRead {α : Type} {p : Sys α} {ψ : α → Prop} (hcalls : p.Calls KeepsRead)
    (hreturns : p.Returns ψ) :
    (readDiscipline proc).Triple (steadySystem cwd proc setting).sem i
      (HasRead proc i id) p fun a w => ψ a ∧ HasRead proc i id w := by
  apply Discipline.Triple.of_calls hcalls hreturns (hasRead_stable id)
  intro o ho w a w' _ hread hsem
  exact ⟨allowed_of_sem hsem, hasRead_of_effect ho hsem.1.effect hread⟩

/-- A read of `last_id_` in the middle of a pass gives the id of the lock name. -/
theorem reread_triple (site : LastIdSite) (hsite : site = .fileName ∨ site = .infoId) :
    (readDiscipline proc).Triple (steadySystem cwd proc setting).sem i
      (HasRead proc i id) (Sys.getLastId site) fun again w => again = id ∧ HasRead proc i id w := by
  apply Discipline.Triple.op (hasRead_stable id)
  rintro w again w' - hread hsem
  have hkeeps : KeepsRead (.getLastId site) := by
    rcases hsite with rfl | rfl
    · exact ⟨by simp, by simp, by simp⟩
    · exact ⟨by simp, by simp, by simp⟩
  have heffect : World.Effect cwd proc i w (.getLastId site) w' := World.Sem.effect hsem.1
  refine ⟨allowed_of_sem hsem, ?_, hasRead_of_effect hkeeps heffect hread⟩
  have hagain : again = w.lastId (proc i) := hsem.1.1
  have hsteady : w.overtaken i = true → w.lastId (proc i) = w.lockRead i := by
    rcases hsite with rfl | rfl
    · exact hsem.2
    · exact hsem.2
  rw [hagain]
  cases hcase : w.overtaken i with
  | false => exact hread.2 hcase
  | true => exact (hsteady hcase).trans hread.1

/-! ## One pass -/

/-- A lock step that has the lock, has the one of the id, and the id is still read. -/
def LocksId (proc : ι → κ) (i : ι) (lock_dir : Bytes) (id : ℤ) : LockStep → World ι κ → Prop
  | .locked filelock, w => (filelock.locked_ = true ∧
      filelock.lockfile_ = lockFile lock_dir id) ∧ HasRead proc i id w
  | _, _ => True

/-- A place step that has a file, has the one of the id, and the id is still read. -/
def PlacesId (proc : ι → κ) (i : ι) (setting : Setting) (call : AllocateCall) (id : ℤ) :
    PlaceStep → World ι κ → Prop
  | .placed file _, w =>
      file = bundleFile setting call.storage call.bundlePrefix id ∧ HasRead proc i id w
  | _, _ => True

/-- A pass that ends in a writer, ends in a consistent one. -/
def PassConsistent (setting : Setting) (call : AllocateCall) : Pass → Prop
  | .writer w => Consistent setting call w
  | _ => True

/-- A call on a lock keeps the id read. -/
theorem keepsRead_of_lockCall {lockfile : Bytes} (o : SysCall) (h : IsLockCall lockfile o) :
    KeepsRead o := by
  cases o <;> first | exact absurd h id | exact ⟨by simp, by simp, by simp⟩

/-- A call on directories keeps the id read. -/
theorem keepsRead_of_dirCall (o : SysCall) (h : IsDirCall o) : KeepsRead o := by
  cases o <;> first | exact absurd h id | exact ⟨by simp, by simp, by simp⟩

/-- Where the pass ends without the lock, nothing is asked of the id any more. -/
theorem locksId_of_ends {α : Type} {lock_dir : Bytes} {p : Sys α} {step : LockStep}
    (hstep : ∀ filelock, step ≠ .locked filelock) :
    (readDiscipline proc).Triple (steadySystem cwd proc setting).sem i
      (fun _ => True) (p >>= fun _ => pure step) (LocksId proc i lock_dir id) := by
  have hends : (p >>= fun _ => pure step).Returns (· = step) :=
    (Prog.returns_true p).bind fun _ _ => show step = step from rfl
  refine (returns_triple hends).post fun result w _ hresult => ?_
  rw [hresult]
  cases step with
  | locked filelock => exact absurd rfl (hstep filelock)
  | null => trivial
  | again => trivial

/-- A pass that ends without a place puts no bundle at another id. -/
theorem placesId_of_ends {α : Type} {call : AllocateCall} {p : Sys α} {step : PlaceStep}
    (hstep : ∀ file offset, step ≠ .placed file offset) :
    (readDiscipline proc).Triple (steadySystem cwd proc setting).sem i
      (fun _ => True) (p >>= fun _ => pure step) (PlacesId proc i setting call id) := by
  have hends : (p >>= fun _ => pure step).Returns (· = step) :=
    (Prog.returns_true p).bind fun _ _ => show step = step from rfl
  refine (returns_triple hends).post fun result w _ hresult => ?_
  rw [hresult]
  cases step with
  | placed file offset => exact absurd rfl (hstep file offset)
  | null => trivial
  | again => trivial

/-- `TryLock` keeps the id read.
SOURCE: filelock.h:56-60 -/
theorem tryLock_hasRead (self : FileLock) :
    (readDiscipline proc).Triple (steadySystem cwd proc setting).sem i
      (HasRead proc i id) self.tryLock fun self' w =>
        self'.lockfile_ = self.lockfile_ ∧ HasRead proc i id w :=
  keeps_hasRead ((tryLock_calls self).mono keepsRead_of_lockCall) (tryLock_returns self)

/-- The check of the directory keeps the id read.
SOURCE: bundle.cc:484-494 -/
theorem checkDir_hasRead (dir : Bytes) :
    (readDiscipline proc).Triple (steadySystem cwd proc setting).sem i
      (HasRead proc i id) (checkDir dir) fun _ => HasRead proc i id :=
  (keeps_hasRead ((checkDir_calls dir).mono keepsRead_of_dirCall)
    (Prog.returns_true _)).post fun _ _ _ h => h.2

/-- The lock that is got is the one of the id that was read. -/
theorem lockOrMakeDir_triple (lock_dir : Bytes) (id : ℤ) :
    (readDiscipline proc).Triple (steadySystem cwd proc setting).sem i
      (HasRead proc i id) (lockOrMakeDir lock_dir (lockFile lock_dir id))
      (LocksId proc i lock_dir id) := by
  unfold lockOrMakeDir
  refine Discipline.Triple.bind (tryLock_hasRead _) fun filelock => ?_
  refine Discipline.Triple.intro fun hfile => ?_
  refine Discipline.Triple.ite (fun hlocked => ?_) fun _ => ?_
  · exact Discipline.Triple.ret fun _ _ h => ⟨⟨hlocked, hfile⟩, h⟩
  refine Discipline.Triple.bind (checkDir_hasRead lock_dir) fun made => ?_
  refine Discipline.Triple.ite (fun _ => ?_) fun _ => ?_
  · refine Discipline.Triple.bind (tryLock_hasRead _) fun filelock' => ?_
    refine Discipline.Triple.intro fun hfile' => ?_
    refine Discipline.Triple.ite (fun hlocked => ?_) fun _ => ?_
    · exact Discipline.Triple.ret fun _ _ h => ⟨⟨hlocked, hfile'.trans hfile⟩, h⟩
    · exact (locksId_of_ends (p := Sys.incLastId >>= fun _ => filelock'.destroy)
        (by simp)).pre fun _ _ _ => trivial
  · exact (locksId_of_ends (by simp)).pre fun _ _ _ => trivial

/-- `CreateBundle` keeps the id read.
SOURCE: bundle.cc:414-454 -/
theorem createBundle_keepsRead (file : Bytes) : (createBundle file).Calls KeepsRead := by
  refine ⟨⟨by simp, by simp, by simp⟩, fun fd => ?_⟩
  cases fd with
  | none => trivial
  | some fd =>
      refine ⟨⟨by simp, by simp, by simp⟩, fun _ => ⟨⟨by simp, by simp, by simp⟩, fun _ => ?_⟩⟩
      exact ⟨⟨by simp, by simp, by simp⟩, fun _ => trivial⟩

/-- A bundle that is made is that of the id read.
SOURCE: bundle.cc:518-539 -/
theorem createMissing_triple (call : AllocateCall) (filelock : FileLock) :
    (readDiscipline proc).Triple (steadySystem cwd proc setting).sem i (HasRead proc i id)
      (createMissing (bundleFile setting call.storage call.bundlePrefix id) filelock)
      (PlacesId proc i setting call id) := by
  unfold createMissing
  refine Discipline.Triple.bind (checkDir_hasRead _) fun made => ?_
  refine Discipline.Triple.ite (fun _ => ?_) fun _ => ?_
  · refine Discipline.Triple.bind
      (keeps_hasRead (createBundle_keepsRead _) (Prog.returns_true _)) fun created => ?_
    refine Discipline.Triple.ite (fun _ => ?_) fun _ => ?_
    · exact Discipline.Triple.ret fun _ _ h => ⟨rfl, h.2⟩
    · exact (placesId_of_ends (by simp)).pre fun _ _ _ => trivial
  · exact (placesId_of_ends (by simp)).pre fun _ _ _ => trivial

/-- The bundle that is taken is the one of the id that was read. -/
theorem checkBundle_triple (call : AllocateCall) (filelock : FileLock) :
    (readDiscipline proc).Triple (steadySystem cwd proc setting).sem i (HasRead proc i id)
      (checkBundle setting call.size (bundleFile setting call.storage call.bundlePrefix id)
        filelock) (PlacesId proc i setting call id) := by
  have hquiet : ∀ o : SysCall, KeepsRead o → (readDiscipline proc).Triple
      (steadySystem cwd proc setting).sem i (HasRead proc i id) (Prog.op o) fun _ =>
        HasRead proc i id := fun o ho =>
    (keeps_hasRead (p := Prog.op o) ⟨ho, fun _ => trivial⟩ (Prog.returns_true _)).post
      fun _ _ _ h => h.2
  unfold checkBundle
  refine Discipline.Triple.bind (hquiet _ ⟨by simp, by simp, by simp⟩) fun stat => ?_
  refine Discipline.Triple.ite (fun _ => ?_) fun _ => ?_
  · exact (placesId_of_ends (p := Sys.incLastId >>= fun _ => filelock.destroy)
      (by simp)).pre fun _ _ _ => trivial
  refine Discipline.Triple.bind (hquiet _ ⟨by simp, by simp, by simp⟩) fun stat_errno => ?_
  cases stat with
  | some st_size => exact Discipline.Triple.ret fun _ _ h => ⟨rfl, h⟩
  | none =>
      refine Discipline.Triple.ite (fun _ => createMissing_triple call filelock) fun _ => ?_
      exact (placesId_of_ends (p := Sys.incLastId) (by simp)).pre fun _ _ _ => trivial

/-- An id is read for the lock name, and the lock is the one of that id. -/
theorem lockBundle_triple (lock_dir : Bytes) :
    (readDiscipline proc).Triple (steadySystem cwd proc setting).sem i
      (fun _ => True) (lockBundle lock_dir) fun step w => ∃ id,
        LocksId proc i lock_dir id step w := by
  unfold lockBundle
  apply Discipline.Triple.call (R := fun id => HasRead proc i id) (Discipline.Stable.const True)
  · rintro w id w' - - hsem
    refine ⟨allowed_of_sem hsem, ?_⟩
    obtain ⟨⟨rfl, rfl⟩, -⟩ := hsem
    exact ⟨Function.update_self _ _ _, fun _ => rfl⟩
  · intro id
    exact (lockOrMakeDir_triple lock_dir id).post fun _ _ _ h => ⟨id, h⟩

/-- The second half of a pass places the bundle of the id read.
SOURCE: bundle.cc:504-550 -/
theorem placeBundle_triple (call : AllocateCall) (filelock : FileLock) (id : ℤ) :
    (readDiscipline proc).Triple (steadySystem cwd proc setting).sem i (HasRead proc i id)
      (placeBundle setting call filelock) (PlacesId proc i setting call id) := by
  unfold placeBundle
  refine Discipline.Triple.bind (reread_triple .fileName (.inl rfl)) fun file => ?_
  refine Discipline.Triple.intro ?_
  rintro rfl
  exact checkBundle_triple call filelock

/-- The writer that a pass ends in is consistent. -/
theorem allocatePass_triple (call : AllocateCall) (loop_count : ℤ) :
    (readDiscipline proc).Triple (steadySystem cwd proc setting).sem i
      (fun _ => True) (allocatePass setting call loop_count)
      fun pass _ => PassConsistent setting call pass := by
  unfold allocatePass
  refine Discipline.Triple.bind (returns_triple (Prog.returns_true _)) fun _ => ?_
  refine Discipline.Triple.bind (lockBundle_triple call.lockDir) fun step => ?_
  refine Discipline.Triple.exists_pre fun id => ?_
  cases step with
  | null => exact Discipline.Triple.ret fun _ _ _ => trivial
  | again => exact Discipline.Triple.ret fun _ _ _ => trivial
  | locked filelock =>
      refine Discipline.Triple.intro fun hlock => ?_
      refine Discipline.Triple.bind (placeBundle_triple call filelock id) fun place => ?_
      cases place with
      | null => exact Discipline.Triple.ret fun _ _ _ => trivial
      | again => exact Discipline.Triple.ret fun _ _ _ => trivial
      | placed file offset =>
          refine Discipline.Triple.intro fun hfile => ?_
          refine Discipline.Triple.bind (reread_triple .infoId (.inr rfl)) fun infoId => ?_
          refine Discipline.Triple.ret ?_
          rintro w - ⟨rfl, -⟩
          exact ⟨hfile, filelock, rfl, hlock.1, hlock.2⟩

/-- A program that returns a caller with the writers it had. -/
theorem same_writers_triple {caller : Caller} {p : Sys Caller}
    (hp : p.Returns fun caller' => caller'.allocated = caller.allocated) :
    (readDiscipline proc).Triple (steadySystem cwd proc setting).sem i
      (WritersConsistent setting i caller) p (WritersConsistent setting i) := by
  intro w hinv hcaller
  refine (returns_triple hp).post ?_ w hinv trivial
  intro caller' w' _ hsame
  unfold WritersConsistent
  rw [hsame]
  exact hcaller

omit [DecidableEq ι] [DecidableEq κ] in
/-- What an operation on a writer returns. -/
theorem onLive_returns {ψ : Caller → Prop} {caller : Caller} {k : ℕ}
    {f : LiveWriter → Sys Caller} (hcaller : ψ caller) (hf : ∀ live, (f live).Returns ψ) :
    (caller.onLive k f).Returns ψ := by
  unfold Caller.onLive
  split
  · exact hcaller
  · exact hf _

/-- Every program of a caller keeps its writers consistent. -/
theorem caller_triple (caller : Caller) (op : CallerOp) :
    (readDiscipline proc).Triple (steadySystem cwd proc setting).sem i
      (fun w => (steadySystem cwd proc setting).enabled i caller op w = true ∧
        WritersConsistent setting i caller w)
      ((steadySystem cwd proc setting).body i caller op) (WritersConsistent setting i) := by
  show Discipline.Triple _ _ i _ (caller.run setting op) _
  apply Discipline.Triple.pre (P := WritersConsistent setting i caller) ?_ fun _ _ h => h.2
  cases op with
  | allocate call =>
      apply same_writers_triple
      exact (Prog.returns_true enterAllocate).bind fun _ _ => rfl
  | write k url buf user_data =>
      apply same_writers_triple
      exact onLive_returns rfl fun live => (Prog.returns_true _).bind fun _ _ => rfl
  | batchWrite k buf user_data =>
      apply same_writers_triple
      exact onLive_returns rfl fun live => (Prog.returns_true _).bind fun _ _ => rfl
  | release k =>
      apply same_writers_triple
      exact onLive_returns rfl fun live => (Prog.returns_true _).bind fun _ _ => rfl
  | nextPass =>
      show Discipline.Triple _ _ i _ (caller.nextPass setting) _
      unfold Caller.nextPass
      split
      · exact same_writers_triple rfl
      · rename_i call count _
        intro w hinv hcaller
        apply (Discipline.Triple.bind (allocatePass_triple call _) ?_) w hinv trivial
        intro pass
        apply Discipline.Triple.ret
        intro w' _ hpass
        cases pass with
        | null => exact hcaller
        | again => exact hcaller
        | writer writer =>
            intro entry hentry
            rcases List.mem_append.mp hentry with hold | hnew
            · exact hcaller entry hold
            · rw [List.mem_singleton] at hnew
              rw [hnew]
              exact hpass

variable (cwd proc setting)

/-- At first nobody has allocated anything. -/
def CallersInit (c : Config SysCall SysCall.Answer ι (World ι κ) Caller) : Prop :=
  ∀ i, c.thread i = .ret {}

variable {cwd proc setting}

/-- **Writers stay consistent** in every run in which no other thread takes `last_id_` away
from one that is between its lock name and its writer. What the thread does itself does not.
SOURCE: bundle.cc:456-569 -/
theorem threaded_allocate_consistent
    {c : Config SysCall SysCall.Answer ι (World ι κ) Caller}
    (hc : (steadySystem cwd proc setting).Reachable CallersInit c) {i : ι} {caller : Caller}
    (hidle : c.thread i = .ret caller) :
    ∀ entry ∈ caller.allocated, Consistent setting entry.1 entry.2 := by
  have hstable : ∀ i caller, (readDiscipline proc).Stable i
      (WritersConsistent setting i caller) := fun i caller w w' _ _ _ h => h
  refine Discipline.reachable_idle hstable (fun i => caller_triple) ?_ hc hidle
  intro c hinit
  refine ⟨trivial, fun i => ?_⟩
  rw [hinit i]
  intro entry hentry
  exact absurd hentry List.not_mem_nil

end Threads

/-! ## Two worker threads -/

/-- Two threads of one process, before they have allocated anything. -/
def twoThreads : Config SysCall SysCall.Answer Bool (World Bool Unit) Caller where
  shared := World.start Tree.bare
  thread _ := .ret {}

/-- An upload of three bytes. -/
def uploadCall : AllocateCall where
  prefix_ := Text.ascii "p"
  postfix_ := Text.ascii ".jpg"
  size := 3
  storage := Text.ascii "s"

def threadMoves (i : Bool) (op : CallerOp) (calls : ℕ) :
    List (System.Move SysCall SysCall.Answer Bool (World Bool Unit) CallerOp) :=
  System.runMoves i op calls (World.serve [] (fun _ => ()) World.Surroundings.plain)

/-- The moves of the example's threads are made by whole operations. -/
theorem threadMoves_fair {i : Bool} {op : CallerOp} {calls : ℕ}
    {m : System.Move SysCall SysCall.Answer Bool (World Bool Unit) CallerOp}
    (hm : m ∈ threadMoves i op calls) : m.Fair (storeSystem [] (fun _ => ()) defaultSetting) :=
  System.fair_of_mem_runMoves
    (fun j o w => World.serve_sem _ _ World.Surroundings.plain_sound j o w) hm

/-- `IdUnchanged` as a test. -/
def idUnchanged (i : Bool) : (o : SysCall) → World Bool Unit → o.Answer → World Bool Unit → Bool
  | .getLastId .fileName, w, _, _ | .getLastId .infoId, w, _, _ =>
      !w.overtaken i || w.lastId () == w.lockRead i
  | _, _, _, _ => true

/-- The test of an id that is unchanged finds only such. -/
theorem idUnchanged_sound (i : Bool) (o : SysCall) (w : World Bool Unit) (a : o.Answer)
    (w' : World Bool Unit) (h : idUnchanged i o w a w' = true) :
    IdUnchanged (fun _ => ()) i o w a w' := by
  have himp : (!w.overtaken i || w.lastId () == w.lockRead i) = true → w.overtaken i = true →
      w.lastId () = w.lockRead i := by
    intro htest hover
    rw [hover] at htest
    exact beq_iff_eq.mp htest
  cases o with
  | getLastId site =>
      cases site with
      | fileName => exact himp h
      | infoId => exact himp h
      | init => trivial
      | lockName => trivial
  | _ => trivial

/-- Calls that a thread makes of the program that it runs. -/
def callMoves (i : Bool) (calls : ℕ) :
    List (System.Move SysCall SysCall.Answer Bool (World Bool Unit) CallerOp) :=
  List.replicate calls (.act i (World.serve [] (fun _ => ()) World.Surroundings.plain))

/-- The moves of an allocation are made by whole operations. -/
theorem callMoves_fair {i : Bool} {calls : ℕ}
    {m : System.Move SysCall SysCall.Answer Bool (World Bool Unit) CallerOp}
    (hm : m ∈ callMoves i calls) : m.Fair (storeSystem [] (fun _ => ()) defaultSetting) := by
  rw [List.eq_of_mem_replicate hm]
  exact fun o w => World.serve_sem _ _ World.Surroundings.plain_sound i o w

/-- The first thread has its lock when the second one tries it, too; `late` calls of the
first thread come before the second gives up and increments `last_id_`, the others behind. -/
def crossedMoves (late : ℕ) :
    List (System.Move SysCall SysCall.Answer Bool (World Bool Unit) CallerOp) :=
  threadMoves true (.allocate uploadCall) 3 ++ threadMoves true .nextPass 7 ++
    threadMoves false (.allocate uploadCall) 1 ++ threadMoves false .nextPass 4 ++
    callMoves true late ++ callMoves false 1 ++ callMoves true (13 - late) ++
    threadMoves false .nextPass 12

/-- The moves of two threads that cross are made by whole operations. -/
theorem crossedMoves_fair (late : ℕ)
    (m : System.Move SysCall SysCall.Answer Bool (World Bool Unit) CallerOp)
    (hm : m ∈ crossedMoves late) : m.Fair (storeSystem [] (fun _ => ()) defaultSetting) := by
  unfold crossedMoves at hm
  simp only [List.mem_append] at hm
  rcases hm with ((((((hm | hm) | hm) | hm) | hm) | hm) | hm) | hm
  · exact threadMoves_fair hm
  · exact threadMoves_fair hm
  · exact threadMoves_fair hm
  · exact threadMoves_fair hm
  · exact callMoves_fair hm
  · exact callMoves_fair hm
  · exact callMoves_fair hm
  · exact threadMoves_fair hm

/-- For each writer of a caller, the lock file of its id and the one it holds. -/
def lockPairs (caller : Caller) : List (Option Bytes × Option Bytes) :=
  caller.allocated.map fun entry =>
    (some (lockFile entry.1.lockDir entry.2.info_.id),
      entry.2.filelock_.map fun filelock => filelock.lockfile_)

/-- Two threads that both allocate get consistent writers when the second one increments
`last_id_` behind the last read of the first. -/
theorem threaded_allocate_consistent_both :
    let c := (steadySystem [] (fun _ => ()) defaultSetting).play twoThreads (crossedMoves 13)
    ∃ first second : Caller, c.thread true = .ret first ∧ c.thread false = .ret second ∧
      lockPairs first = [(some (Text.ascii "s/.lock/0"), some (Text.ascii "s/.lock/0"))] ∧
      lockPairs second = [(some (Text.ascii "s/.lock/1"), some (Text.ascii "s/.lock/1"))] ∧
      (∀ entry ∈ first.allocated, Consistent defaultSetting entry.1 entry.2) ∧
      ∀ entry ∈ second.allocated, Consistent defaultSetting entry.1 entry.2 := by
  intro c
  have hfirst : (c.thread true).result?.map lockPairs =
      some [(some (Text.ascii "s/.lock/0"), some (Text.ascii "s/.lock/0"))] := by
    decide +kernel
  have hsecond : (c.thread false).result?.map lockPairs =
      some [(some (Text.ascii "s/.lock/1"), some (Text.ascii "s/.lock/1"))] := by
    decide +kernel
  obtain ⟨first, hcaller, hpairs⟩ := Option.map_eq_some_iff.mp hfirst
  obtain ⟨second, hcaller', hpairs'⟩ := Option.map_eq_some_iff.mp hsecond
  have hidle := Prog.eq_ret_of_result? hcaller
  have hidle' := Prog.eq_ret_of_result? hcaller'
  have hreach : (steadySystem [] (fun _ => ()) defaultSetting).Reachable CallersInit c := by
    apply System.play_reachable_restrict (fun _ => rfl) (crossedMoves 13) (crossedMoves_fair 13)
      idUnchanged idUnchanged_sound
    decide +kernel
  exact ⟨first, second, hidle, hidle', hpairs, hpairs',
    threaded_allocate_consistent hreach hidle, threaded_allocate_consistent hreach hidle'⟩

/-- The id of a writer need not be the one that its lock protects: the second thread has
incremented `last_id_` when the first one reads it for the file name. -/
theorem not_threaded_allocate_consistent :
    ¬ ∀ c, (storeSystem (ι := Bool) [] (fun _ => ()) defaultSetting).Reachable CallersInit c →
      ∀ i caller, c.thread i = .ret caller →
        ∀ entry ∈ caller.allocated, Consistent defaultSetting entry.1 entry.2 := by
  intro h
  have hresult : ((((storeSystem [] (fun _ => ()) defaultSetting).play twoThreads
      (crossedMoves 0)).thread true).result?.map lockPairs) =
      some [(some (Text.ascii "s/.lock/1"), some (Text.ascii "s/.lock/0"))] := by
    decide +kernel
  obtain ⟨caller, hcaller, hpairs⟩ := Option.map_eq_some_iff.mp hresult
  have hreach : (storeSystem [] (fun _ => ()) defaultSetting).Reachable CallersInit
      ((storeSystem [] (fun _ => ()) defaultSetting).play twoThreads (crossedMoves 0)) :=
    System.play_reachable (fun _ => rfl) (crossedMoves 0) (crossedMoves_fair 0)
  obtain ⟨entry, hentry, hsplit⟩ := List.map_eq_singleton_iff.mp hpairs
  obtain ⟨hid, hheld⟩ := Prod.mk.inj hsplit
  have hconsistent := h _ hreach true caller (Prog.eq_ret_of_result? hcaller) entry (by
    rw [hentry]
    exact List.mem_singleton_self entry)
  obtain ⟨filelock, hfilelock, -, hfile⟩ := hconsistent.lock
  rw [hfilelock, Option.map_some, hfile, hid] at hheld
  revert hheld
  decide

end BundleStore
