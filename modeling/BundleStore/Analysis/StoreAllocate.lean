import BundleStore.Analysis.StoreSteps

set_option autoImplicit false

/-!
# `Allocate` on a kept storage

One pass of `Allocate` that returns a writer leaves its process with one more
live writer, whose file ends where the writer's offset says; any other pass
leaves it with the writers it had.
-/

namespace BundleStore

open Machine Posix

namespace Upkeep

variable {L : Layout} (U : Upkeep L) {ι : Type} [DecidableEq ι]

/-- The calls do what they do on a file system; as much of a bundle header is accepted
as may be, and where no directory may be, `lstat` finds none. -/
structure KeptCalls (sem : ι → (o : SysCall) → World ι ι → o.Answer → World ι ι → Prop) :
    Prop where
  calls : ∀ {i o w a w'}, sem i o w a w' → World.Sem L.cwd id i o w a w'
  header : ∀ {i fd data w count w'}, sem i (.write fd .bundleHeader data) w count w' →
    U.Header data (Int.toNat count)
  file : ∀ {i p w size w'}, sem i (.lstat p) w (some size) w' →
    w.tree.stat L.cwd p = .ok .dir → U.dirs

/-- An assertion about what a process holds. -/
def Held (i : ι) (P : World ι ι → Prop) : Prop :=
  ∀ w w', U.Keeps i (fun _ => True) w w' → P w → P w'

variable {U} {sem : ι → (o : SysCall) → World ι ι → o.Answer → World ι ι → Prop}
variable {i : ι} {P : World ι ι → Prop} {n : ℤ} {live : List LiveWriter}

omit [DecidableEq ι] in
/-- What a process holds is stable. -/
theorem Held.stable (h : U.Held i P) : U.discipline.Stable i P :=
  fun w w' _ _ hframe hp => h w w' (Frame.keeps hframe _) hp

omit [DecidableEq ι] in
/-- What a process holds is stable beside its id. -/
theorem Held.stable_id (h : U.Held i P) :
    U.discipline.Stable i fun w => P w ∧ w.lastId i = n := by
  intro w w' hinv hinv' hframe hp
  exact ⟨h.stable w w' hinv hinv' hframe hp.1, hframe.lastId.trans hp.2⟩

omit [DecidableEq ι] in
/-- The live writers of a process are its own. -/
theorem held_liveOk (i : ι) (live : List LiveWriter) : U.Held i (U.LiveOk i live) :=
  fun _ _ hk h => h.keeps hk fun _ _ => trivial

omit [DecidableEq ι] in
/-- What a process owns is held. -/
theorem held_own (i : ι) (n : ℤ) : U.Held i (U.Own i n) :=
  fun _ _ hk h => h.keeps hk trivial

omit [DecidableEq ι] in
/-- Two facts that are held are held together. -/
theorem Held.and {Q : World ι ι → Prop} (h : U.Held i P) (h' : U.Held i Q) :
    U.Held i fun w => P w ∧ Q w :=
  fun w w' hk hp => ⟨h w w' hk hp.1, h' w w' hk hp.2⟩

omit [DecidableEq ι] in
/-- A fact that is held is held under a condition. -/
theorem Held.imp {φ : Prop} (h : U.Held i P) : U.Held i fun w => φ → P w :=
  fun w w' hk hp hφ => h w w' hk (hp hφ)

/-! ## Calls that change no file -/

/-- The calls that leave `last_id_` as well. -/
def Still (o : SysCall) : Prop :=
  Quiet o ∧ o ≠ .incLastId ∧ ∀ id, o ≠ .setLastId id

/-- A still call leaves the id. -/
theorem lastId_of_still {o : SysCall} {w w' : World ι ι} (ho : Still o)
    (h : World.Effect L.cwd id i w o w') : w'.lastId i = w.lastId i := by
  cases h with
  | readId site =>
      unfold World.readLastId
      split <;> rfl
  | setId m => exact absurd rfl (ho.2.2 m)
  | incId => exact absurd rfl ho.2.1
  | _ => rfl

/-- A quiet call changes no file. -/
theorem KeptCalls.quiet (hsem : U.KeptCalls sem) {o : SysCall} {w w' : World ι ι} {a : o.Answer}
    (ho : Quiet o) (h : sem i o w a w') : QuietStep i w w' :=
  quietStep_of_effect ho (hsem.calls h).effect

/-- A quiet program keeps what is held. -/
theorem quiet_triple (hsem : U.KeptCalls sem) (hP : U.Held i P) {α : Type} {p : Sys α}
    (hp : p.Calls Quiet) : U.discipline.Triple sem i P p fun _ => P := by
  apply (Discipline.Triple.of_calls hp (Prog.returns_true p) hP.stable ?_).post
  · intro _ w _ h
    exact h.2
  · intro o ho w a w' hinv h hcall
    have hquiet := hsem.quiet ho hcall
    exact ⟨hquiet.allowed hinv, hP w w' (hquiet.keeps _) h⟩

/-- A still program keeps what is held and the id. -/
theorem still_triple (hsem : U.KeptCalls sem) (hP : U.Held i P) {α : Type} {p : Sys α}
    (hp : p.Calls Still) :
    U.discipline.Triple sem i (fun w => P w ∧ w.lastId i = n) p fun _ w =>
      P w ∧ w.lastId i = n := by
  apply (Discipline.Triple.of_calls hp (Prog.returns_true p) hP.stable_id ?_).post
  · intro _ w _ h
    exact h.2
  · intro o ho w a w' hinv h hcall
    have hquiet := hsem.quiet ho.1 hcall
    have hid := lastId_of_still ho (hsem.calls hcall).effect
    exact ⟨hquiet.allowed hinv, hP w w' (hquiet.keeps _) h.1, hid.trans h.2⟩

/-- A quiet call keeps what is held, and any answer may follow. -/
theorem quiet_call (hsem : U.KeptCalls sem) (hP : U.Held i P) {α : Type} {o : SysCall}
    (ho : Quiet o) {k : o.Answer → Sys α} {Q : α → World ι ι → Prop}
    (hk : ∀ a, U.discipline.Triple sem i P (k a) Q) :
    U.discipline.Triple sem i P (.call o k) Q :=
  (quiet_triple hsem hP (p := Prog.op o) ⟨ho, fun _ => trivial⟩).bind hk

/-- A still call keeps what is held and the id, and any answer may follow. -/
theorem still_call (hsem : U.KeptCalls sem) (hP : U.Held i P) {α : Type} {o : SysCall}
    (ho : Still o) {k : o.Answer → Sys α} {Q : α → World ι ι → Prop}
    (hk : ∀ a, U.discipline.Triple sem i (fun w => P w ∧ w.lastId i = n) (k a) Q) :
    U.discipline.Triple sem i (fun w => P w ∧ w.lastId i = n) (.call o k) Q :=
  (still_triple hsem hP (p := Prog.op o) ⟨ho, fun _ => trivial⟩).bind hk

/-- A call on directories is still. -/
theorem still_of_dirCall (o : SysCall) (h : IsDirCall o) : Still o := by
  cases o <;> first | exact absurd h id | exact ⟨trivial, by simp, by simp⟩

/-- A call on the id is quiet. -/
theorem quiet_of_idCall (o : SysCall) (h : IsIdCall o) : Quiet o := by
  cases o <;> first | exact h | trivial

/-! ## The lock -/

/-- After an attempt at the lock of id `n`. -/
structure Tried (U : Upkeep L) (i : ι) (live : List LiveWriter) (n : ℤ) (filelock : FileLock)
    (w : World ι ι) : Prop where
  liveOk : U.LiveOk i live w
  lockfile : filelock.lockfile_ = lockFile L.lock_dir n
  fresh : filelock.locked_ = true → ∀ lw ∈ live, lw.writer.info_.id ≠ n
  own : filelock.locked_ = true → U.Own i n w

omit [DecidableEq ι] in
/-- What a tried lock says is held. -/
theorem held_tried (i : ι) (live : List LiveWriter) (n : ℤ) (filelock : FileLock) :
    U.Held i (Tried U i live n filelock) :=
  fun w w' hk h => ⟨held_liveOk i live w w' hk h.liveOk, h.lockfile, h.fresh, fun hlocked =>
    held_own i n w w' hk (h.own hlocked)⟩

/-- `TryLock` gives the lock or leaves the object without it.
SOURCE: filelock.h:56-60 -/
theorem tryLock_kept (hsem : U.KeptCalls sem) (hn : IsId n) {self : FileLock}
    (hself : self.lockfile_ = lockFile L.lock_dir n) :
    U.discipline.Triple sem i (fun w => U.LiveOk i live w ∧ w.lastId i = n) self.tryLock
      fun self' w => Tried U i live n self' w ∧ w.lastId i = n := by
  obtain ⟨lockfile, timeout, delay, locked⟩ := self
  change lockfile = _ at hself
  subst hself
  unfold FileLock.tryLock FileLock.lockName
  apply Discipline.Triple.bind (R := fun locked w =>
    Tried U i live n ⟨lockFile L.lock_dir n, timeout, delay, locked⟩ w ∧ w.lastId i = n)
  · apply Discipline.Triple.call (R := fun fd w =>
      Tried U i live n ⟨lockFile L.lock_dir n, timeout, delay, fd.isSome⟩ w ∧ w.lastId i = n)
      (held_liveOk i live).stable_id
    · intro w fd w' hinv h hcall
      cases fd with
      | none =>
          have hquiet : QuietStep i w w' := .of_refused (hsem.calls hcall)
          obtain ⟨e, -, rfl⟩ := hsem.calls hcall
          refine ⟨hquiet.allowed hinv, ⟨?_, rfl, ?_, ?_⟩, h.2⟩
          · exact held_liveOk i live _ _ (hquiet.keeps _) h.1
          · intro hlocked
            cases hlocked
          · intro hlocked
            cases hlocked
      | some fd =>
          obtain ⟨hallowed, hkeeps, hfree, hown⟩ := lock_created hinv hn (hsem.calls hcall)
          have hfresh := h.1.ne_of_free hfree
          obtain ⟨t, -, rfl⟩ := hsem.calls hcall
          refine ⟨hallowed, ⟨?_, rfl, fun _ => hfresh, fun _ => hown⟩, h.2⟩
          exact h.1.keeps hkeeps hfresh
    · intro fd
      cases fd with
      | none => exact Discipline.Triple.ret fun _ _ h => h
      | some fd =>
          apply still_call (o := .close fd) hsem (held_tried i live n _) ⟨trivial, by simp, by simp⟩
          intro _
          exact Discipline.Triple.ret fun _ _ h => h
  · intro locked'
    exact Discipline.Triple.ret fun _ _ h => h

/-- The destructor gives up the lock of its object.
SOURCE: filelock.h:31-35 -/
theorem destroy_kept (hsem : U.KeptCalls sem) {self : FileLock} :
    U.discipline.Triple sem i (Tried U i live n self) self.destroy fun _ => U.LiveOk i live := by
  unfold FileLock.destroy FileLock.unlock FileLock.unlockName
  apply Discipline.Triple.ite
  · intro hlocked
    rw [if_pos hlocked]
    apply Discipline.Triple.call (R := fun _ => U.LiveOk i live) (held_tried i live n self).stable
    · intro w removed w' hinv h hcall
      have hown := h.own hlocked
      have hcall' := hsem.calls hcall
      rw [h.lockfile] at hcall'
      obtain ⟨hallowed, hkeeps⟩ := lock_removed hinv hown hcall'
      exact ⟨hallowed, h.liveOk.keeps hkeeps (h.fresh hlocked)⟩
    · intro _
      exact Discipline.Triple.ret fun _ _ h => h
  · intro _
    exact Discipline.Triple.ret fun _ _ h => h.liveOk

/-- What the first part of a pass leaves. -/
def LockKept (U : Upkeep L) (i : ι) (live : List LiveWriter) (n : ℤ) :
    LockStep → World ι ι → Prop
  | .locked filelock, w =>
      filelock.locked_ = true ∧ Tried U i live n filelock w ∧ w.lastId i = n
  | _, w => U.LiveOk i live w

/-- After `last_id_ ++` the lock object goes. -/
theorem giveUp_kept (hsem : U.KeptCalls sem) {self : FileLock} {α : Type} (a : α) :
    U.discipline.Triple sem i (Tried U i live n self)
      (Prog.call .incLastId fun _ => (self.destroy >>= fun _ => (pure a : Sys α)))
      fun a' w => a' = a ∧ U.LiveOk i live w := by
  apply quiet_call (o := .incLastId) hsem (held_tried i live n self) trivial
  intro _
  apply Discipline.Triple.bind (destroy_kept hsem)
  intro _
  exact Discipline.Triple.ret fun _ _ h => ⟨rfl, h⟩

/-- The first half of a pass gets the lock, or makes its directory, or goes on.
SOURCE: bundle.cc:479-502 -/
theorem lockOrMakeDir_kept (hsem : U.KeptCalls sem) (hn : IsId n) :
    U.discipline.Triple sem i (fun w => U.LiveOk i live w ∧ w.lastId i = n)
      (lockOrMakeDir L.lock_dir (lockFile L.lock_dir n)) (LockKept U i live n) := by
  unfold lockOrMakeDir
  apply Discipline.Triple.bind (tryLock_kept hsem hn rfl)
  intro filelock
  apply Discipline.Triple.ite
  · intro hlocked
    exact Discipline.Triple.ret fun _ _ h => ⟨hlocked, h⟩
  · intro _
    apply Discipline.Triple.bind
    · exact still_triple hsem (held_tried i live n filelock)
        ((checkDir_calls L.lock_dir).mono still_of_dirCall)
    intro made
    apply Discipline.Triple.ite
    · intro _ w hinv htried
      refine Discipline.Triple.bind (tryLock_kept hsem hn htried.1.lockfile) ?_
        w hinv ⟨htried.1.liveOk, htried.2⟩
      intro filelock'
      apply Discipline.Triple.ite
      · intro hlocked
        exact Discipline.Triple.ret fun _ _ h => ⟨hlocked, h⟩
      · intro _
        apply (giveUp_kept hsem LockStep.again).conseq
        · intro w _ h
          exact h.1
        · rintro _ w _ ⟨rfl, h⟩
          exact h
    · intro _
      apply Discipline.Triple.bind ((destroy_kept hsem).pre fun _ _ h => h.1)
      intro _
      exact Discipline.Triple.ret fun _ _ h => h

/-! ## The bundle file -/

/-- The file of a bundle is there, and a record of the size may be put at the offset. -/
def Placed (U : Upkeep L) (l : Loc) (size offset : ℕ) (w : World ι ι) : Prop :=
  U.Standing l (U.Fits .fresh offset size) w

/-- A bundle of the id is being made: its file is empty, the others of the id are
as they should be. -/
structure Making (U : Upkeep L) (i : ι) (live : List LiveWriter) (n : ℤ) (l : Loc)
    (w : World ι ι) : Prop where
  liveOk : U.LiveOk i live w
  fresh : ∀ lw ∈ live, lw.writer.info_.id ≠ n
  holds : w.holds i (L.lockLoc n) = true
  others : ∀ m, U.Bundle n m → m ≠ l → U.Good (w.tree.content m) (w.log m)
  empty : w.tree.content l = some []
  nothing : U.Good none (w.log l)

variable {l : Loc} {filelock : FileLock} {p : Bytes}

omit [DecidableEq ι] in
/-- A bundle in the making is held. -/
theorem held_making (hl : U.Bundle n l) : U.Held i (Making U i live n l) := by
  intro w w' hk h
  have hkept := hk.bundle n l trivial h.holds hl
  refine ⟨held_liveOk i live w w' hk h.liveOk, h.fresh, hk.holds n trivial h.holds, ?_, ?_, ?_⟩
  · intro m hm hne
    obtain ⟨hcontent, hlog⟩ := hk.bundle n m trivial h.holds hm
    rw [hcontent, hlog]
    exact h.others m hm hne
  · rw [hkept.1]
    exact h.empty
  · rw [hkept.2]
    exact h.nothing

omit [DecidableEq ι] in
/-- A fact about a bundle of the id stays while the lock is held. -/
theorem held_bundle (hl : U.Bundle n l) (hlocked : filelock.locked_ = true)
    (Q : Option Bytes → History → Prop) :
    U.Held i fun w => Tried U i live n filelock w ∧ Q (w.tree.content l) (w.log l) := by
  intro w w' hk h
  obtain ⟨hcontent, hlog⟩ := hk.bundle n l trivial (h.1.own hlocked).holds hl
  refine ⟨held_tried i live n filelock w w' hk h.1, ?_⟩
  rw [hcontent, hlog]
  exact h.2

omit [DecidableEq ι] in
/-- A bundle that stands under a lock of the process is held. -/
theorem held_standing (hl : U.Bundle n l) (hlocked : filelock.locked_ = true)
    (Q : Bytes → History → Prop) :
    U.Held i fun w => Tried U i live n filelock w ∧ U.Standing l Q w :=
  fun w w' hk h => ⟨held_tried i live n filelock w w' hk h.1,
    h.2.keeps hk trivial (h.1.own hlocked).holds hl⟩

omit [DecidableEq ι] in
/-- A place in a bundle under a lock of the process is held. -/
theorem held_placed (hl : U.Bundle n l) (hlocked : filelock.locked_ = true) (size offset : ℕ) :
    U.Held i fun w => Tried U i live n filelock w ∧ Placed U l size offset w :=
  held_standing hl hlocked _

/-- The file is emptied. -/
theorem truncated_making (hl : U.Bundle n l) (hlocked : filelock.locked_ = true)
    {w w' : World ι ι} {fd : Fd} {file : Bytes} (hfile : canon L.cwd file = l) (hinv : U.Inv w)
    (h : Tried U i live n filelock w ∧ U.Good none (w.log l))
    (hcall : World.Sem L.cwd id i (.openTrunc file) w (some fd) w') :
    U.discipline.Allowed i w w' ∧ fd = ⟨l, 0⟩ ∧ w'.lastId = w.lastId ∧
      Making U i live n l w' := by
  have hown := h.1.own hlocked
  obtain ⟨t, hopen, rfl⟩ := hcall
  obtain ⟨rfl, hcan, rfl⟩ := Tree.openTrunc_ok hopen
  rw [hfile] at hcan ⊢
  have hchange := fileChange_setFile i w l []
  have hempty := Tree.content_setFile_self hcan []
  have hseen : U.Seen ((w.tree.setFile l []).content l) (w.log l) := by
    rw [hempty]
    exact U.seen_emptied _ h.2
  refine ⟨hchange.allowed hinv hown.holds hl hseen, rfl, rfl, ?_, h.1.fresh hlocked, hown.holds,
    ?_, hempty, h.2⟩
  · exact h.1.liveOk.keeps (hchange.keeps hl) (h.1.fresh hlocked)
  · intro m hm hne
    rw [hchange.content m hne]
    exact hown.good m hm

omit [DecidableEq ι] in
/-- The bundles of the id when some of the header has been accepted. -/
theorem Making.good {header : Bytes} {k : ℕ} {w w' : World ι ι} (h : Making U i live n l w)
    (hlen : header.length = kBundleHeaderSize) (hheader : U.Header header k)
    (hcontent : w'.tree.content l = some (header.take k)) (hlog : w'.log = w.log)
    (hothers : ∀ m, m ≠ l → w'.tree.content m = w.tree.content m) (m : Loc)
    (hm : U.Bundle n m) : U.Good (w'.tree.content m) (w'.log m) := by
  rw [hlog]
  by_cases hne : m = l
  · rw [hne, hcontent]
    exact U.good_created header k _ hlen hheader h.nothing
  · rw [hothers m hne]
    exact h.others m hm hne

/-- The header is written. -/
theorem header_written (hl : U.Bundle n l) {w w' : World ι ι} {header : Bytes} {count : ℤ}
    (hlen : header.length = kBundleHeaderSize) (hheader : U.Header header count.toNat)
    (hinv : U.Inv w) (h : Making U i live n l w)
    (hcall : World.Sem L.cwd id i (.write ⟨l, 0⟩ .bundleHeader header) w count w') :
    U.discipline.Allowed i w w' ∧ w'.lastId = w.lastId ∧ U.LiveOk i live w' ∧
      U.Own i n w' ∧ (int32 count = kBundleHeaderSize →
        w'.tree.content l = some header ∧ U.Good none (w'.log l)) := by
  rcases hcall with ⟨k, rfl, hle, -, rfl⟩ | ⟨rfl, e, -, rfl⟩
  · rw [Int.toNat_natCast] at hheader
    have hchange := fileChange_wrote i w ⟨l, 0⟩ .bundleHeader header k
    have hcontent : (w.wrote ⟨l, 0⟩ .bundleHeader header k).tree.content l =
        some (header.take k) := by
      show (w.tree.write ⟨l, 0⟩ (header.take k)).content l = some (header.take k)
      rw [Tree.content_write_self h.empty]
      exact congrArg some (ByteSeq.overwrite_length 0 [] _)
    have hgood := h.good hlen hheader hcontent rfl hchange.content
    refine ⟨hchange.allowed hinv h.holds hl (U.seen_of_good _ _ (hgood l hl)), rfl,
      h.liveOk.keeps (hchange.keeps hl) h.fresh, ⟨hl.1, h.holds, hgood⟩, fun hall => ?_⟩
    have hbound : k < 2 ^ 31 := by
      unfold kBundleHeaderSize at hlen
      omega
    rw [int32_natCast hbound] at hall
    refine ⟨?_, h.nothing⟩
    rw [hcontent, List.take_of_length_le (by omega)]
  · have hquiet := QuietStep.failed i w e
    have hgood : ∀ m, U.Bundle n m →
        U.Good ((w.setErrno i e).tree.content m) ((w.setErrno i e).log m) :=
      h.good hlen hheader h.empty rfl fun _ _ => rfl
    refine ⟨hquiet.allowed hinv, rfl, held_liveOk i live _ _ (hquiet.keeps _) h.liveOk,
      ⟨hl.1, h.holds, hgood⟩, fun hall => ?_⟩
    have hminus : int32 (-1) ≠ kBundleHeaderSize := by decide
    exact absurd hall hminus

/-- `CreateBundle` leaves a header, or a prefix of one that nobody takes for a bundle.
SOURCE: bundle.cc:414-454 -/
theorem createBundle_kept (hsem : U.KeptCalls sem) (hl : U.Bundle n l)
    (hlocked : filelock.locked_ = true) (hlockfile : filelock.lockfile_ = lockFile L.lock_dir n)
    {file : Bytes} (hfile : canon L.cwd file = l) (size : ℕ) :
    U.discipline.Triple sem i
      (fun w => (Tried U i live n filelock w ∧ U.Good none (w.log l)) ∧ w.lastId i = n)
      (createBundle file)
      fun created w => Tried U i live n filelock w ∧ w.lastId i = n ∧
        (created = true → Placed U l size kBundleHeaderSize w) := by
  unfold createBundle
  apply Discipline.Triple.call (R := fun fd w =>
    match fd with
    | none => Tried U i live n filelock w ∧ w.lastId i = n
    | some fd => fd = ⟨l, 0⟩ ∧ Making U i live n l w ∧ w.lastId i = n)
    (held_bundle hl hlocked fun _ log => U.Good none log).stable_id
  · intro w fd w' hinv h hcall
    cases fd with
    | none =>
        have hquiet : QuietStep i w w' := .of_refused (hsem.calls hcall)
        obtain ⟨e, -, rfl⟩ := hsem.calls hcall
        exact ⟨hquiet.allowed hinv, held_tried i live n filelock _ _ (hquiet.keeps _) h.1.1, h.2⟩
    | some fd =>
        obtain ⟨hallowed, hfd, hid, hmaking⟩ :=
          truncated_making hl hlocked hfile hinv h.1 (hsem.calls hcall)
        exact ⟨hallowed, hfd, hmaking, (congrFun hid i).trans h.2⟩
  · intro fd
    cases fd with
    | none =>
        apply Discipline.Triple.ret
        intro w _ h
        exact ⟨h.1, h.2, fun hcreated => absurd hcreated Bool.false_ne_true⟩
    | some fd =>
        apply Discipline.Triple.intro
        rintro rfl
        apply still_call (o := .localtime) hsem (held_making hl) ⟨trivial, by simp, by simp⟩
        intro now_str
        apply Discipline.Triple.call (R := fun (ret : ℤ) w =>
          (Tried U i live n filelock w ∧ (int32 ret = kBundleHeaderSize →
            Tried U i live n filelock w ∧ Placed U l size kBundleHeaderSize w)) ∧ w.lastId i = n)
          (held_making hl).stable_id
        · intro w count w' hinv h hcall
          have hlen := length_bundleHeader now_str
          obtain ⟨hallowed, hid, hlive, hown, hwhole⟩ :=
            header_written hl hlen (hsem.header hcall) hinv h.1 (hsem.calls hcall)
          have htried : Tried U i live n filelock w' :=
            ⟨hlive, hlockfile, fun _ => h.1.fresh, fun _ => hown⟩
          refine ⟨hallowed, ⟨htried, fun hall => ⟨htried, ?_⟩⟩, (congrFun hid i).trans h.2⟩
          obtain ⟨hcontent, hnothing⟩ := hwhole hall
          exact .inr ⟨_, hcontent, U.fits_created _ _ size hlen hnothing⟩
        · intro ret
          apply still_call (o := .close ⟨l, 0⟩) hsem
            ((held_tried i live n filelock).and
              (held_placed hl hlocked size kBundleHeaderSize).imp)
            ⟨trivial, by simp, by simp⟩
          intro _
          apply Discipline.Triple.ret
          intro w _ h
          exact ⟨h.1.1, h.2, fun hcreated => (h.1.2 (of_decide_eq_true hcreated)).2⟩

/-- What the second and third part of a pass leave. -/
def PlaceKept (U : Upkeep L) (i : ι) (live : List LiveWriter) (n : ℤ) (filelock : FileLock)
    (size : ℕ) (file : Bytes) : PlaceStep → World ι ι → Prop
  | .placed file' offset, w =>
      file' = file ∧ (Tried U i live n filelock w ∧ Placed U (canon L.cwd file) size offset w) ∧
        w.lastId i = n
  | _, w => U.LiveOk i live w

/-- The lock object goes, and `Allocate` returns NULL. -/
theorem null_kept (hsem : U.KeptCalls sem) (size : ℕ) (file : Bytes) :
    U.discipline.Triple sem i (Tried U i live n filelock)
      (filelock.destroy >>= fun _ => (pure .null : Sys PlaceStep))
      (PlaceKept U i live n filelock size file) := by
  apply Discipline.Triple.bind (destroy_kept hsem)
  intro _
  exact Discipline.Triple.ret fun _ _ h => h

/-- A missing bundle is made, with the place behind its header.
SOURCE: bundle.cc:518-539 -/
theorem createMissing_kept (hsem : U.KeptCalls sem) {file : Bytes}
    (hl : U.Bundle n (canon L.cwd file)) (hlocked : filelock.locked_ = true)
    (hlockfile : filelock.lockfile_ = lockFile L.lock_dir n) (size : ℕ) :
    U.discipline.Triple sem i
      (fun w => (Tried U i live n filelock w ∧ U.Good none (w.log (canon L.cwd file))) ∧
        w.lastId i = n)
      (createMissing file filelock) (PlaceKept U i live n filelock size file) := by
  unfold createMissing
  apply Discipline.Triple.bind
  · exact still_triple hsem (held_bundle hl hlocked fun _ log => U.Good none log)
      ((checkDir_calls _).mono still_of_dirCall)
  intro made
  apply Discipline.Triple.ite
  · intro _
    apply Discipline.Triple.bind (createBundle_kept hsem hl hlocked hlockfile rfl size)
    intro created
    apply Discipline.Triple.ite
    · intro hcreated
      apply Discipline.Triple.ret
      intro w _ h
      exact ⟨rfl, ⟨h.1, h.2.2 hcreated⟩, h.2.1⟩
    · intro _
      exact (null_kept hsem size file).pre fun _ _ h => h.1
  · intro _
    exact (null_kept hsem size file).pre fun _ _ h => h.1.1

/-- What `lstat` says of the bundle: how long it is, or, if its error number says
that there is none, that nothing is lost by making it. -/
def StatKept (U : Upkeep L) (l : Loc) (stat : Option ℕ) (errno : ℕ) (w : World ι ι) : Prop :=
  match stat with
  | some st_size => U.Standing l (fun c _ => c.length = st_size ∧ st_size < 2 ^ 63) w
  | none => errno = ENOENT → U.Good none (w.log l)

omit [DecidableEq ι] in
/-- What `lstat` has answered of a bundle under a lock of the process is held. -/
theorem held_stat (hl : U.Bundle n l) (hlocked : filelock.locked_ = true) (stat : Option ℕ)
    (errno : ℕ) :
    U.Held i fun w => Tried U i live n filelock w ∧ StatKept U l stat errno w := by
  cases stat with
  | some st_size => exact held_standing hl hlocked fun c _ => c.length = st_size ∧ st_size < 2 ^ 63
  | none => exact held_bundle hl hlocked fun _ log => errno = ENOENT → U.Good none log

/-- `lstat` of the bundle of the id. -/
theorem lstat_kept (hsem : U.KeptCalls sem) (hp : U.allowed p = true)
    (hl : U.Bundle n (L.bundleLoc p n)) (hlocked : filelock.locked_ = true) {w w' : World ι ι}
    {stat : Option ℕ} (hinv : U.Inv w) (h : Tried U i live n filelock w ∧ w.lastId i = n)
    (hcall : sem i (.lstat (bundleFile L.setting L.storage p n)) w stat w') :
    U.discipline.Allowed i w w' ∧
      (Tried U i live n filelock w' ∧ StatKept U (L.bundleLoc p n) stat (w'.errno i) w') ∧
        w'.lastId i = n := by
  have hquiet := hsem.quiet (o := .lstat _) trivial hcall
  have htried := held_tried i live n filelock w w' (hquiet.keeps _) h.1
  refine ⟨hquiet.allowed hinv, ⟨htried, ?_⟩, ?_⟩
  · cases stat with
    | some size =>
        obtain ⟨hlt, rfl, ⟨c, hc, rfl⟩ | hdir⟩ := hsem.calls hcall
        · exact .inr ⟨c, Tree.content_eq_some.mpr (Tree.stat_ok hc), rfl, hlt⟩
        · exact .inl ⟨hsem.file hcall hdir, Tree.stat_ok hdir⟩
    | none =>
        obtain ⟨e, herror, rfl⟩ := hsem.calls hcall
        intro herrno
        change Function.update w.errno i e i = ENOENT at herrno
        rw [Function.update_self] at herrno
        subst herrno
        rcases herror with hmissing | hspurious
        · exact U.good_missing _ p n _ hinv.grown hp hmissing
            ((h.1.own hlocked).good _ hl)
        · exact absurd rfl hspurious.2.1
  · rw [lastId_of_still (o := .lstat (bundleFile L.setting L.storage p n))
      ⟨trivial, by simp, by simp⟩ (hsem.calls hcall).effect]
    exact h.2

omit [DecidableEq ι] in
/-- The bundle that was found has room for a record of the size. -/
theorem placed_found {size st_size : ℕ} (hsize : U.sizes size) (hl : U.Bundle n l)
    (hlocked : filelock.locked_ = true) (hroom : ¬ exceeds L.setting size (some st_size))
    {w : World ι ι} (htried : Tried U i live n filelock w)
    (hfound : U.Standing l (fun c _ => c.length = st_size ∧ st_size < 2 ^ 63) w) :
    Placed U l size st_size w := by
  rcases hfound with hdir | ⟨c, hc, rfl, hlt⟩
  · exact .inl hdir
  · have hgood := (htried.own hlocked).good l hl
    rw [hc] at hgood
    exact .inr ⟨c, hc, U.fits_found c _ size hsize hlt hroom hgood⟩

/-- The second half of a pass gives the place behind the bundle, if the record fits.
SOURCE: bundle.cc:504-550 -/
theorem checkBundle_kept (hsem : U.KeptCalls sem) {size : ℕ} (hsize : U.sizes size)
    (hp : U.allowed p = true)
    (hl : U.Bundle n (L.bundleLoc p n)) (hlocked : filelock.locked_ = true)
    (hlockfile : filelock.lockfile_ = lockFile L.lock_dir n) :
    U.discipline.Triple sem i (fun w => Tried U i live n filelock w ∧ w.lastId i = n)
      (checkBundle L.setting size (bundleFile L.setting L.storage p n) filelock)
      (PlaceKept U i live n filelock size (bundleFile L.setting L.storage p n)) := by
  unfold checkBundle
  apply Discipline.Triple.call (R := fun stat w =>
    (Tried U i live n filelock w ∧ StatKept U (L.bundleLoc p n) stat (w.errno i) w) ∧
      w.lastId i = n) (held_tried i live n filelock).stable_id
  · intro w stat w' hinv h hcall
    exact lstat_kept hsem hp hl hlocked hinv h hcall
  · intro stat
    apply Discipline.Triple.ite
    · intro _
      apply (giveUp_kept hsem PlaceStep.again).conseq
      · intro w _ h
        exact h.1.1
      · rintro _ w _ ⟨rfl, h⟩
        exact h
    · intro hroom
      -- `errno` is still the one that `lstat` set
      apply Discipline.Triple.call (R := fun stat_errno w =>
        (Tried U i live n filelock w ∧ StatKept U (L.bundleLoc p n) stat stat_errno w) ∧
          w.lastId i = n)
      · intro w w' hinv hinv' hframe h
        have hkept := (held_stat hl hlocked stat (w.errno i)).stable_id w w' hinv hinv' hframe h
        rw [hframe.errno]
        exact hkept
      · intro w stat_errno w' hinv h hcall
        have hquiet := hsem.quiet (o := .errno) trivial hcall
        obtain ⟨rfl, rfl⟩ := hsem.calls hcall
        exact ⟨hquiet.allowed hinv, h⟩
      · intro stat_errno
        cases stat with
        | some st_size =>
            apply Discipline.Triple.ret
            intro w _ h
            exact ⟨rfl, ⟨h.1.1, placed_found hsize hl hlocked hroom h.1.1 h.1.2⟩, h.2⟩
        | none =>
            apply Discipline.Triple.ite
            · intro henoent
              apply (createMissing_kept hsem hl hlocked hlockfile size).pre
              intro w _ h
              exact ⟨⟨h.1.1, h.1.2 henoent⟩, h.2⟩
            · intro _
              apply Discipline.Triple.pre (P := Tried U i live n filelock) ?_ fun _ _ h => h.1.1
              apply quiet_call (o := .incLastId) hsem (held_tried i live n filelock) trivial
              intro _
              exact Discipline.Triple.ret fun _ _ h => h.liveOk

/-! ## One pass -/

/-- A later read of `last_id_` finds the id of the lock. -/
theorem readId_kept (hsem : U.KeptCalls sem) (hP : U.Held i P) {α : Type} {site : LastIdSite}
    {k : ℤ → Sys α} {Q : α → World ι ι → Prop}
    (hk : U.discipline.Triple sem i (fun w => P w ∧ w.lastId i = n) (k n) Q) :
    U.discipline.Triple sem i (fun w => P w ∧ w.lastId i = n) (.call (.getLastId site) k) Q := by
  apply Discipline.Triple.call (R := fun m w => m = n ∧ P w ∧ w.lastId i = n) hP.stable_id
  · intro w m w' hinv h hcall
    have hquiet := hsem.quiet (o := .getLastId site) trivial hcall
    have hid := lastId_of_still (o := .getLastId site) ⟨trivial, by simp, by simp⟩
      (hsem.calls hcall).effect
    obtain ⟨rfl, -⟩ := hsem.calls hcall
    exact ⟨hquiet.allowed hinv, h.2, hP w w' (hquiet.keeps _) h.1, hid.trans h.2⟩
  · intro m
    apply Discipline.Triple.intro
    rintro rfl
    exact hk

/-- What a pass leaves. -/
def PassKept (U : Upkeep L) (i : ι) (live : List LiveWriter) : Pass → World ι ι → Prop
  | .writer writer, w => U.LiveOk i (live ++ [{ writer := writer }]) w
  | _, w => U.LiveOk i live w

omit [DecidableEq ι] in
/-- The writer that is returned is one more live one. -/
theorem liveOk_newWriter {call : AllocateCall} {offset : ℕ} {w : World ι ι}
    (hp : U.allowed p = true) (hlocked : filelock.locked_ = true)
    (htried : Tried U i live n filelock w)
    (hplaced : Placed U (L.bundleLoc p n) call.size offset w) :
    U.LiveOk i (live ++ [⟨newWriter L.setting call filelock
      (bundleFile L.setting L.storage p n) offset n, .fresh⟩]) w := by
  have hown := htried.own hlocked
  constructor
  · refine List.pairwise_append.mpr ⟨htried.liveOk.apart, List.pairwise_singleton _ _, ?_⟩
    intro a ha b hb
    rw [List.mem_singleton] at hb
    subst hb
    exact htried.fresh hlocked a ha
  · intro lw hlw
    rcases List.mem_append.mp hlw with hlw | hlw
    · exact htried.liveOk.each lw hlw
    · rw [List.mem_singleton] at hlw
      subst hlw
      exact ⟨p, filelock, ⟨hp, rfl, hlocked, htried.lockfile, rfl⟩, hown, hplaced⟩

/-- A pass leaves the writers it found, and may add one.
SOURCE: bundle.cc:472-569 -/
theorem allocatePass_kept (hsem : U.KeptCalls sem) {call : AllocateCall} (loop_count : ℤ)
    (hstorage : call.storage = L.storage) (hdir : call.lockDir = L.lock_dir)
    (hp : U.allowed call.bundlePrefix = true) (hsize : U.sizes call.size) :
    U.discipline.Triple sem i (U.LiveOk i live) (allocatePass L.setting call loop_count)
      (PassKept U i live) := by
  unfold allocatePass lockBundle placeBundle
  rw [hdir, hstorage]
  apply Discipline.Triple.bind
  · exact quiet_triple hsem (held_liveOk i live)
      ((chooseId_calls L.setting loop_count).mono quiet_of_idCall)
  intro _
  apply Discipline.Triple.bind (R := fun step w =>
    ∃ n, IsId n ∧ LockKept U i live n step w)
  · apply Discipline.Triple.call (R := fun n w => IsId n ∧ U.LiveOk i live w ∧ w.lastId i = n)
      (held_liveOk i live).stable
    · intro w n w' hinv h hcall
      have hquiet := hsem.quiet (o := .getLastId .lockName) trivial hcall
      obtain ⟨rfl, rfl⟩ := hsem.calls hcall
      exact ⟨hquiet.allowed hinv, hinv.ids i, held_liveOk i live _ _ (hquiet.keeps _) h, rfl⟩
    · intro n
      apply Discipline.Triple.intro
      intro hn
      exact (lockOrMakeDir_kept hsem hn).post fun _ _ _ h => ⟨n, hn, h⟩
  intro step
  apply Discipline.Triple.exists_pre
  intro n
  apply Discipline.Triple.intro
  intro hn
  cases step with
  | null => exact Discipline.Triple.ret fun _ _ h => h
  | again => exact Discipline.Triple.ret fun _ _ h => h
  | locked filelock =>
      apply Discipline.Triple.intro
      intro hlocked w hinv htried
      have hlockfile := htried.1.lockfile
      have hl : U.Bundle n (L.bundleLoc call.bundlePrefix n) := ⟨hn, _, hp, rfl⟩
      refine Discipline.Triple.bind (P := fun w => Tried U i live n filelock w ∧ w.lastId i = n)
        (R := PlaceKept U i live n filelock call.size
          (bundleFile L.setting L.storage call.bundlePrefix n)) ?_ ?_ w hinv htried
      · apply readId_kept hsem (held_tried i live n filelock)
        exact checkBundle_kept hsem hsize hp hl hlocked hlockfile
      · intro place
        cases place with
        | null => exact Discipline.Triple.ret fun _ _ h => h
        | again => exact Discipline.Triple.ret fun _ _ h => h
        | placed file offset =>
            apply Discipline.Triple.intro
            rintro rfl
            apply readId_kept hsem (held_placed hl hlocked call.size offset)
            apply Discipline.Triple.ret
            intro w _ h
            exact liveOk_newWriter hp hlocked h.1.1 h.1.2

end Upkeep

end BundleStore
