import BundleStore.Analysis.Store

set_option autoImplicit false

/-!
# The steps on a kept storage

Each kind of call keeps the invariant and leaves the others' bundles alone: the
calls that change no file, the two that make and remove a lock file, and the ones
that change a bundle of an id whose lock the process holds.
-/

namespace BundleStore

open Machine Posix

namespace Upkeep

variable {L : Layout} {U : Upkeep L} {ι : Type} [DecidableEq ι]
variable {i : ι} {w w' : World ι ι} {n : ℤ}

/-! ## Calls that change no file -/

/-- The calls that change no file; ids that are set are `int`s. -/
def Quiet : SysCall → Prop
  | .openExcl _ | .openTrunc _ | .write _ _ _ | .unlink _ | .completed _ _ _ => False
  | .setLastId id => IsId id
  | _ => True

/-- What they do to the state. -/
structure QuietStep (i : ι) (w w' : World ι ι) : Prop where
  content : ∀ l, w'.tree.content l = w.tree.content l
  grows : w.tree.Grows w'.tree
  holds : w'.holds = w.holds
  log : w'.log = w.log
  errno_ne : ∀ j, j ≠ i → w'.errno j = w.errno j
  lastId_ne : ∀ j, j ≠ i → w'.lastId j = w.lastId j
  ids : IsId (w.lastId i) → IsId (w'.lastId i)

/-- A call that fails changes no file. -/
theorem QuietStep.failed (i : ι) (w : World ι ι) (e : ℕ) : QuietStep i w (w.setErrno i e) where
  content _ := rfl
  grows := Tree.Grows.refl _
  holds := rfl
  log := rfl
  errno_ne _ hj := Function.update_of_ne hj _ _
  lastId_ne _ _ := rfl
  ids h := h

/-- A call that is refused changes no file. -/
theorem QuietStep.of_refused {α : Type} {r : Except ℕ α} (h : w.Refused i r w') :
    QuietStep i w w' := by
  obtain ⟨e, -, rfl⟩ := h
  exact .failed i w e

/-- A quiet call changes no file. -/
theorem quietStep_of_effect {o : SysCall} (ho : Quiet o)
    (h : World.Effect L.cwd id i w o w') : QuietStep i w w' := by
  have hgrows := h.grows
  have herrno := fun j (hj : j ≠ i) => h.errno_ne hj
  have hlast := fun j (hj : j ≠ i) => h.lastId_ne (p := j) hj
  cases h with
  | unchanged => exact ⟨fun _ => rfl, hgrows, rfl, rfl, herrno, hlast, fun h => h⟩
  | failed e => exact .failed i w e
  | created h => exact absurd ho id
  | truncated h => exact absurd ho id
  | wrote n => exact absurd ho id
  | removed h => exact absurd ho id
  | noted => exact absurd ho id
  | madeDir h =>
      obtain ⟨m, rfl⟩ := Tree.mkdir_ok h
      exact ⟨fun l => Tree.content_setDir _ _ _, hgrows, rfl, rfl, herrno, hlast, fun h => h⟩
  | readId site =>
      have hsame : ∀ w' : World ι ι, w' = w.readLastId i site (w.lastId (id i)) →
          w'.holds = w.holds ∧ w'.log = w.log ∧ w'.lastId = w.lastId := by
        rintro _ rfl
        unfold World.readLastId
        split <;> exact ⟨rfl, rfl, rfl⟩
      obtain ⟨hholds, hlog, hid⟩ := hsame _ rfl
      refine ⟨fun l => by rw [World.readLastId_tree], hgrows, hholds, hlog, herrno, hlast, ?_⟩
      rw [hid]
      exact fun h => h
  | setId m =>
      refine ⟨fun _ => rfl, hgrows, rfl, rfl, herrno, hlast, fun _ => ?_⟩
      show IsId (Function.update w.lastId i m i)
      rw [Function.update_self]
      exact ho
  | incId =>
      refine ⟨fun _ => rfl, hgrows, rfl, rfl, herrno, hlast, fun _ => ?_⟩
      show IsId (Function.update w.lastId i _ i)
      rw [Function.update_self]
      exact isId_int32 _

omit [DecidableEq ι] in
/-- A step that changes no file keeps every writer. -/
theorem QuietStep.keeps (h : QuietStep i w w') (H : ℤ → Prop) : U.Keeps i H w w' := by
  refine ⟨h.grows, ?_, ?_⟩
  · intro m _ hheld
    rw [h.holds]
    exact hheld
  · intro m l _ _ _
    exact ⟨h.content l, congrFun h.log l⟩

/-- A step that changes no file is allowed. -/
theorem QuietStep.allowed (h : QuietStep i w w') (hinv : U.Inv w) :
    U.discipline.Allowed i w w' := by
  constructor
  · constructor
    · exact hinv.grown.trans h.grows
    · intro p
      by_cases hp : p = i
      · rw [hp]
        exact h.ids (hinv.ids i)
      · rw [h.lastId_ne p hp]
        exact hinv.ids p
    · rw [h.holds]
      intro j m hheld
      rw [h.content]
      exact hinv.file_of_holds j m hheld
    · rw [h.holds]
      exact hinv.exclusive
    · rw [h.holds, h.log]
      intro m l hfree hl
      rw [h.content]
      exact hinv.good m l hfree hl
    · rw [h.log]
      intro m l hl
      rw [h.content]
      exact hinv.seen m l hl
  · intro j hj
    exact ⟨congrFun h.holds j, h.errno_ne j hj, h.lastId_ne j hj, h.grows,
      fun m l _ _ => ⟨h.content l, congrFun h.log l⟩⟩

/-! ## The lock file -/

/-- The lock file of an id has come or gone, by a call of process `i`. -/
structure LockChange (L : Layout) (i : ι) (n : ℤ) (held : Bool) (w w' : World ι ι) : Prop where
  content : ∀ l, l ≠ L.lockLoc n → w'.tree.content l = w.tree.content l
  grows : w.tree.Grows w'.tree
  errno : w'.errno = w.errno
  lastId : w'.lastId = w.lastId
  log : w'.log = w.log
  holds_self : w'.holds i (L.lockLoc n) = held
  holds_other : ∀ j, j ≠ i → w'.holds j = w.holds j
  holds_ne : ∀ j m, m ≠ n → w'.holds j (L.lockLoc m) = w.holds j (L.lockLoc m)

/-- A tree that differs at the lock is a change of the lock. -/
theorem lockChange_setHolds {t : Tree} (held : Bool)
    (hcontent : ∀ l, l ≠ L.lockLoc n → t.content l = w.tree.content l)
    (hgrows : w.tree.Grows t) :
    LockChange L i n held w ((w.setTree t).setHolds i (L.lockLoc n) held) where
  content := hcontent
  grows := hgrows
  errno := rfl
  lastId := rfl
  log := rfl
  holds_self := World.setHolds_self _ _ _ _
  holds_other j hj := by
    funext l
    exact World.setHolds_ne _ _ (.inl hj)
  holds_ne j m hm :=
    World.setHolds_ne _ _ (.inr fun heq => hm (L.lockLoc_injective heq))

namespace LockChange

variable {held : Bool}

omit [DecidableEq ι] in
/-- A change of a lock keeps the writers of the others. -/
theorem keeps (h : LockChange L i n held w w') : U.Keeps i (· ≠ n) w w' := by
  refine ⟨h.grows, ?_, ?_⟩
  · intro m hm hheld
    rw [h.holds_ne i m hm]
    exact hheld
  · intro m l _ _ hl
    exact ⟨h.content l (hl.ne_lockLoc n), congrFun h.log l⟩

omit [DecidableEq ι] in
/-- A change of a lock is in the frame of the others. -/
theorem frame (h : LockChange L i n held w w') {j : ι} (hj : j ≠ i) : U.Frame j w w' :=
  ⟨h.holds_other j hj, congrFun h.errno j, congrFun h.lastId j, h.grows,
    fun _ l _ hl => ⟨h.content l (hl.ne_lockLoc n), congrFun h.log l⟩⟩

/-- Nobody else holds the lock afterwards, if nobody else did before. -/
theorem eq_of_holds (h : LockChange L i n held w w')
    (halone : ∀ j, j ≠ i → w.holds j (L.lockLoc n) = false) {j : ι}
    (hj : w'.holds j (L.lockLoc n) = true) : j = i := by
  by_contra hji
  rw [h.holds_other j hji, halone j hji] at hj
  cases hj

/-- What is left to show of the invariant: that the file is there for a holder,
and that the bundles are as they should be when there is none. -/
theorem inv (h : LockChange L i n held w w') (hinv : U.Inv w)
    (halone : ∀ j, j ≠ i → w.holds j (L.lockLoc n) = false)
    (hfile : held = true → (w'.tree.content (L.lockLoc n)).isSome = true)
    (hgood : held = false → ∀ l, U.Bundle n l → U.Good (w.tree.content l) (w.log l)) :
    U.Inv w' := by
  constructor
  · exact hinv.grown.trans h.grows
  · rw [h.lastId]
    exact hinv.ids
  · intro j m hheld
    by_cases hm : m = n
    · subst hm
      have hji := h.eq_of_holds halone hheld
      subst hji
      exact hfile (h.holds_self.symm.trans hheld)
    · rw [h.content _ fun heq => hm (L.lockLoc_injective heq)]
      rw [h.holds_ne j m hm] at hheld
      exact hinv.file_of_holds j m hheld
  · intro j k m hj hk
    by_cases hm : m = n
    · subst hm
      rw [h.eq_of_holds halone hj, h.eq_of_holds halone hk]
    · rw [h.holds_ne j m hm] at hj
      rw [h.holds_ne k m hm] at hk
      exact hinv.exclusive j k m hj hk
  · intro m l hnobody hl
    rw [h.content l (hl.ne_lockLoc n), h.log]
    by_cases hm : m = n
    · subst hm
      exact hgood (h.holds_self.symm.trans (hnobody i)) l hl
    · exact hinv.good m l (fun j => (h.holds_ne j m hm).symm.trans (hnobody j)) hl
  · intro m l hl
    rw [h.content l (hl.ne_lockLoc n), h.log]
    exact hinv.seen m l hl

end LockChange

/-- Creating the lock file: the bundles of its id are as they should be. -/
theorem lock_created (hinv : U.Inv w) (hn : IsId n) {fd : Fd}
    (hsem : World.Sem L.cwd id i (.openExcl (lockFile L.lock_dir n)) w (some fd) w') :
    U.discipline.Allowed i w w' ∧ U.Keeps i (· ≠ n) w w' ∧
      w.holds i (L.lockLoc n) = false ∧ U.Own i n w' := by
  obtain ⟨t, hopen, rfl⟩ := hsem
  obtain ⟨rfl, hnone, hcan, rfl⟩ := Tree.openExcl_ok hopen
  have hfree : ∀ j, w.holds j (L.lockLoc n) = false := by
    intro j
    by_contra hj
    have hfile := hinv.file_of_holds j n (by simpa using hj)
    simp [Tree.content, Layout.lockLoc, hnone] at hfile
  have hchange : LockChange L i n true w
      ((w.setTree (w.tree.setFile (L.lockLoc n) [])).setHolds i (L.lockLoc n) true) :=
    lockChange_setHolds true (fun l hl => Tree.content_setFile_ne _ hl _)
      (Tree.grows_setFile _ _ _)
  refine ⟨⟨?_, fun j hj => hchange.frame hj⟩, hchange.keeps, hfree i, ?_⟩
  · apply hchange.inv hinv (fun j _ => hfree j)
    · intro _
      exact Option.isSome_iff_exists.mpr ⟨[], Tree.content_setFile_self hcan []⟩
    · intro hheld
      cases hheld
  · refine ⟨hn, hchange.holds_self, ?_⟩
    intro l hl
    have hcontent := hchange.content l (hl.ne_lockLoc n)
    have hgood := hinv.good n l hfree hl
    rw [← hcontent] at hgood
    exact hgood

/-- Removing the lock file of an id whose bundles are as they should be. -/
theorem lock_removed (hinv : U.Inv w) (hown : U.Own i n w) {removed : Bool}
    (hsem : World.Sem L.cwd id i (.unlink (lockFile L.lock_dir n)) w removed w') :
    U.discipline.Allowed i w w' ∧ U.Keeps i (· ≠ n) w w' := by
  cases removed with
  | false =>
      have hquiet : QuietStep i w w' := .of_refused hsem
      exact ⟨hquiet.allowed hinv, hquiet.keeps _⟩
  | true =>
      obtain ⟨t, hunlink, rfl⟩ := hsem
      have ht := Tree.unlink_ok hunlink
      subst ht
      have hchange : LockChange L i n false w
          ((w.setTree (w.tree.remove (L.lockLoc n))).setHolds i (L.lockLoc n) false) :=
        lockChange_setHolds false (fun l hl => Tree.content_remove_ne _ hl)
          (Tree.grows_remove _ _)
      refine ⟨⟨?_, fun j hj => hchange.frame hj⟩, hchange.keeps⟩
      apply hchange.inv hinv
      · intro j hj
        by_contra hheld
        exact hj (hinv.exclusive j i n (by simpa using hheld) hown.holds)
      · intro hheld
        cases hheld
      · intro _
        exact hown.good

/-! ## A bundle -/

/-- A call of process `i` changes one file. -/
structure FileChange (i : ι) (l : Loc) (w w' : World ι ι) : Prop where
  content : ∀ m, m ≠ l → w'.tree.content m = w.tree.content m
  log : ∀ m, m ≠ l → w'.log m = w.log m
  grows : w.tree.Grows w'.tree
  holds : w'.holds = w.holds
  errno_ne : ∀ j, j ≠ i → w'.errno j = w.errno j
  lastId : w'.lastId = w.lastId

namespace FileChange

variable {l : Loc}

omit [DecidableEq ι] in
/-- A change of a bundle keeps the writers of the others. -/
theorem keeps (h : FileChange i l w w') (hl : U.Bundle n l) : U.Keeps i (· ≠ n) w w' := by
  refine ⟨h.grows, ?_, ?_⟩
  · intro m _ hheld
    rw [h.holds]
    exact hheld
  · intro m l' hm _ hl'
    have hne : l' ≠ l := by
      rintro rfl
      exact hm (hl'.id_unique hl)
    exact ⟨h.content l' hne, h.log l' hne⟩

omit [DecidableEq ι] in
/-- The process that holds the lock of a bundle may change it. -/
theorem allowed (h : FileChange i l w w') (hinv : U.Inv w)
    (hheld : w.holds i (L.lockLoc n) = true) (hl : U.Bundle n l)
    (hseen : U.Seen (w'.tree.content l) (w'.log l)) : U.discipline.Allowed i w w' := by
  constructor
  · constructor
    · exact hinv.grown.trans h.grows
    · rw [h.lastId]
      exact hinv.ids
    · rw [h.holds]
      intro j m hj
      rw [h.content _ (Ne.symm (hl.ne_lockLoc m))]
      exact hinv.file_of_holds j m hj
    · rw [h.holds]
      exact hinv.exclusive
    · rw [h.holds]
      intro m l' hnobody hl'
      have hne : l' ≠ l := by
        rintro rfl
        rw [hl.id_unique hl', hnobody i] at hheld
        cases hheld
      rw [h.content l' hne, h.log l' hne]
      exact hinv.good m l' hnobody hl'
    · intro m l' hl'
      by_cases hne : l' = l
      · rw [hne]
        exact hseen
      · rw [h.content l' hne, h.log l' hne]
        exact hinv.seen m l' hl'
  · intro j hj
    refine ⟨congrFun h.holds j, h.errno_ne j hj, congrFun h.lastId j, h.grows, ?_⟩
    intro m l' hjheld hl'
    have hne : l' ≠ l := by
      rintro rfl
      rw [hl'.id_unique hl] at hjheld
      exact hj (hinv.exclusive j i n hjheld hheld)
    exact ⟨h.content l' hne, h.log l' hne⟩

end FileChange

omit [DecidableEq ι] in
/-- A file that is put is a change of its bundle. -/
theorem fileChange_setFile (i : ι) (w : World ι ι) (l : Loc) (c : Bytes) :
    FileChange i l w (w.setTree (w.tree.setFile l c)) where
  content _ hm := Tree.content_setFile_ne _ hm _
  log _ _ := rfl
  grows := Tree.grows_setFile _ _ _
  holds := rfl
  errno_ne _ _ := rfl
  lastId := rfl

omit [DecidableEq ι] in
/-- A file that is written is a change of its bundle. -/
theorem fileChange_wrote (i : ι) (w : World ι ι) (fd : Fd) (site : WriteSite) (data : Bytes)
    (count : ℕ) : FileChange i fd.loc w (w.wrote fd site data count) where
  content _ hm := Tree.content_write_ne _ _ _ hm
  log m hm := by
    unfold World.wrote
    cases site with
    | bundleHeader => rfl
    | record call =>
        dsimp only
        split
        · exact Function.update_of_ne hm _ _
        · rfl
  grows := Tree.grows_write _ _ _
  holds := rfl
  errno_ne _ _ := rfl
  lastId := rfl

omit [DecidableEq ι] in
/-- A call that is completed is a change of its bundle. -/
theorem fileChange_completed (i : ι) (w : World ι ι) (l : Loc) (offset : ℕ) (call : WriteCall) :
    FileChange i l w (w.completed l offset call) where
  content _ _ := rfl
  log _ hm := Function.update_of_ne hm _ _
  grows := Tree.Grows.refl _
  holds := rfl
  errno_ne _ _ := rfl
  lastId := rfl

end Upkeep

end BundleStore
