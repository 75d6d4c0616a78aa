import BundleStore.Analysis.Layout
import BundleStore.Analysis.Calls
import BundleStore.Analysis.MkdirsWay
import BundleStore.Analysis.RecordSize
import BundleStore.Model.SoleProcess

set_option autoImplicit false

/-!
# Bundles are filled in their order

A pass of `Allocate` goes over an id whose lock file is there or whose bundle has no room,
and leaves every file as it was. So the first id that can take the record gets it, as long
as the passes do not outnumber `bundle_count_per_day`; behind that the ids are random.
-/

namespace BundleStore

open Machine Posix

namespace SoleProcess

/-! ## Files before and after -/

/-- Directories may have been made. -/
structure SameFiles (t t' : Tree) : Prop where
  grows : t.Grows t'
  content : ∀ l, t'.content l = t.content l

/-- One file has changed. -/
structure Changes (t : Tree) (l : Loc) (x : Option Bytes) (t' : Tree) : Prop where
  grows : t.Grows t'
  at_loc : t'.content l = x
  others : ∀ m, m ≠ l → t'.content m = t.content m

variable {t t₁ t₂ : Tree} {l : Loc} {x y : Option Bytes}

/-- A tree has the files of itself. -/
theorem SameFiles.refl (t : Tree) : SameFiles t t :=
  ⟨Tree.Grows.refl t, fun _ => rfl⟩

/-- Equal trees have the same files. -/
theorem SameFiles.of_eq (h : t₁ = t) : SameFiles t t₁ :=
  h ▸ SameFiles.refl t

/-- Trees with the files of one tree have the files of each other. -/
theorem SameFiles.trans (h : SameFiles t t₁) (h' : SameFiles t₁ t₂) : SameFiles t t₂ :=
  ⟨h.grows.trans h'.grows, fun l => (h'.content l).trans (h.content l)⟩

/-- A change of one place after steps that keep the files. -/
theorem SameFiles.changes (h : SameFiles t t₁) (h' : Changes t₁ l x t₂) : Changes t l x t₂ :=
  ⟨h.grows.trans h'.grows, h'.at_loc, fun m hm => (h'.others m hm).trans (h.content m)⟩

/-- A change of one place before steps that keep the files. -/
theorem Changes.same (h : Changes t l x t₁) (h' : SameFiles t₁ t₂) : Changes t l x t₂ :=
  ⟨h.grows.trans h'.grows, (h'.content l).trans h.at_loc,
    fun m hm => (h'.content m).trans (h.others m hm)⟩

/-- A place that is changed twice holds what the second change gave it. -/
theorem Changes.again (h : Changes t l x t₁) (h' : Changes t₁ l y t₂) : Changes t l y t₂ :=
  ⟨h.grows.trans h'.grows, h'.at_loc, fun m hm => (h'.others m hm).trans (h.others m hm)⟩

/-- A file that is as it was. -/
theorem Changes.same_of_eq (h : Changes t l x t₁) (hx : t.content l = x) : SameFiles t t₁ := by
  refine ⟨h.grows, fun m => ?_⟩
  by_cases hm : m = l
  · rw [hm, h.at_loc, hx]
  · exact h.others m hm

/-- A file that is put at a place changes that place alone. -/
theorem changes_setFile (h : t.CanHold l) (c : Bytes) : Changes t l (some c) (t.setFile l c) :=
  ⟨Tree.grows_setFile t l c, Tree.content_setFile_self h c,
    fun _ hm => Tree.content_setFile_ne t hm c⟩

/-- A `write` changes the place of its descriptor alone. -/
theorem changes_write (fd : Fd) {c : Bytes} (h : t.content fd.loc = some c) (b : Bytes) :
    Changes t fd.loc (some (ByteSeq.overwrite 0 c fd.pos b)) (t.write fd b) :=
  ⟨Tree.grows_write t fd b, Tree.content_write_self h b,
    fun _ hm => Tree.content_write_ne t fd b hm⟩

/-! ## The calls -/

variable {cwd : Loc} {setting : Setting} {call : AllocateCall} {w w' : World Unit Unit}

/-- A refusal whose number is not spurious is the tree's. -/
theorem refused_errno {α : Type} {r : Except ℕ α} (h : w.Refused () r w')
    (hspurious : ¬ Spurious (w'.errno ())) :
    r = .error (w'.errno ()) ∧ w'.tree = w.tree ∧ w'.lastId = w.lastId := by
  obtain ⟨e, hr, rfl⟩ := h
  have he : (w.setErrno () e).errno () = e := by simp [World.setErrno]
  rw [he] at hspurious ⊢
  exact ⟨hr.resolve_right hspurious, rfl, rfl⟩

/-- A search of a directory does not fail with `ENOENT` by itself. -/
theorem not_spurious_enoent : ¬ Spurious ENOENT :=
  fun h => h.2.1 rfl

/-- A search of a directory does not fail with `EEXIST` by itself. -/
theorem not_spurious_eexist : ¬ Spurious EEXIST :=
  fun h => h.2.2 rfl

/-- `last_id_` reads as itself where nobody else is at work. -/
theorem readLastId_lastId (w : World Unit Unit) (site : LastIdSite) (id : ℤ) :
    (w.readLastId () site id).lastId = w.lastId := by
  unfold World.readLastId
  split
  · rfl
  · rfl

/-- What the calls that change no file leave alone. -/
structure Idle (w w' : World Unit Unit) : Prop where
  files : SameFiles w.tree w'.tree
  lastId : w'.lastId = w.lastId

/-- A world is idle with itself. -/
theorem Idle.refl (w : World Unit Unit) : Idle w w :=
  ⟨SameFiles.refl _, rfl⟩

/-- Idle steps make an idle run. -/
theorem Idle.trans {w₁ : World Unit Unit} (h : Idle w w₁) (h' : Idle w₁ w') : Idle w w' :=
  ⟨h.files.trans h'.files, h'.lastId.trans h.lastId⟩

/-- A `close` is idle. -/
theorem idle_of_close {fd : Fd} {a : Unit} (h : calls cwd (.close fd) w a w') : Idle w w' := by
  rcases h.1 with rfl | ⟨e, -, rfl⟩
  · exact Idle.refl _
  · exact ⟨SameFiles.refl _, rfl⟩

/-! ## Directories -/

/-- `mkdirs` makes all its directories. -/
theorem mkdirsFrom_executes {ps : List Bytes} {made : Bool}
    (h : (mkdirsFrom ps).Executes (calls cwd) w made w') :
    made = true ∧ Idle w w' ∧ ∀ q, ps.getLast? = some q → w'.tree.Reaches cwd q := by
  induction ps generalizing w with
  | nil =>
      obtain ⟨rfl, rfl⟩ := h
      exact ⟨rfl, Idle.refl _, fun q hq => by cases hq⟩
  | cons p rest ih =>
      rw [mkdirsFrom] at h
      simp only [Prog.op_bind, Prog.executes_call] at h
      obtain ⟨ok, w₁, hmkdir, hrest⟩ := h
      -- the directory is there now, and the rest is made
      have hnext : Idle w w₁ → w₁.tree.Reaches cwd p →
          (mkdirsFrom rest).Executes (calls cwd) w₁ made w' →
          made = true ∧ Idle w w' ∧
            ∀ q, (p :: rest).getLast? = some q → w'.tree.Reaches cwd q := by
        intro hidle hreaches hrest
        obtain ⟨hmade, hidle', hlast⟩ := ih hrest
        refine ⟨hmade, hidle.trans hidle', fun q hq => ?_⟩
        cases rest with
        | nil =>
            obtain ⟨-, rfl⟩ := hrest
            cases hq
            exact hreaches
        | cons p' rest => exact hlast q (by rwa [List.getLast?_cons_cons] at hq)
      cases ok with
      | true =>
          obtain ⟨⟨t, hok, rfl⟩, -⟩ := hmkdir
          obtain ⟨m, hset⟩ := Tree.mkdir_ok hok
          have hidle : Idle w (w.setTree t) := by
            subst hset
            exact ⟨⟨Tree.grows_setDir _ _, fun l => Tree.content_setDir _ _ _⟩, rfl⟩
          exact hnext hidle (.of_mkdir hok) hrest
      | false =>
          obtain ⟨hrefused, hsucceeds⟩ := hmkdir
          have herrno : w₁.errno () = EEXIST := hsucceeds
          obtain ⟨hexists, htree, hid⟩ :=
            refused_errno hrefused (herrno ▸ not_spurious_eexist)
          rw [herrno] at hexists
          rw [if_neg Bool.false_ne_true] at hrest
          obtain ⟨e, w₂, ⟨⟨rfl, rfl⟩, -⟩, hrest⟩ := hrest
          dsimp only at hrest
          rw [if_pos herrno] at hrest
          refine hnext ⟨.of_eq htree, hid⟩ ?_ hrest
          rw [htree]
          exact .of_mkdir_eexist hexists

/-- A directory that is checked is there. -/
theorem checkDir_executes {dir : Bytes} {made : Bool}
    (h : (checkDir dir).Executes (calls cwd) w made w') :
    made = true ∧ Idle w w' ∧
      (0 ∉ dir → dir.length < 300 → w'.tree.stat cwd dir ≠ .error ENOENT) := by
  unfold checkDir at h
  simp only [Prog.op_bind, Prog.executes_call] at h
  obtain ⟨there, w₁, haccess, hrest⟩ := h
  cases there with
  | true =>
      obtain ⟨rfl, rfl⟩ := hrest
      obtain ⟨⟨⟨n, hn⟩, rfl⟩, -⟩ := haccess
      refine ⟨rfl, Idle.refl _, fun _ _ hmissing => ?_⟩
      rw [hn] at hmissing
      cases hmissing
  | false =>
      obtain ⟨hrefused, herrno⟩ := haccess
      obtain ⟨-, htree, hid⟩ := refused_errno hrefused
        ((show w₁.errno () = ENOENT from herrno) ▸ not_spurious_enoent)
      rw [if_neg Bool.false_ne_true] at hrest
      obtain ⟨hmade, hidle, hlast⟩ := mkdirsFrom_executes hrest
      refine ⟨hmade, Idle.trans ⟨.of_eq htree, hid⟩ hidle, fun hnul hshort => ?_⟩
      exact (hlast _ (mkdirsSubpaths_getLast? dir)).stat_ne (mkdirsPath_cases hnul hshort)

/-! ## The lock -/

/-- An attempt fails where the lock file is, or its directory is not. -/
theorem tryLock_executes {self self' : FileLock}
    (h : self.tryLock.Executes (calls cwd) w self' w') :
    self' = { self with locked_ := self'.locked_ } ∧ w'.lastId = w.lastId ∧
      (self'.locked_ = true ∧ w.tree.content (canon cwd self.lockfile_) = none ∧
          Changes w.tree (canon cwd self.lockfile_) (some []) w'.tree ∨
        self'.locked_ = false ∧ w'.tree = w.tree ∧
          ((w.tree.content (canon cwd self.lockfile_)).isSome = true ∨
            w.tree.openExcl cwd self.lockfile_ = .error ENOENT)) := by
  unfold FileLock.tryLock FileLock.lockName at h
  simp only [Prog.op_bind, Prog.call_bind, Prog.executes_call] at h
  obtain ⟨fd, w₁, hopen, hrest⟩ := h
  cases fd with
  | none =>
      obtain ⟨rfl, rfl⟩ := hrest
      obtain ⟨hrefused, hreason⟩ := hopen
      rcases hreason with ⟨herrno, hfile⟩ | herrno
      · obtain ⟨-, htree, hid⟩ := refused_errno hrefused (herrno ▸ not_spurious_eexist)
        exact ⟨rfl, hid, .inr ⟨rfl, htree, .inl hfile⟩⟩
      · obtain ⟨hmissing, htree, hid⟩ := refused_errno hrefused (herrno ▸ not_spurious_enoent)
        rw [herrno] at hmissing
        exact ⟨rfl, hid, .inr ⟨rfl, htree, .inr hmissing⟩⟩
  | some fd =>
      obtain ⟨⟨t, hok, rfl⟩, -⟩ := hopen
      obtain ⟨_, w₂, hclose, rfl, rfl⟩ := hrest
      obtain ⟨-, hnone, hcan, rfl⟩ := Tree.openExcl_ok hok
      have hidle := idle_of_close hclose
      refine ⟨rfl, hidle.lastId, .inl ⟨rfl, ?_, (changes_setFile hcan []).same hidle.files⟩⟩
      unfold Tree.content
      rw [hnone]

/-- The destructor of an object that holds no lock does nothing.
SOURCE: filelock.h:31-35 -/
theorem destroy_executes_unlocked {self : FileLock} (hlocked : self.locked_ = false)
    (h : self.destroy.Executes (calls cwd) w () w') : w' = w := by
  unfold FileLock.destroy at h
  rw [hlocked, if_neg Bool.false_ne_true] at h
  exact h.2

/-- The destructor of an object that holds its lock takes the lock file away, and nothing else.
SOURCE: filelock.h:31-35 -/
theorem destroy_executes_locked {self : FileLock} (hlocked : self.locked_ = true)
    (h : self.destroy.Executes (calls cwd) w () w') :
    Changes w.tree (canon cwd self.lockfile_) none w'.tree ∧ w'.lastId = w.lastId := by
  unfold FileLock.destroy FileLock.unlock FileLock.unlockName at h
  rw [if_pos hlocked, if_pos hlocked] at h
  obtain ⟨removed, w₁, ⟨hunlink, hremoved⟩, -, rfl⟩ := h
  obtain rfl : removed = true := hremoved
  obtain ⟨t, hok, rfl⟩ := hunlink
  obtain rfl := Tree.unlink_ok hok
  exact ⟨⟨Tree.grows_remove _ _, Tree.content_remove_self _ _,
    fun m hm => Tree.content_remove_ne _ hm⟩, rfl⟩

/-- What the first part of a pass comes to, at a lock file. -/
def LocksOne (cwd : Loc) (lock_file : Bytes) (w w' : World Unit Unit) : LockStep → Prop
  | .null => False
  | .again =>
      (w.tree.content (canon cwd lock_file)).isSome = true ∧ SameFiles w.tree w'.tree ∧
        w'.lastId () = int32 (w.lastId () + 1)
  | .locked filelock =>
      filelock = { lockfile_ := lock_file, locked_ := true } ∧
        w.tree.content (canon cwd lock_file) = none ∧
        Changes w.tree (canon cwd lock_file) (some []) w'.tree ∧ w'.lastId = w.lastId

/-- What the first half of a pass may come to: the lock is got, its directory is made for the next
pass, or the lock is held elsewhere.
SOURCE: bundle.cc:479-502 -/
theorem lockOrMakeDir_executes {lock_dir : Bytes} (hnul : 0 ∉ lock_dir)
    (hshort : lock_dir.length < 300) {id : ℤ} {step : LockStep}
    (h : (lockOrMakeDir lock_dir (lockFile lock_dir id)).Executes (calls cwd) w step w') :
    LocksOne cwd (lockFile lock_dir id) w w' step := by
  unfold lockOrMakeDir at h
  obtain ⟨filelock, w₁, htry, hrest⟩ := Prog.executes_bind.mp h
  obtain ⟨hlock, hid, ⟨hlocked, hfree, hchanges⟩ | ⟨hlocked, htree, -⟩⟩ := tryLock_executes htry
  · rw [if_pos hlocked] at hrest
    obtain ⟨rfl, rfl⟩ := hrest
    rw [hlocked] at hlock
    exact ⟨hlock, hfree, hchanges, hid⟩
  rw [hlocked, if_neg Bool.false_ne_true] at hrest
  obtain ⟨made, w₂, hdir, hrest⟩ := Prog.executes_bind.mp hrest
  obtain ⟨rfl, hidle, hthere⟩ := checkDir_executes hdir
  have hsame : SameFiles w.tree w₂.tree := (SameFiles.of_eq htree).trans hidle.files
  have hid₂ : w₂.lastId = w.lastId := hidle.lastId.trans hid
  rw [if_pos rfl] at hrest
  obtain ⟨filelock', w₃, htry', hrest⟩ := Prog.executes_bind.mp hrest
  have hlock_file : filelock.lockfile_ = lockFile lock_dir id := congrArg FileLock.lockfile_ hlock
  obtain ⟨hlock', hid', hcases⟩ := tryLock_executes htry'
  rw [hlock_file] at hcases
  rcases hcases with ⟨hlocked', hfree, hchanges⟩ | ⟨hlocked', htree', hreason⟩
  · rw [if_pos hlocked'] at hrest
    obtain ⟨rfl, rfl⟩ := hrest
    refine ⟨?_, (hsame.content _).symm.trans hfree, hsame.changes hchanges, hid'.trans hid₂⟩
    rw [hlock', hlocked', hlock]
  · rw [hlocked', if_neg Bool.false_ne_true] at hrest
    simp only [Prog.op_bind, Prog.executes_call] at hrest
    obtain ⟨_, w₄, ⟨hinc, -⟩, hrest⟩ := hrest
    obtain ⟨_, w₅, hdestroy, rfl, rfl⟩ := Prog.executes_bind.mp hrest
    obtain rfl := destroy_executes_unlocked hlocked' hdestroy
    obtain rfl := hinc
    refine ⟨?_, hsame.trans (.of_eq htree'), ?_⟩
    · rw [← hsame.content]
      refine hreason.resolve_right ?_
      exact openExcl_entry (hthere hnul hshort) (isName_decimalInt id) (slash_not_mem_decimalInt id)
    · show Function.update w₃.lastId () _ () = _
      rw [Function.update_self, hid', hid₂]
      rfl

/-! ## The bundle -/

/-- A bundle that is there has a size below `2 ^ 63`. -/
theorem lstat_some {file : Bytes} {size : ℕ} (h : calls cwd (.lstat file) w (some size) w') :
    w' = w ∧ size < 2 ^ 63 ∧ ∃ c, w.tree.content (canon cwd file) = some c ∧ size = c.length := by
  obtain ⟨⟨hsize, rfl, hstat⟩, hfile⟩ := h
  refine ⟨rfl, hsize, ?_⟩
  rcases hstat with ⟨c, hc, rfl⟩ | hdir
  · exact ⟨c, Tree.content_eq_some.mpr (Tree.stat_ok hc), rfl⟩
  · have hsome : (w'.tree.content _).isSome = true := hfile
    obtain ⟨c, hc⟩ := Option.isSome_iff_exists.mp hsome
    rw [Tree.content_eq_some, Tree.stat_ok hdir] at hc
    cases hc

/-- A bundle that is said to be missing is, when its path is direct. -/
theorem lstat_none {file : Bytes} (hdirect : w.tree.Direct cwd file) (hne : file ≠ [])
    (h : calls cwd (.lstat file) w none w') :
    w'.errno () = ENOENT ∧ w.tree.content (canon cwd file) = none ∧ w'.tree = w.tree ∧
      w'.lastId = w.lastId := by
  obtain ⟨hrefused, hsucceeds⟩ := h
  have herrno : w'.errno () = ENOENT := hsucceeds
  obtain ⟨hmissing, htree, hid⟩ := refused_errno hrefused (herrno ▸ not_spurious_enoent)
  rw [herrno] at hmissing
  refine ⟨herrno, ?_, htree, hid⟩
  unfold Tree.content
  rw [hdirect.node_of_stat_enoent hne hmissing]

/-- `CreateBundle` makes the bundle: a header and nothing else. -/
theorem createBundle_executes {file : Bytes} {created : Bool}
    (h : (createBundle file).Executes (calls cwd) w created w') :
    created = true ∧ w'.lastId = w.lastId ∧
      ∃ now_str, Changes w.tree (canon cwd file) (some (bundleHeader now_str)) w'.tree := by
  unfold createBundle at h
  obtain ⟨fd, w₁, ⟨hopen, hopened⟩, hrest⟩ := h
  cases fd with
  | none => exact hopened.elim
  | some fd =>
      obtain ⟨t, hok, rfl⟩ := hopen
      obtain ⟨rfl, hcan, rfl⟩ := Tree.openTrunc_ok hok
      obtain ⟨now_str, w₂, ⟨⟨-, rfl⟩, -⟩, ret, w₃, ⟨hwrite, hall⟩, _, w₄, hclose, hcreated, rfl⟩ :=
        hrest
      have hret : (ret : ℤ) = (bundleHeader now_str).length := hall
      have hidle := idle_of_close hclose
      rcases hwrite with ⟨n, hn, -, -, rfl⟩ | ⟨hneg, -⟩
      · have hlen : (n : ℤ) = (bundleHeader now_str).length := hn.symm.trans hret
        obtain rfl : n = (bundleHeader now_str).length := by exact_mod_cast hlen
        have hempty : (w.tree.setFile (canon cwd file) []).content (canon cwd file) = some [] :=
          Tree.content_setFile_self hcan []
        have hwritten : Changes (w.tree.setFile (canon cwd file) []) (canon cwd file)
            (some (ByteSeq.overwrite 0 [] 0 (bundleHeader now_str)))
            ((w.tree.setFile (canon cwd file) []).write ⟨canon cwd file, 0⟩
              ((bundleHeader now_str).take (bundleHeader now_str).length)) := by
          rw [List.take_length]
          exact changes_write ⟨canon cwd file, 0⟩ hempty (bundleHeader now_str)
        have hheader : ByteSeq.overwrite 0 [] 0 (bundleHeader now_str) = bundleHeader now_str :=
          ByteSeq.overwrite_length 0 [] _
        rw [hheader] at hwritten
        refine ⟨?_, hidle.lastId, now_str, ?_⟩
        · rw [hcreated, hret, length_bundleHeader]
          rfl
        · exact ((changes_setFile hcan []).again hwritten).same hidle.files
      · have hminus : (-1 : ℤ) = (bundleHeader now_str).length := hneg.symm.trans hret
        omega

/-- What the rest of a pass comes to, which begins with the lock of its id. -/
def PlacesOne (cwd : Loc) (setting : Setting) (size : ℕ) (file lock_file : Bytes)
    (w w' : World Unit Unit) : PlaceStep → Prop
  | .null => False
  | .again =>
      (∃ c, w.tree.content (canon cwd file) = some c ∧
        setting.max_bundle_size < c.length + align1K (kFileHeaderSize + size)) ∧
      Changes w.tree (canon cwd lock_file) none w'.tree ∧ w'.lastId () = int32 (w.lastId () + 1)
  | .placed bundle_file offset =>
      bundle_file = file ∧ w'.lastId = w.lastId ∧
        ((∃ c, w.tree.content (canon cwd file) = some c ∧
            c.length + align1K (kFileHeaderSize + size) ≤ setting.max_bundle_size ∧
            offset = c.length ∧ SameFiles w.tree w'.tree) ∨
          w.tree.content (canon cwd file) = none ∧ offset = kBundleHeaderSize ∧
            ∃ now_str, Changes w.tree (canon cwd file) (some (bundleHeader now_str)) w'.tree)

/-- A bundle that is made has a header and no record.
SOURCE: bundle.cc:518-539 -/
theorem createMissing_executes {file : Bytes} {filelock : FileLock} {step : PlaceStep}
    (h : (createMissing file filelock).Executes (calls cwd) w step w') :
    step = .placed file kBundleHeaderSize ∧ w'.lastId = w.lastId ∧
      ∃ now_str, Changes w.tree (canon cwd file) (some (bundleHeader now_str)) w'.tree := by
  unfold createMissing at h
  obtain ⟨made, w₁, hdir, hrest⟩ := Prog.executes_bind.mp h
  obtain ⟨rfl, hidle, -⟩ := checkDir_executes hdir
  rw [if_pos rfl] at hrest
  obtain ⟨created, w₂, hcreate, hrest⟩ := Prog.executes_bind.mp hrest
  obtain ⟨rfl, hid, now_str, hchanges⟩ := createBundle_executes hcreate
  obtain ⟨rfl, rfl⟩ := hrest
  exact ⟨rfl, hid.trans hidle.lastId, now_str, hidle.files.changes hchanges⟩

/-- What the check of the size comes to: the place behind the bundle if the record fits, else
another pass.
SOURCE: bundle.cc:504-550 -/
theorem checkBundle_executes {size : ℕ} (hsize : size < 2 ^ 62) {file lock_file : Bytes}
    (hdirect : w.tree.Direct cwd file) (hne : file ≠ []) {step : PlaceStep}
    (h : (checkBundle setting size file { lockfile_ := lock_file, locked_ := true }).Executes
      (calls cwd) w step w') : PlacesOne cwd setting size file lock_file w w' step := by
  unfold checkBundle at h
  simp only [Prog.op_bind, Prog.executes_call] at h
  obtain ⟨stat, w₁, hstat, hrest⟩ := h
  cases stat with
  | some st_size =>
      obtain ⟨rfl, hlt, c, hc, rfl⟩ := lstat_some hstat
      by_cases hfull : exceeds setting size (some c.length)
      · rw [if_pos hfull] at hrest
        rw [exceeds_iff hsize hlt] at hfull
        simp only [Prog.executes_call] at hrest
        obtain ⟨_, w₂, ⟨hinc, -⟩, hrest⟩ := hrest
        obtain ⟨_, w₃, hdestroy, rfl, rfl⟩ := Prog.executes_bind.mp hrest
        obtain ⟨hchanges, hid⟩ := destroy_executes_locked rfl hdestroy
        obtain rfl := hinc
        refine ⟨⟨c, hc, hfull⟩, hchanges, ?_⟩
        show w'.lastId () = _
        rw [hid]
        show Function.update w₁.lastId () _ () = _
        rw [Function.update_self]
        rfl
      · rw [if_neg hfull] at hrest
        rw [exceeds_iff hsize hlt, Nat.not_lt] at hfull
        obtain ⟨_, w₂, ⟨⟨-, rfl⟩, -⟩, rfl, rfl⟩ := hrest
        exact ⟨rfl, rfl, .inl ⟨c, hc, hfull, rfl, SameFiles.refl _⟩⟩
  | none =>
      obtain ⟨herrno, hnone, htree, hid⟩ := lstat_none hdirect hne hstat
      rw [if_neg (show ¬ exceeds setting size none from not_false)] at hrest
      obtain ⟨e, w₂, ⟨⟨rfl, rfl⟩, -⟩, hrest⟩ := hrest
      dsimp only at hrest
      rw [if_pos herrno] at hrest
      obtain ⟨rfl, hid', now_str, hchanges⟩ := createMissing_executes hrest
      rw [htree] at hchanges
      exact ⟨rfl, hid'.trans hid, .inr ⟨hnone, rfl, now_str, hchanges⟩⟩

/-! ## A pass -/

/-- What all passes of a call rely on. -/
structure Usable (cwd : Loc) (setting : Setting) (call : AllocateCall) (t : Tree) : Prop where
  size_lt : call.size < 2 ^ 62
  lock_dir_lt : call.lockDir.length < 300
  lock_dir_nul : 0 ∉ call.lockDir
  direct : ∀ id, t.Direct cwd (bundleFile setting call.storage call.bundlePrefix id)

/-- A call that is ready may be carried out on its tree. -/
theorem Ready.usable (h : Ready cwd setting call w) : Usable cwd setting call w.tree where
  size_lt := h.size_lt
  lock_dir_lt := h.lock_dir_lt
  lock_dir_nul := h.lock_dir_nul
  direct := direct_bundleFile setting h.storage h.plain

/-- Directories that are added take no call's readiness away. -/
theorem Usable.grows (h : Usable cwd setting call t) (hgrows : t.Grows t₁) :
    Usable cwd setting call t₁ :=
  ⟨h.size_lt, h.lock_dir_lt, h.lock_dir_nul, fun id => (h.direct id).grows hgrows⟩

/-- Which ids take the record depends on the files alone. -/
theorem takes_congr (h : SameFiles t t₁) (id : ℤ) :
    Takes cwd setting call t₁ id ↔ Takes cwd setting call t id := by
  constructor
  · rintro ⟨hfree, hroom⟩
    exact ⟨(h.content _).symm.trans hfree, fun c hc => hroom c ((h.content _).trans hc)⟩
  · rintro ⟨hfree, hroom⟩
    exact ⟨(h.content _).trans hfree, fun c hc => hroom c ((h.content _).symm.trans hc)⟩

/-- The id of a pass. -/
def Chosen (setting : Setting) (loop_count last_id id : ℤ) : Prop :=
  if loop_count > setting.bundle_count_per_day then
    ∃ r : ℕ, id = int32 (setting.bundle_count_per_day + (r % 100 : ℕ))
  else id = last_id

/-- The draw of an id leaves the tree as it is.
SOURCE: bundle.cc:473-477 -/
theorem chooseId_executes {loop_count : ℤ}
    (h : (chooseId setting loop_count).Executes (calls cwd) w () w') :
    w'.tree = w.tree ∧ Chosen setting loop_count (w.lastId ()) (w'.lastId ()) := by
  unfold chooseId at h
  unfold Chosen
  split at h
  · rename_i hlate
    obtain ⟨r, w₁, ⟨⟨-, rfl⟩, -⟩, _, w₂, ⟨hset, -⟩, -, rfl⟩ := h
    obtain rfl := hset
    rw [if_pos hlate]
    refine ⟨rfl, r, ?_⟩
    simp [World.setLastId]
  · rename_i hearly
    obtain ⟨-, rfl⟩ := h
    rw [if_neg hearly]
    exact ⟨rfl, rfl⟩

/-- What a pass comes to at its id. -/
def PassesOne (cwd : Loc) (setting : Setting) (call : AllocateCall) (id : ℤ)
    (w w' : World Unit Unit) : Pass → Prop
  | .null => False
  | .again =>
      ¬ Takes cwd setting call w.tree id ∧ SameFiles w.tree w'.tree ∧
        w'.lastId () = int32 (id + 1)
  | .writer writer =>
      Takes cwd setting call w.tree id ∧ writer = writerFor cwd setting call w.tree id ∧
        Placed cwd setting call w.tree id w'.tree ∧ w'.lastId () = id

/-- The two parts of a pass, one after the other. -/
theorem passesOne_of_placesOne {w₁ : World Unit Unit} {id : ℤ} {place : PlaceStep}
    (hfree : w.tree.content (lockAt cwd call id) = none)
    (hlock : Changes w.tree (lockAt cwd call id) (some []) w₁.tree) (hid : w₁.lastId () = id)
    (h : PlacesOne cwd setting call.size
      (bundleFile setting call.storage call.bundlePrefix id) (lockFile call.lockDir id) w₁ w'
      place) :
    match place with
    | .null => False
    | .again => PassesOne cwd setting call id w w' .again
    | .placed bundle_file offset =>
        PassesOne cwd setting call id w w' (.writer (newWriter setting call
          { lockfile_ := lockFile call.lockDir id, locked_ := true } bundle_file offset id)) := by
  have hapart : bundleAt cwd setting call id ≠ lockAt cwd call id :=
    bundleFile_ne_lockFile cwd setting call.storage call.bundlePrefix call.lockDir id
  have hbundle : w₁.tree.content (bundleAt cwd setting call id) =
      w.tree.content (bundleAt cwd setting call id) := hlock.others _ hapart
  cases place with
  | null => exact h
  | again =>
      obtain ⟨⟨c, hc, hfull⟩, hunlock, hnext⟩ := h
      refine ⟨fun htakes => ?_, (hlock.again hunlock).same_of_eq hfree, ?_⟩
      · exact absurd (htakes.room c (hbundle.symm.trans hc)) (Nat.not_le.mpr hfull)
      · rw [hnext, hid]
  | placed bundle_file offset =>
      obtain ⟨rfl, hsame, ⟨c, hc, hroom, rfl, hfiles⟩ | ⟨hnone, rfl, now_str, hmade⟩⟩ := h
      · have hc' : w.tree.content (bundleAt cwd setting call id) = some c := hbundle.symm.trans hc
        have hall := hlock.same hfiles
        refine ⟨⟨hfree, ?_⟩, ?_, ⟨hall.at_loc, ?_, ?_, ?_⟩, ?_⟩
        · rintro c' hc''
          obtain rfl := Option.some.inj (hc'.symm.trans hc'')
          exact hroom
        · rw [writerFor, offsetAt, hc']
        · intro c' hc''
          exact (hall.others _ hapart).trans hc''
        · intro hnone
          cases hc'.symm.trans hnone
        · exact fun l hl _ => hall.others l hl
        · rw [hsame, hid]
      · have hnone' : w.tree.content (bundleAt cwd setting call id) = none :=
          hbundle.symm.trans hnone
        refine ⟨⟨hfree, ?_⟩, ?_, ⟨?_, ?_, fun _ => ⟨now_str, hmade.at_loc⟩, ?_⟩, ?_⟩
        · rintro c hc
          cases hnone'.symm.trans hc
        · rw [writerFor, offsetAt, hnone']
        · exact (hmade.others _ hapart.symm).trans hlock.at_loc
        · rintro c hc
          cases hnone'.symm.trans hc
        · exact fun l hl hl' => (hmade.others l hl').trans (hlock.others l hl)
        · rw [hsame, hid]

/-- One pass of the loop: an id is drawn, and the pass does for it what it may do.
SOURCE: bundle.cc:463-571 -/
theorem allocatePass_executes (husable : Usable cwd setting call w.tree) {loop_count : ℤ}
    {pass : Pass} (h : (allocatePass setting call loop_count).Executes (calls cwd) w pass w') :
    ∃ id, Chosen setting loop_count (w.lastId ()) id ∧
      PassesOne cwd setting call id w w' pass := by
  unfold allocatePass lockBundle placeBundle at h
  obtain ⟨_, w₁, hchoose, hrest⟩ := Prog.executes_bind.mp h
  obtain ⟨htree, hchosen⟩ := chooseId_executes hchoose
  refine ⟨_, hchosen, ?_⟩
  generalize hid : w₁.lastId () = id
  obtain ⟨step, w₂, hlock, hrest⟩ := Prog.executes_bind.mp hrest
  simp only [Prog.op_bind, Prog.executes_call] at hlock
  obtain ⟨_, w₃, ⟨⟨rfl, rfl⟩, -⟩, hlock⟩ := hlock
  simp only [id_eq, hid] at hlock
  have hone := lockOrMakeDir_executes husable.lock_dir_nul husable.lock_dir_lt hlock
  have htree' : (w₁.readLastId () .lockName id).tree = w.tree :=
    (World.readLastId_tree ..).trans htree
  have hid' : (w₁.readLastId () .lockName id).lastId () = id := by
    rw [readLastId_lastId, hid]
  cases step with
  | null => exact hone.elim
  | again =>
      obtain ⟨rfl, rfl⟩ := hrest
      obtain ⟨hlocked, hsame, hnext⟩ := hone
      rw [htree'] at hlocked hsame
      rw [hid'] at hnext
      refine ⟨fun htakes => ?_, hsame, hnext⟩
      have hfree : w.tree.content (canon cwd (lockFile call.lockDir id)) = none := htakes.unlocked
      rw [hfree] at hlocked
      cases hlocked
  | locked filelock =>
      obtain ⟨rfl, hfree, hchanges, hsame⟩ := hone
      rw [htree'] at hfree hchanges
      obtain ⟨place, w₃, hplace, hrest⟩ := Prog.executes_bind.mp hrest
      simp only [Prog.op_bind, Prog.executes_call] at hplace
      obtain ⟨_, w₂, ⟨⟨rfl, rfl⟩, -⟩, hplace⟩ := hplace
      have hid₂ : w₂.lastId () = id := (congrFun hsame ()).trans hid'
      simp only [id_eq, hid₂] at hplace
      have hplaces := checkBundle_executes husable.size_lt
        ((husable.direct id).grows hchanges.grows) (bundleFile_ne_nil _ _ _ _) hplace
      have hpasses := passesOne_of_placesOne hfree hchanges hid₂ hplaces
      cases place with
      | null => exact hpasses.elim
      | again =>
          obtain ⟨rfl, rfl⟩ := hrest
          exact hpasses
      | placed bundle_file offset =>
          simp only [Prog.op_bind, Prog.executes_call] at hrest
          obtain ⟨_, w₄, ⟨⟨rfl, rfl⟩, -⟩, rfl, rfl⟩ := hrest
          obtain ⟨htakes, hwriter, hplaced, hlast⟩ := hpasses
          simp only [id_eq, hlast]
          exact ⟨htakes, hwriter, hplaced, hlast⟩

/-! ## The loop -/

/-- After some passes: the ids from the first one on have been gone over, as long as they
are not random. -/
structure Searching (cwd : Loc) (setting : Setting) (call : AllocateCall) (t : Tree) (first : ℤ)
    (k : ℕ) (w : World Unit Unit) : Prop where
  files : SameFiles t w.tree
  gone : ∀ i, first ≤ i → i < first + k → i < first + setting.bundle_count_per_day →
    ¬ Takes cwd setting call t i
  turn : (k : ℤ) < setting.bundle_count_per_day → w.lastId () = first + k

/-- An id is chosen in its turn, or at random when none of the others can take the record. -/
def InTurn (cwd : Loc) (setting : Setting) (call : AllocateCall) (t : Tree) (first id : ℤ) : Prop :=
  (first ≤ id ∧ id < first + setting.bundle_count_per_day ∧
      ∀ i, first ≤ i → i < id → ¬ Takes cwd setting call t i) ∨
    ∀ i, first ≤ i → i < first + setting.bundle_count_per_day → ¬ Takes cwd setting call t i

/-- `Allocate` has returned the writer for an id. -/
structure Found (cwd : Loc) (setting : Setting) (call : AllocateCall) (t : Tree) (first : ℤ)
    (id : ℤ) (result : Option Writer) (w : World Unit Unit) : Prop where
  writer : result = some (writerFor cwd setting call t id)
  takes : Takes cwd setting call t id
  placed : Placed cwd setting call t id w.tree
  lastId : w.lastId () = id
  in_turn : InTurn cwd setting call t first id

/-- The writer of an id depends on the files alone. -/
theorem writerFor_congr (h : SameFiles t t₁) (id : ℤ) :
    writerFor cwd setting call t₁ id = writerFor cwd setting call t id := by
  unfold writerFor offsetAt
  rw [h.content]

/-- A bundle placed on a tree is placed on every tree with the same files. -/
theorem Placed.of_same {id : ℤ} (h : SameFiles t t₁) (h' : Placed cwd setting call t₁ id t₂) :
    Placed cwd setting call t id t₂ where
  lock := h'.lock
  kept c hc := h'.kept c ((h.content _).trans hc)
  created hnone := h'.created ((h.content _).trans hnone)
  others l hl hl' := (h'.others l hl hl').trans (h.content l)

variable {first : ℤ} {k : ℕ}

/-- What a round comes to. -/
def RoundsOne (cwd : Loc) (setting : Setting) (call : AllocateCall) (t : Tree) (first : ℤ) (k : ℕ)
    (w' : World Unit Unit) : ℤ ⊕ Option Writer → Prop
  | .inl count => count = (k + 1 : ℕ) ∧ Searching cwd setting call t first (k + 1) w'
  | .inr result => ∃ id, Found cwd setting call t first id result w'

/-- One round of the loop: the search goes on with the next id, or it has found its bundle.
SOURCE: bundle.cc:463-571 -/
theorem allocateRound_executes (husable : Usable cwd setting call t) (hfirst : 0 ≤ first)
    (hids : first + setting.bundle_count_per_day ≤ 2 ^ 31)
    (hs : Searching cwd setting call t first k w) {step : ℤ ⊕ Option Writer}
    (h : (allocateRound setting call k).Executes (calls cwd) w step w') :
    RoundsOne cwd setting call t first k w' step := by
  unfold allocateRound at h
  dsimp only at h
  obtain ⟨pass, w₁, hpass, hend⟩ := Prog.executes_bind.mp h
  obtain ⟨id, hchosen, hone⟩ :=
    allocatePass_executes (husable.grows hs.files.grows) hpass
  -- up to `bundle_count_per_day` passes the ids come one after the other
  have hturn : (k : ℤ) < setting.bundle_count_per_day → id = first + k := by
    intro hk
    unfold Chosen at hchosen
    rw [if_neg (by omega), hs.turn hk] at hchosen
    exact hchosen
  cases pass with
  | null => exact hone.elim
  | again =>
      obtain ⟨rfl, rfl⟩ := hend
      obtain ⟨hnot, hsame, hlast⟩ := hone
      rw [takes_congr hs.files] at hnot
      refine ⟨Nat.cast_succ k, hs.files.trans hsame, fun i hi hlt hday => ?_, fun hk => ?_⟩
      · by_cases hbefore : i < first + k
        · exact hs.gone i hi hbefore hday
        · have hid := hturn (by omega)
          have heq : i = id := by
            push_cast at hlt
            omega
          rw [heq]
          exact hnot
      · push_cast at hk
        rw [hlast, hturn (by omega), int32_of_range (by omega) (by omega)]
        push_cast
        omega
  | writer writer =>
      obtain ⟨rfl, rfl⟩ := hend
      obtain ⟨htakes, rfl, hplaced, hlast⟩ := hone
      rw [takes_congr hs.files] at htakes
      refine ⟨id, congrArg some (writerFor_congr hs.files id), htakes, hplaced.of_same hs.files,
        hlast, ?_⟩
      by_cases hk : (k : ℤ) < setting.bundle_count_per_day
      · have hid := hturn hk
        exact .inl ⟨by omega, by omega,
          fun i hi hlt => hs.gone i hi (by omega) (by omega)⟩
      · exact .inr fun i hi hday => hs.gone i hi (by omega) hday

/-- A loop that has not ended has gone over an id with every round. -/
theorem rounds_unfinished (husable : Usable cwd setting call t) (hfirst : 0 ≤ first)
    (hids : first + setting.bundle_count_per_day ≤ 2 ^ 31) {rounds : ℕ}
    (hs : Searching cwd setting call t first k w)
    (h : (Prog.attempts (allocateRound setting call) rounds k).Executes (calls cwd) w none w') :
    Searching cwd setting call t first (k + rounds) w' := by
  induction rounds generalizing k w with
  | zero =>
      obtain ⟨-, rfl⟩ := h
      exact hs
  | succ rounds ih =>
      rcases Prog.executes_attempts_succ.mp h with ⟨count', w₁, hround, hrest⟩ | ⟨a, -, hnone⟩
      · obtain ⟨rfl, hs'⟩ := allocateRound_executes husable hfirst hids hs hround
        have hfinal := ih hs' hrest
        rwa [Nat.add_right_comm, Nat.add_assoc] at hfinal
      · cases hnone

/-- A loop that ends has found its bundle, by induction on the rounds that are left.
SOURCE: bundle.cc:463-571 -/
theorem rounds_finished (husable : Usable cwd setting call t) (hfirst : 0 ≤ first)
    (hids : first + setting.bundle_count_per_day ≤ 2 ^ 31) {rounds : ℕ} {result : Option Writer}
    (hs : Searching cwd setting call t first k w)
    (h : (Prog.attempts (allocateRound setting call) rounds k).Executes (calls cwd) w
      (some result) w') : ∃ id, Found cwd setting call t first id result w' := by
  refine h.attempts (I := fun (count : ℤ) w => ∃ k : ℕ, count = k ∧
    Searching cwd setting call t first k w) (Q := fun result w' =>
    ∃ id, Found cwd setting call t first id result w') ?_ ?_ ⟨k, rfl, hs⟩
  · rintro _ w₁ count' w₂ ⟨k, rfl, hs⟩ hround
    exact ⟨k + 1, allocateRound_executes husable hfirst hids hs hround⟩
  · rintro _ w₁ result w₂ ⟨k, rfl, hs⟩ hround
    exact allocateRound_executes husable hfirst hids hs hround

/-- Before the loop nothing but `last_id_` changes.
SOURCE: bundle.cc:462-471 -/
theorem enterAllocate_executes (h : enterAllocate.Executes (calls cwd) w () w') :
    w'.tree = w.tree ∧ Begins w (w'.lastId ()) := by
  unfold enterAllocate at h
  unfold Begins
  simp only [Prog.op_bind, Prog.executes_call] at h
  obtain ⟨_, w₁, ⟨⟨rfl, rfl⟩, -⟩, hrest⟩ := h
  split at hrest
  · rename_i hunset
    obtain ⟨pid, w₂, ⟨⟨hpos, hlt, rfl⟩, -⟩, _, w₃, ⟨hset, -⟩, -, rfl⟩ := hrest
    obtain rfl := hset
    rw [if_pos hunset]
    refine ⟨rfl, pid, hpos, hlt, ?_⟩
    simp [World.setLastId]
  · rename_i hunset
    obtain ⟨-, rfl⟩ := hrest
    rw [if_neg hunset]
    exact ⟨rfl, rfl⟩

/-- Where a call of `Allocate` has got to after a number of rounds. -/
theorem allocate_executes (hready : Ready cwd setting call w) {rounds : ℕ}
    {result : Option (Option Writer)}
    (h : (allocate setting call rounds).Executes (calls cwd) w result w') :
    ∃ first, Begins w first ∧
      match result with
      | none => Searching cwd setting call w.tree first rounds w'
      | some result => ∃ id, Found cwd setting call w.tree first id result w' := by
  unfold allocate at h
  obtain ⟨_, w₁, henter, hloop⟩ := Prog.executes_bind.mp h
  obtain ⟨htree, hbegins⟩ := enterAllocate_executes henter
  obtain ⟨hfirst, hids⟩ := hready.ids _ hbegins
  have hstart : Searching cwd setting call w.tree (w₁.lastId ()) 0 w₁ := by
    refine ⟨.of_eq htree, fun i hi hlt _ => ?_, fun _ => by simp⟩
    push_cast at hlt
    omega
  refine ⟨_, hbegins, ?_⟩
  cases result with
  | none =>
      have hfinal := rounds_unfinished hready.usable hfirst hids hstart hloop
      rwa [Nat.zero_add] at hfinal
  | some result => exact rounds_finished hready.usable hfirst hids hstart hloop

/-! ## The first bundle that fits -/

/-- The first of the ids that come in their turn that can take the record. -/
structure FirstFit (cwd : Loc) (setting : Setting) (call : AllocateCall) (t : Tree)
    (first j : ℤ) : Prop where
  first_le : first ≤ j
  in_day : j < first + setting.bundle_count_per_day
  takes : Takes cwd setting call t j
  least : ∀ i, first ≤ i → i < j → ¬ Takes cwd setting call t i

/-- No id before the one under search takes the record. -/
theorem Searching.lt {j : ℤ} (h : Searching cwd setting call t first k w)
    (hj : FirstFit cwd setting call t first j) : first + k ≤ j := by
  by_contra hlt
  exact h.gone j hj.first_le (by omega) hj.in_day hj.takes

/-- The id that is found is the first one that fits. -/
theorem Found.eq {id j : ℤ} {result : Option Writer}
    (h : Found cwd setting call t first id result w) (hj : FirstFit cwd setting call t first j) :
    id = j := by
  rcases h.in_turn with ⟨hle, -, hbefore⟩ | hnone
  · rcases lt_trichotomy id j with hlt | heq | hgt
    · exact absurd h.takes (hj.least id hle hlt)
    · exact heq
    · exact absurd hj.takes (hbefore j hj.first_le hgt)
  · exact absurd hj.takes (hnone j hj.first_le hj.in_day)

/-- Before an id found in turn no id of the day takes the record. -/
theorem InTurn.before {id : ℤ} (h : InTurn cwd setting call t first id) {i : ℤ} (hi : first ≤ i)
    (hlt : i < id) (hday : i < first + setting.bundle_count_per_day) :
    ¬ Takes cwd setting call t i := by
  rcases h with ⟨-, -, hbefore⟩ | hnone
  · exact hbefore i hi hlt
  · exact hnone i hi hday

/-! ## Acts that bring no file -/

/-- The calls that bring no file. -/
def BringsNone : SysCall → Prop
  | .openExcl _ | .openTrunc _ => False
  | _ => True

/-- A call on a record brings no file. -/
theorem bringsNone_of_recordCall (o : SysCall) (h : IsRecordCall o) : BringsNone o := by
  cases o <;> first | exact absurd h id | trivial

/-- `Release` brings no file.
SOURCE: bundle.cc:574-577 -/
theorem release_bringsNone (writer : Writer) : writer.release.Calls BringsNone := by
  unfold Writer.release
  split
  · exact Prog.Calls.bind (Prog.Calls.ite (Prog.Calls.ite ⟨trivial, fun _ => trivial⟩ trivial)
      trivial) fun _ => trivial
  · trivial

/-- Where there is no file, an act that brings none leaves none. -/
theorem content_of_bringsNone {o : SysCall} {a : o.Answer} (ho : BringsNone o)
    (h : calls cwd o w a w') (hnone : w.tree.content l = none) : w'.tree.content l = none := by
  cases World.Sem.effect h.1 with
  | unchanged => exact hnone
  | failed e => exact hnone
  | created => exact ho.elim
  | truncated => exact ho.elim
  | @wrote fd site data n =>
      by_cases hl : l = fd.loc
      · change (w.tree.write fd (data.take n)).content l = none
        unfold Tree.write
        rw [← hl, hnone]
        exact hnone
      · exact (Tree.content_write_ne _ fd _ hl).trans hnone
  | madeDir hmade => exact (mkdir_content hmade l).trans hnone
  | @removed p t hgone =>
      obtain rfl := Tree.unlink_ok hgone
      change (w.tree.remove _).content l = none
      by_cases hl : l = canon cwd p
      · rw [hl, Tree.content_remove_self]
      · exact (Tree.content_remove_ne _ hl).trans hnone
  | readId site => exact (congrArg (Tree.content · l) (World.readLastId_tree ..)).trans hnone
  | setId id => exact hnone
  | incId => exact hnone
  | noted => exact hnone

/-- Only `Allocate` brings files. -/
theorem act_brings {act : Act} (h : (act.body setting).Executes (calls cwd) w () w')
    (hnone : w.tree.content l = none) (hnew : w'.tree.content l ≠ none) :
    ∃ call rounds result, act = .allocate call rounds ∧
      (allocate setting call rounds).Executes (calls cwd) w result w' := by
  have hquiet : ∀ {α : Type} {p : Sys α} {a : α}, p.Calls BringsNone →
      p.Executes (calls cwd) w a w' → False := fun hcalls hrun =>
    hnew (hrun.kept hcalls (I := fun w => w.tree.content l = none)
      (fun o s x s' ho hs hsem => content_of_bringsNone ho hsem hs) hnone)
  cases act with
  | allocate call rounds =>
      obtain ⟨result, w₁, hrun, -, rfl⟩ := Prog.executes_bind.mp h
      exact ⟨call, rounds, result, rfl, hrun⟩
  | write writer url buf user_data =>
      obtain ⟨result, w₁, hrun, -, rfl⟩ := Prog.executes_bind.mp h
      exact (hquiet ((writeUrl_calls _ _ _ _).mono bringsNone_of_recordCall) hrun).elim
  | release writer =>
      obtain ⟨result, w₁, hrun, -, rfl⟩ := Prog.executes_bind.mp h
      exact (hquiet (release_bringsNone writer) hrun).elim

/-! ## First fit -/

/-- `Allocate` returns a writer for the first id that can take the record, in at most as many
passes as it takes to get there. In every run of `Allocate`, `Write` and `Release` a file only
comes for an id that can take the record, where no id before it in its turn could.
SOURCE: bundle.cc:456-577 -/
theorem allocate_first_fit (cwd : Loc) (setting : Setting) :
    (∀ call w rounds result w', Ready cwd setting call w →
      (allocate setting call rounds).Executes (calls cwd) w result w' →
      ∃ first, Begins w first ∧ ∀ j, FirstFit cwd setting call w.tree first j →
        (j < first + rounds → result ≠ none) ∧
        ∀ returned, result = some returned →
          returned = some (writerFor cwd setting call w.tree j) ∧ w'.lastId () = j ∧
            Placed cwd setting call w.tree j w'.tree) ∧
    ∀ start acts w act w', Ran cwd setting start acts w → Ran cwd setting w [act] w' →
      ∀ l, w.tree.content l = none → w'.tree.content l ≠ none →
        ∃ call rounds first id, act = .allocate call rounds ∧ Begins w first ∧
          (l = lockAt cwd call id ∨ l = bundleAt cwd setting call id) ∧
          Takes cwd setting call w.tree id ∧
          ∀ i, first ≤ i → i < id → i < first + setting.bundle_count_per_day →
            ¬ Takes cwd setting call w.tree i := by
  constructor
  · intro call w rounds result w' hready hrun
    obtain ⟨first, hbegins, houtcome⟩ := allocate_executes hready hrun
    refine ⟨first, hbegins, fun j hj => ?_⟩
    cases result with
    | none =>
        refine ⟨fun hlt => ?_, fun returned h => by cases h⟩
        have hle := houtcome.lt hj
        omega
    | some result =>
        obtain ⟨id, hfound⟩ := houtcome
        obtain rfl := hfound.eq hj
        refine ⟨fun _ => Option.some_ne_none result, fun returned h => ?_⟩
        obtain rfl := Option.some.inj h
        exact ⟨hfound.writer, hfound.lastId, hfound.placed⟩
  · rintro start acts w act w' - ⟨hready, w₁, hact, rfl⟩ l hnone hnew
    obtain ⟨call, rounds, result, rfl, hrun⟩ := act_brings hact hnone hnew
    obtain ⟨first, hbegins, houtcome⟩ := allocate_executes (hready call rounds rfl) hrun
    cases result with
    | none => exact absurd ((houtcome.files.content l).trans hnone) hnew
    | some result =>
        obtain ⟨id, hfound⟩ := houtcome
        refine ⟨call, rounds, first, id, rfl, hbegins, ?_, hfound.takes,
          fun i hi hlt hday => hfound.in_turn.before hi hlt hday⟩
        by_contra hother
        push Not at hother
        exact hnew ((hfound.placed.others l hother.1 hother.2).trans hnone)

/-! ## Two bundles on a shelf -/

/-- `Succeeds` can be tested. -/
instance (cwd : Loc) (o : SysCall) (w : World Unit Unit) (a : o.Answer) (w' : World Unit Unit) :
    Decidable (Succeeds cwd o w a w') :=
  match o, a with
  | .openExcl _, none => inferInstanceAs (Decidable (_ ∧ _ ∨ _))
  | .openExcl _, some _ => .isTrue trivial
  | .openTrunc _, none => .isFalse id
  | .openTrunc _, some _ => .isTrue trivial
  | .openRdwr _, none => .isFalse id
  | .openRdwr _, some _ => .isTrue trivial
  | .lseek _ _, r => inferInstanceAs (Decidable (r.1 ≠ -1))
  | .write _ _ data, count => inferInstanceAs (Decidable ((count : ℤ) = data.length))
  | .access _, false => inferInstanceAs (Decidable (_ = _))
  | .access _, true => .isTrue trivial
  | .mkdir _, false => inferInstanceAs (Decidable (_ = _))
  | .mkdir _, true => .isTrue trivial
  | .unlink _, removed => inferInstanceAs (Decidable (removed = true))
  | .lstat _, some _ => inferInstanceAs (Decidable (_ = _))
  | .lstat _, none => inferInstanceAs (Decidable (_ = _))
  | .close _, _ => .isTrue trivial
  | .errno, _ => .isTrue trivial
  | .newChars _, _ => .isTrue trivial
  | .rand, _ => .isTrue trivial
  | .getpid, _ => .isTrue trivial
  | .localtime, _ => .isTrue trivial
  | .getLastId _, _ => .isTrue trivial
  | .setLastId _, _ => .isTrue trivial
  | .incLastId, _ => .isTrue trivial
  | .completed _ _ _, _ => .isTrue trivial

/-- Bundles of at most 1024 bytes, so many a day. -/
def smallBundles (count : ℤ) : Setting :=
  { defaultSetting with max_bundle_size := 1024, bundle_count_per_day := count }

def shelfDir : Loc :=
  [Text.ascii "00000000", Text.ascii "p", Text.ascii "s"]

/-- The bundle 0 holds a byte, the bundle 1 is empty. `last_id_` is 0. -/
def shelf : World Unit Unit where
  tree :=
    let dirs := ((Tree.bare.setDir shelfDir.tail.tail).setDir shelfDir.tail).setDir shelfDir
    (dirs.setFile (Text.ascii "00000000" :: shelfDir) [0]).setFile
      (Text.ascii "00000001" :: shelfDir) []
  errno _ := 0
  lastId _ := 0
  holds _ _ := false
  lockRead _ := -1
  log _ := {}

def emptyRecord : AllocateCall where
  prefix_ := Text.ascii "p"
  postfix_ := []
  size := 0
  storage := Text.ascii "s"

/-- `rand()` gives 5. -/
def randFive : World.Surroundings :=
  { World.Surroundings.plain with rand := 5 }

/-- The five draws of the examples are draws that `rand` may answer. -/
theorem randFive_sound : randFive.Sound where
  heap n := List.length_replicate
  rand := by decide
  pid := by decide
  now := by decide

/-- No call fails on the shelf in a way that `Succeeds` rules out. -/
def passesOnShelf (o : SysCall) (w : World Unit Unit) : Bool :=
  decide (Succeeds [] o w (World.serve [] id randFive () o w).1
    (World.serve [] id randFive () o w).2)

/-- What `Allocate` does on the shelf. -/
theorem executes_shelf {p : Sys (Option (Option Writer))}
    (h : p.runsWith (World.serve [] id randFive ()) passesOnShelf shelf = true) :
    p.Executes (calls []) shelf (p.run (World.serve [] id randFive ()) shelf).1
      (p.run (World.serve [] id randFive ()) shelf).2 :=
  Prog.executes_run (fun o w hok => ⟨World.serve_sem [] id randFive_sound () o w,
    of_decide_eq_true hok⟩) h

/-- On the shelf a record may be allocated at any number of bundles a day. -/
theorem ready_shelf {count : ℤ} (h : count ≤ 2 ^ 31) :
    Ready [] (smallBundles count) emptyRecord shelf where
  size_lt := by decide
  lock_dir_lt := by decide
  lock_dir_nul := by decide
  storage := Tree.direct_of_plain _ _ (by decide)
  plain := by decide
  ids first hfirst := by
    obtain rfl : first = 0 := hfirst
    exact ⟨le_rfl, by rwa [Int.zero_add]⟩

/-- On the shelf the ids begin at 0. -/
theorem begins_shelf {first : ℤ} (h : Begins shelf first) : first = 0 := h

/-- The bundle 1 can take a record of no bytes, the bundle 0 cannot. -/
theorem takes_shelf (count : ℤ) :
    Takes [] (smallBundles count) emptyRecord shelf.tree 1 ∧
      ¬ Takes [] (smallBundles count) emptyRecord shelf.tree 0 := by
  have hsame : bundleAt [] (smallBundles count) emptyRecord =
      bundleAt [] (smallBundles 1) emptyRecord := rfl
  have hzero : shelf.tree.content (bundleAt [] (smallBundles 1) emptyRecord 0) = some [0] := by
    decide +kernel
  have hone : shelf.tree.content (bundleAt [] (smallBundles 1) emptyRecord 1) = some [] := by
    decide +kernel
  have hrecord : align1K (kFileHeaderSize + emptyRecord.size) = 1024 := by decide
  refine ⟨⟨by decide +kernel, fun c hc => ?_⟩, fun htakes => ?_⟩
  · rw [hsame, hone] at hc
    obtain rfl := Option.some.inj hc
    exact hrecord.le
  · have hroom : 1 + align1K (kFileHeaderSize + emptyRecord.size) ≤ 1024 :=
      htakes.room [0] (hsame ▸ hzero)
    omega

/-- On the shelf bundle 0 is full, and the record goes to bundle 1. -/
theorem allocate_first_fit_shelf :
    ∃ w', Ran [] (smallBundles 2) shelf [.allocate emptyRecord 2] w' ∧ w'.lastId () = 1 ∧
      ∃ first id, Begins shelf first ∧ Takes [] (smallBundles 2) emptyRecord shelf.tree id := by
  obtain ⟨hfits, hfull⟩ := takes_shelf 2
  have hrun := executes_shelf (p := allocate (smallBundles 2) emptyRecord 2) (by decide +kernel)
  have hready : Ready [] (smallBundles 2) emptyRecord shelf := ready_shelf (by norm_num)
  obtain ⟨first, hbegins, hfirst⟩ :=
    (allocate_first_fit [] (smallBundles 2)).1 emptyRecord shelf 2 _ _ hready hrun
  obtain rfl := begins_shelf hbegins
  have hj : FirstFit [] (smallBundles 2) emptyRecord shelf.tree 0 1 := by
    refine ⟨by decide, by decide, hfits, fun i hi hlt => ?_⟩
    obtain rfl : i = 0 := by omega
    exact hfull
  obtain ⟨hends, hreturns⟩ := hfirst 1 hj
  obtain ⟨returned, hreturned⟩ := Option.ne_none_iff_exists'.mp (hends (by decide))
  obtain ⟨-, hlast, hplaced⟩ := hreturns returned hreturned
  have hran : Ran [] (smallBundles 2) shelf [.allocate emptyRecord 2]
      ((allocate (smallBundles 2) emptyRecord 2).run (World.serve [] id randFive ()) shelf).2 := by
    refine ⟨fun call rounds heq => ?_, _, Prog.executes_bind.mpr ⟨_, _, hrun, rfl, rfl⟩, rfl⟩
    cases heq
    exact hready
  have hlock : ((allocate (smallBundles 2) emptyRecord 2).run (World.serve [] id randFive ())
      shelf).2.tree.content (lockAt [] emptyRecord 1) ≠ none := by
    rw [hplaced.lock]
    exact Option.some_ne_none []
  obtain ⟨call, rounds, first, id, hcall, hbegins', -, htakes, -⟩ :=
    (allocate_first_fit [] (smallBundles 2)).2 shelf [] shelf _ _ rfl hran _ hfits.unlocked hlock
  cases hcall
  exact ⟨_, hran, hlast, first, id, hbegins', htakes⟩

/-- A day of one bundle: the bundle 0 has no room, the bundle 1 has, and the bundle 6 is made. -/
theorem not_created_in_turn :
    ¬ ∀ w', Ran [] (smallBundles 1) shelf [.allocate emptyRecord 2] w' →
      ∀ id, shelf.tree.content (bundleAt [] (smallBundles 1) emptyRecord id) = none →
        w'.tree.content (bundleAt [] (smallBundles 1) emptyRecord id) ≠ none →
        ∀ i, shelf.lastId () ≤ i → i < id →
          ¬ Takes [] (smallBundles 1) emptyRecord shelf.tree i := by
  intro h
  have hrun := executes_shelf (p := allocate (smallBundles 1) emptyRecord 2) (by decide +kernel)
  have hran : Ran [] (smallBundles 1) shelf [.allocate emptyRecord 2]
      ((allocate (smallBundles 1) emptyRecord 2).run (World.serve [] id randFive ()) shelf).2 := by
    refine ⟨fun call rounds heq => ?_, _, Prog.executes_bind.mpr ⟨_, _, hrun, rfl, rfl⟩, rfl⟩
    cases heq
    exact ready_shelf (by norm_num)
  exact h _ hran 6 (by decide +kernel) (by decide +kernel) 1 (by decide) (by decide)
    (takes_shelf 1).1

end SoleProcess

end BundleStore
