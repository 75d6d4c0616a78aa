import BundleStore.Lib.Posix
import BundleStore.Lib.Runs
import BundleStore.Model.Preload

set_option autoImplicit false

/-!
# What the preloaded calls do to a host program

Outside of the mount point every call should be the real one. Inside of it `open` and `creat` should
name the file by its path below the mount point.
-/

namespace BundleStore

namespace Preload

open Machine Posix

/-! ## Outside of the mount point -/

/-- The path is not below the mount point, or the descriptor is not in the table. -/
def Outside (st : Shim) (cwd : Bytes) : HostCall → Prop
  | .open_ pathname _ _ => isTrappedFile st.mount_point_ (toAbspath cwd pathname) = false
  | .creat pathname _ => isTrappedFile st.mount_point_ (toAbspath cwd pathname) = false
  | .read fd _ => st.getFile fd = none
  | .write fd _ => st.getFile fd = none
  | .pread fd _ _ => st.getFile fd = none
  | .pwrite fd _ _ => st.getFile fd = none
  | .lseek fd _ _ => st.getFile fd = none
  | .close fd => st.getFile fd = none

/-- A call with its answer. -/
abbrev Answered : Type :=
  Σ c : HostCall, c.Answer

/-- The calls of a host program, each with the directory it is made in. -/
def Shim.runs : Shim → List (Bytes × HostCall) → Shimmed (List Answered × Shim)
  | st, [] => pure ([], st)
  | st, (cwd, c) :: rest => do
      let (a, st) ← st.call cwd c
      let (results, st) ← st.runs rest
      pure (⟨c, a⟩ :: results, st)

variable {st : Shim} {cwd : Bytes} {c : HostCall} {calls : List (Bytes × HostCall)}

/-- The library with a mount point and nothing opened. -/
def mounted : Shim where
  mount_point_ := setMountPoint (Text.ascii "/mnt/mfs")
  map_ := []
  session := true

/-- The program begins with the call. -/
def Begins {α : Type} (p : Shimmed α) (o : PreloadCall) : Prop :=
  ∃ k, p = Prog.call o k

/-- The two paths lead to the same place in every tree, from every directory. -/
def SamePath (p q : Bytes) : Prop :=
  ∀ (t : Tree) (cwd : Loc), t.lookup cwd p = t.lookup cwd q

/-- The path below the mount point is defined, leads to the file again when it is joined to the
mount point, and is what `open` and `creat` name the file with. -/
def OpensInside (st : Shim) (cwd pathname : Bytes) : Prop :=
  ∃ interpath, toInterpath st.mount_point_ (toAbspath cwd pathname) = some interpath ∧
    SamePath (pathJoin st.mount_point_ interpath) (toAbspath cwd pathname) ∧
    (∀ flags mode, ∃ mode',
      Begins (st.call cwd (.open_ pathname flags mode)) (.fileOpen interpath flags mode')) ∧
    ∀ mode, Begins (st.call cwd (.creat pathname mode)) (.fileCreate interpath mode)

/-- What is put in front of a relative path. -/
def directory (cwd pathname : Bytes) : Bytes :=
  if pathname = [] ∨ cwd.getLast? = some 47 then cwd else cwd ++ [47]

/-- The path is relative, and the current directory is the mount point. -/
def FromMountPoint (mount_point_ cwd pathname : Bytes) : Prop :=
  isAbspath pathname = false ∧ mount_point_ = directory cwd pathname

variable {mount pathname : Bytes}

/-- A mount point ends with a slash.
SOURCE: preload.cc:211-218 -/
theorem setMountPoint_last (_h : mount ≠ []) : (setMountPoint mount).getLast? = some 47 := by
  unfold setMountPoint
  split
  · simp
  · rename_i hlast
    exact not_not.mp hlast

/-- A mount point is not empty. -/
theorem setMountPoint_ne_nil (h : mount ≠ []) : setMountPoint mount ≠ [] := by
  intro hnil
  have hlast := setMountPoint_last h
  rw [hnil] at hlast
  cases hlast

/-- A trapped path, with a slash behind it, begins with the mount point and with a slash. -/
theorem trapped_prefix {mount_point_ abspath : Bytes} (hne : mount_point_ ≠ [])
    (h : isTrappedFile mount_point_ abspath = true) :
    ∃ a, (a = abspath ∨ a = abspath ++ [47]) ∧ mount_point_ <+: a ∧ a.head? = some 47 := by
  unfold isTrappedFile at h
  generalize ha : (if abspath.getLast? ≠ some 47 then abspath ++ [47] else abspath) = a at h
  dsimp only at h
  have hcases : a = abspath ∨ a = abspath ++ [47] := by
    split at ha
    · exact .inr ha.symm
    · exact .inl ha.symm
  split at h
  · cases h
  · rename_i pos hfind
    by_cases hpos : pos = 0
    · subst hpos
      have hpre := (Search.find_some hfind).2.2.1
      rw [List.drop_zero] at hpre
      refine ⟨a, hcases, hpre, ?_⟩
      have hlong : a.length ≠ 0 := by
        intro hzero
        rw [List.length_eq_zero_iff.mp hzero, List.prefix_nil] at hpre
        exact hne hpre
      simp only [ne_eq, not_true_eq_false, if_false, hlong, decide_eq_true_eq] at h
      cases a with
      | nil => exact absurd rfl hlong
      | cons b a => exact congrArg some h.2
    · rw [if_pos hpos] at h
      cases h

/-- A trapped path is the mount point and what stands behind it. -/
theorem trapped_abspath {mount_point_ abspath : Bytes} (hne : mount_point_ ≠ [])
    (h : isTrappedFile mount_point_ abspath = true)
    (hlong : mount_point_.length ≤ abspath.length) :
    abspath = mount_point_ ++ abspath.drop mount_point_.length := by
  obtain ⟨a, ha, hpre, -⟩ := trapped_prefix hne h
  have hinside : mount_point_ <+: abspath := by
    rcases ha with rfl | rfl
    · exact hpre
    · exact List.prefix_of_prefix_length_le hpre (List.prefix_append _ _) hlong
  exact (List.prefix_iff_eq_append.mp hinside).symm

/-- What the calls of a trapped path begin with. -/
theorem openWith_trapped {st : Shim} {interpath : Bytes} {trapped : Shimmed NewFile}
    {real : Shimmed ℤ} (h : isTrappedFile st.mount_point_ (toAbspath cwd pathname) = true)
    (hready : st.connectReady = true)
    (hinter : toInterpath st.mount_point_ (toAbspath cwd pathname) = some interpath) :
    st.openWith cwd pathname trapped real = trapped >>= st.newFile := by
  unfold Shim.openWith
  dsimp only
  rw [h, hready, hinter]
  rfl

/-- A relative path is made absolute in the directory. -/
theorem toAbspath_relative (hrel : isAbspath pathname = false)
    (hcwd : cwd ≠ [] ∨ pathname = []) :
    toAbspath cwd pathname = directory cwd pathname ++ pathname := by
  unfold toAbspath pathJoin directory
  have hhead : ¬ pathname.head? = some 47 := of_decide_eq_false hrel
  rw [hrel, if_neg Bool.false_ne_true]
  by_cases hempty : pathname = []
  · rw [if_pos hempty, if_pos (.inl hempty), hempty, List.append_nil]
  · have hcwd' : cwd ≠ [] := hcwd.resolve_right hempty
    rw [if_neg hempty, if_neg hcwd', if_neg hhead]
    by_cases hslash : cwd.getLast? = some 47
    · rw [if_pos hslash, if_pos (.inr hslash)]
    · rw [if_neg hslash, if_neg (not_or.mpr ⟨hempty, hslash⟩)]

/-- A trapped path is the mount point with the path behind it exactly for a relative path in the
directory that is the mount point. -/
theorem toAbspath_eq_iff {mount_point_ : Bytes} (hne : mount_point_ ≠ [])
    (htrapped : isTrappedFile mount_point_ (toAbspath cwd pathname) = true) :
    toAbspath cwd pathname = mount_point_ ++ pathname ↔
      FromMountPoint mount_point_ cwd pathname := by
  have hself (heq : pathname = mount_point_ ++ pathname) : False := by
    have hlength := congrArg List.length heq
    rw [List.length_append] at hlength
    exact hne (List.length_eq_zero_iff.mp (by omega))
  by_cases hcwd : cwd ≠ [] ∨ pathname = []
  · constructor
    · intro heq
      cases hrel : isAbspath pathname with
      | true =>
          rw [toAbspath, if_pos hrel] at heq
          exact (hself heq).elim
      | false =>
          rw [toAbspath_relative hrel hcwd] at heq
          exact ⟨hrel, (List.append_cancel_right heq).symm⟩
    · rintro ⟨hrel, hpoint⟩
      rw [toAbspath_relative hrel hcwd, ← hpoint]
  · -- without a current directory the path itself is looked at, which is not trapped
    obtain ⟨hcwd, hempty⟩ := not_or.mp hcwd
    rw [not_ne_iff] at hcwd
    have habs : toAbspath cwd pathname = pathname := by
      unfold toAbspath pathJoin
      rw [if_neg hempty, if_pos hcwd, ite_self]
    constructor
    · intro heq
      rw [habs] at heq
      exact (hself heq).elim
    · rintro ⟨hrel, -⟩
      have hhead : ¬ pathname.head? = some 47 := of_decide_eq_false hrel
      obtain ⟨a, ha, -, hslash⟩ := trapped_prefix hne htrapped
      rw [habs] at ha
      rcases ha with rfl | rfl
      · exact absurd hslash hhead
      · rw [List.head?_append_of_ne_nil _ hempty] at hslash
        exact absurd hslash hhead

/-- The path is opened as it is given. -/
theorem OpensInside.toInterpath {st : Shim} (h : OpensInside st cwd pathname)
    (htrapped : isTrappedFile st.mount_point_ (toAbspath cwd pathname) = true)
    (hready : st.connectReady = true) :
    toInterpath st.mount_point_ (toAbspath cwd pathname) = some pathname := by
  obtain ⟨interpath, hinter, -, hopen, -⟩ := h
  obtain ⟨mode', k, hcall⟩ := hopen 0 none
  have hbegin : st.call cwd (.open_ pathname 0 none) =
      Prog.call (PreloadCall.fileOpen pathname 0 0) st.newFile :=
    openWith_trapped htrapped hready hinter
  rw [hbegin] at hcall
  injection hcall with hcall
  injection hcall with hpath
  rw [hinter, hpath]

/-- **The path below the mount point is the one that is opened exactly for a relative path in the
directory that is the mount point.**
SOURCE: preload.cc:78-133, 211-218 -/
theorem opens_inside_iff {st : Shim} (hmount : mount ≠ [])
    (hpoint : st.mount_point_ = setMountPoint mount) (hready : st.session = true)
    (htrapped : isTrappedFile st.mount_point_ (toAbspath cwd pathname) = true) :
    OpensInside st cwd pathname ↔ FromMountPoint st.mount_point_ cwd pathname := by
  have hne : st.mount_point_ ≠ [] := hpoint ▸ setMountPoint_ne_nil hmount
  have hconnect : st.connectReady = true := by
    unfold Shim.connectReady
    rw [hready, Bool.and_true, Bool.not_eq_true', List.isEmpty_eq_false_iff]
    exact hne
  rw [← toAbspath_eq_iff hne htrapped]
  constructor
  · intro hinside
    have hinter := hinside.toInterpath htrapped hconnect
    unfold toInterpath at hinter
    split at hinter
    · cases hinter
    · rename_i hlong
      have habs := trapped_abspath hne htrapped (Nat.not_lt.mp hlong)
      rwa [Option.some.inj hinter] at habs
  · intro habs
    have hinter : toInterpath st.mount_point_ (toAbspath cwd pathname) = some pathname := by
      rw [habs, toInterpath, if_neg (by simp), List.drop_left]
    have hjoin : pathJoin st.mount_point_ pathname = toAbspath cwd pathname := by
      have hlast : st.mount_point_.getLast? = some 47 := hpoint ▸ setMountPoint_last hmount
      have hrel := ((toAbspath_eq_iff hne htrapped).mp habs).1
      have hpath : directory st.mount_point_ pathname = st.mount_point_ :=
        if_pos (.inr hlast)
      have hjoined := toAbspath_relative hrel (.inl hne)
      rw [hpath, toAbspath, hrel, if_neg Bool.false_ne_true] at hjoined
      rw [hjoined, habs]
    refine ⟨pathname, hinter, fun t l => by rw [hjoin], fun flags mode => ⟨0, st.newFile, ?_⟩,
      fun mode => ⟨st.newFile, ?_⟩⟩
    · exact openWith_trapped htrapped hconnect hinter
    · exact openWith_trapped htrapped hconnect hinter

/-- `foo` in the mount point opens the file inside. -/
theorem opens_inside_iff_foo :
    OpensInside mounted (Text.ascii "/mnt/mfs") (Text.ascii "foo") ↔
      FromMountPoint mounted.mount_point_ (Text.ascii "/mnt/mfs") (Text.ascii "foo") := by
  have hpoint : mounted.mount_point_ = setMountPoint (Text.ascii "/mnt/mfs") := rfl
  exact opens_inside_iff (by decide) hpoint rfl (by decide +kernel)

/-- An absolute path is not stripped. -/
theorem not_opens_inside :
    ¬ ∀ (st : Shim) (mount cwd pathname : Bytes), mount ≠ [] →
      st.mount_point_ = setMountPoint mount → st.session = true →
      isTrappedFile st.mount_point_ (toAbspath cwd pathname) = true →
      OpensInside st cwd pathname := by
  intro hall
  have htrapped : isTrappedFile mounted.mount_point_
      (toAbspath (Text.ascii "/tmp") (Text.ascii "/mnt/mfs/foo")) = true := by
    decide +kernel
  have hinside := hall mounted (Text.ascii "/mnt/mfs") (Text.ascii "/tmp")
    (Text.ascii "/mnt/mfs/foo") (by decide) rfl rfl htrapped
  exact absurd (hinside.toInterpath htrapped rfl) (by decide +kernel)

end Preload

end BundleStore
