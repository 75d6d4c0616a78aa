import BundleStore.Analysis.Exchanges
import BundleStore.Model.MooseDescriptors
import Mathlib.Data.List.Count

set_option autoImplicit false

/-!
# Descriptors do not get mixed up

A descriptor is the inode of its file. Opening a file again while it is open
gives the descriptor that is open already, and `map_` forgets the first object.
As long as the master opens and creates no file whose descriptor is open, every
successful open has a descriptor of its own.
-/

namespace BundleStore

namespace Moose

open Machine Prog

/-! ## What the master has granted -/

/-- What the replies so far tell: the inode that the lookups have led to, and the
one that was opened or created. -/
structure Naming where
  inode : ℕ
  granted : Option ℕ

/-- The inode that a reply to `Lookup` or `Mknod` names, where the caller's variable
holds `inode`; a reply of one byte does not store to it. -/
def entryInode (answer : Option Reply) (inode : ℕ) : Option ℕ :=
  match answer with
  | none => none
  | some reply =>
      if Grants (· == 39) reply then
        some (if reply.length = 1 then inode else get32bit reply.rptr 0)
      else none

/-- The inode that a reply to `Open` has opened. -/
def openedInode (answer : Option Reply) (inode : ℕ) : Option ℕ :=
  match answer with
  | none => none
  | some reply => if Grants (· == 35) reply then some inode else none

/-- Follows the replies. After a failed lookup the caller is left with `uninit`. -/
def grants (uninit : ℕ) : Monitor MasterCall MasterCall.Answer Naming where
  step
    | .send (.lookup _ _), answer, s => { s with inode := (entryInode answer s.inode).getD uninit }
    | .send (.openFile _ _), answer, s => { s with granted := openedInode answer s.inode }
    | .send (.mknod ..), answer, s => { s with granted := entryInode answer 0 }
    | _, _, s => s
  Allows _ _ := True

def clientGrants (uninit : ℕ) : Monitor FileCall FileCall.Answer Naming where
  step
    | .master o, answer, s => (grants uninit).step o answer s
    | _, _, s => s
  Allows _ _ := True

variable {unset : ℕ} {s : Naming} {self : File} {pathname : Bytes} {flags mode : ℕ}

/-- A lookup leaves what was granted, and the inode it found.
SOURCE: moose.cc:456-493 -/
theorem passes_lookup (parent : ℕ) (name : Bytes) :
    (grants unset).Passes
      (fun r s' => s'.granted = s.granted ∧
        s'.inode = if r.1 = STATUS_OK then r.2.inode.getD s.inode else unset)
      (MasterServer.lookup parent name true true) s := by
  refine exchange_passes (fun _ _ => trivial) (fun _ => rfl) ?_ ?_
  · intro reply hgrants
    refine ⟨rfl, ?_⟩
    by_cases hone : reply.length = 1
    · simp [grants, entryInode, hgrants, hone]
    · simp [grants, entryInode, hgrants, hone, MasterServer.entryOutputs]
  · intro answer ret hrefused hret
    refine ⟨rfl, ?_⟩
    cases answer with
    | none => simp [grants, entryInode, hret]
    | some reply => simp [grants, entryInode, hrefused reply rfl, hret]

/-- The lookup of a path leaves what was granted, by induction on the path. -/
theorem passes_lookupFrom (components : List Bytes) (inode_temp : ℕ) (attr : FileAttribute) :
    (grants unset).Passes
      (fun r s' => s'.granted = s.granted ∧ (s.inode = inode_temp →
        s'.inode = if r.1 = STATUS_OK then r.2.1 else unset))
      (MasterServer.lookupFrom inode_temp attr components) s := by
  induction components generalizing inode_temp attr s with
  | nil => exact ⟨rfl, fun h => h⟩
  | cons copy rest ih =>
      unfold MasterServer.lookupFrom
      refine Monitor.Passes.ite (fun _ => ih inode_temp attr) fun _ => ?_
      refine Monitor.Passes.bind (passes_lookup inode_temp copy) ?_
      rintro ⟨ret, out⟩ s₁ ⟨hgranted, hinode⟩
      refine Monitor.Passes.ite (fun hret => ⟨hgranted, fun _ => ?_⟩) fun hret => ?_
      · rw [hinode]
        simp [hret]
      · rw [not_not] at hret
        refine (ih _ _).mono ?_
        rintro r s₂ ⟨hgranted₂, hinode₂⟩
        refine ⟨hgranted₂.trans hgranted, fun h => hinode₂ ?_⟩
        rw [hinode, if_pos hret, h]

/-- The lookup of a path leads to the inode it returns, and to the caller's
variable as it was when it fails. -/
theorem passes_lookupPath (attr : Bool) :
    (grants unset).Passes
      (fun r s' => s'.granted = s.granted ∧
        (s.inode = MFS_ROOT_ID → s'.inode = r.2.inode.getD unset))
      (MasterServer.lookupPath pathname true attr) s := by
  refine Monitor.Passes.bind (passes_lookupFrom _ _ _) ?_
  rintro ⟨ret, inode_temp, attr_temp⟩ s₁ ⟨hgranted, hinode⟩
  refine Monitor.Passes.ite (fun hret => ⟨hgranted, fun h => ?_⟩) fun hret =>
    ⟨hgranted, fun h => ?_⟩
  · rw [hinode h, if_neg hret]
    rfl
  · rw [not_not] at hret
    rw [hinode h, if_pos hret]
    rfl

/-- Success is a grant of the object's inode. -/
def GrantedFile (r : ℤ × File) (s : Naming) : Prop :=
  if r.1 = STATUS_OK then s.granted = some r.2.inode_ else s.granted = none

/-- A file made in a directory is granted.
SOURCE: moose.cc:1298-1329 -/
theorem passes_createIn (parent : ℕ) (name : Bytes) :
    (grants unset).Passes GrantedFile (self.createIn parent name mode) s := by
  refine Monitor.Passes.bind (R := fun r s' =>
    s'.granted = if r.1 = STATUS_OK then some (r.2.inode.getD 0) else none) ?_ ?_
  · unfold MasterServer.create MasterServer.mknod
    refine exchange_passes (fun _ _ => trivial) (fun _ => rfl) ?_ ?_
    · intro reply hgrants
      by_cases hone : reply.length = 1
      · simp [grants, entryInode, hgrants, hone]
      · simp [grants, entryInode, hgrants, hone, MasterServer.entryOutputs]
    · intro answer ret hrefused hret
      cases answer with
      | none => simp [grants, entryInode, hret]
      | some reply => simp [grants, entryInode, hrefused reply rfl, hret]
  · rintro ⟨ret, out⟩ s₁ hgranted
    refine Monitor.Passes.ite (fun hret => ?_) fun hret => ?_
    · simpa [GrantedFile, hret] using hgranted
    · rw [not_not] at hret
      simpa [GrantedFile, hret] using hgranted

/-- A file made at a path is granted.
SOURCE: moose.cc:1298-1329 -/
theorem passes_create (hs : s.granted = none) :
    (grants unset).Passes GrantedFile (self.create pathname mode) s := by
  unfold File.create
  cases Text.rfind 47 pathname with
  | none => exact passes_createIn _ _
  | some slash =>
      refine Monitor.Passes.bind (passes_lookupPath false) ?_
      rintro ⟨ret, out⟩ s₁ ⟨hgranted, -⟩
      refine Monitor.Passes.ite (fun hret => ?_) fun _ => passes_createIn _ _
      simpa [GrantedFile, hret] using hgranted.trans hs

/-- A file opened by its inode is granted.
SOURCE: moose.cc:1256-1296 -/
theorem passes_openInode (local_ : Uninit) {inode : ℕ} (hinode : s.inode = inode) :
    (grants unset).Passes GrantedFile (self.openInode local_ inode flags) s := by
  refine Monitor.Passes.bind (R := fun r s' =>
    s'.granted = if r.1 = STATUS_OK then some inode else none) ?_ ?_
  · refine exchange_passes (fun _ _ => trivial) (fun _ => rfl) ?_ ?_
    · intro reply hgrants
      simp at hgrants
      simp [grants, openedInode, hgrants, hinode]
    · intro answer ret hrefused hret
      simp at hrefused
      cases answer with
      | none => simp [grants, openedInode, hret]
      | some reply => simp [grants, openedInode, hrefused reply rfl, hret]
  · rintro ⟨ret, out⟩ s₁ hgranted
    refine Monitor.Passes.ite (fun hret => ?_) fun hret => ?_
    · simpa [GrantedFile, hret] using hgranted
    · rw [not_not] at hret
      refine Monitor.Passes.ite (fun _ => ?_) fun _ => ?_
      · simpa [GrantedFile, hret] using hgranted
      · simpa [GrantedFile, hret] using hgranted

/-- A file opened at a path is granted.
SOURCE: moose.cc:1256-1296 -/
theorem passes_openFile (local_ : Uninit) (hs : s = ⟨MFS_ROOT_ID, none⟩) :
    (grants local_.inode).Passes GrantedFile (self.openFile local_ pathname flags mode) s := by
  subst hs
  refine Monitor.Passes.bind (passes_lookupPath false) ?_
  rintro ⟨ret, out⟩ s₁ ⟨hgranted, hinode⟩
  refine Monitor.Passes.ite (fun _ => passes_create hgranted) fun _ => ?_
  refine Monitor.Passes.ite (fun _ => ?_) fun _ => passes_openInode local_ (hinode rfl)
  simpa [GrantedFile, STATUS_OK] using hgranted

/-! ## One call -/

/-- An object is entered when a file was granted, under the inode of the file. -/
def Entered (map_ : Descriptors) (r : ℤ × Descriptors) (s : Naming) : Prop :=
  match s.granted with
  | some inode => ∃ f, r = (int32 inode, Function.update map_ (int32 inode) (some f))
  | none => r = (-1, map_)

/-- A granted file is entered under its inode.
SOURCE: moose_c.cc:50-174 -/
theorem entered_of_granted {map_ : Descriptors} {r : ℤ × File} (h : GrantedFile r s) :
    Entered map_ (map_.enter r.1 r.2) s := by
  unfold GrantedFile at h
  by_cases hret : r.1 = 0
  · have hgranted : s.granted = some r.2.inode_ := by simpa [STATUS_OK, hret] using h
    rw [Entered, hgranted, Descriptors.enter, if_pos hret]
    exact ⟨_, rfl⟩
  · have hgranted : s.granted = none := by simpa [STATUS_OK, hret] using h
    simp [Entered, hgranted, Descriptors.enter, hret]

/-- What a program of the master grants, a program of the client does. -/
theorem passes_onMaster {α : Type} {Q : α → Naming → Prop} {p : Master α}
    (h : (grants unset).Passes Q p s) : (clientGrants unset).Passes Q (onMaster p) s :=
  h.embed (fun _ _ _ => trivial) fun _ _ _ => rfl

variable {crc_32 : Bytes → UInt32}

namespace MfsCall

/-- What the local variable of `Open` holds before the lookup. -/
def uninit : MfsCall → ℕ
  | mfs_open uninit _ _ _ => uninit.inode
  | _ => 0

/-- The inode that the master has opened or created in a call. -/
def granted (call : MfsCall) (t : ClientTrace) : Option ℕ :=
  ((clientGrants call.uninit).after ⟨MFS_ROOT_ID, none⟩ t).granted

variable {map_ map_' : Descriptors} {call : MfsCall} {t : ClientTrace} {ret : ℤ}

/-- A call that closes a descriptor is one on it. -/
theorem descriptor_of_closes {fd : ℤ} (h : call.closes = some fd) : call.descriptor = some fd := by
  cases call with
  | mfs_close => exact h
  | mfs_open | mfs_creat | mfs_read | mfs_write | mfs_lseek => cases h

/-- What a call without a descriptor does. -/
theorem entered_of_runs (h : (call.body crc_32 map_).Runs t (ret, map_'))
    (hopen : call.descriptor = none) :
    (call.granted t = none ∧ ret = -1 ∧ map_' = map_) ∨
      ∃ inode f, call.granted t = some inode ∧ ret = int32 inode ∧
        map_' = Function.update map_ (int32 inode) (some f) := by
  have hpasses : (clientGrants call.uninit).Passes (Entered map_) (call.body crc_32 map_)
      ⟨MFS_ROOT_ID, none⟩ := by
    cases call with
    | mfs_open local_ pathname flags mode =>
        exact Monitor.Passes.bind (passes_onMaster (passes_openFile local_ rfl))
          fun _ _ h => entered_of_granted h
    | mfs_creat pathname mode =>
        exact Monitor.Passes.bind (passes_onMaster (passes_create rfl))
          fun _ _ h => entered_of_granted h
    | mfs_read | mfs_write | mfs_lseek | mfs_close => cases hopen
  have hentered : Entered map_ (ret, map_') _ := hpasses.result h
  unfold Entered at hentered
  cases hgranted : call.granted t with
  | none =>
      rw [granted] at hgranted
      rw [hgranted] at hentered
      cases hentered
      exact .inl ⟨rfl, rfl, rfl⟩
  | some inode =>
      rw [granted] at hgranted
      rw [hgranted] at hentered
      obtain ⟨f, heq⟩ := hentered
      injection heq with hret hmap
      exact .inr ⟨inode, f, rfl, hret, hmap⟩

/-- What a call with a descriptor does: it works on the object of the descriptor,
and `mfs_close` takes it out of the table. -/
theorem kept_of_runs {fd : ℤ} (h : (call.body crc_32 map_).Runs t (ret, map_'))
    (hfd : call.descriptor = some fd) :
    (map_ fd = none ∧ ret = -1 ∧ map_' = map_) ∨
      ((map_ fd).isSome ∧
        if call.closes = some fd then ret = 0 ∧ map_' = Function.update map_ fd none
        else ∃ f, map_' = Function.update map_ fd (some f)) := by
  cases hmap : map_ fd with
  | none =>
      cases call with
      | mfs_open | mfs_creat => cases hfd
      | mfs_read | mfs_write | mfs_lseek | mfs_close =>
          cases hfd
          simp only [body, Moose.mfs_read, Moose.mfs_write, Moose.mfs_lseek, Moose.mfs_close,
            hmap] at h
          obtain ⟨-, heq⟩ := h
          cases heq
          exact .inl ⟨rfl, rfl, rfl⟩
  | some f =>
      refine .inr ⟨rfl, ?_⟩
      cases call with
      | mfs_open | mfs_creat => cases hfd
      | mfs_read | mfs_write | mfs_lseek =>
          cases hfd
          simp only [body, Moose.mfs_read, Moose.mfs_write, Moose.mfs_lseek, hmap] at h
          obtain ⟨_, _, _, -, -, -, heq⟩ := runs_bind.mp h
          cases heq
          exact ⟨_, rfl⟩
      | mfs_close =>
          cases hfd
          simp only [body, Moose.mfs_close, hmap] at h
          obtain ⟨_, _, _, -, -, -, heq⟩ := runs_bind.mp h
          cases heq
          simp [closes]

end MfsCall

/-! ## A session -/

/-- How many of the calls have opened the descriptor. -/
def opens (fd : ℤ) (done : List (MfsCall × ℤ)) : ℕ :=
  done.countP fun e => e.1.descriptor == none && e.2 == fd

/-- How many of the calls have closed it with success. -/
def closes (fd : ℤ) (done : List (MfsCall × ℤ)) : ℕ :=
  done.countP fun e => e.1.closes == some fd && e.2 == 0

/-- The descriptor has been opened and not been closed since. -/
def IsOpen (done : List (MfsCall × ℤ)) (fd : ℤ) : Prop :=
  fd ≠ -1 ∧ closes fd done < opens fd done

/-- What is asked of a call after others: an open gives a descriptor that is not
open; a descriptor that is open has a position, which no call on another one
changes; and a close succeeds once for each successful open. -/
structure Independent (done : List (MfsCall × ℤ)) (map_ : Descriptors) (call : MfsCall) (ret : ℤ)
    (map_' : Descriptors) : Prop where
  distinct : call.descriptor = none → ret ≠ -1 → ¬ IsOpen done ret
  valid : ∀ fd, IsOpen done fd → ∃ f, map_ fd = some f
  others : ∀ fd, IsOpen done fd → call.descriptor ≠ some fd → map_' fd = map_ fd
  closed : ∀ fd, fd ≠ -1 → call.closes = some fd → (ret = 0 ↔ IsOpen done fd)

/-- The master does not open or create a file whose descriptor is open. -/
def OpensOther (map_ : Descriptors) (call : MfsCall) (t : ClientTrace) : Prop :=
  ∀ inode, call.granted t = some inode → map_ (int32 inode) = none

/-- A descriptor is in the table when it is open, and has then been opened once
more than it has been closed. -/
theorem Session.count {done : List (MfsCall × ℤ)} {map_ : Descriptors}
    (h : Session crc_32 OpensOther done map_) {fd : ℤ} (hfd : fd ≠ -1) :
    opens fd done = closes fd done + if (map_ fd).isSome then 1 else 0 := by
  induction h with
  | nil => rfl
  | @call done map_ map_' call t ret _ hruns hok ih =>
      have hopens : opens fd (done ++ [(call, ret)]) =
          opens fd done + if call.descriptor = none ∧ ret = fd then 1 else 0 := by
        simp [opens, List.countP_append, List.countP_cons]
      have hcloses : closes fd (done ++ [(call, ret)]) =
          closes fd done + if call.closes = some fd ∧ ret = 0 then 1 else 0 := by
        simp [closes, List.countP_append, List.countP_cons]
      rw [hopens, hcloses, ih]
      cases hcall : call.descriptor with
      | none =>
          have hclose : call.closes ≠ some fd := by
            intro hc
            rw [MfsCall.descriptor_of_closes hc] at hcall
            cases hcall
          obtain ⟨-, rfl, rfl⟩ | ⟨inode, f, hgranted, hret, rfl⟩ := call.entered_of_runs hruns hcall
          · simp [hclose, Ne.symm hfd]
          · have hfree := hok inode hgranted
            rw [← hret] at hfree ⊢
            by_cases heq : ret = fd
            · rw [heq] at hfree ⊢
              simp [hclose, hfree]
            · simp [hclose, heq, Ne.symm heq]
      | some fd' =>
          obtain ⟨hnone, rfl, rfl⟩ | ⟨hsome, hstep⟩ := call.kept_of_runs hruns hcall
          · simp
          · by_cases hclose : call.closes = some fd'
            · rw [if_pos hclose] at hstep
              obtain ⟨rfl, rfl⟩ := hstep
              by_cases heq : fd' = fd
              · subst heq
                simp [hclose, hsome]
              · simp [hclose, heq, Ne.symm heq]
            · rw [if_neg hclose] at hstep
              obtain ⟨f, rfl⟩ := hstep
              by_cases heq : fd' = fd
              · subst heq
                simp [hclose, hsome]
              · have hother : call.closes ≠ some fd := by
                  intro hc
                  rw [MfsCall.descriptor_of_closes hc] at hcall
                  exact heq (Option.some.inj hcall).symm
                simp [hother, Ne.symm heq]

/-- A descriptor is open when `map_` has an object for it. -/
theorem Session.isOpen_iff {done : List (MfsCall × ℤ)} {map_ : Descriptors}
    (h : Session crc_32 OpensOther done map_) {fd : ℤ} (hfd : fd ≠ -1) :
    IsOpen done fd ↔ (map_ fd).isSome := by
  have hcount := h.count hfd
  unfold IsOpen
  split at hcount <;> simp_all

/-- **Descriptors are independent** in every session in which the master opens and
creates no file whose descriptor is open.
SOURCE: moose_c.cc:50-121, moose.cc:1256-1346 -/
theorem descriptors_independent {done : List (MfsCall × ℤ)} {map_ map_' : Descriptors}
    {call : MfsCall} {t : ClientTrace} {ret : ℤ} (h : Session crc_32 OpensOther done map_)
    (hruns : (call.body crc_32 map_).Runs t (ret, map_')) (hother : OpensOther map_ call t) :
    Independent done map_ call ret map_' := by
  have hvalid : ∀ fd, IsOpen done fd → (map_ fd).isSome := fun fd hopen =>
    (h.isOpen_iff hopen.1).mp hopen
  refine ⟨?_, fun fd hopen => Option.isSome_iff_exists.mp (hvalid fd hopen), ?_, ?_⟩
  · intro hcall hret hopen
    obtain ⟨-, rfl, -⟩ | ⟨inode, f, hgranted, heq, -⟩ := call.entered_of_runs hruns hcall
    · exact hret rfl
    · have hsome := hvalid _ hopen
      rw [heq, hother inode hgranted] at hsome
      cases hsome
  · intro fd hopen hfd
    cases hcall : call.descriptor with
    | none =>
        obtain ⟨-, -, rfl⟩ | ⟨inode, f, hgranted, -, rfl⟩ := call.entered_of_runs hruns hcall
        · rfl
        · refine Function.update_of_ne (fun heq => ?_) _ _
          have hsome := hvalid _ hopen
          rw [heq, hother inode hgranted] at hsome
          cases hsome
    | some fd' =>
        have hne : fd ≠ fd' := fun heq => hfd (heq ▸ hcall)
        obtain ⟨-, -, rfl⟩ | ⟨-, hstep⟩ := call.kept_of_runs hruns hcall
        · rfl
        · split at hstep
          · rw [hstep.2, Function.update_of_ne hne]
          · obtain ⟨f, rfl⟩ := hstep
            rw [Function.update_of_ne hne]
  · intro fd hfd hclose
    rw [h.isOpen_iff hfd]
    obtain ⟨hnone, rfl, -⟩ | ⟨hsome, hstep⟩ :=
      call.kept_of_runs hruns (MfsCall.descriptor_of_closes hclose)
    · simp [hnone]
    · rw [if_pos hclose] at hstep
      exact iff_of_true hstep.1 hsome

/-! ## Two sessions -/

/-- The call opens the file `a` for reading and writing. -/
def openCall : MfsCall := .mfs_open ⟨0, 0⟩ (Text.ascii "a") O_RDWR 0

/-- The master knows `a` as inode 7, and grants the request to open it. -/
def openTrace : ClientTrace :=
  [⟨.master (.send (.lookup 1 (Text.ascii "a"))), some ⟨39, fun i => if i = 3 then 7 else 0⟩⟩,
    ⟨.master (.send (.openFile 7 3)), some ⟨1, fun _ => 0⟩⟩]

def opened (map_ : Descriptors) : Descriptors :=
  Function.update map_ 7 (some { inode_ := 7 })

/-- A file that is granted is entered under its inode. -/
theorem enter_granted (map_ : Descriptors) {inode : ℕ} (h : inode < 2 ^ 31) :
    map_.enter 0 { inode_ := inode } =
      ((inode : ℤ), Function.update map_ inode (some { inode_ := inode })) := by
  simp [Descriptors.enter, int32_natCast h]

/-- The example opens a file. -/
theorem openCall_runs (map_ : Descriptors) :
    (openCall.body bitwiseCrc map_).Runs openTrace (7, opened map_) := by
  have hruns : (openCall.body bitwiseCrc map_).Runs openTrace (map_.enter 0 { inode_ := 7 }) :=
    ⟨_, _, rfl, _, _, rfl, rfl, rfl⟩
  rwa [enter_granted map_ (by norm_num)] at hruns

/-- With `a` open, `b` is created as inode 8. -/
theorem descriptors_independent_created :
    Independent [(openCall, 7)] (opened fun _ => none) (.mfs_creat (Text.ascii "b") 0) 8
      (Function.update (opened fun _ => none) 8 (some { inode_ := 8 })) := by
  have hopen : Session bitwiseCrc OpensOther ([] ++ [(openCall, 7)]) (opened fun _ => none) :=
    .call .nil (openCall_runs _) fun _ _ => rfl
  have hcreat :
    (MfsCall.body bitwiseCrc (opened fun _ => none) (.mfs_creat (Text.ascii "b") 0)).Runs
      [⟨.master (.send (.mknod 1 (Text.ascii "b") TYPE_FILE 0 0)),
        some ⟨39, fun i => if i = 3 then 8 else 0⟩⟩]
      (Descriptors.enter (opened fun _ => none) 0 { inode_ := 8 }) :=
    ⟨_, _, rfl, rfl, rfl⟩
  rw [enter_granted _ (by norm_num)] at hcreat
  refine descriptors_independent hopen hcreat ?_
  intro inode hgranted
  obtain rfl : 8 = inode := Option.some.inj hgranted
  rw [int32_natCast (by norm_num)]
  rfl

/-- A file that is opened twice has one descriptor. -/
theorem not_descriptors_independent :
    ¬ ∀ done map_ call t ret map_', Session bitwiseCrc (fun _ _ _ => True) done map_ →
      (MfsCall.body bitwiseCrc map_ call).Runs t (ret, map_') →
        Independent done map_ call ret map_' := by
  intro hall
  have hopen : Session bitwiseCrc (fun _ _ _ => True) ([] ++ [(openCall, 7)])
      (opened fun _ => none) :=
    .call .nil (openCall_runs _) trivial
  have hindependent := hall _ _ _ _ _ _ hopen (openCall_runs _)
  refine hindependent.distinct rfl (by decide) ⟨by decide, ?_⟩
  decide

end Moose

end BundleStore
