import BundleStore.Analysis.Calls
import BundleStore.Model.PyBundle

set_option autoImplicit false

/-!
# What concurrent Python processes lose

The lock of a bundle is held from `allocate` on until the writer is deleted, and the
offset is asked for with the lock held. But whether there is a bundle is asked for
before: a process that has seen none creates it anew, whatever others have written
meanwhile. In runs in which that does not happen every record stays.
-/

namespace BundleStore

namespace PyBundle

open Machine Posix

/-! ## Where locks and bundles lie -/

/-- The names that `new_bid` gives. -/
def IsBid (bid : Bytes) : Prop :=
  ∃ id tm, bid = newBid id tm

/-- There is no slash in a day. -/
theorem slash_not_mem_day (tm : Day) : slash ∉ tm.text := by
  intro h
  exact absurd (tm.digits slash h).1 (by decide)

/-- A day is the name of a file. -/
theorem isName_day (tm : Day) : IsName tm.text := by
  have hdot : (46 : UInt8) ∉ tm.text := fun h => absurd (tm.digits 46 h).1 (by decide)
  refine ⟨tm.ne_nil, ?_, ?_⟩
  · intro heq
    simp [heq] at hdot
  · intro heq
    simp [heq, dotdot] at hdot

/-- A bundle id is a day and a numeral. -/
theorem components_newBid (id : ℕ) (tm : Day) :
    components (newBid id tm) = [tm.text, Text.hex8 id] := by
  unfold newBid
  rw [components_append_slash, components_of_no_slash (slash_not_mem_day tm),
    components_of_no_slash (slash_not_mem_hex8 id)]
  rfl

namespace Places

variable (L : Places)

def bundleLoc (bid : Bytes) : Loc :=
  canon L.cwd (bundleFilename bid L.place)

def lockLoc (bid : Bytes) : Loc :=
  canon L.cwd (L.lockFile bid)

/-- Locks and bundles are kept in different directories. -/
def Apart : Prop :=
  canon L.cwd L.place ≠ canon L.cwd (L.lock_place ++ [slash])

variable {L} {bid bid' : Bytes}

/-- A bundle lies in the directory of its day under the place.
SOURCE: bundle.py:228-243 -/
theorem bundleLoc_eq (id : ℕ) (tm : Day) :
    L.bundleLoc (newBid id tm) = Text.hex8 id :: tm.text :: canon L.cwd L.place := by
  have hne : newBid id tm ≠ [] := by
    simp [newBid]
  have hrel : (newBid id tm).head? ≠ some slash := by
    intro h
    rw [newBid, List.head?_append_of_ne_nil _ tm.ne_nil] at h
    exact slash_not_mem_day tm (List.mem_of_mem_head? h)
  have hjoin : join L.place (newBid id tm) = pathJoin L.place (newBid id tm) := by
    unfold join pathJoin
    rw [if_neg hrel, if_neg hne]
    by_cases hplace : L.place = []
    · simp [hplace]
    · simp only [hplace, false_or, if_false]
      rw [if_neg (show ¬ (newBid id tm).head? = some 47 from hrel), List.append_assoc]
      rfl
  unfold bundleLoc bundleFilename
  rw [hjoin, canon_pathJoin _ _ hne hrel, components_newBid]
  simp only [List.foldl_cons, List.foldl_nil, descend_name (isName_day tm),
    descend_name (isName_hex8 id)]

/-- A lock lies in the directory of its day under the place of the locks.
SOURCE: bundle.py:192 -/
theorem lockLoc_eq (id : ℕ) (tm : Day) :
    L.lockLoc (newBid id tm) =
      Text.hex8 id :: tm.text :: canon L.cwd (L.lock_place ++ [slash]) := by
  have hcanon : L.lockLoc (newBid id tm) =
      (components (newBid id tm)).foldl descend (canon L.cwd (L.lock_place ++ [slash])) := by
    unfold lockLoc lockFile
    by_cases hplace : L.lock_place = []
    · rw [hplace]
      have hcomp := components_append_slash [] (newBid id tm)
      rw [List.nil_append] at hcomp
      unfold canon
      rw [List.nil_append, hcomp, List.foldl_append]
      rfl
    · rw [canon_append_slash _ hplace, canon_slash _ hplace]
  rw [hcanon, components_newBid]
  simp only [List.foldl_cons, List.foldl_nil, descend_name (isName_day tm),
    descend_name (isName_hex8 id)]

/-- No lock lies where a bundle does, if the two places are apart. -/
theorem lockLoc_ne_bundleLoc (hapart : L.Apart) (hbid : IsBid bid) (hbid' : IsBid bid') :
    L.lockLoc bid ≠ L.bundleLoc bid' := by
  obtain ⟨id, tm, rfl⟩ := hbid
  obtain ⟨id', tm', rfl⟩ := hbid'
  rw [lockLoc_eq, bundleLoc_eq]
  intro h
  exact hapart (List.cons.inj (List.cons.inj h).2).2.symm

/-- A bundle belongs to one name. -/
theorem bid_of_bundleLoc (hbid : IsBid bid) (hbid' : IsBid bid')
    (h : L.bundleLoc bid = L.bundleLoc bid') : bid = bid' := by
  obtain ⟨id, tm, rfl⟩ := hbid
  obtain ⟨id', tm', rfl⟩ := hbid'
  rw [bundleLoc_eq, bundleLoc_eq] at h
  obtain ⟨hid, hrest⟩ := List.cons.inj h
  unfold newBid
  rw [hid, (List.cons.inj hrest).1]

/-- Bundles whose locks lie in one place are one bundle. -/
theorem bid_of_lockLoc (hbid : IsBid bid) (hbid' : IsBid bid')
    (h : L.lockLoc bid = L.lockLoc bid') : bid = bid' := by
  obtain ⟨id, tm, rfl⟩ := hbid
  obtain ⟨id', tm', rfl⟩ := hbid'
  rw [lockLoc_eq, lockLoc_eq] at h
  obtain ⟨hid, hrest⟩ := List.cons.inj h
  unfold newBid
  rw [hid, (List.cons.inj hrest).1]

end Places

/-- Lock files of one name are locks of one bundle. -/
theorem Places.lockFile_injective (L : Places) {a b : Bytes} (h : L.lockFile a = L.lockFile b) :
    a = b := by
  unfold Places.lockFile at h
  exact (List.cons.inj (List.append_cancel_left h)).2

/-! ## What is kept -/

section Keeping

variable {ι : Type} (L : Places)

/-- A record is in the file of its bundle. -/
def Stored (bid : Bytes) (entry : ℕ × Bytes) (w : World ι ι) : Prop :=
  ∃ c, w.tree.content (L.bundleLoc bid) = some c ∧ entry.1 + entry.2.length ≤ c.length ∧
    ByteSeq.slice c entry.1 entry.2.length = entry.2

/-- The records of a bundle end before an offset. -/
def Below (bid : Bytes) (offset : ℕ) (w : World ι ι) : Prop :=
  ∀ entry ∈ w.accepted (L.bundleLoc bid), entry.offset + entry.record.length ≤ offset

/-- The invariant of the shared state. -/
structure Inv (w : World ι ι) : Prop where
  file_of_holds : ∀ i bid, IsBid bid → w.holds i (L.lockLoc bid) = true →
    (w.tree.content (L.lockLoc bid)).isSome = true
  exclusive : ∀ i j bid, IsBid bid → w.holds i (L.lockLoc bid) = true →
    w.holds j (L.lockLoc bid) = true → i = j
  stored : ∀ bid, IsBid bid → ∀ entry ∈ w.accepted (L.bundleLoc bid),
    Stored L bid (entry.offset, entry.record) w

/-- What the steps of the others leave alone. -/
structure Frame (i : ι) (w w' : World ι ι) : Prop where
  holds : w'.holds i = w.holds i
  file : ∀ bid, IsBid bid → (w.tree.content (L.bundleLoc bid)).isSome = true →
    (w'.tree.content (L.bundleLoc bid)).isSome = true
  log : ∀ l, w.accepted l <+: w'.accepted l
  bundle : ∀ bid, IsBid bid → w.holds i (L.lockLoc bid) = true →
    w'.accepted (L.bundleLoc bid) = w.accepted (L.bundleLoc bid)

def discipline : Discipline ι (World ι ι) where
  Inv := Inv L
  Frame := Frame L
  frame_refl i w := ⟨rfl, fun _ _ h => h, fun _ => List.prefix_refl _, fun _ _ _ => rfl⟩
  frame_trans i w₁ w₂ w₃ h h' := by
    refine ⟨h'.holds.trans h.holds, fun bid hbid hfile => h'.file bid hbid (h.file bid hbid hfile),
      fun l => (h.log l).trans (h'.log l), ?_⟩
    intro bid hbid hheld
    rw [h'.bundle bid hbid (by rw [h.holds]; exact hheld), h.bundle bid hbid hheld]

/-- A bundle is created anew only as long as no record has been written to it; and
`write` takes everything. -/
def KeptCall (_ : ι) : (o : SysCall) → World ι ι → o.Answer → World ι ι → Prop
  | .openTrunc path, w, _, _ => w.accepted (canon L.cwd path) = []
  | .write _ _ data, _, count, _ => count = data.length
  | _, _, _, _ => True

abbrev keptSystem (ι : Type) [DecidableEq ι] :
    System SysCall SysCall.Answer ι (World ι ι) Process ProcessOp :=
  (system L).restrict (KeptCall L) fun _ _ _ _ => true

/-- The writer of a lock that is held, for the bundle of the same name. -/
structure Formed (writer : Writer) : Prop where
  bid : IsBid writer.bid
  locked : writer.flock.is_locked = true
  lockfile : writer.flock.lockfile = L.lockFile writer.bid
  filename : writer.filename = bundleFilename writer.bid L.place

/-- The locks in a process's hands: those of its live writers, and others. -/
def locksOf (others : List FileLock) (live : List Live) : List FileLock :=
  others ++ live.map fun lw => lw.writer.flock

/-- What a process knows: its locks are held, each by one object; the records of a
bundle end before the offset of a writer that has not written; and its records are
in the log. -/
structure Knows (i : ι) (others : List FileLock) (live : List Live) (history : List Written)
    (w : World ι ι) : Prop where
  held : ∀ flock ∈ locksOf others live, flock.is_locked = true →
    ∃ bid, IsBid bid ∧ flock.lockfile = L.lockFile bid ∧ w.holds i (L.lockLoc bid) = true
  apart : (locksOf others live).Pairwise fun a b =>
    a.is_locked = true → b.is_locked = true → a.lockfile ≠ b.lockfile
  live : ∀ lw ∈ live, Formed L lw.writer ∧
    (lw.written = false → Below L lw.writer.bid lw.writer.offset w)
  history : ∀ e ∈ history, IsBid e.bid ∧ ∃ entry ∈ w.accepted (L.bundleLoc e.bid),
    entry.offset = e.offset ∧ entry.record = e.huge

variable {L} {i : ι} {w w' : World ι ι} {others others' : List FileLock} {live live' : List Live}
variable {history : List Written} {flock : FileLock} {bid : Bytes}

/-- The lock of a name is held by the process that has it locked. -/
theorem Knows.holds (h : Knows L i others live history w) (hmem : flock ∈ locksOf others live)
    (hlocked : flock.is_locked = true) (hfile : flock.lockfile = L.lockFile bid) :
    w.holds i (L.lockLoc bid) = true := by
  obtain ⟨bid', -, hfile', hheld⟩ := h.held flock hmem hlocked
  rw [L.lockFile_injective (hfile.symm.trans hfile')]
  exact hheld

/-- A bundle that a process holds keeps the bytes below an offset whatever the others do. -/
theorem Below.frame {offset : ℕ} (h : Below L bid offset w) (hframe : Frame L i w w')
    (hbid : IsBid bid) (hheld : w.holds i (L.lockLoc bid) = true) : Below L bid offset w' := by
  intro entry hentry
  rw [hframe.bundle bid hbid hheld] at hentry
  exact h entry hentry

/-- The lock of a live writer is one of the locks of its process. -/
theorem mem_locksOf_live {lw : Live} (hlw : lw ∈ live) :
    lw.writer.flock ∈ locksOf others live :=
  List.mem_append_right _ (List.mem_map_of_mem hlw)

/-- What a process knows stays true whatever the others do. -/
theorem Knows.frame (h : Knows L i others live history w) (hframe : Frame L i w w') :
    Knows L i others live history w' := by
  constructor
  · intro flock hmem hlocked
    obtain ⟨bid, hbid, hfile, hheld⟩ := h.held flock hmem hlocked
    rw [← hframe.holds] at hheld
    exact ⟨bid, hbid, hfile, hheld⟩
  · exact h.apart
  · intro lw hlw
    obtain ⟨hformed, hbelow⟩ := h.live lw hlw
    refine ⟨hformed, fun hfresh => (hbelow hfresh).frame hframe hformed.bid ?_⟩
    exact h.holds (mem_locksOf_live hlw) hformed.locked hformed.lockfile
  · intro e he
    obtain ⟨hbid, entry, hmem, hentry⟩ := h.history e he
    exact ⟨hbid, entry, (hframe.log _).subset hmem, hentry⟩

/-- Locks may change hands and go. -/
theorem Knows.subperm (h : Knows L i others live history w)
    (hlocks : (locksOf others' live').Subperm (locksOf others live))
    (hlive : ∀ lw ∈ live', lw ∈ live) : Knows L i others' live' history w := by
  obtain ⟨locks, hperm, hsub⟩ := hlocks
  refine ⟨fun flock hmem => h.held flock (hsub.subset (hperm.symm.subset hmem)), ?_,
    fun lw hlw => h.live lw (hlive lw hlw), h.history⟩
  refine (hperm.pairwise_iff ?_).mp (h.apart.sublist hsub)
  intro a b hab hb ha
  exact (hab ha hb).symm

/-! ## Steps -/

/-- The calls that change no file and no lock. -/
def Quiet : SysCall → Prop
  | .openExcl _ | .openTrunc _ | .write _ _ _ | .unlink _ | .completed _ _ _ => False
  | _ => True

/-- A step after which files, locks and logs are as before. -/
structure SameFiles (w w' : World ι ι) : Prop where
  content : ∀ l, w'.tree.content l = w.tree.content l
  holds : w'.holds = w.holds
  log : w'.accepted = w.accepted

/-- A quiet call keeps the files. -/
theorem sameFiles_of_effect [DecidableEq ι] {cwd : Loc} {o : SysCall} (ho : Quiet o)
    (h : World.Effect cwd id i w o w') : SameFiles w w' := by
  cases h with
  | unchanged => exact ⟨fun _ => rfl, rfl, rfl⟩
  | failed e => exact ⟨fun _ => rfl, rfl, rfl⟩
  | created h => exact absurd ho id
  | truncated h => exact absurd ho id
  | wrote n => exact absurd ho id
  | removed h => exact absurd ho id
  | madeDir h =>
      obtain ⟨m, rfl⟩ := Tree.mkdir_ok h
      exact ⟨fun l => Tree.content_setDir _ _ _, rfl, rfl⟩
  | readId site =>
      simp only [World.readLastId]
      split
      · exact ⟨fun _ => rfl, rfl, rfl⟩
      · exact ⟨fun _ => rfl, rfl, rfl⟩
  | setId m => exact ⟨fun _ => rfl, rfl, rfl⟩
  | incId => exact ⟨fun _ => rfl, rfl, rfl⟩
  | noted => exact absurd ho id

/-- Steps that keep the files are steps of the frame. -/
theorem SameFiles.frame (h : SameFiles w w') (j : ι) : Frame L j w w' := by
  refine ⟨congrFun h.holds j, fun bid _ hfile => ?_, fun l => ?_, fun bid _ _ => congrFun h.log _⟩
  · rw [h.content]
    exact hfile
  · simp only [h.log, List.prefix_refl]

/-- Steps that keep the files are allowed to everyone. -/
theorem SameFiles.allowed (h : SameFiles w w') (hinv : Inv L w) :
    (discipline L).Allowed i w w' := by
  refine ⟨⟨?_, ?_, ?_⟩, fun j _ => h.frame j⟩
  · rw [h.holds]
    intro j bid hbid hheld
    rw [h.content]
    exact hinv.file_of_holds j bid hbid hheld
  · rw [h.holds]
    exact hinv.exclusive
  · rw [h.log]
    intro bid hbid entry hentry
    unfold Stored
    rw [h.content]
    exact hinv.stored bid hbid entry hentry

/-- A step that changes one bundle, and leaves the records of its log in the file. -/
structure BundleStep (L : Places) (bid : Bytes) (w w' : World ι ι) : Prop where
  content : ∀ l, l ≠ L.bundleLoc bid → w'.tree.content l = w.tree.content l
  file : (w.tree.content (L.bundleLoc bid)).isSome = true →
    (w'.tree.content (L.bundleLoc bid)).isSome = true
  holds : w'.holds = w.holds
  log_ne : ∀ l, l ≠ L.bundleLoc bid → w'.accepted l = w.accepted l
  log : w.accepted (L.bundleLoc bid) <+: w'.accepted (L.bundleLoc bid)
  stored : ∀ entry ∈ w'.accepted (L.bundleLoc bid), Stored L bid (entry.offset, entry.record) w'

/-- Only whoever holds the lock of the bundle sees a change of its log. -/
theorem BundleStep.frame (h : BundleStep L bid w w') (hbid : IsBid bid) {j : ι}
    (hlog : w.holds j (L.lockLoc bid) = true →
      w'.accepted (L.bundleLoc bid) = w.accepted (L.bundleLoc bid)) : Frame L j w w' := by
  refine ⟨congrFun h.holds j, fun bid' _ hfile => ?_, fun l => ?_, fun bid' hbid' hheld => ?_⟩
  · by_cases heq : L.bundleLoc bid' = L.bundleLoc bid
    · rw [heq] at hfile ⊢
      exact h.file hfile
    · rw [h.content _ heq]
      exact hfile
  · by_cases heq : l = L.bundleLoc bid
    · rw [heq]
      exact h.log
    · simp only [h.log_ne l heq, List.prefix_refl]
  · by_cases heq : L.bundleLoc bid' = L.bundleLoc bid
    · obtain rfl := Places.bid_of_bundleLoc hbid' hbid heq
      exact hlog hheld
    · exact h.log_ne _ heq

/-- A step on a bundle is allowed to the holder of its lock. -/
theorem BundleStep.allowed (h : BundleStep L bid w w') (hapart : L.Apart) (hinv : Inv L w)
    (hbid : IsBid bid) (hheld : w.holds i (L.lockLoc bid) = true) :
    (discipline L).Allowed i w w' := by
  refine ⟨⟨?_, ?_, ?_⟩, fun j hj => h.frame hbid fun hjheld => ?_⟩
  · rw [h.holds]
    intro j bid' hbid' hjheld
    rw [h.content _ (Places.lockLoc_ne_bundleLoc hapart hbid' hbid)]
    exact hinv.file_of_holds j bid' hbid' hjheld
  · rw [h.holds]
    exact hinv.exclusive
  · intro bid' hbid' entry hentry
    by_cases heq : L.bundleLoc bid' = L.bundleLoc bid
    · obtain rfl := Places.bid_of_bundleLoc hbid' hbid heq
      exact h.stored entry hentry
    · rw [h.log_ne _ heq] at hentry
      obtain ⟨c, hc, hrest⟩ := hinv.stored bid' hbid' entry hentry
      rw [← h.content _ heq] at hc
      exact ⟨c, hc, hrest⟩
  · exact absurd (hinv.exclusive j i bid hbid hjheld hheld) hj

/-- A bundle without records is created anew. -/
theorem truncated_step {t : Tree} {fd : Fd}
    (h : w.tree.openTrunc L.cwd (bundleFilename bid L.place) = .ok (fd, t))
    (hlog : w.accepted (L.bundleLoc bid) = []) :
    BundleStep L bid w (w.setTree t) ∧ fd = ⟨L.bundleLoc bid, 0⟩ := by
  obtain ⟨rfl, hcan, rfl⟩ := Tree.openTrunc_ok h
  refine ⟨⟨fun l hl => Tree.content_setFile_ne _ hl _, fun _ => ?_, rfl, fun _ _ => rfl,
    List.prefix_refl _, fun entry hentry => ?_⟩, rfl⟩
  · exact Option.isSome_iff_exists.mpr ⟨[], Tree.content_setFile_self hcan []⟩
  · change entry ∈ w.accepted (L.bundleLoc bid) at hentry
    rw [hlog] at hentry
    cases hentry

/-- A bundle header is written to a bundle without records. -/
theorem header_step {pos n : ℕ} {data : Bytes} (hlog : w.accepted (L.bundleLoc bid) = []) :
    BundleStep L bid w (w.wrote ⟨L.bundleLoc bid, pos⟩ .bundleHeader data n) := by
  refine ⟨fun l hl => Tree.content_write_ne _ _ _ hl, fun hfile => ?_, rfl, fun _ _ => rfl,
    List.prefix_refl _, fun entry hentry => ?_⟩
  · obtain ⟨c, hc⟩ := Option.isSome_iff_exists.mp hfile
    have hat : w.tree.content (Fd.mk (L.bundleLoc bid) pos).loc = some c := hc
    exact Option.isSome_iff_exists.mpr ⟨_, Tree.content_write_self hat (data.take n)⟩
  · change entry ∈ w.accepted (L.bundleLoc bid) at hentry
    rw [hlog] at hentry
    cases hentry

/-- A record is written behind the others. -/
theorem record_step {offset : ℕ} {call : WriteCall} {data : Bytes}
    (hdata : data ≠ []) (hinv : Inv L w) (hbid : IsBid bid) (hbelow : Below L bid offset w)
    (hfile : (w.tree.content (L.bundleLoc bid)).isSome = true) :
    BundleStep L bid w (w.wrote ⟨L.bundleLoc bid, offset⟩ (.record call) data data.length) ∧
      (w.wrote ⟨L.bundleLoc bid, offset⟩ (.record call) data data.length).accepted
        (L.bundleLoc bid) = w.accepted (L.bundleLoc bid) ++ [⟨offset, call, data⟩] := by
  obtain ⟨c, hc⟩ := Option.isSome_iff_exists.mp hfile
  have hcontent : (w.wrote ⟨L.bundleLoc bid, offset⟩ (.record call) data data.length).tree.content
      (L.bundleLoc bid) = some (ByteSeq.overwrite 0 c offset data) := by
    have hat : w.tree.content (Fd.mk (L.bundleLoc bid) offset).loc = some c := hc
    simp only [World.wrote, List.take_length]
    exact Tree.content_write_self hat data
  have hlog : (w.wrote ⟨L.bundleLoc bid, offset⟩ (.record call) data data.length).accepted
      (L.bundleLoc bid) = w.accepted (L.bundleLoc bid) ++ [⟨offset, call, data⟩] := by
    simp [World.accepted_wrote]
  refine ⟨⟨fun l hl => Tree.content_write_ne _ _ _ hl, fun _ => ?_, rfl, fun l hl => ?_, ?_, ?_⟩,
    hlog⟩
  · rw [hcontent]
    rfl
  · simp [World.accepted_wrote, hl]
  · rw [hlog]
    exact List.prefix_append _ _
  · intro entry hentry
    rw [hlog] at hentry
    refine ⟨_, hcontent, ?_⟩
    obtain hold | hnew := List.mem_append.mp hentry
    · obtain ⟨c', hc', hle, hslice⟩ := hinv.stored bid hbid entry hold
      obtain rfl := Option.some.inj (hc.symm.trans hc')
      refine ⟨?_, ?_⟩
      · rw [ByteSeq.length_overwrite 0 c offset hdata]
        omega
      · rw [ByteSeq.slice_overwrite_below 0 c offset data (hbelow entry hold) hle]
        exact hslice
    · obtain rfl := List.mem_singleton.mp hnew
      refine ⟨?_, ByteSeq.slice_overwrite_self 0 c offset data⟩
      rw [ByteSeq.length_overwrite 0 c offset hdata]
      exact le_max_right _ _

section Locks

variable [DecidableEq ι]

/-- The lock file of a name has come or gone, by a call of process `i`. -/
structure LockStep (L : Places) (i : ι) (bid : Bytes) (held : Bool) (w w' : World ι ι) : Prop where
  content : ∀ l, l ≠ L.lockLoc bid → w'.tree.content l = w.tree.content l
  file : held = true → (w'.tree.content (L.lockLoc bid)).isSome = true
  log : w'.accepted = w.accepted
  holds_self : w'.holds i (L.lockLoc bid) = held
  holds_ne : ∀ j l, j ≠ i ∨ l ≠ L.lockLoc bid → w'.holds j l = w.holds j l

omit [DecidableEq ι] in
/-- A step on a lock is allowed to a process whose lock nobody else holds. -/
theorem LockStep.allowed {held : Bool} (h : LockStep L i bid held w w') (hapart : L.Apart)
    (hinv : Inv L w) (hbid : IsBid bid)
    (halone : ∀ j, j ≠ i → w.holds j (L.lockLoc bid) = false) :
    (discipline L).Allowed i w w' := by
  have hother : ∀ j, w'.holds j (L.lockLoc bid) = true → j = i := by
    intro j hj
    by_contra hji
    rw [h.holds_ne j _ (.inl hji), halone j hji] at hj
    cases hj
  have hbundle : ∀ bid', IsBid bid' →
      w'.tree.content (L.bundleLoc bid') = w.tree.content (L.bundleLoc bid') := fun bid' hbid' =>
    h.content _ (Places.lockLoc_ne_bundleLoc hapart hbid hbid').symm
  refine ⟨⟨?_, ?_, ?_⟩, fun j hj => ⟨?_, fun bid' hbid' hfile => ?_, fun l => ?_, fun _ _ _ => ?_⟩⟩
  · intro j bid' hbid' hheld
    by_cases heq : L.lockLoc bid' = L.lockLoc bid
    · rw [heq] at hheld ⊢
      obtain rfl := hother j hheld
      exact h.file (h.holds_self.symm.trans hheld)
    · rw [h.holds_ne j _ (.inr heq)] at hheld
      rw [h.content _ heq]
      exact hinv.file_of_holds j bid' hbid' hheld
  · intro j k bid' hbid' hj hk
    by_cases heq : L.lockLoc bid' = L.lockLoc bid
    · rw [heq] at hj hk
      rw [hother j hj, hother k hk]
    · rw [h.holds_ne j _ (.inr heq)] at hj
      rw [h.holds_ne k _ (.inr heq)] at hk
      exact hinv.exclusive j k bid' hbid' hj hk
  · rw [h.log]
    intro bid' hbid' entry hentry
    obtain ⟨c, hc, hrest⟩ := hinv.stored bid' hbid' entry hentry
    exact ⟨c, (hbundle bid' hbid').trans hc, hrest⟩
  · exact funext fun l => h.holds_ne j l (.inl hj)
  · rw [hbundle bid' hbid']
    exact hfile
  · simp only [h.log, List.prefix_refl]
  · rw [h.log]

/-- Creating the lock file. -/
theorem created_step {t : Tree} {fd : Fd} (hinv : Inv L w) (hbid : IsBid bid)
    (h : w.tree.openExcl L.cwd (L.lockFile bid) = .ok (fd, t)) :
    LockStep L i bid true w ((w.setTree t).setHolds i fd.loc true) ∧
      ∀ j, w.holds j (L.lockLoc bid) = false := by
  obtain ⟨rfl, hnone, hcan, rfl⟩ := Tree.openExcl_ok h
  refine ⟨⟨fun l hl => Tree.content_setFile_ne _ hl _, fun _ => ?_, rfl,
    World.setHolds_self _ _ _ _, fun j l hne => World.setHolds_ne _ _ hne⟩, fun j => ?_⟩
  · exact Option.isSome_iff_exists.mpr ⟨[], Tree.content_setFile_self hcan []⟩
  · by_contra hheld
    have hfile := hinv.file_of_holds j bid hbid (by simpa using hheld)
    simp [Tree.content, Places.lockLoc, hnone] at hfile

/-- Removing the lock file. -/
theorem removed_step {t : Tree} (h : w.tree.unlink L.cwd (L.lockFile bid) = .ok t) :
    LockStep L i bid false w ((w.setTree t).setHolds i (canon L.cwd (L.lockFile bid)) false) := by
  obtain rfl := Tree.unlink_ok h
  refine ⟨fun l hl => Tree.content_remove_ne _ hl, fun hheld => ?_, rfl,
    World.setHolds_self _ _ _ _, fun j l hne => World.setHolds_ne _ _ hne⟩
  cases hheld

omit [DecidableEq ι] in
/-- A live writer stays formed while the log stays as it is. -/
theorem Knows.live_of_log {lw : Live} (h : Knows L i others live history w)
    (hlog : w'.accepted = w.accepted) (hlw : lw ∈ live) :
    Formed L lw.writer ∧ (lw.written = false → Below L lw.writer.bid lw.writer.offset w') := by
  unfold Below
  rw [hlog]
  exact h.live lw hlw

omit [DecidableEq ι] in
/-- A process that has made a lock file knows one more lock.
SOURCE: filelock.py:31-37 -/
theorem Knows.created (h : Knows L i others live history w) (hbid : IsBid bid)
    (hstep : LockStep L i bid true w w') (hfree : w.holds i (L.lockLoc bid) = false)
    (hfile : flock.lockfile = L.lockFile bid) :
    Knows L i (flock :: others) live history w' := by
  refine ⟨?_, List.pairwise_cons.mpr ⟨?_, h.apart⟩, fun lw => h.live_of_log hstep.log, ?_⟩
  · intro flock' hmem hlocked
    obtain rfl | hmem := List.mem_cons.mp hmem
    · exact ⟨bid, hbid, hfile, hstep.holds_self⟩
    · obtain ⟨bid', hbid', hfile', hheld⟩ := h.held flock' hmem hlocked
      refine ⟨bid', hbid', hfile', ?_⟩
      have hne : L.lockLoc bid' ≠ L.lockLoc bid := by
        intro heq
        rw [heq, hfree] at hheld
        cases hheld
      rw [hstep.holds_ne i _ (.inr hne)]
      exact hheld
  · intro flock' hmem _ hlocked heq
    have hheld := h.holds hmem hlocked (heq.symm.trans hfile)
    rw [hfree] at hheld
    cases hheld
  · rw [hstep.log]
    exact h.history

omit [DecidableEq ι] in
/-- A process that has removed a lock file knows one lock less.
SOURCE: filelock.py:58-66 -/
theorem Knows.removed (h : Knows L i (flock :: others) live history w) (hbid : IsBid bid)
    (hstep : LockStep L i bid false w w') (hlocked : flock.is_locked = true)
    (hfile : flock.lockfile = L.lockFile bid) : Knows L i others live history w' := by
  obtain ⟨hother, hapart⟩ := List.pairwise_cons.mp h.apart
  refine ⟨?_, hapart, fun lw => h.live_of_log hstep.log, ?_⟩
  · intro flock' hmem hlocked'
    obtain ⟨bid', hbid', hfile', hheld⟩ := h.held flock' (List.mem_cons_of_mem _ hmem) hlocked'
    refine ⟨bid', hbid', hfile', ?_⟩
    have hne : L.lockLoc bid' ≠ L.lockLoc bid := by
      intro heq
      obtain rfl := Places.bid_of_lockLoc hbid' hbid heq
      exact hother flock' hmem hlocked hlocked' (hfile.trans hfile'.symm)
    rw [hstep.holds_ne i _ (.inr hne)]
    exact hheld
  · rw [hstep.log]
    exact h.history

omit [DecidableEq ι] in
/-- A lock object that has not got its lock. -/
theorem Knows.cons_unlocked (h : Knows L i others live history w)
    (hlocked : flock.is_locked = false) : Knows L i (flock :: others) live history w := by
  refine ⟨?_, List.pairwise_cons.mpr ⟨?_, h.apart⟩, h.live, h.history⟩
  · intro flock' hmem hlocked'
    obtain rfl | hmem := List.mem_cons.mp hmem
    · rw [hlocked] at hlocked'
      cases hlocked'
    · exact h.held flock' hmem hlocked'
  · intro flock' _ hlocked'
    rw [hlocked] at hlocked'
    cases hlocked'

omit [DecidableEq ι] in
/-- The descriptor of a lock does not matter. -/
theorem Knows.cons_congr {flock' : FileLock} (h : Knows L i (flock :: others) live history w)
    (hfile : flock'.lockfile = flock.lockfile) (hlocked : flock'.is_locked = flock.is_locked) :
    Knows L i (flock' :: others) live history w := by
  obtain ⟨hother, hapart⟩ := List.pairwise_cons.mp h.apart
  refine ⟨?_, List.pairwise_cons.mpr ⟨?_, hapart⟩, h.live, h.history⟩
  · intro g hmem
    obtain rfl | hmem := List.mem_cons.mp hmem
    · rw [hfile, hlocked]
      exact h.held flock List.mem_cons_self
    · exact h.held g (List.mem_cons_of_mem _ hmem)
  · intro g hmem
    rw [hfile, hlocked]
    exact hother g hmem

omit [DecidableEq ι] in
/-- What a process knows with a lock it knows without it. -/
theorem Knows.of_cons (h : Knows L i (flock :: others) live history w) :
    Knows L i others live history w :=
  h.subperm ⟨_, List.Perm.refl _, List.sublist_cons_self _ _⟩ fun _ hlw => hlw

end Locks

/-! ## Programs -/

section Programs

variable [DecidableEq ι] {P : World ι ι → Prop} {α : Type}

/-- What a process knows by its locks. -/
def Kept (L : Places) (i : ι) (P : World ι ι → Prop) : Prop :=
  ∀ w w', Frame L i w w' → P w → P w'

omit [DecidableEq ι] in
/-- What is kept is stable under the steps of the others. -/
theorem Kept.stable (hP : Kept L i P) : (discipline L).Stable i P :=
  fun w w' _ _ hframe hp => hP w w' hframe hp

omit [DecidableEq ι] in
/-- What a process knows is kept. -/
theorem kept_knows : Kept L i (Knows L i others live history) :=
  fun _ _ hframe h => h.frame hframe

/-- Calls that change no file and no lock leave what a process knows. -/
theorem quiet_step (hP : Kept L i P) {o : SysCall} (ho : Quiet o) {a : o.Answer}
    (hinv : Inv L w) (hp : P w) (hsem : World.Sem L.cwd id i o w a w') :
    (discipline L).Allowed i w w' ∧ P w' := by
  have hsame := sameFiles_of_effect ho hsem.effect
  exact ⟨hsame.allowed hinv, hP w w' (hsame.frame i) hp⟩

/-- A quiet call keeps what is kept, and any answer may follow. -/
theorem quiet_call (hP : Kept L i P) {o : SysCall} (ho : Quiet o) {k : o.Answer → Sys α}
    {Q : α → World ι ι → Prop} (hk : ∀ a, (discipline L).Triple (keptSystem L ι).sem i P (k a) Q) :
    (discipline L).Triple (keptSystem L ι).sem i P (.call o k) Q := by
  refine Discipline.Triple.call hP.stable ?_ hk
  intro w a w' hinv h hsem
  exact quiet_step hP ho hinv h hsem.1

/-- A program of quiet calls keeps what is kept. -/
theorem quiet_triple (hP : Kept L i P) {p : Sys α} (hp : p.Calls Quiet) :
    (discipline L).Triple (keptSystem L ι).sem i P p fun _ => P := by
  refine (Discipline.Triple.of_calls hp p.returns_true hP.stable ?_).post fun _ _ _ h => h.2
  intro o ho w a w' hinv h hsem
  exact quiet_step hP ho hinv h hsem.1

/-- The lock is held if the attempt says so. -/
theorem tryAcquire_triple (hapart : L.Apart) (hbid : IsBid bid) :
    (discipline L).Triple (keptSystem L ι).sem i (Knows L i others live history)
      (FileLock.tryAcquire { lockfile := L.lockFile bid }) fun flock w =>
        flock.lockfile = L.lockFile bid ∧ Knows L i (flock :: others) live history w := by
  unfold FileLock.tryAcquire
  apply Discipline.Triple.call (R := fun (a : Option Fd) w =>
    Knows L i ({ lockfile := L.lockFile bid, fd := a, is_locked := a.isSome } :: others)
      live history w) kept_knows.stable
  · intro w a w' hinv h hsem
    cases a with
    | none =>
        obtain ⟨e, -, rfl⟩ := hsem.1
        have hsame : SameFiles w (w.setErrno i e) := ⟨fun _ => rfl, rfl, rfl⟩
        exact ⟨hsame.allowed hinv, (h.frame (hsame.frame i)).cons_unlocked rfl⟩
    | some fd =>
        obtain ⟨t, hopen, rfl⟩ := hsem.1
        obtain ⟨hstep, hfree⟩ := created_step (i := i) hinv hbid hopen
        exact ⟨hstep.allowed hapart hinv hbid fun j _ => hfree j,
          h.created hbid hstep (hfree i) rfl⟩
  · intro a
    cases a with
    | none => exact Discipline.Triple.ret fun _ _ h => ⟨rfl, h⟩
    | some fd => exact Discipline.Triple.ret fun _ _ h => ⟨rfl, h⟩

/-- A lock is released; if its file cannot be removed it stays. -/
theorem release_triple (hapart : L.Apart) :
    (discipline L).Triple (keptSystem L ι).sem i (Knows L i (flock :: others) live history)
      flock.release fun flock' w => Knows L i (flock' :: others) live history w := by
  unfold FileLock.release
  split
  · rename_i fd hlocked hfd
    apply quiet_call kept_knows (show Quiet (.close fd) from trivial)
    intro _
    apply Discipline.Triple.call (R := fun (removed : Bool) w =>
      Knows L i ((if removed then { flock with fd := none, is_locked := false }
        else { flock with fd := none }) :: others) live history w) kept_knows.stable
    · intro w removed w' hinv h hsem
      obtain ⟨bid, hbid, hfile, hheld⟩ := h.held flock List.mem_cons_self hlocked
      cases removed with
      | false =>
          obtain ⟨e, -, rfl⟩ := hsem.1
          have hsame : SameFiles w (w.setErrno i e) := ⟨fun _ => rfl, rfl, rfl⟩
          exact ⟨hsame.allowed hinv, (h.frame (hsame.frame i)).cons_congr rfl rfl⟩
      | true =>
          obtain ⟨t, hunlink, rfl⟩ := hsem.1
          rw [hfile] at hunlink ⊢
          have hstep := removed_step (i := i) hunlink
          refine ⟨hstep.allowed hapart hinv hbid fun j hj => ?_,
            (h.removed hbid hstep hlocked hfile).cons_unlocked rfl⟩
          by_contra hother
          exact hj (hinv.exclusive j i bid hbid (by simpa using hother) hheld)
    · intro removed
      cases removed with
      | false => exact Discipline.Triple.ret fun _ _ h => h
      | true => exact Discipline.Triple.ret fun _ _ h => h
  · exact Discipline.Triple.ret fun _ _ h => h

/-! ## `allocate` -/

/-- `makedirs` is quiet. -/
theorem makedirs_calls (fuel : ℕ) (name : Bytes) : (makedirs fuel name).Calls Quiet := by
  induction fuel generalizing name with
  | zero => trivial
  | succ fuel ih =>
      have hmkdir : ∀ name, (mkdir name).Calls Quiet := by
        intro name
        refine ⟨trivial, fun made => ?_⟩
        cases made with
        | true => trivial
        | false => exact ⟨trivial, fun _ => trivial⟩
      unfold makedirs
      refine .ite (hmkdir _) ⟨trivial, fun there => .ite (hmkdir _) (.bind (ih _) fun e => ?_)⟩
      exact .ite trivial (.ite trivial (hmkdir _))

/-- The making of a folder is quiet.
SOURCE: bundle.py:193-195 -/
theorem ensureDir_calls (folder : Bytes) : (ensureDir folder).Calls Quiet := by
  refine ⟨trivial, fun there => ?_⟩
  cases there with
  | true => trivial
  | false => exact (makedirs_calls _ _).bind fun _ => trivial

omit [DecidableEq ι] in
/-- What a process knows of the log of a bundle whose lock it has. -/
theorem kept_log (hbid : IsBid bid) (hlocked : flock.is_locked = true)
    (hfile : flock.lockfile = L.lockFile bid) (Ψ : List LogEntry → Prop) :
    Kept L i fun w =>
      Knows L i (flock :: others) live history w ∧ Ψ (w.accepted (L.bundleLoc bid)) := by
  intro w w' hframe h
  refine ⟨h.1.frame hframe, ?_⟩
  rw [hframe.bundle bid hbid (h.1.holds List.mem_cons_self hlocked hfile)]
  exact h.2

omit [DecidableEq ι] in
/-- Everything in the log of a bundle ends before its size. -/
theorem below_size {size : ℕ} (hinv : Inv L w) (hbid : IsBid bid)
    (h : (∃ c, w.tree.stat L.cwd (bundleFilename bid L.place) = .ok (.file c) ∧ size = c.length) ∨
      w.tree.stat L.cwd (bundleFilename bid L.place) = .ok .dir) : Below L bid size w := by
  intro entry hentry
  obtain ⟨c, hc, hle, -⟩ := hinv.stored bid hbid entry hentry
  rw [Tree.content_eq_some] at hc
  obtain ⟨c', hstat, rfl⟩ | hstat := h
  · have hnode := (Tree.stat_ok hstat).symm.trans hc
    cases hnode
    exact hle
  · have hnode := (Tree.stat_ok hstat).symm.trans hc
    cases hnode

/-- The size of a bundle that `stat` answers is no more than the bundle has.
SOURCE: bundle.py:178-185 -/
theorem stat_triple (hbid : IsBid bid) :
    (discipline L).Triple (keptSystem L ι).sem i (Knows L i (flock :: others) live history)
      (stat (bundleFilename bid L.place)) fun result w =>
        Knows L i (flock :: others) live history w ∧
          ∀ size, result = .ok size → Below L bid size w := by
  unfold stat
  apply Discipline.Triple.call (R := fun (answer : Option ℕ) w =>
    Knows L i (flock :: others) live history w ∧ ∀ size, answer = some size → Below L bid size w)
    kept_knows.stable
  · intro w answer w' hinv h hsem
    obtain ⟨hall, hknows⟩ :=
      quiet_step (o := .lstat (bundleFilename bid L.place)) kept_knows trivial hinv h hsem.1
    refine ⟨hall, hknows, ?_⟩
    rintro size rfl
    obtain ⟨-, rfl, hstat⟩ := hsem.1
    exact below_size hinv hbid hstat
  · intro answer
    cases answer with
    | some st_size =>
        apply Discipline.Triple.ret
        rintro w _ ⟨hknows, hbelow⟩
        refine ⟨hknows, fun size heq => hbelow size ?_⟩
        cases heq
        rfl
    | none =>
        apply Discipline.Triple.pre (P := Knows L i (flock :: others) live history) ?_
          fun _ _ h => h.1
        apply quiet_call kept_knows (show Quiet .errno from trivial)
        intro e
        apply Discipline.Triple.ret
        intro w _ hknows
        refine ⟨hknows, fun size heq => ?_⟩
        cases heq

/-- A bundle is created anew only where no record is lost. -/
theorem create_triple (hapart : L.Apart) (hbid : IsBid bid) (hlocked : flock.is_locked = true)
    (hfile : flock.lockfile = L.lockFile bid) :
    (discipline L).Triple (keptSystem L ι).sem i (Knows L i (flock :: others) live history)
      (create (bundleFilename bid L.place)) fun created w =>
        Knows L i (flock :: others) live history w ∧
          (created = true → w.accepted (L.bundleLoc bid) = []) := by
  have hempty : Kept L i fun w =>
      Knows L i (flock :: others) live history w ∧ w.accepted (L.bundleLoc bid) = [] :=
    kept_log hbid hlocked hfile fun log => log = []
  have hfailed : (discipline L).Triple (keptSystem L ι).sem i
      (Knows L i (flock :: others) live history) (pure false : Sys Bool) fun created w =>
        Knows L i (flock :: others) live history w ∧
          (created = true → w.accepted (L.bundleLoc bid) = []) := by
    apply Discipline.Triple.ret
    intro w _ hknows
    exact ⟨hknows, fun heq => by cases heq⟩
  unfold create
  apply Discipline.Triple.bind (quiet_triple kept_knows (ensureDir_calls _))
  intro made
  apply Discipline.Triple.ite
  · intro _
    apply quiet_call kept_knows (show Quiet .localtime from trivial)
    intro now
    apply Discipline.Triple.call (R := fun (answer : Option Fd) w =>
      Knows L i (flock :: others) live history w ∧
        ∀ fd, answer = some fd → fd = ⟨L.bundleLoc bid, 0⟩ ∧ w.accepted (L.bundleLoc bid) = [])
      kept_knows.stable
    · intro w answer w' hinv h hsem
      have hheld := h.holds List.mem_cons_self hlocked hfile
      cases answer with
      | none =>
          obtain ⟨e, -, rfl⟩ := hsem.1
          have hsame : SameFiles w (w.setErrno i e) := ⟨fun _ => rfl, rfl, rfl⟩
          exact ⟨hsame.allowed hinv, h.frame (hsame.frame i), fun _ heq => by cases heq⟩
      | some fd =>
          have hlog : w.accepted (L.bundleLoc bid) = [] := hsem.2
          obtain ⟨t, hopen, rfl⟩ := hsem.1
          obtain ⟨hstep, hfd⟩ := truncated_step hopen hlog
          refine ⟨hstep.allowed hapart hinv hbid hheld,
            h.frame (hstep.frame hbid fun _ => rfl), fun fd' heq => ?_⟩
          rw [← Option.some.inj heq]
          exact ⟨hfd, hlog⟩
    intro answer
    cases answer with
    | none => exact hfailed.pre fun _ _ h => h.1
    | some fd =>
        refine Discipline.Triple.pre (P := fun w => fd = ⟨L.bundleLoc bid, 0⟩ ∧
            Knows L i (flock :: others) live history w ∧ w.accepted (L.bundleLoc bid) = [])
          (Discipline.Triple.intro fun hfd => ?_) fun _ _ h =>
            ⟨(h.2 fd rfl).1, h.1, (h.2 fd rfl).2⟩
        subst hfd
        apply Discipline.Triple.call (R := fun _ w =>
          Knows L i (flock :: others) live history w ∧ w.accepted (L.bundleLoc bid) = [])
          hempty.stable
        · intro w count w' hinv h hsem
          have hheld := h.1.holds List.mem_cons_self hlocked hfile
          obtain ⟨n, -, -, -, rfl⟩ | ⟨-, e, -, rfl⟩ := hsem.1
          · have hstep : BundleStep L bid w
                (w.wrote ⟨L.bundleLoc bid, 0⟩ .bundleHeader (bundleHeader now) n) := header_step h.2
            exact ⟨hstep.allowed hapart hinv hbid hheld,
              h.1.frame (hstep.frame hbid fun _ => rfl), h.2⟩
          · have hsame : SameFiles w (w.setErrno i e) := ⟨fun _ => rfl, rfl, rfl⟩
            exact ⟨hsame.allowed hinv, hempty w _ (hsame.frame i) h⟩
        intro count
        apply quiet_call hempty (show Quiet (.close _) from trivial)
        intro _
        exact Discipline.Triple.ret fun _ _ h => ⟨h.1, fun _ => h.2⟩
  · intro _
    exact hfailed

/-- What a round leaves: its lock with the process, or with the writer. -/
def RoundKept (L : Places) (i : ι) (others : List FileLock) (live : List Live)
    (history : List Written) : Round → World ι ι → Prop
  | .again flock, w | .raised flock, w => Knows L i (flock.toList ++ others) live history w
  | .returned writer, w => Knows L i others ({ writer } :: live) history w

omit [DecidableEq ι] in
/-- The lock goes to a writer for the bundle of its name. -/
theorem Knows.give {writer : Writer} (h : Knows L i (writer.flock :: others) live history w)
    (hformed : Formed L writer) (hbelow : Below L writer.bid writer.offset w) :
    Knows L i others ({ writer } :: live) history w := by
  have hperm : (locksOf others ({ writer } :: live)).Perm (locksOf (writer.flock :: others) live) :=
    List.perm_middle
  refine ⟨fun flock hmem => h.held flock (hperm.subset hmem), ?_, ?_, h.history⟩
  · refine (hperm.symm.pairwise_iff ?_).mp h.apart
    intro a b hab hb ha
    exact (hab ha hb).symm
  · intro lw hlw
    obtain rfl | hlw := List.mem_cons.mp hlw
    · exact ⟨hformed, fun _ => hbelow⟩
    · exact h.live lw hlw

/-- The round that finds a place keeps what its process knows.
SOURCE: bundle.py:208-220 -/
theorem place_triple (hapart : L.Apart) (hbid : IsBid bid) (hlocked : flock.is_locked = true)
    (hfile : flock.lockfile = L.lockFile bid) (pending : Pending) (statinfo : Except ℕ ℕ)
    (last_id : ℕ) :
    (discipline L).Triple (keptSystem L ι).sem i (Knows L i (flock :: others) live history)
      (place L pending bid statinfo flock last_id) fun result =>
        RoundKept L i others live history result.2 := by
  have hkeep : ∀ {result : ℕ × Round}, result.2 = .again (some flock) ∨
      result.2 = .raised (some flock) → (discipline L).Triple (keptSystem L ι).sem i
        (Knows L i (flock :: others) live history) (pure result : Sys (ℕ × Round)) fun result =>
          RoundKept L i others live history result.2 := by
    intro result hresult
    apply Discipline.Triple.ret
    intro w _ hknows
    obtain heq | heq := hresult
    · rw [heq]
      exact hknows
    · rw [heq]
      exact hknows
  cases statinfo with
  | error e =>
      apply Discipline.Triple.bind (create_triple hapart hbid hlocked hfile)
      intro created
      cases created with
      | false => exact (hkeep (.inr rfl)).pre fun _ _ h => h.1
      | true =>
          apply Discipline.Triple.ret
          rintro w _ ⟨hknows, hempty⟩
          refine hknows.give ⟨hbid, hlocked, hfile, rfl⟩ fun entry hentry => ?_
          rw [hempty rfl] at hentry
          cases hentry
  | ok size =>
      apply Discipline.Triple.bind (stat_triple hbid)
      intro result
      cases result with
      | error e => exact (hkeep (.inr rfl)).pre fun _ _ h => h.1
      | ok st_size =>
          apply Discipline.Triple.ite
          · intro _
            exact (hkeep (.inl rfl)).pre fun _ _ h => h.1
          intro _
          apply Discipline.Triple.ite
          · intro _
            exact (hkeep (.inr rfl)).pre fun _ _ h => h.1
          intro _
          apply Discipline.Triple.ret
          rintro w _ ⟨hknows, hbelow⟩
          exact hknows.give ⟨hbid, hlocked, hfile, rfl⟩ (hbelow st_size rfl)

/-- The lock of the round before is let go when a new one is bound.
SOURCE: filelock.py:58-66 -/
theorem rebind_triple (hapart : L.Apart) (old : Option FileLock) :
    (discipline L).Triple (keptSystem L ι).sem i (Knows L i (old.toList ++ others) live history)
      (rebind old) fun _ => Knows L i others live history := by
  cases old with
  | none => exact Discipline.Triple.ret fun _ _ h => h
  | some flock =>
      apply Discipline.Triple.bind (release_triple hapart)
      intro _
      exact Discipline.Triple.ret fun _ _ h => h.of_cons

/-- A round of the loop in `allocate`. -/
theorem round_triple (hapart : L.Apart) (pending : Pending) (last_id : ℕ) :
    (discipline L).Triple (keptSystem L ι).sem i
      (Knows L i (pending.flock.toList ++ others) live history) (allocateRound L pending last_id)
      fun result => RoundKept L i others live history result.2 := by
  have hchoose : (chooseId pending.loop_count last_id).Calls Quiet := by
    unfold chooseId
    exact .ite ⟨trivial, fun _ => trivial⟩ trivial
  have hstat : ∀ path, (stat path).Calls Quiet := by
    intro path
    refine ⟨trivial, fun answer => ?_⟩
    cases answer with
    | some _ => trivial
    | none => exact ⟨trivial, fun _ => trivial⟩
  apply Discipline.Triple.bind (quiet_triple kept_knows hchoose)
  intro last_id
  apply Discipline.Triple.bind (quiet_triple kept_knows (hstat _))
  intro statinfo
  apply Discipline.Triple.ite
  · intro _
    exact Discipline.Triple.ret fun _ _ h => h
  intro _
  apply Discipline.Triple.bind (quiet_triple kept_knows (ensureDir_calls _))
  intro made
  apply Discipline.Triple.ite
  · intro _
    apply Discipline.Triple.bind (rebind_triple hapart pending.flock)
    intro _
    have hbid : IsBid (newBid (last_id % kBundleCountPerDay) pending.tm) := ⟨_, _, rfl⟩
    apply Discipline.Triple.bind (tryAcquire_triple hapart hbid)
    intro flock
    apply Discipline.Triple.intro
    intro hfile
    apply Discipline.Triple.ite
    · intro hlocked
      exact place_triple hapart hbid hlocked hfile pending statinfo last_id
    · intro _
      exact Discipline.Triple.ret fun _ _ h => h
  · intro _
    exact Discipline.Triple.ret fun _ _ h => h

/-! ## `write` -/

section OneWriter

variable {before after : List Live} {lw lw' : Live}

omit [DecidableEq ι] in
/-- The locks of a process are those of a writer and those of the rest, in any order. -/
theorem locksOf_middle : (locksOf others (before ++ lw :: after)).Perm
    (lw.writer.flock :: locksOf others (before ++ after)) := by
  unfold locksOf
  rw [List.map_append, List.map_append, List.map_cons, ← List.append_assoc, ← List.append_assoc]
  exact List.perm_middle

omit [DecidableEq ι] in
/-- A live writer is changed, but not its lock. -/
theorem Knows.replace (h : Knows L i others (before ++ lw :: after) history w)
    (hflock : lw'.writer.flock = lw.writer.flock) (hlw' : Formed L lw'.writer ∧
      (lw'.written = false → Below L lw'.writer.bid lw'.writer.offset w)) :
    Knows L i others (before ++ lw' :: after) history w := by
  have hlocks : locksOf others (before ++ lw' :: after) =
      locksOf others (before ++ lw :: after) := by
    simp [locksOf, hflock]
  refine ⟨?_, ?_, ?_, h.history⟩
  · rw [hlocks]
    exact h.held
  · rw [hlocks]
    exact h.apart
  · intro a ha
    obtain ha | ha := List.mem_append.mp ha
    · exact h.live a (List.mem_append_left _ ha)
    · obtain rfl | ha := List.mem_cons.mp ha
      · exact hlw'
      · exact h.live a (List.mem_append_right _ (List.mem_cons_of_mem _ ha))

omit [DecidableEq ι] in
/-- No two live writers are for one bundle. -/
theorem Knows.bid_ne (h : Knows L i others (before ++ lw :: after) history w) {a : Live}
    (ha : a ∈ before ++ after) : a.writer.bid ≠ lw.writer.bid := by
  have hmem : ∀ {b : Live}, b ∈ before ++ after → b ∈ before ++ lw :: after := by
    intro b hb
    simp only [List.mem_append, List.mem_cons] at hb ⊢
    tauto
  obtain ⟨hformed, -⟩ := h.live a (hmem ha)
  obtain ⟨hformed', -⟩ := h.live lw (List.mem_append_right _ List.mem_cons_self)
  have hapart := (locksOf_middle.pairwise_iff fun hab hb ha => (hab ha hb).symm).mp h.apart
  have hne := (List.pairwise_cons.mp hapart).1 _ (mem_locksOf_live ha) hformed'.locked
    hformed.locked
  intro heq
  rw [hformed.lockfile, hformed'.lockfile, heq] at hne
  exact hne rfl

omit [DecidableEq ι] in
/-- The record of a live writer is in the log. -/
theorem Knows.wrote {call : WriteCall} {data : Bytes}
    (h : Knows L i others (before ++ lw :: after) history w)
    (hstep : BundleStep L lw.writer.bid w w')
    (hlog : w'.accepted (L.bundleLoc lw.writer.bid) =
      w.accepted (L.bundleLoc lw.writer.bid) ++ [⟨lw.writer.offset, call, data⟩]) :
    Knows L i others (before ++ { lw with written := true } :: after)
      (⟨lw.writer.bid, lw.writer.offset, data⟩ :: history) w' := by
  obtain ⟨hformed, -⟩ := h.live lw (List.mem_append_right _ List.mem_cons_self)
  have hlogs : ∀ l, w.accepted l <+: w'.accepted l := by
    intro l
    by_cases heq : l = L.bundleLoc lw.writer.bid
    · rw [heq]
      exact hstep.log
    · simp only [hstep.log_ne l heq, List.prefix_refl]
  have hlive : ∀ a ∈ before ++ after, Formed L a.writer ∧
      (a.written = false → Below L a.writer.bid a.writer.offset w') := by
    intro a ha
    have hmem : a ∈ before ++ lw :: after := by
      simp only [List.mem_append, List.mem_cons] at ha ⊢
      tauto
    obtain ⟨hformed', hbelow⟩ := h.live a hmem
    refine ⟨hformed', fun hfresh => ?_⟩
    unfold Below
    rw [hstep.log_ne _ fun heq =>
      h.bid_ne ha (Places.bid_of_bundleLoc hformed'.bid hformed.bid heq)]
    exact hbelow hfresh
  have hmarked : locksOf others (before ++ { lw with written := true } :: after) =
      locksOf others (before ++ lw :: after) := by
    simp [locksOf]
  refine ⟨?_, ?_, ?_, ?_⟩
  · rw [hmarked, hstep.holds]
    exact h.held
  · rw [hmarked]
    exact h.apart
  · intro a ha
    obtain ha | ha := List.mem_append.mp ha
    · exact hlive a (List.mem_append_left _ ha)
    · obtain rfl | ha := List.mem_cons.mp ha
      · exact ⟨hformed, fun hfresh => by cases hfresh⟩
      · exact hlive a (List.mem_append_right _ ha)
  · intro e he
    obtain rfl | he := List.mem_cons.mp he
    · refine ⟨hformed.bid, ⟨lw.writer.offset, call, data⟩, ?_, rfl, rfl⟩
      simp [hlog]
    · obtain ⟨hbid, entry, hmem, hentry⟩ := h.history e he
      exact ⟨hbid, entry, (hlogs _).subset hmem, hentry⟩

/-- A record that is too long for its length field is not empty. -/
theorem huge_ne_nil (writer : Writer) (url content : Bytes) : writer.huge url content ≠ [] := by
  intro h
  have hlength := congrArg List.length h
  simp only [Writer.huge, List.length_append, length_le32, List.length_nil] at hlength
  omega

/-- A writer that has raised an exception reports nothing. -/
theorem raised_triple (content : Bytes) :
    (discipline L).Triple (keptSystem L ι).sem i
      (Knows L i others (before ++ lw :: after) history) (pure none : Sys (Option ℕ))
      fun result => Knows L i others (before ++ { lw with written := true } :: after)
        (if result = some lw.writer.length then
          ⟨lw.writer.bid, lw.writer.offset,
            lw.writer.huge (lw.writer.url.getD []) content⟩ :: history
        else history) := by
  apply Discipline.Triple.ret
  intro w _ h
  have hmem : lw ∈ before ++ lw :: after := List.mem_append_right _ List.mem_cons_self
  exact h.replace rfl ⟨(h.live lw hmem).1, fun hwritten => by cases hwritten⟩

omit [DecidableEq ι] in
/-- What a writer knows of its bundle is kept by the others. -/
theorem kept_bundle : Kept L i fun w => Knows L i others (before ++ lw :: after) history w ∧
    (w.tree.content (L.bundleLoc lw.writer.bid)).isSome = true := by
  intro w w' hframe h
  have hmem : lw ∈ before ++ lw :: after := List.mem_append_right _ List.mem_cons_self
  exact ⟨h.1.frame hframe, hframe.file _ (h.1.live lw hmem).1.bid h.2⟩

/-- The record of a writer that has not written goes behind the end of its bundle, and is
reported.
SOURCE: bundle.py:115-122 -/
theorem record_triple (hapart : L.Apart) (hfresh : lw.written = false) {url : Bytes}
    (hurl : lw.writer.url = some url) (content : Bytes) :
    (discipline L).Triple (keptSystem L ι).sem i
      (fun w => Knows L i others (before ++ lw :: after) history w ∧
        (w.tree.content (L.bundleLoc lw.writer.bid)).isSome = true)
      (do
        let fp : Fd := ⟨L.bundleLoc lw.writer.bid, lw.writer.offset⟩
        let count ← Sys.write fp (.record ⟨url, content, none⟩) (lw.writer.huge url content)
        Sys.close fp
        if count < 0 then pure none
        else if count = (lw.writer.huge url content).length then pure (some lw.writer.length)
        else pure (some 0))
      fun result => Knows L i others (before ++ { lw with written := true } :: after)
        (if result = some lw.writer.length then
          ⟨lw.writer.bid, lw.writer.offset,
            lw.writer.huge (lw.writer.url.getD []) content⟩ :: history
        else history) := by
  have hmem : lw ∈ before ++ lw :: after := List.mem_append_right _ List.mem_cons_self
  have hdone : Kept L i (Knows L i others (before ++ { lw with written := true } :: after)
      (⟨lw.writer.bid, lw.writer.offset, lw.writer.huge url content⟩ :: history)) :=
    kept_knows
  apply Discipline.Triple.call (R := fun (count : ℤ) w =>
    count = (lw.writer.huge url content).length ∧
      Knows L i others (before ++ { lw with written := true } :: after)
        (⟨lw.writer.bid, lw.writer.offset, lw.writer.huge url content⟩ :: history) w)
    kept_bundle.stable
  · intro w count w' hinv h hsem
    have hcount : count = (lw.writer.huge url content).length := hsem.2
    obtain ⟨hformed, hbelow⟩ := h.1.live lw hmem
    obtain ⟨n, hn, -, -, rfl⟩ | ⟨hneg, -⟩ := hsem.1
    · have hall : (n : ℤ) = (lw.writer.huge url content).length := hn.symm.trans hcount
      obtain rfl := Int.ofNat_inj.mp hall
      obtain ⟨hstep, hlog⟩ :=
        record_step (huge_ne_nil _ url content) hinv hformed.bid (hbelow hfresh) h.2
      have hheld := h.1.holds (mem_locksOf_live hmem) hformed.locked hformed.lockfile
      exact ⟨hstep.allowed hapart hinv hformed.bid hheld, hcount, h.1.wrote hstep hlog⟩
    · have hminus : (-1 : ℤ) = (lw.writer.huge url content).length := hneg.symm.trans hcount
      omega
  intro (count : ℤ)
  apply Discipline.Triple.intro
  intro hcount
  apply quiet_call hdone (show Quiet (.close _) from trivial)
  intro _
  have hneg : ¬ count < 0 := by
    rw [hcount]
    exact Int.not_lt.mpr (Int.natCast_nonneg _)
  rw [if_neg hneg, if_pos hcount, hurl]
  exact Discipline.Triple.ret fun _ _ h => by simpa using h

/-- A writer that has not written may write once; what it reports is in the log.
SOURCE: bundle.py:72-122 -/
theorem write_triple (hapart : L.Apart) (hfresh : lw.written = false) (content : Bytes) :
    (discipline L).Triple (keptSystem L ι).sem i
      (Knows L i others (before ++ lw :: after) history) (lw.writer.write content)
      fun result => Knows L i others (before ++ { lw with written := true } :: after)
        (if result = some lw.writer.length then
          ⟨lw.writer.bid, lw.writer.offset,
            lw.writer.huge (lw.writer.url.getD []) content⟩ :: history
        else history) := by
  have hmem : lw ∈ before ++ lw :: after := List.mem_append_right _ List.mem_cons_self
  unfold Writer.write
  split
  · exact raised_triple content
  rename_i url hurl
  apply Discipline.Triple.call (R := fun (answer : Option Fd) w =>
    Knows L i others (before ++ lw :: after) history w ∧ ∀ fd, answer = some fd →
      fd.loc = L.bundleLoc lw.writer.bid ∧
        (w.tree.content (L.bundleLoc lw.writer.bid)).isSome = true) kept_knows.stable
  · intro w answer w' hinv h hsem
    obtain ⟨hall, hknows⟩ :=
      quiet_step (o := .openRdwr lw.writer.filename) kept_knows trivial hinv h hsem.1
    refine ⟨hall, hknows, ?_⟩
    rintro fd rfl
    obtain ⟨hopen, rfl⟩ := hsem.1
    rw [(h.live lw hmem).1.filename] at hopen
    obtain ⟨rfl, c, hc⟩ := Tree.openRdwr_ok hopen
    exact ⟨rfl, Option.isSome_iff_exists.mpr ⟨c, hc⟩⟩
  intro answer
  cases answer with
  | none => exact (raised_triple content).pre fun _ _ h => h.1
  | some fd =>
      apply Discipline.Triple.pre (P := fun w => fd.loc = L.bundleLoc lw.writer.bid ∧
        Knows L i others (before ++ lw :: after) history w ∧
          (w.tree.content (L.bundleLoc lw.writer.bid)).isSome = true) ?_
        fun w _ h => ⟨(h.2 fd rfl).1, h.1, (h.2 fd rfl).2⟩
      apply Discipline.Triple.intro
      intro hloc
      apply Discipline.Triple.call (R := fun (answer : ℤ × Fd) w =>
        (answer.1 = lw.writer.offset → answer.2 = ⟨L.bundleLoc lw.writer.bid, lw.writer.offset⟩) ∧
          Knows L i others (before ++ lw :: after) history w ∧
            (w.tree.content (L.bundleLoc lw.writer.bid)).isSome = true) kept_bundle.stable
      · intro w answer w' hinv h hsem
        obtain ⟨hall, hknows⟩ :=
          quiet_step (o := .lseek fd lw.writer.offset) kept_bundle trivial hinv h hsem.1
        refine ⟨hall, ?_, hknows⟩
        obtain ⟨pos, fd'⟩ := answer
        obtain ⟨-, -, rfl, -⟩ | ⟨rfl, -, -⟩ := hsem.1
        · intro _
          rw [← hloc]
        · intro hpos
          dsimp only at hpos
          omega
      rintro ⟨pos, fp⟩
      apply Discipline.Triple.intro
      intro hfp
      apply Discipline.Triple.ite
      · intro _
        exact (raised_triple content).pre fun _ _ h => h.1
      intro hpos
      obtain rfl := hfp (not_not.mp hpos)
      apply Discipline.Triple.ite
      · intro _
        exact (raised_triple content).pre fun _ _ h => h.1
      intro _
      split
      · exact (raised_triple content).pre fun _ _ h => h.1
      · exact record_triple hapart hfresh hurl content

end OneWriter

end Programs

end Keeping

end PyBundle

end BundleStore
