import BundleStore.Analysis.StoreCallers

set_option autoImplicit false

/-!
# The offsets that `Allocate` hands out

The offset of a writer is the size that the bundle has. Whole records keep it a multiple
of 1024, so it stays one as long as every header is written whole and no short record
leaves its bundle at another size. One short header is enough to hand out an offset inside it.
-/

namespace BundleStore

open Machine Posix

/-- A length that a bundle scan can go on from. -/
def Aligned (n : ℕ) : Prop :=
  kBundleHeaderSize ≤ n ∧ 1024 ∣ n

/-- A header keeps the alignment. -/
theorem aligned_header : Aligned kBundleHeaderSize := by
  unfold Aligned kBundleHeaderSize
  omega

/-- The bundles under the prefixes in use have such lengths. -/
def BundlesAligned (L : Layout) (allowed : Bytes → Bool) (t : Tree) : Prop :=
  ∀ p id c, allowed p = true → IsId id → t.content (L.bundleLoc p id) = some c → Aligned c.length

/-- What is kept: a bundle has an aligned length, and so has a writer's offset. -/
def alignedUpkeep (L : Layout) (base : Tree) (allowed : Bytes → Bool)
    (outside : ∀ p, allowed p = true → L.Outside p) : Upkeep L where
  base := base
  allowed := allowed
  outside := outside
  sizes _ := True
  Good content _ := ∀ c, content = some c → Aligned c.length
  Seen _ _ := True
  seen_of_good _ _ _ := trivial
  seen_emptied _ _ := trivial
  Header header n := n = header.length
  good_created header n log hlength hwhole _ := by
    rintro c heq
    obtain rfl := Option.some.inj heq
    rw [hwhole, List.take_length, hlength]
    exact aligned_header
  good_missing t p id log _ _ _ _ := by
    intro c heq
    cases heq
  Fits _ offset _ _ _ := Aligned offset
  fits_found c log size _ _ _ h := h c rfl
  fits_created _ _ _ _ _ := aligned_header
  dirs := False

/-- A record `write` takes everything or nothing, or leaves the length of the file
aligned. -/
def alignedRecording : Recording where
  Writes _ _ _ _ := True
  Accepts c pos a := a.count = a.record.length ∨ a.count = 0 ∨ 1024 ∣ max c.length (pos + a.count)

/-- The size of a record is a multiple of 1024. -/
theorem IsRecord.aligned {call : WriteCall} {record : Bytes} (h : IsRecord call record) :
    1024 ∣ record.length := by
  rw [h.length]
  exact Nat.dvd_mul_left _ _

/-- A file and an offset in it that are aligned stay so when a whole record is written
there. -/
theorem Aligned.wrote {c offset record : ℕ} (hc : Aligned c) (hoffset : Aligned offset)
    (hrecord : 1024 ∣ record) : 1024 ∣ max c (offset + record) := by
  rcases max_choice c (offset + record) with hmax | hmax
  · rw [hmax]
    exact hc.2
  · rw [hmax]
    exact (Nat.dvd_add_right hoffset.2).mpr hrecord

/-- The alignment is kept by every record that is written. -/
theorem aligned_recorded (L : Layout) (base : Tree) (allowed : Bytes → Bool)
    (outside : ∀ p, allowed p = true → L.Outside p) :
    (alignedUpkeep L base allowed outside).Recorded alignedRecording where
  nothing _ _ _ _ _ := .inr (.inl rfl)
  writes_sized _ := trivial
  fits_sized _ h := h
  seen _ := trivial
  good := by
    rintro use offset size c log call a result hstored - c' heq
    obtain rfl := Option.some.inj heq
    have hc : Aligned c.length := hstored.good c rfl
    have hoffset : Aligned offset := hstored.fits
    by_cases hzero : a.count = 0
    · rw [Accepted.content_of_count_eq_zero hzero]
      exact hc
    · unfold Aligned
      rw [Accepted.length_content hstored.count_le hzero]
      refine ⟨le_trans hc.1 (le_max_left _ _), ?_⟩
      rcases hstored.accepts with hall | hnone | hpart
      · rw [hall]
        exact hc.wrote hoffset hstored.record.aligned
      · exact absurd hnone hzero
      · exact hpart
  written hstored _ := hstored.fits
  failed hstored _ _ := hstored.fits
  batched := by
    rintro use first announced offset size c log call a result hstored - -
    have hfits : Aligned offset := hstored.fits
    exact ⟨le_trans hfits.1 (Nat.le_add_right _ _),
      (Nat.dvd_add_right hfits.2).mpr hstored.record.aligned⟩

/-! ## Runs -/

section Runs

variable {ι : Type} [DecidableEq ι]

/-- A bundle header is accepted whole, a record of which `write` takes a part only leaves
its bundle at a multiple of 1024, and no directory stands where a bundle should. -/
def AlignedCall (L : Layout) (_ : ι) : (o : SysCall) → World ι ι → o.Answer → World ι ι → Prop
  | .write _ .bundleHeader data, _, count, _ => count = data.length
  | .write fd (.record _) data, w, count, _ => ∀ c (k : ℕ), w.tree.content fd.loc = some c →
      count = k → k = data.length ∨ k = 0 ∨ 1024 ∣ max c.length (fd.pos + k)
  | .lstat p, w, some _, _ => w.tree.stat L.cwd p ≠ .ok .dir
  | _, _, _, _ => True

/-- The call is for the common storage and lock directory, under a prefix in use. -/
def callIn (L : Layout) (allowed : Bytes → Bool) (call : AllocateCall) : Bool :=
  decide (call.storage = L.storage) && decide (call.lockDir = L.lock_dir) &&
    allowed call.bundlePrefix

/-- `new char[total]` throws, or the record has room in the buffer it gives. -/
def roomy (buf : Bytes) : Bool :=
  decide (recordTotal buf.length < 0 ∨ kFileHeaderSize + buf.length ≤ recordTotal buf.length)

/-- Every `Allocate` is for the common storage, and no `Write` overruns its buffer. -/
def startsIn (L : Layout) (allowed : Bytes → Bool) (_ : ι) (_ : Caller) :
    CallerOp → World ι ι → Bool
  | .allocate call, _ => callIn L allowed call
  | .write _ _ buf _, _ | .batchWrite _ buf _, _ => roomy buf
  | _, _ => true

/-- A header that `write` has accepted whole. -/
theorem header_whole {data : Bytes} {count : ℤ} (h : count = data.length) :
    count.toNat = data.length := by
  rw [h, Int.toNat_natCast]

/-- The callers start on a tree, and have allocated nothing. -/
structure StartsFrom (base : Tree) (c : Config SysCall SysCall.Answer ι (World ι ι) Caller) :
    Prop where
  shared : c.shared = World.start base
  idle : ∀ i, c.thread i = .ret {}

/-- A call of the system is one the bundles allow. -/
theorem callOk_of_callIn {L : Layout} {U : Upkeep L} {call : AllocateCall}
    (h : callIn L U.allowed call = true) (hsize : U.sizes call.size) : U.CallOk call := by
  unfold callIn at h
  simp only [Bool.and_eq_true, decide_eq_true_eq] at h
  exact ⟨h.1.1, h.1.2, h.2, hsize⟩

/-- Every offset that an idle caller has been handed out is aligned. -/
def OffsetsAligned (c : Config SysCall SysCall.Answer ι (World ι ι) Caller) : Prop :=
  ∀ i caller, c.thread i = .ret caller → ∀ entry ∈ caller.allocated, Aligned entry.2.info_.offset

/-- **Offsets stay aligned** in every run in which headers are written whole and short
records leave their bundles so.
SOURCE: bundle.cc:373-390,414-452,504-550 -/
theorem allocate_aligned {L : Layout} {allowed : Bytes → Bool}
    (outside : ∀ p, allowed p = true → L.Outside p) {base : Tree}
    (hbase : BundlesAligned L allowed base)
    {c : Config SysCall SysCall.Answer ι (World ι ι) Caller}
    (hc : ((storeSystem L.cwd id L.setting).restrict (AlignedCall L)
      (startsIn L allowed)).Reachable (StartsFrom base) c) : OffsetsAligned c := by
  let U := alignedUpkeep L base allowed outside
  have hsem : U.KeptWrites alignedRecording
      (Upkeep.keptSystem L ι (AlignedCall L) (startsIn L allowed)).sem := by
    refine ⟨⟨fun h => h.1, fun h => header_whole h.2, fun h hdir => absurd hdir h.2⟩, ?_⟩
    intro i fd call data w count w' c k h hcontent hcount
    exact h.2 c k hcontent hcount
  have hstart : Upkeep.Permits U alignedRecording (startsIn (ι := ι) L allowed) :=
    ⟨fun h => callOk_of_callIn h trivial, fun _ _ => trivial, fun _ _ => trivial⟩
  have hinit : ∀ c, StartsFrom (ι := ι) base c → Upkeep.Init U c := by
    intro c h
    refine ⟨h.shared, h.idle, ?_⟩
    rintro n l ⟨hid, p, hp, rfl⟩ content hcontent
    exact hbase p n content hp hid hcontent
  obtain ⟨c₀, h₀, hrun⟩ := hc
  have hkept := (Upkeep.reachable_kept hsem (aligned_recorded L base allowed outside) hstart
    ⟨c₀, hinit c₀ h₀, hrun⟩).2
  intro i caller hidle entry hentry
  rcases (hkept i caller hidle).allocated entry hentry with hdirs | ⟨c, log, hfits⟩
  · exact hdirs.elim
  · exact hfits

end Runs

/-! ## Processes that start on an empty disk -/

/-- The storage `s` with its default lock directory. -/
def storageLayout : Layout where
  cwd := []
  setting := defaultSetting
  storage := Text.ascii "s"
  lock_dir := Text.ascii "s/.lock"
  level_1_pos := by decide
  level_1_le := by decide
  level_2_lt := by decide

/-- The prefix `p`. -/
def onlyP (p : Bytes) : Bool :=
  p == Text.ascii "p"

/-- Bundles two names below `s/p` are no lock files. -/
theorem storageLayout_outside {p : Bytes}
    (hp : canon storageLayout.cwd (pathJoin storageLayout.storage p) =
      [Text.ascii "p", Text.ascii "s"]) : storageLayout.Outside p := by
  apply Layout.outside_of_tail
  intro id heq
  rw [Layout.bundleLoc_eq, hp] at heq
  have hlock : canon storageLayout.cwd storageLayout.lock_dir =
      [Text.ascii ".lock", Text.ascii "s"] := by decide +kernel
  rw [hlock] at heq
  have hlength := congrArg List.length heq
  simp at hlength

/-- The prefix of the example stays outside of the locks. -/
theorem onlyP_outside (p : Bytes) (hp : onlyP p = true) : storageLayout.Outside p := by
  obtain rfl := beq_iff_eq.mp hp
  apply storageLayout_outside
  decide +kernel

/-- An upload of three bytes under `p`. -/
def callUnderP : AllocateCall where
  prefix_ := Text.ascii "p"
  postfix_ := Text.ascii ".jpg"
  size := 3
  storage := Text.ascii "s"

/-- Processes that have not allocated anything, on an empty disk. -/
def emptyDisk (ι : Type) : Config SysCall SysCall.Answer ι (World ι ι) Caller where
  shared := World.start Tree.bare
  thread _ := .ret {}

/-- The empty disk is a start. -/
theorem emptyDisk_starts (ι : Type) : StartsFrom Tree.bare (emptyDisk ι) :=
  ⟨rfl, fun _ => rfl⟩

/-- There is no file on the bare tree. -/
theorem content_bare (l : Loc) : Tree.bare.content l = none := by
  unfold Tree.content Tree.bare
  by_cases hl : l = []
  · simp [hl]
  · simp [hl]

/-- The faultless environment, but a `write` of a header takes half of it. -/
def halfHeader (i : Unit) : Prog.Handler SysCall SysCall.Answer (World Unit Unit)
  | .write fd .bundleHeader data, w =>
      if fd.pos + data.length < 2 ^ 63 then
        (((data.length / 2 : ℕ) : ℤ), w.wrote fd .bundleHeader data (data.length / 2))
      else ((-1 : ℤ), w.setErrno i EFBIG)
  | o, w => World.serve [] id World.Surroundings.plain i o w

/-- The answers of a disk that takes half a header are answers that may be given. -/
theorem halfHeader_sem (i : Unit) (o : SysCall) (w : World Unit Unit) :
    World.Sem [] id i o w (halfHeader i o w).1 (halfHeader i o w).2 := by
  have hserve := World.serve_sem (κ := Unit) [] id World.Surroundings.plain_sound i
  cases o with
  | write fd site data =>
      cases site with
      | record call => exact hserve (.write fd (.record call) data) w
      | bundleHeader =>
          simp only [halfHeader]
          by_cases h : fd.pos + data.length < 2 ^ 63
          · rw [if_pos h]
            exact .inl ⟨data.length / 2, rfl, Nat.div_le_self _ _, by omega, rfl⟩
          · rw [if_neg h]
            exact .inr ⟨rfl, EFBIG, by decide, rfl⟩
  | _ => exact hserve _ w

/-- One `Allocate` of a process, with the calls of one pass answered by a handler. -/
def allocateMoves {ι : Type} (i : ι) (call : AllocateCall)
    (answer : ι → Prog.Handler SysCall SysCall.Answer (World ι ι)) :
    List (System.Move SysCall SysCall.Answer ι (World ι ι) CallerOp) :=
  System.runMoves i (.allocate call) 3 answer ++ System.runMoves i .nextPass 30 answer

/-- The moves of an allocation are made by whole operations. -/
theorem allocateMoves_fair {ι : Type} {i : ι} {call : AllocateCall}
    {S : System SysCall SysCall.Answer ι (World ι ι) Caller CallerOp}
    {answer : ι → Prog.Handler SysCall SysCall.Answer (World ι ι)}
    (hanswer : ∀ i o w, S.sem i o w (answer i o w).1 (answer i o w).2)
    {m : System.Move SysCall SysCall.Answer ι (World ι ι) CallerOp}
    (hm : m ∈ allocateMoves i call answer) : m.Fair S := by
  rcases List.mem_append.mp hm with hm | hm
  · exact System.fair_of_mem_runMoves hanswer hm
  · exact System.fair_of_mem_runMoves hanswer hm

/-- `AlignedCall` as a test. -/
def alignedCall (_ : Unit) :
    (o : SysCall) → World Unit Unit → o.Answer → World Unit Unit → Bool
  | .write _ .bundleHeader data, _, count, _ => count == data.length
  | .write fd (.record _) data, w, count, _ =>
      match w.tree.content fd.loc with
      | none => true
      | some c =>
          decide (count = data.length ∨ count ≤ 0 ∨
            1024 ∣ max c.length (fd.pos + Int.toNat count))
  | .lstat p, w, some _, _ =>
      match w.tree.stat storageLayout.cwd p with
      | .ok .dir => false
      | _ => true
  | _, _, _, _ => true

/-- The test of an aligned call finds only aligned calls. -/
theorem alignedCall_sound (i : Unit) (o : SysCall) (w : World Unit Unit) (a : o.Answer)
    (w' : World Unit Unit) (h : alignedCall i o w a w' = true) :
    AlignedCall storageLayout i o w a w' := by
  cases o with
  | write fd site data =>
      cases site with
      | bundleHeader => exact beq_iff_eq.mp h
      | record call =>
          intro c k hc hk
          have hcount : (a : ℤ) = k := hk
          unfold alignedCall at h
          simp only [hc, hcount, decide_eq_true_eq, Int.toNat_natCast, Nat.cast_inj] at h
          refine h.imp_right fun hpart => hpart.imp_left fun hle => ?_
          have hzero : (k : ℤ) ≤ 0 := hle
          omega
  | lstat p =>
      cases a with
      | none => trivial
      | some size =>
          intro hdir
          unfold alignedCall at h
          simp only [hdir, Bool.false_eq_true] at h
  | _ => trivial

/-- The offsets that a caller has been handed out. -/
def handedOut (caller : Caller) : List ℕ :=
  caller.allocated.map fun entry => entry.2.info_.offset

/-- A record of three bytes is written, and the next `Allocate` goes on behind it. -/
def twoUploads : List (System.Move SysCall SysCall.Answer Unit (World Unit Unit) CallerOp) :=
  allocateMoves () callUnderP (World.serve [] id World.Surroundings.plain) ++
    System.runMoves () (.write 0 none [1, 2, 3] none) 7
      (World.serve [] id World.Surroundings.plain) ++
    System.runMoves () (.release 0) 1 (World.serve [] id World.Surroundings.plain) ++
    allocateMoves () callUnderP (World.serve [] id World.Surroundings.plain)

/-- The moves of the two uploads are made by whole operations. -/
theorem twoUploads_fair (m : System.Move SysCall SysCall.Answer Unit (World Unit Unit) CallerOp)
    (hm : m ∈ twoUploads) : m.Fair (storeSystem storageLayout.cwd id storageLayout.setting) := by
  have hserve := fun (i : Unit) (o : SysCall) (w : World Unit Unit) =>
    World.serve_sem [] id World.Surroundings.plain_sound i o w
  unfold twoUploads at hm
  simp only [List.mem_append] at hm
  rcases hm with ((hm | hm) | hm) | hm
  · exact allocateMoves_fair hserve hm
  · exact System.fair_of_mem_runMoves hserve hm
  · exact System.fair_of_mem_runMoves hserve hm
  · exact allocateMoves_fair hserve hm

/-- On a faultless disk the offsets are those of the two records. -/
theorem allocate_aligned_twice :
    ∃ caller : Caller, (((storeSystem storageLayout.cwd id storageLayout.setting).restrict
        (AlignedCall storageLayout) (startsIn storageLayout onlyP)).play (emptyDisk Unit)
        twoUploads).thread () = .ret caller ∧
      handedOut caller = [1024, 2048] ∧
      ∀ entry ∈ caller.allocated, Aligned entry.2.info_.offset := by
  have hresult : ((((storeSystem storageLayout.cwd id storageLayout.setting).restrict
      (AlignedCall storageLayout) (startsIn storageLayout onlyP)).play (emptyDisk Unit)
      twoUploads).thread ()).result?.map handedOut = some [1024, 2048] := by
    decide +kernel
  obtain ⟨caller, hcaller, hoffsets⟩ := Option.map_eq_some_iff.mp hresult
  have hidle := Prog.eq_ret_of_result? hcaller
  have hbase : BundlesAligned storageLayout onlyP Tree.bare := by
    intro p n c _ _ hc
    rw [content_bare] at hc
    cases hc
  have hreach : ((storeSystem storageLayout.cwd id storageLayout.setting).restrict
      (AlignedCall storageLayout) (startsIn storageLayout onlyP)).Reachable (StartsFrom Tree.bare)
      (((storeSystem storageLayout.cwd id storageLayout.setting).restrict
        (AlignedCall storageLayout) (startsIn storageLayout onlyP)).play (emptyDisk Unit)
          twoUploads) := by
    apply System.play_reachable_restrict (emptyDisk_starts Unit) twoUploads twoUploads_fair
      alignedCall alignedCall_sound
    decide +kernel
  exact ⟨caller, hidle, hoffsets,
    fun entry hentry => allocate_aligned onlyP_outside hbase hreach () caller hidle entry hentry⟩

/-- Half a header is left behind, and the next `Allocate` hands out its end. -/
theorem not_allocate_aligned :
    ¬ ∀ (L : Layout) (allowed : Bytes → Bool), (∀ p, allowed p = true → L.Outside p) →
      ∀ base : Tree, BundlesAligned L allowed base →
        ∀ c : Config SysCall SysCall.Answer Unit (World Unit Unit) Caller,
          ((storeSystem L.cwd id L.setting).restrict (fun _ _ _ _ _ => True)
            (startsIn L allowed)).Reachable (StartsFrom base) c → OffsetsAligned c := by
  intro h
  have hresult : ((((storeSystem storageLayout.cwd id storageLayout.setting).restrict
      (fun _ _ _ _ _ => True) (startsIn storageLayout onlyP)).play (emptyDisk Unit)
      (allocateMoves () callUnderP halfHeader ++ allocateMoves () callUnderP halfHeader)).thread
        ()).result?.map handedOut = some [512] := by
    decide +kernel
  obtain ⟨caller, hcaller, hoffsets⟩ := Option.map_eq_some_iff.mp hresult
  have hbase : BundlesAligned storageLayout onlyP Tree.bare := by
    intro p n c _ _ hc
    rw [content_bare] at hc
    cases hc
  have hreach : ((storeSystem storageLayout.cwd id storageLayout.setting).restrict
      (fun _ _ _ _ _ => True) (startsIn storageLayout onlyP)).Reachable (StartsFrom Tree.bare)
      (((storeSystem storageLayout.cwd id storageLayout.setting).restrict
        (fun _ _ _ _ _ => True) (startsIn storageLayout onlyP)).play (emptyDisk Unit)
          (allocateMoves () callUnderP halfHeader ++ allocateMoves () callUnderP halfHeader)) := by
    apply System.play_reachable_restrict (emptyDisk_starts Unit) _ ?_ (fun _ _ _ _ _ => true)
      (fun _ _ _ _ _ _ => trivial) (System.passes_true _ _)
    · intro m hm
      rcases List.mem_append.mp hm with hm | hm
      · exact allocateMoves_fair halfHeader_sem hm
      · exact allocateMoves_fair halfHeader_sem hm
  obtain ⟨entry, hentry, hoffset⟩ := List.map_eq_singleton_iff.mp hoffsets
  have haligned := h _ _ onlyP_outside _ hbase _ hreach () caller
    (Prog.eq_ret_of_result? hcaller) entry (by
      rw [hentry]
      exact List.mem_singleton_self entry)
  rw [hoffset] at haligned
  exact absurd haligned.1 (by decide)

end BundleStore
