import BundleStore.Analysis.AppendOnly
import BundleStore.Analysis.RecordSize

set_option autoImplicit false

/-!
# How large a bundle gets

`Allocate` hands out a bundle when a record of the announced size still fits under
the limit, or when it has just made the bundle. So what makes a bundle too large has
been written at its first position, and as long as every batch stays in the room that was
announced, nothing else is in it.
-/

namespace BundleStore

open Machine Posix

/-- Two records lie in the file as they were written, at two positions. -/
def HoldsTwo (content : Bytes) (log : List LogEntry) : Prop :=
  ∃ first ∈ log, ∃ second ∈ log, first.offset < second.offset ∧
    ByteSeq.slice content first.offset first.record.length = first.record ∧
    ByteSeq.slice content second.offset second.record.length = second.record

instance (content : Bytes) (log : List LogEntry) : Decidable (HoldsTwo content log) :=
  inferInstanceAs (Decidable (∃ first ∈ log, ∃ second ∈ log, _))

/-- The records have been written at the first position. -/
def OnlyFirst (log : List LogEntry) : Prop :=
  ∀ entry ∈ log, entry.offset = kBundleHeaderSize

/-- The file is within the limit, or has records at its first position only. -/
def Limited (limit : ℕ) (content : Bytes) (log : List LogEntry) : Prop :=
  content.length ≤ limit ∨ OnlyFirst log

/-- A bundle with two records is within the limit. -/
theorem Limited.length_le {limit : ℕ} {content : Bytes} {log : List LogEntry}
    (h : Limited limit content log) (htwo : HoldsTwo content log) : content.length ≤ limit := by
  rcases h with hle | honly
  · exact hle
  · obtain ⟨first, hfirst, second, hsecond, hlt, -⟩ := htwo
    rw [honly first hfirst, honly second hsecond] at hlt
    exact absurd hlt (lt_irrefl _)

/-! ## A writer and its file -/

/-- The room that a record of this size takes. -/
def recordRoom (size : ℕ) : ℕ :=
  (kFileHeaderSize + size + 1023) / 1024 * 1024

/-- More contents need more room. -/
theorem recordRoom_mono {m n : ℕ} (h : m ≤ n) : recordRoom m ≤ recordRoom n := by
  unfold recordRoom
  omega

/-- The offset and the size that `Allocate` has given for a writer. -/
def LiveWriter.announced (live : LiveWriter) : ℕ × ℕ :=
  live.use.announced live.writer.info_.offset live.writer.info_.size

/-- Where a record fits under the limit, the file is within it; else there are records at the
first position only, and the record would be one of them. -/
def HasRoom (limit : ℕ) (announced : ℕ × ℕ) (content : Bytes) (log : List LogEntry) : Prop :=
  if announced.1 + recordRoom announced.2 ≤ limit then content.length ≤ limit
  else announced.1 = kBundleHeaderSize ∧ OnlyFirst log

/-- A writer still stands where `Allocate` has put it, or its next record ends within the room
of the announced one, which fits under the limit. -/
def StaysInRoom (limit : ℕ) (announced : ℕ × ℕ) (offset size : ℕ) : Prop :=
  offset = announced.1 ∨ announced.1 + recordRoom announced.2 ≤ limit ∧
    offset + recordRoom size ≤ announced.1 + recordRoom announced.2

instance (limit : ℕ) (announced : ℕ × ℕ) (offset size : ℕ) :
    Decidable (StaysInRoom limit announced offset size) :=
  inferInstanceAs (Decidable (_ ∨ _))

namespace HasRoom

variable {limit : ℕ} {announced : ℕ × ℕ} {content : Bytes} {log : List LogEntry}

/-- A bundle whose last writer has room is limited. -/
theorem limited (h : HasRoom limit announced content log) : Limited limit content log := by
  unfold HasRoom at h
  split at h
  · exact .inl h
  · exact .inr h.2

/-- What `write` accepts of a record leaves the file so. -/
theorem wrote {log : History} (h : HasRoom limit announced content log.accepted) {offset : ℕ}
    {call : WriteCall} (hsize : call.buf.length ≤ announced.2)
    (hstays : StaysInRoom limit announced offset call.buf.length) {a : Accepted}
    (hle : a.count ≤ a.record.length) (hrecord : IsRecord call a.record) :
    HasRoom limit announced (a.content content offset) (a.accept call log offset).accepted := by
  have hlength : a.record.length = recordRoom call.buf.length := hrecord.length
  have hmono := recordRoom_mono hsize
  unfold HasRoom at h ⊢
  by_cases hfits : announced.1 + recordRoom announced.2 ≤ limit
  · rw [if_pos hfits] at h ⊢
    have hend : offset + a.record.length ≤ limit := by
      rcases hstays with rfl | ⟨-, hin⟩
      · omega
      · omega
    by_cases hzero : a.count = 0
    · rw [Accepted.content_of_count_eq_zero hzero]
      exact h
    · rw [Accepted.length_content hle hzero]
      exact max_le h (by omega)
  · rw [if_neg hfits] at h ⊢
    obtain rfl := hstays.resolve_right fun hin => hfits hin.1
    refine ⟨h.1, ?_⟩
    unfold Accepted.accept
    split
    · intro entry hentry
      rcases List.mem_append.mp hentry with hentry | hentry
      · exact h.2 entry hentry
      · rw [List.mem_singleton.mp hentry]
        exact h.1
    · exact h.2

end HasRoom

/-! ## What is kept -/

/-- What is kept: a bundle is within the limit or has records at its first position
only, and a writer has room for the record that was announced. -/
def limitUpkeep (L : Layout) (base : Tree) (allowed : Bytes → Bool)
    (outside : ∀ p, allowed p = true → L.Outside p)
    (plain : ∀ p, allowed p = true → ∀ c ∈ components p, c ≠ dotdot)
    (storage : base.Direct L.cwd L.storage) : Upkeep L where
  base := base
  allowed := allowed
  outside := outside
  sizes size := size < 2 ^ 62
  Good content log := (content = none → log.accepted = []) ∧
    ∀ c, content = some c → Limited L.setting.max_bundle_size c log.accepted
  Seen content log := ∀ c, content = some c → Limited L.setting.max_bundle_size c log.accepted
  seen_of_good _ _ h := h.2
  seen_emptied log h := by
    rintro c -
    rw [h.1 rfl]
    exact .inr fun _ hentry => absurd hentry List.not_mem_nil
  Header _ _ := True
  good_created header n log _ _ h := by
    refine ⟨fun heq => (Option.some_ne_none _ heq).elim, fun c _ => ?_⟩
    rw [h.1 rfl]
    exact .inr fun _ hentry => absurd hentry List.not_mem_nil
  good_missing t p id log hgrows hp hmissing hgood := by
    rw [L.content_of_missing storage hgrows (plain p hp) hmissing] at hgood
    exact hgood
  Fits use offset size c log :=
    HasRoom L.setting.max_bundle_size (use.announced offset size) c log.accepted
  fits_found c log size hsize hlt hroom _ := by
    rw [exceeds_iff hsize hlt, Nat.not_lt, align1K_eq (by
      unfold kFileHeaderSize
      omega)] at hroom
    have hlimit : c.length + recordRoom size ≤ L.setting.max_bundle_size := hroom
    unfold HasRoom
    rw [Use.announced_fresh, if_pos hlimit]
    exact le_trans (Nat.le_add_right _ _) hlimit
  fits_created header log size hheader h := by
    unfold HasRoom
    rw [Use.announced_fresh, h.1 rfl]
    split
    · rename_i hlimit
      rw [hheader]
      exact le_trans (Nat.le_add_right _ _) hlimit
    · exact ⟨rfl, fun _ hentry => absurd hentry List.not_mem_nil⟩
  dirs := True

/-- A record is no larger than announced, and stays in the room of the announced one. A
`write` may accept any part of it. -/
def limitRecording (limit : ℕ) : Recording where
  Writes use offset size buf := buf.length ≤ (use.announced offset size).2 ∧
    StaysInRoom limit (use.announced offset size) offset buf.length
  Accepts _ _ _ := True

section Recorded

variable {L : Layout} {base : Tree} {allowed : Bytes → Bool}
variable {outside : ∀ p, allowed p = true → L.Outside p}
variable {plain : ∀ p, allowed p = true → ∀ c ∈ components p, c ≠ dotdot}
variable {storage : base.Direct L.cwd L.storage}
variable {use : Use} {offset size : ℕ} {c : Bytes} {log : History} {call : WriteCall}
variable {a : Accepted}

/-- A bundle keeps its room when a record is written. -/
theorem hasRoom_of_stored (h : (limitUpkeep L base allowed outside plain storage).Stored
    (limitRecording L.setting.max_bundle_size) use offset size c log call a) :
    HasRoom L.setting.max_bundle_size (use.announced offset size) (a.content c offset)
      (a.accept call log offset).accepted :=
  HasRoom.wrote h.fits h.writes.1 h.writes.2 h.count_le h.record

/-- A bundle keeps its room when a call returns. -/
theorem hasRoom_of_returned (h : (limitUpkeep L base allowed outside plain storage).Stored
    (limitRecording L.setting.max_bundle_size) use offset size c log call a)
    (result : WriteResult) :
    HasRoom L.setting.max_bundle_size (use.announced offset size) (a.content c offset)
      (a.log call log offset result).accepted := by
  rw [Accepted.log_accepted]
  exact hasRoom_of_stored h

/-- A writer goes on with the room that was announced, whatever it has now for its size. -/
theorem limit_recorded : (limitUpkeep L base allowed outside plain storage).Recorded
    (limitRecording L.setting.max_bundle_size) where
  nothing _ _ _ _ _ := trivial
  writes_sized h := h
  fits_sized _ h := h
  seen hstored := by
    rintro c' heq
    obtain rfl := Option.some.inj heq
    exact (hasRoom_of_stored hstored).limited
  good hstored _ := by
    refine ⟨fun heq => (Option.some_ne_none _ heq).elim, ?_⟩
    intro c' heq
    obtain rfl := Option.some.inj heq
    exact (hasRoom_of_returned hstored _).limited
  written hstored _ := hasRoom_of_returned hstored _
  failed hstored _ _ := hasRoom_of_returned hstored _
  batched hstored _ _ := hasRoom_of_returned hstored _

end Recorded

/-! ## Runs -/

section Runs

variable {ι : Type} [DecidableEq ι]

/-- Every `Allocate` is for the common storage and announces a size that may be, and
nothing larger is written with its writer, and only what may be. -/
def startsWithin (L : Layout) (allowed : Bytes → Bool) (okSize : ℕ → Bool)
    (okWrite : LiveWriter → Bytes → Bool) (_ : ι) (caller : Caller) :
    CallerOp → World ι ι → Bool
  | .allocate call, _ => callIn L allowed call && okSize call.size
  | .write k _ buf _, _ | .batchWrite k buf _, _ =>
      caller.live[k]?.all fun lw => decide (buf.length ≤ lw.announced.2) && okWrite lw buf
  | _, _ => true

/-- With such a size the sum that `Allocate` compares does not wrap. -/
def sizeInRange (size : ℕ) : Bool :=
  decide (size < 2 ^ 62)

/-- A batch stays in the room of the announced record. -/
def batchInRoom (limit : ℕ) (live : LiveWriter) (buf : Bytes) : Bool :=
  decide (StaysInRoom limit live.announced live.writer.info_.offset buf.length)

/-- Calls may fail or fall short in any way. -/
def AnyCall (_ : ι) (o : SysCall) (_ : World ι ι) (_ : o.Answer) (_ : World ι ι) : Prop :=
  True

/-- The processes, when they keep to the sizes they announce. The setting may be another one
than that of the layout. -/
abbrev sizedSystem (L : Layout) (setting : Setting) (ι : Type) [DecidableEq ι]
    (allowed : Bytes → Bool) (okSize : ℕ → Bool) (okWrite : LiveWriter → Bytes → Bool) :
    System SysCall SysCall.Answer ι (World ι ι) Caller CallerOp :=
  (storeSystem L.cwd id setting).restrict AnyCall (startsWithin L allowed okSize okWrite)

/-- No bundle in which two records lie is larger than the limit. -/
def BundlesLimited (cwd : Loc) (setting : Setting) (storage : Bytes) (allowed : Bytes → Bool)
    (w : World ι ι) : Prop :=
  ∀ p id c, allowed p = true → IsId id →
    w.tree.content (canon cwd (bundleFile setting storage p id)) = some c →
      HoldsTwo c (w.accepted (canon cwd (bundleFile setting storage p id))) →
        c.length ≤ setting.max_bundle_size

/-- **Bundles respect the size limit** in every run of the processes, whatever fails.
SOURCE: bundle.cc:329-405,456-577 -/
theorem bundles_size_limit {L : Layout} {allowed : Bytes → Bool}
    (outside : ∀ p, allowed p = true → L.Outside p)
    (plain : ∀ p, allowed p = true → ∀ c ∈ components p, c ≠ dotdot) {base : Tree}
    (storage : base.Direct L.cwd L.storage)
    {c : Config SysCall SysCall.Answer ι (World ι ι) Caller}
    (hc : (sizedSystem L L.setting ι allowed sizeInRange
      (batchInRoom L.setting.max_bundle_size)).Reachable (StartsFrom base) c) :
    BundlesLimited L.cwd L.setting L.storage allowed c.shared := by
  let U := limitUpkeep L base allowed outside plain storage
  let R := limitRecording L.setting.max_bundle_size
  have hsem : U.KeptWrites R (sizedSystem L L.setting ι allowed sizeInRange
      (batchInRoom L.setting.max_bundle_size)).sem :=
    ⟨⟨fun h => h.1, fun _ => trivial, fun _ _ => trivial⟩, fun _ _ _ => trivial⟩
  have hwrites : ∀ {buf : Bytes} {lw : LiveWriter}, (decide (buf.length ≤ lw.announced.2) &&
      batchInRoom L.setting.max_bundle_size lw buf) = true →
        R.Writes lw.use lw.writer.info_.offset lw.writer.info_.size buf := by
    intro buf lw h
    rw [Bool.and_eq_true] at h
    exact ⟨of_decide_eq_true h.1, of_decide_eq_true h.2⟩
  have hstart : Upkeep.Permits U R (startsWithin (ι := ι) L allowed sizeInRange
      (batchInRoom L.setting.max_bundle_size)) := by
    refine ⟨?_, fun h hk => hwrites (Caller.of_all_live h hk),
      fun h hk => hwrites (Caller.of_all_live h hk)⟩
    intro i caller call w h
    unfold startsWithin at h
    rw [Bool.and_eq_true] at h
    have hsize : call.size < 2 ^ 62 := of_decide_eq_true h.2
    exact callOk_of_callIn h.1 hsize
  have hinit : ∀ c, StartsFrom (ι := ι) base c → Upkeep.Init U c := by
    intro c h
    refine ⟨h.shared, h.idle, fun n l _ => ⟨fun _ => rfl, fun c _ => ?_⟩⟩
    exact .inr fun _ hentry => absurd hentry List.not_mem_nil
  obtain ⟨c₀, h₀, hrun⟩ := hc
  have hinv := (Upkeep.reachable_kept hsem limit_recorded hstart ⟨c₀, hinit c₀ h₀, hrun⟩).1
  intro p n content hp hid hcontent htwo
  exact (hinv.seen n _ ⟨hid, p, hp, rfl⟩ content hcontent).length_le htwo

end Runs

/-! ## Processes on an empty disk, with room for two records -/

section Small

/-- The storage `s`, with bundles of at most 3072 bytes. -/
def smallLayout : Layout where
  cwd := []
  setting := { defaultSetting with max_bundle_size := 3072 }
  storage := Text.ascii "s"
  lock_dir := Text.ascii "s/.lock"
  level_1_pos := by decide
  level_1_le := by decide
  level_2_lt := by decide

/-- Whatever the file counts, the prefixes, the sizes and the use of writers, as far as they
are allowed. -/
def SizeLimit (okCounts : Setting → Prop) (okPrefix : Bytes → Prop) (okSize : ℕ → Bool)
    (okWrite : ℕ → LiveWriter → Bytes → Bool) : Prop :=
  ∀ (L : Layout) (setting : Setting), okCounts setting →
    kBundleHeaderSize ≤ setting.max_bundle_size →
      ∀ allowed : Bytes → Bool, (∀ p, allowed p = true → L.Outside p ∧ okPrefix p) →
        ∀ base : Tree, (∀ l, base.content l = none) →
          ∀ c : Config SysCall SysCall.Answer Bool (World Bool Bool) Caller,
            (sizedSystem L setting Bool allowed okSize
              (okWrite setting.max_bundle_size)).Reachable (StartsFrom base) c →
                BundlesLimited L.cwd setting L.storage allowed c.shared

/-- Two ids have two bundles. -/
def CountsApart (setting : Setting) : Prop :=
  0 < setting.file_count_level_1 ∧ setting.file_count_level_1 ≤ setting.file_count_level_2

/-- The bundle of id 0 under `p`, when two records lie in it: how long it is. -/
def heldLength (setting : Setting) (w : World Bool Bool) : Option ℕ :=
  let l := canon [] (bundleFile setting (Text.ascii "s") (Text.ascii "p") 0)
  match w.tree.content l with
  | none => none
  | some c => if HoldsTwo c (w.accepted l) then some c.length else none

/-- The length that the example shows is within the limit. -/
theorem BundlesLimited.heldLength_le {setting : Setting} {allowed : Bytes → Bool}
    {w : World Bool Bool} (h : BundlesLimited [] setting (Text.ascii "s") allowed w)
    (hp : allowed (Text.ascii "p") = true) {n : ℕ} (hn : heldLength setting w = some n) :
    n ≤ setting.max_bundle_size := by
  unfold heldLength at hn
  dsimp only at hn
  split at hn
  · cases hn
  · rename_i c hc
    split at hn
    · rename_i htwo
      rw [← Option.some.inj hn]
      exact h (Text.ascii "p") 0 c hp (by unfold IsId; norm_num) hc htwo
    · cases hn

/-- The prefix of the example stays outside of the locks. -/
theorem onlyP_small (p : Bytes) (hp : onlyP p = true) : smallLayout.Outside p :=
  onlyP_outside p hp

/-- Process `i` allocates. -/
def allocatesOf (i : Bool) (call : AllocateCall) (size : ℕ) : Moves :=
  allocateMoves i { call with size } faultless

/-- The process uses its writer. -/
def writesOf (i : Bool) (buf : Bytes) : Moves :=
  System.runMoves i (.write 0 (some []) buf none) 8 faultless

def batchesOf (i : Bool) (buf : Bytes) : Moves :=
  System.runMoves i (.batchWrite 0 buf none) 8 faultless

def releasesOf (i : Bool) : Moves :=
  System.runMoves i (.release 0) 1 faultless

/-- The process allocates, writes a record and releases its writer. -/
def uploadOf (i : Bool) (call : AllocateCall) (size : ℕ) (buf : Bytes) : Moves :=
  allocatesOf i call size ++ (writesOf i buf ++ releasesOf i)

/-- Three records go into one batch, where one was announced. -/
def threeInBatch : Moves :=
  allocatesOf false callUnderP 0 ++
    (batchesOf false [] ++ (batchesOf false [] ++ batchesOf false []))

/-- The largest `size_t` is announced, whose record would have 1024 bytes. -/
def largestSize : Moves :=
  uploadOf false callUnderP 0 [] ++ uploadOf false callUnderP (2 ^ 64 - 1) (List.replicate 1024 0)

/-- A record with a copy of the second record, at the place where that one stood. -/
def withCopy : Bytes :=
  List.replicate 512 0 ++ recordBytes (List.replicate 1024 0) [] [] none ++ [0]

/-- The bundle is made anew through `..`. -/
def copyThroughDots : Moves :=
  uploadOf false callUnderP 0 [] ++ (uploadOf false callUnderP 0 [] ++
    uploadOf false callThroughDots withCopy.length withCopy)

/-- With these file counts the bundles 0 and 1 are one file. -/
def crossedCounts : Setting :=
  { smallLayout.setting with file_count_level_1 := 2, file_count_level_2 := 1 }

/-- The first process makes bundle 0 and announces a large record; the second one finds it
locked, and writes two records to bundle 1 before the large one comes. -/
def sharedBundle : Moves :=
  allocatesOf false callUnderP withCopy.length ++ (allocatesOf true callUnderP 0 ++
    (System.runMoves true .nextPass 30 faultless ++ (writesOf true [] ++ (releasesOf true ++
      (uploadOf true callUnderP 0 [] ++ (writesOf false withCopy ++ releasesOf false))))))

/-- The first process writes a batch of two records in the room that it has announced for one;
the second one writes to the next bundle meanwhile. -/
def batchOfTwo : Moves :=
  allocatesOf false callUnderP 1536 ++ (allocatesOf true callUnderP 3 ++
    (System.runMoves true .nextPass 30 faultless ++
      (inTurn (batchesOf false [1, 2]) (writesOf true [3, 4, 5]) ++ (batchesOf false [6] ++
        inTurn (releasesOf false) (releasesOf true)))))

/-- What the calls answer does not depend on the setting. -/
theorem FairMove.of_setting (setting : Setting)
    {m : System.Move SysCall SysCall.Answer Bool (World Bool Bool) CallerOp} (h : FairMove m) :
    m.Fair (storeSystem smallLayout.cwd id setting) := by
  cases m with
  | start i ch => trivial
  | act i answer =>
      intro o w
      have hsem : World.Sem [] id i o w (answer i o w).1 (answer i o w).2 := h o w
      exact hsem

/-- The moves of an upload are fair. -/
theorem uploadOf_fair (i : Bool) (call : AllocateCall) (size : ℕ) (buf : Bytes) :
    ∀ m ∈ uploadOf i call size buf, FairMove m :=
  fair_append (fair_allocate _ _) (fair_append (fair_run _ _ _) (fair_run _ _ _))

/-- The moves of the batch of three are fair. -/
theorem threeInBatch_fair : ∀ m ∈ threeInBatch, FairMove m :=
  fair_append (fair_allocate _ _)
    (fair_append (fair_run _ _ _) (fair_append (fair_run _ _ _) (fair_run _ _ _)))

/-- The moves of the upload of the largest size are fair. -/
theorem largestSize_fair : ∀ m ∈ largestSize, FairMove m :=
  fair_append (uploadOf_fair _ _ _ _) (uploadOf_fair _ _ _ _)

/-- The moves of the copy through a prefix that leads up are fair. -/
theorem copyThroughDots_fair : ∀ m ∈ copyThroughDots, FairMove m :=
  fair_append (uploadOf_fair _ _ _ _) (fair_append (uploadOf_fair _ _ _ _) (uploadOf_fair _ _ _ _))

/-- The moves of the two processes that share a bundle are fair. -/
theorem sharedBundle_fair : ∀ m ∈ sharedBundle, FairMove m := by
  refine fair_append (fair_allocate _ _) (fair_append (fair_allocate _ _) ?_)
  refine fair_append (fair_run _ _ _) (fair_append (fair_run _ _ _) ?_)
  refine fair_append (fair_run _ _ _) (fair_append (uploadOf_fair _ _ _ _) ?_)
  exact fair_append (fair_run _ _ _) (fair_run _ _ _)

/-- The moves of the batch of two are fair. -/
theorem batchOfTwo_fair : ∀ m ∈ batchOfTwo, FairMove m := by
  refine fair_append (fair_allocate _ _) (fair_append (fair_allocate _ _) ?_)
  refine fair_append (fair_run _ _ _) (fair_append ?_ (fair_append (fair_run _ _ _) ?_))
  · exact fair_inTurn (fair_run _ _ _) (fair_run _ _ _)
  · exact fair_inTurn (fair_run _ _ _) (fair_run _ _ _)

/-- The prefix that leads up stays outside of the locks. -/
theorem pOrDots_small (p : Bytes) (hp : pOrDots p = true) : smallLayout.Outside p :=
  pOrDots_outside p hp

/-- A batch of two records has filled its bundle up to the limit, while the other process has
written to another one. -/
theorem bundles_size_limit_batchOfTwo :
    let w := ((sizedSystem smallLayout smallLayout.setting Bool onlyP sizeInRange
      (batchInRoom 3072)).play (emptyDisk Bool) batchOfTwo).shared
    heldLength smallLayout.setting w = some 3072 ∧
      (w.accepted (smallLayout.bundleLoc (Text.ascii "p") 1)).length = 1 ∧
        BundlesLimited smallLayout.cwd smallLayout.setting smallLayout.storage onlyP w := by
  have storage : Tree.bare.Direct smallLayout.cwd smallLayout.storage := by
    apply Tree.direct_of_plain
    decide +kernel
  refine ⟨by decide +kernel, by decide +kernel,
    bundles_size_limit onlyP_small onlyP_plain storage ?_⟩
  exact System.play_reachable_restrict (emptyDisk_starts Bool) batchOfTwo batchOfTwo_fair
    (fun _ _ _ _ _ => true) (fun _ _ _ _ _ _ => trivial) (System.passes_true _ _)

/-- A schedule that leaves two records in a bundle that is too large. -/
theorem not_sizeLimit {okCounts : Setting → Prop} {okPrefix : Bytes → Prop} {okSize : ℕ → Bool}
    {okWrite : ℕ → LiveWriter → Bytes → Bool} (setting : Setting) (hcounts : okCounts setting)
    (hmax : setting.max_bundle_size = 3072) (allowed : Bytes → Bool)
    (hallowed : ∀ p, allowed p = true → smallLayout.Outside p ∧ okPrefix p)
    (hp : allowed (Text.ascii "p") = true) (moves : Moves) (hfair : ∀ m ∈ moves, FairMove m)
    (hheld : heldLength setting ((sizedSystem smallLayout setting Bool allowed okSize
      (okWrite setting.max_bundle_size)).play (emptyDisk Bool) moves).shared = some 4096) :
    ¬ SizeLimit okCounts okPrefix okSize okWrite := by
  intro h
  have hreach : (sizedSystem smallLayout setting Bool allowed okSize
      (okWrite setting.max_bundle_size)).Reachable (StartsFrom Tree.bare)
        ((sizedSystem smallLayout setting Bool allowed okSize
          (okWrite setting.max_bundle_size)).play (emptyDisk Bool) moves) :=
    System.play_reachable_restrict (emptyDisk_starts Bool) moves
      (fun m hm => (hfair m hm).of_setting setting) (fun _ _ _ _ _ => true)
      (fun _ _ _ _ _ _ => trivial) (System.passes_true _ _)
  have hheader : kBundleHeaderSize ≤ setting.max_bundle_size := by
    rw [hmax]
    exact Nat.le_of_ble_eq_true rfl
  have hlimited := h smallLayout setting hcounts hheader allowed hallowed Tree.bare content_bare _
    hreach
  have hle : 4096 ≤ setting.max_bundle_size := hlimited.heldLength_le hp hheld
  rw [hmax] at hle
  exact absurd hle (by decide)

/-- A batch goes on without a look at the limit. The largest size announces almost
nothing. Through `..` a bundle is made anew, and a record that has a copy of an old one
in its place makes it too large. So it does where two ids have one bundle, under two locks. -/
theorem not_bundles_size_limit :
    ¬ SizeLimit CountsApart (fun p => ∀ c ∈ components p, c ≠ dotdot) sizeInRange
        (fun _ _ _ => true) ∧
      ¬ SizeLimit CountsApart (fun p => ∀ c ∈ components p, c ≠ dotdot) (fun _ => true)
        batchInRoom ∧
      ¬ SizeLimit CountsApart (fun _ => True) sizeInRange batchInRoom ∧
      ¬ SizeLimit (fun _ => True) (fun p => ∀ c ∈ components p, c ≠ dotdot) sizeInRange
        batchInRoom := by
  have hcounts : CountsApart smallLayout.setting := ⟨by decide, by decide⟩
  have hplain : ∀ p, onlyP p = true →
      smallLayout.Outside p ∧ ∀ c ∈ components p, c ≠ dotdot :=
    fun p hp => ⟨onlyP_small p hp, onlyP_plain p hp⟩
  refine ⟨?_, ?_, ?_, ?_⟩
  · exact not_sizeLimit smallLayout.setting hcounts rfl onlyP hplain (by decide +kernel)
      threeInBatch threeInBatch_fair (by decide +kernel)
  · exact not_sizeLimit smallLayout.setting hcounts rfl onlyP hplain (by decide +kernel)
      largestSize largestSize_fair (by decide +kernel)
  · exact not_sizeLimit smallLayout.setting hcounts rfl pOrDots
      (fun p hp => ⟨pOrDots_small p hp, trivial⟩) (by decide +kernel)
      copyThroughDots copyThroughDots_fair (by decide +kernel)
  · exact not_sizeLimit crossedCounts trivial rfl onlyP hplain (by decide +kernel)
      sharedBundle sharedBundle_fair (by decide +kernel)

end Small

end BundleStore
