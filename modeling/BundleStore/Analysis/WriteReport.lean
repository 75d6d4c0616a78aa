import BundleStore.Model.Record

set_option autoImplicit false

/-!
# When a reported write is a complete write

`Write` answers a failed or short `write` with the current `errno`. A short count
leaves `errno` alone, and the MooseFS client leaves it alone on failures too, so
what the caller is told depends on how earlier calls have left it. A script
gives the answers of one environment; the theorem says for which scripts a
reported success is one.
-/

namespace BundleStore

open Machine

/-- The answers of an environment to one `Write`. A call sets `errno` or leaves
it as it is. -/
structure WriteScript where
  /-- `errno` before -/
  errno : ℕ
  /-- `open`: fails, or gives a descriptor -/
  opened : Except (Option ℕ) Posix.Fd
  /-- the position `lseek` returns -/
  position : ℤ
  /-- what the heap holds -/
  heap : ℕ → Bytes
  /-- the count `write` returns, or `-1` -/
  count : ℤ
  writeErrno : Option ℕ
  closeErrno : Option ℕ

/-- `errno`, and how many bytes `write` has accepted. -/
structure WriteState where
  errno : ℕ
  accepted : ℕ

namespace WriteScript

/-- The environment that answers as the script says. Calls that `Write` does not
make fail. -/
def handler (s : WriteScript) : Prog.Handler SysCall SysCall.Answer WriteState
  | .openRdwr _, st =>
      match s.opened with
      | .ok fd => (some fd, st)
      | .error e => (none, { st with errno := e.getD st.errno })
  | .lseek fd _, st => ((s.position, fd), st)
  | .newChars n, st => (s.heap n, st)
  | .write _ _ _, st =>
      (s.count, ⟨s.writeErrno.getD st.errno, st.accepted + s.count.toNat⟩)
  | .close _, st => ((), { st with errno := s.closeErrno.getD st.errno })
  | .errno, st => (st.errno, st)
  | .openExcl _, st | .openTrunc _, st | .lstat _, st => (none, st)
  | .access _, st | .mkdir _, st | .unlink _, st => (false, st)
  | .rand, st | .getpid, st => ((0 : ℕ), st)
  | .localtime, st => (([] : Bytes), st)
  | .getLastId _, st => ((0 : ℤ), st)
  | .setLastId _, st | .incLastId, st | .completed _ _ _, st => ((), st)

/-- `errno` when the failure branch reads it: `write` and `close` come before. -/
def errnoRead (s : WriteScript) : ℕ :=
  s.closeErrno.getD (s.writeErrno.getD s.errno)

/-- The counts that `write` may return for a record of this content. It is not asked
for one whose size has become negative. -/
def Possible (s : WriteScript) (buf : Bytes) : Prop :=
  0 ≤ recordTotal buf.length → -1 ≤ s.count ∧ s.count ≤ recordTotal buf.length

/-- Every failure leaves an `errno` to be seen, and the size of the record does
not wrap around to one that the content does not fit in. -/
def FailureShown (s : WriteScript) (buf : Bytes) : Prop :=
  match s.opened with
  | .error e => e.getD s.errno ≠ 0
  | .ok _ =>
      int32 s.position ≠ -1 → 0 ≤ recordTotal buf.length →
        kFileHeaderSize + buf.length ≤ recordTotal buf.length ∧
          (s.count ≠ recordTotal buf.length → s.errnoRead ≠ 0)

end WriteScript

/-- The size of a record: the header and the content, rounded up to a multiple
of 1024. -/
def fullSize (buf : Bytes) : ℕ :=
  (kFileHeaderSize + buf.length + 1023) / 1024 * 1024

/-- Zero is returned only for a record that was accepted whole, and where `new` throws
nothing was written. Nothing can be said once the buffer has been overrun. -/
def ReportsComplete (buf : Bytes) : WriteResult → WriteState → Prop
  | .returned ret _, st => ret = 0 → st.accepted = fullSize buf
  | .threw, st => st.accepted = 0
  | .overran, _ => False

/-- `Write` with this URL, content and user data reports a complete write only. -/
def WriteReports (s : WriteScript) (w : Writer) (url buf : Bytes) (user_data : Option Bytes) :
    Prop :=
  let r := (w.writeUrl url buf user_data).run s.handler ⟨s.errno, 0⟩
  ReportsComplete buf r.1 r.2

/-- `BatchWrite` reports a complete write only, and only after one it moves its
offset or hands out a URL. -/
def BatchWriteReports (s : WriteScript) (w : Writer) (buf : Bytes) (user_data : Option Bytes) :
    Prop :=
  let r := (w.batchWrite buf user_data).run s.handler ⟨s.errno, 0⟩
  ReportsComplete buf r.1.2.1 r.2 ∧
    (r.1.1.info_.offset ≠ w.info_.offset ∨ r.1.2.2.isSome → r.2.accepted = fullSize buf)

/-- Rounding up to 1024 where nothing wraps. -/
theorem align1K_eq {v : ℕ} (h : v < 2 ^ 63) : align1K v = (v + 1023) / 1024 * 1024 := by
  unfold align1K
  by_cases hrest : v % 1024 = 0
  · simp only [hrest, ne_eq, not_true_eq_false, if_false]
    omega
  · have hup : (v : ℤ) + 1024 - (v % 1024 : ℕ) = (v + 1024 - v % 1024 : ℕ) := by omega
    simp only [hrest, ne_eq, not_false_eq_true, if_true]
    rw [hup, uint64_natCast (by omega)]
    omega

/-- The size of a record is rounded up to 1024. -/
theorem recordSize_eq {n : ℕ} (h : kFileHeaderSize + n < 2 ^ 63) :
    recordSize n = (kFileHeaderSize + n + 1023) / 1024 * 1024 := by
  unfold recordSize
  rw [← Nat.cast_add, uint64_natCast (by omega), align1K_eq h]

/-- A size that the content fits in has not wrapped. -/
theorem recordTotal_eq {n : ℕ} (h : (kFileHeaderSize + n : ℤ) ≤ recordTotal n) :
    recordTotal n = ((kFileHeaderSize + n + 1023) / 1024 * 1024 : ℕ) := by
  have hrange := (int32_range (recordSize n)).2
  have hsmall : kFileHeaderSize + n < 2 ^ 31 := by
    have hint : (kFileHeaderSize + n : ℤ) < 2 ^ 31 := lt_of_le_of_lt h hrange
    omega
  have hsize := recordSize_eq (n := n) (by omega)
  unfold recordTotal at h ⊢
  rw [hsize] at h ⊢
  have hcast : ∀ v : ℕ, v < 2 ^ 31 → (v : ℤ) ≤ int32 ((v + 1023) / 1024 * 1024 : ℕ) →
      int32 ((v + 1023) / 1024 * 1024 : ℕ) = ((v + 1023) / 1024 * 1024 : ℕ) := by
    intro v hv hle
    -- only the size 2 ^ 31 itself wraps, to a negative number
    by_cases htop : (v + 1023) / 1024 * 1024 < 2 ^ 31
    · exact int32_natCast htop
    · have hwrap : (v + 1023) / 1024 * 1024 = 2 ^ 31 := by omega
      rw [hwrap] at hle
      have hneg : int32 ((2 ^ 31 : ℕ) : ℤ) = -2 ^ 31 := by decide
      omega
  exact hcast (kFileHeaderSize + n) hsmall (by simpa using h)

/-- A record below two gigabytes has the size that it is computed to have. -/
theorem recordTotal_of_fullSize {buf : Bytes} (h : fullSize buf < 2 ^ 31) :
    recordSize buf.length = fullSize buf ∧ recordTotal buf.length = fullSize buf ∧
      kFileHeaderSize + buf.length ≤ fullSize buf ∧ fullSize buf % 1024 = 0 := by
  have hround : fullSize buf = (kFileHeaderSize + buf.length + 1023) / 1024 * 1024 := rfl
  have hfits : kFileHeaderSize + buf.length ≤ fullSize buf := by omega
  have hsize : recordSize buf.length = fullSize buf := recordSize_eq (by omega)
  refine ⟨hsize, ?_, hfits, by omega⟩
  unfold recordTotal
  rw [hsize, int32_natCast h]

section Script

variable (s : WriteScript) (file url buf : Bytes) (offset : ℕ) (user_data : Option Bytes)

/-- What one `Write` does in a scripted environment, branch by branch.
SOURCE: bundle.cc:345-389 -/
theorem run_writeRecord :
    (writeRecord file offset url buf user_data).run s.handler ⟨s.errno, 0⟩ =
      match s.opened with
      | .error e => (.returned (e.getD s.errno) 0, ⟨e.getD s.errno, 0⟩)
      | .ok _ =>
          if int32 s.position = -1 then
            (.returned Posix.EIO 0, ⟨s.closeErrno.getD s.errno, 0⟩)
          else if recordTotal buf.length < 0 then (.threw, ⟨s.errno, 0⟩)
          else if recordTotal buf.length < kFileHeaderSize + buf.length then
            (.overran, ⟨s.errno, 0⟩)
          else if int32 s.count < 0 ∨ int32 s.count ≠ recordTotal buf.length then
            (.returned s.errnoRead 0, ⟨s.errnoRead, s.count.toNat⟩)
          else (.returned 0 buf.length, ⟨s.errnoRead, s.count.toNat⟩) := by
  unfold writeRecord
  cases hopen : s.opened with
  | error e => simp [WriteScript.handler, hopen]
  | ok fd =>
      simp only [Prog.op_bind, Prog.run_call, WriteScript.handler, hopen]
      by_cases hpos : int32 s.position = -1
      · simp only [hpos, if_true]
        rfl
      · simp only [hpos, if_false]
        by_cases hneg : recordTotal buf.length < 0
        · simp only [hneg, if_true]
          rfl
        · simp only [hneg, if_false]
          by_cases hover : recordTotal buf.length < kFileHeaderSize + buf.length
          · simp only [hover, if_true]
            rfl
          · simp only [hover, if_false, Prog.run_call, WriteScript.handler]
            by_cases hshort : int32 s.count < 0 ∨ int32 s.count ≠ recordTotal buf.length
            · simp only [hshort, if_true, Prog.run_call, WriteScript.handler,
                WriteScript.errnoRead]
              simp
            · simp only [hshort, if_false, WriteScript.errnoRead]
              simp

/-- The size the program asks `write` for is the size of the record. -/
theorem toNat_recordTotal
    (hfits : (kFileHeaderSize + buf.length : ℤ) ≤ recordTotal buf.length) :
    (recordTotal buf.length).toNat = fullSize buf := by
  rw [recordTotal_eq hfits, Int.toNat_natCast]
  rfl

/-- A record is not empty. -/
theorem fullSize_pos : 0 < fullSize buf := by
  unfold fullSize kFileHeaderSize
  omega

/-- The two ways the failure branch decides: the count is the size or it is not.
A possible count is in the range of `int`. -/
theorem count_ne_total {s : WriteScript} {buf : Bytes} (h : s.Possible buf)
    (hnonneg : 0 ≤ recordTotal buf.length) :
    (int32 s.count < 0 ∨ int32 s.count ≠ recordTotal buf.length) ↔
      (s.count < 0 ∨ s.count ≠ recordTotal buf.length) := by
  have hrange := (int32_range (recordSize buf.length)).2
  have hcount : int32 s.count = s.count := by
    apply int32_of_range
    · exact le_trans (by norm_num) (h hnonneg).1
    · exact lt_of_le_of_lt (h hnonneg).2 hrange
  rw [hcount]

/-- **`Write` reports honestly exactly when its failures are shown.** -/
theorem reportsComplete_iff {s : WriteScript} {buf : Bytes} (h : s.Possible buf)
    (file url : Bytes) (offset : ℕ) (user_data : Option Bytes) :
    ReportsComplete buf
        ((writeRecord file offset url buf user_data).run s.handler ⟨s.errno, 0⟩).1
        ((writeRecord file offset url buf user_data).run s.handler ⟨s.errno, 0⟩).2 ↔
      s.FailureShown buf := by
  have hfull := fullSize_pos buf
  rw [run_writeRecord]
  unfold WriteScript.FailureShown
  cases hopen : s.opened with
  | error e =>
      simp only [ReportsComplete, Nat.cast_eq_zero]
      constructor
      · intro hreport hzero
        have hnone := hreport hzero
        omega
      · intro hshown hzero
        exact absurd hzero hshown
  | ok fd =>
      simp only
      by_cases hpos : int32 s.position = -1
      · rw [if_pos hpos]
        constructor
        · intro _ hne
          exact absurd hpos hne
        · intro _ hzero
          exact absurd hzero (by decide)
      · rw [if_neg hpos]
        by_cases hneg : recordTotal buf.length < 0
        · rw [if_pos hneg]
          constructor
          · intro _ _ hnonneg
            omega
          · intro _
            rfl
        · rw [if_neg hneg]
          by_cases hover : recordTotal buf.length < kFileHeaderSize + buf.length
          · rw [if_pos hover]
            constructor
            · intro hfalse
              exact hfalse.elim
            · intro hshown
              have hfits := (hshown hpos (by omega)).1
              omega
          · rw [if_neg hover]
            have hsize := toNat_recordTotal buf (by omega)
            by_cases hshort : int32 s.count < 0 ∨ int32 s.count ≠ recordTotal buf.length
            · rw [if_pos hshort]
              rw [count_ne_total h (by omega)] at hshort
              have hcount := (h (by omega)).2
              constructor
              · intro hreport _ _
                refine ⟨by omega, fun _ hzero => ?_⟩
                have hall := hreport (by exact_mod_cast hzero)
                simp only at hall
                omega
              · intro hshown hzero
                have hread := (hshown hpos (by omega)).2 (by omega)
                exact absurd (by exact_mod_cast hzero) hread
            · rw [if_neg hshort]
              rw [count_ne_total h (by omega)] at hshort
              constructor
              · intro _ _ _
                refine ⟨by omega, fun hne => ?_⟩
                omega
              · intro _ _
                simp only
                omega

end Script

/-- The history is told of a `Write` without a trace in the environment. -/
theorem run_writeUrl (s : WriteScript) (w : Writer) (url buf : Bytes)
    (user_data : Option Bytes) :
    (w.writeUrl url buf user_data).run s.handler ⟨s.errno, 0⟩ =
      (writeRecord w.filename_ w.info_.offset url buf user_data).run s.handler ⟨s.errno, 0⟩ := by
  unfold Writer.writeUrl
  simp only [Prog.run_bind]
  generalize (writeRecord w.filename_ w.info_.offset url buf user_data).run s.handler
    ⟨s.errno, 0⟩ = r
  obtain ⟨result, st⟩ := r
  unfold Writer.note
  split
  · rfl
  · rfl

/-- `BatchWrite` is a `Write` and what it does with the result.
SOURCE: bundle.cc:392-405 -/
theorem batchWriteReports_iff (s : WriteScript) (w : Writer) (buf : Bytes)
    (user_data : Option Bytes) :
    BatchWriteReports s w buf user_data ↔
      WriteReports s w
        ({ w with info_ := { w.info_ with size := buf.length } } : Writer).ensureUrl buf
        user_data := by
  unfold BatchWriteReports WriteReports Writer.batchWrite
  simp only [Prog.run_bind]
  -- the `Write` inside, and the two ways its result is handled
  have hsame : ∀ url, ({ w with info_ := { w.info_ with size := buf.length } } : Writer).writeUrl
      url buf user_data = w.writeUrl url buf user_data := fun _ => rfl
  simp only [hsame]
  generalize (w.writeUrl _ buf user_data).run s.handler ⟨s.errno, 0⟩ = r
  obtain ⟨result, st⟩ := r
  cases result with
  | threw => simp [ReportsComplete]
  | overran => simp [ReportsComplete]
  | returned ret written =>
      by_cases hret : ret = 0
      · subst hret
        simp only [ReportsComplete, Prog.pure_eq_ret, Prog.run_ret, forall_true_left,
          Option.isSome_some, or_true, and_self]
      · simp [ReportsComplete, hret]

/-- **`Write` and `BatchWrite` acknowledge complete records only, exactly when
every failure leaves an `errno` to be seen.**
SOURCE: bundle.cc:322-405, bundle.h:110-139 -/
theorem writes_report_iff {s : WriteScript} {buf : Bytes} (h : s.Possible buf) (w : Writer)
    (url : Bytes) (user_data : Option Bytes) :
    (WriteReports s w url buf user_data ↔ s.FailureShown buf) ∧
      (BatchWriteReports s w buf user_data ↔ s.FailureShown buf) := by
  have hwrite : ∀ url, WriteReports s w url buf user_data ↔ s.FailureShown buf := by
    intro url
    unfold WriteReports
    rw [run_writeUrl]
    exact reportsComplete_iff h w.filename_ url w.info_.offset user_data
  constructor
  · exact hwrite url
  · rw [batchWriteReports_iff]
    exact hwrite _

/-- A disk that takes nothing, on which calls so far have left this `errno`. -/
def fullDisk (errno : ℕ) : WriteScript where
  errno
  opened := .ok ⟨[], 0⟩
  position := 1024
  heap := fun n => List.replicate n 0
  count := 0
  writeErrno := none
  closeErrno := none

/-- A writer on a new bundle. -/
def freshWriter : Writer where
  filename_ := Text.ascii "p/00000000/00000000"
  filelock_ := none
  builder_ := some buildWithEncode
  info_ := { id := 0, offset := 1024 }

/-- A full disk may answer as it does. -/
theorem fullDisk_possible (errno : ℕ) : (fullDisk errno).Possible (Text.ascii "content") := by
  intro _
  show -1 ≤ (0 : ℤ) ∧ (0 : ℤ) ≤ recordTotal (Text.ascii "content").length
  decide

/-- After a call that failed, the full disk is reported. -/
theorem writes_report_full_disk :
    WriteReports (fullDisk Posix.EIO) freshWriter [] (Text.ascii "content") none ∧
      BatchWriteReports (fullDisk Posix.EIO) freshWriter (Text.ascii "content") none := by
  have hshown : (fullDisk Posix.EIO).FailureShown (Text.ascii "content") := by
    intro _ _
    exact ⟨by decide, fun _ => by decide⟩
  have hiff := writes_report_iff (fullDisk_possible Posix.EIO) freshWriter [] none
  exact ⟨hiff.1.mpr hshown, hiff.2.mpr hshown⟩

/-- On the full disk nothing of the record is accepted and zero is returned. -/
theorem not_writes_report :
    ¬ ∀ (s : WriteScript) (buf : Bytes), s.Possible buf → ∀ (w : Writer) (url : Bytes)
      (user_data : Option Bytes),
      WriteReports s w url buf user_data ∧ BatchWriteReports s w buf user_data := by
  intro hall
  have hreport :=
    (hall (fullDisk 0) (Text.ascii "content") (fullDisk_possible 0) freshWriter [] none).1
  simp only [WriteReports, run_writeUrl, run_writeRecord] at hreport
  have hzero := hreport (by decide)
  exact absurd hzero (by decide)

end BundleStore
