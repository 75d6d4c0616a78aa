import BundleStore.Analysis.RecordFormat
import BundleStore.Analysis.StoreAllocate

set_option autoImplicit false

/-!
# `Write` on a kept storage

A `Write` changes one file, by one `write` at the writer's offset. How much of
the record that call may accept is a parameter (`Recording`). A `Write` that does
not come to its `write` counts as one whose `write` accepted nothing.
-/

namespace BundleStore

open Machine Posix

/-- The bytes of a record of what `Write` was called with. -/
def IsRecord (call : WriteCall) (record : Bytes) : Prop :=
  ∃ heap, heap.length = fullSize call.buf ∧
    record = recordBytes heap call.url call.buf call.user_data

/-- A record has room for its header and its contents. -/
theorem fits_fullSize (buf : Bytes) : kFileHeaderSize + buf.length ≤ fullSize buf := by
  unfold fullSize
  omega

/-- A record has its full size. -/
theorem IsRecord.length {call : WriteCall} {record : Bytes} (h : IsRecord call record) :
    record.length = fullSize call.buf := by
  obtain ⟨heap, hheap, rfl⟩ := h
  have hfits := fits_fullSize call.buf
  rw [length_recordBytes, hheap]
  rw [hheap]
  exact hfits

/-- Every call has a record. -/
theorem exists_isRecord (call : WriteCall) : ∃ record, IsRecord call record :=
  ⟨_, List.replicate (fullSize call.buf) 0, List.length_replicate, rfl⟩

/-- A `write` of a record accepted its first `count` bytes; `errno` was then what
is given. -/
structure Accepted where
  record : Bytes
  count : ℕ
  errno : ℕ

namespace Accepted

/-- The file afterwards. -/
def content (a : Accepted) (c : Bytes) (offset : ℕ) : Bytes :=
  ByteSeq.overwrite 0 c offset (a.record.take a.count)

/-- The history after the `write`: a record that was accepted whole is in it. -/
def accept (a : Accepted) (call : WriteCall) (log : History) (offset : ℕ) : History :=
  if a.count = a.record.length then log.accept ⟨offset, call, a.record⟩ else log

/-- The history after the `Write` has returned. -/
def log (a : Accepted) (call : WriteCall) (log : History) (offset : ℕ) (result : WriteResult) :
    History :=
  if result.Succeeds then (a.accept call log offset).complete offset call
  else a.accept call log offset

/-- What is accepted does not depend on the result. -/
@[simp] theorem log_accepted (a : Accepted) (call : WriteCall) (log : History) (offset : ℕ)
    (result : WriteResult) :
    (a.log call log offset result).accepted = (a.accept call log offset).accepted := by
  unfold Accepted.log
  split
  · rfl
  · rfl

/-- An accepted record completes no call. -/
@[simp] theorem accept_completed (a : Accepted) (call : WriteCall) (log : History)
    (offset : ℕ) : (a.accept call log offset).completed = log.completed := by
  unfold Accepted.accept
  split
  · rfl
  · rfl

/-- A call is completed if it has succeeded. -/
theorem log_completed (a : Accepted) (call : WriteCall) (log : History) (offset : ℕ)
    (result : WriteResult) :
    (a.log call log offset result).completed =
      if result.Succeeds then log.completed ++ [(offset, call)] else log.completed := by
  unfold Accepted.log
  split
  · rw [History.complete_completed, accept_completed]
  · exact accept_completed a call log offset

/-- A write of nothing leaves the file. -/
theorem content_of_count_eq_zero {a : Accepted} (h : a.count = 0) (c : Bytes) (offset : ℕ) :
    a.content c offset = c := by
  unfold content
  rw [h, List.take_zero, ByteSeq.overwrite_nil]

/-- The length of a file after a write. -/
theorem length_content {a : Accepted} (hle : a.count ≤ a.record.length) (hne : a.count ≠ 0)
    (c : Bytes) (offset : ℕ) : (a.content c offset).length = max c.length (offset + a.count) := by
  have hlength : (a.record.take a.count).length = a.count := by
    rw [List.length_take]
    omega
  have hsome : a.record.take a.count ≠ [] := by
    intro hnil
    rw [hnil] at hlength
    exact hne hlength.symm
  unfold content
  rw [ByteSeq.length_overwrite _ _ _ hsome, hlength]

/-- A record that was not taken whole is not accepted. -/
theorem accept_of_ne {a : Accepted} (h : a.count ≠ a.record.length) (call : WriteCall)
    (log : History) (offset : ℕ) : a.accept call log offset = log :=
  if_neg h

/-- What a `Write` returns: a whole record is reported, and zero is never
returned but for that or for a short count that found `errno` at zero. Sizes and
positions are in range then. -/
structure Shown (a : Accepted) (buf : Bytes) (offset : ℕ) (result : WriteResult) : Prop where
  zero : result.Succeeds →
    (a.count = a.record.length ∨ a.errno = 0) ∧ offset < 2 ^ 63 ∧ fullSize buf < 2 ^ 31
  complete : a.count = a.record.length → result = .returned 0 buf.length

/-- A call that has seen its record taken whole has succeeded.
SOURCE: bundle.cc:377-390 -/
theorem Shown.succeeds {a : Accepted} {buf : Bytes} {offset : ℕ} {result : WriteResult}
    (h : a.Shown buf offset result) (hall : a.count = a.record.length) : result.Succeeds := by
  rw [h.complete hall]
  exact rfl

end Accepted

/-- What may be written with a writer, by its use so far, its offset and its size, and what a
record `write` to a file with a content, at a position, may accept. -/
structure Recording where
  Writes : Use → ℕ → ℕ → Bytes → Prop
  Accepts : Bytes → ℕ → Accepted → Prop

namespace Upkeep

variable {L : Layout} (U : Upkeep L) (R : Recording)

/-- A record write to a bundle that was as it should be. -/
structure Stored (use : Use) (offset size : ℕ) (c : Bytes) (log : History) (call : WriteCall)
    (a : Accepted) : Prop where
  writes : R.Writes use offset size call.buf
  fits : U.Fits use offset size c log
  good : U.Good (some c) log
  record : IsRecord call a.record
  count_le : a.count ≤ a.record.length
  accepts : R.Accepts c offset a

/-- What is kept of a bundle is kept by its record writes, and a writer goes on
together with its file. -/
structure Recorded : Prop where
  nothing : ∀ c offset record errno, errno ≠ 0 → R.Accepts c offset ⟨record, 0, errno⟩
  writes_sized : ∀ {use : Use} {offset size buf}, R.Writes use offset size buf →
    R.Writes (use.batched offset size) offset buf.length buf
  fits_sized : ∀ {use : Use} {offset size c log buf}, R.Writes use offset size buf →
    U.Fits use offset size c log → U.Fits (use.batched offset size) offset buf.length c log
  seen : ∀ {use offset size c log call a}, U.Stored R use offset size c log call a →
    U.Seen (some (a.content c offset)) (a.accept call log offset)
  good : ∀ {use offset size c log call a result}, U.Stored R use offset size c log call a →
    a.Shown call.buf offset result →
      U.Good (some (a.content c offset)) (a.log call log offset result)
  written : ∀ {use : Use} {offset size c log call a result},
    U.Stored R use offset size c log call a → a.Shown call.buf offset result →
      U.Fits use.wrote offset size (a.content c offset) (a.log call log offset result)
  failed : ∀ {use : Use} {first announced offset size c log call a result},
    U.Stored R (use.batched first announced) offset size c log call a →
      a.Shown call.buf offset result → ¬ result.Succeeds →
        U.Fits (use.batched first announced) offset size (a.content c offset)
          (a.log call log offset result)
  batched : ∀ {use : Use} {first announced offset size c log call a result},
    U.Stored R (use.batched first announced) offset size c log call a →
      a.Shown call.buf offset result → result.Succeeds →
        U.Fits (use.batched first announced) (offset + a.record.length) size
          (a.content c offset) (a.log call log offset result)

variable {ι : Type} [DecidableEq ι]

/-- The calls of callers that write records, too. -/
structure KeptWrites (sem : ι → (o : SysCall) → World ι ι → o.Answer → World ι ι → Prop) : Prop
    extends U.KeptCalls sem where
  record : ∀ {i fd call data w count w' c} {k : ℕ},
    sem i (.write fd (.record call) data) w count w' → w.tree.content fd.loc = some c →
      count = k → R.Accepts c fd.pos ⟨data, k, w.errno i⟩

variable {U R} {sem : ι → (o : SysCall) → World ι ι → o.Answer → World ι ι → Prop}
variable {i : ι} {n : ℤ} {live : List LiveWriter} {filelock : FileLock} {l : Loc}
variable {P : World ι ι → Prop} {φ : Prop}

/-! ## `errno` -/

omit [DecidableEq ι] in
/-- What is held is stable beside `errno`. -/
theorem Held.stable_errno (h : U.Held i P) :
    U.discipline.Stable i fun w => P w ∧ (φ → w.errno i ≠ 0) := by
  intro w w' hinv hinv' hframe hp
  refine ⟨h.stable w w' hinv hinv' hframe hp.1, ?_⟩
  rw [hframe.errno]
  exact hp.2

/-- A call that is refused leaves an error. -/
theorem errno_ne_zero_of_refused {w w' : World ι ι} {α : Type} {r : Except ℕ α}
    (h : w.Refused i r w') (hr : ∀ e, r = .error e → e ≠ 0) : w'.errno i ≠ 0 := by
  obtain ⟨e, he, rfl⟩ := h
  change Function.update w.errno i e i ≠ 0
  rw [Function.update_self]
  rcases he with he | he
  · exact hr e he
  · exact he.1

/-- A call that fails leaves an error. -/
theorem errno_ne_zero_of_failed {w w' : World ι ι} (h : w.Failed i w') : w'.errno i ≠ 0 := by
  obtain ⟨e, he, rfl⟩ := h
  change Function.update w.errno i e i ≠ 0
  rw [Function.update_self]
  exact he

/-- `close` does not hide that there was an error. -/
theorem close_kept (hsem : U.KeptCalls sem) (hP : U.Held i P) {fd : Fd} {α : Type}
    {k : Unit → Sys α} {Q : α → World ι ι → Prop}
    (hk : U.discipline.Triple sem i (fun w => P w ∧ (φ → w.errno i ≠ 0)) (k ()) Q) :
    U.discipline.Triple sem i (fun w => P w ∧ (φ → w.errno i ≠ 0)) (.call (.close fd) k) Q := by
  apply Discipline.Triple.call (R := fun _ w => P w ∧ (φ → w.errno i ≠ 0)) hP.stable_errno
  · intro w _ w' hinv h hcall
    have hquiet := hsem.quiet (o := .close fd) trivial hcall
    refine ⟨hquiet.allowed hinv, hP w w' (hquiet.keeps _) h.1, fun hφ => ?_⟩
    rcases hsem.calls hcall with rfl | hfailed
    · exact h.2 hφ
    · exact errno_ne_zero_of_failed hfailed
  · intro _
    exact hk

/-- `errno` is read. -/
theorem errno_kept (hsem : U.KeptCalls sem) (hP : U.Held i P) {α : Type} {k : ℕ → Sys α}
    {Q : α → World ι ι → Prop}
    (hk : ∀ e, (φ → e ≠ 0) → U.discipline.Triple sem i P (k e) Q) :
    U.discipline.Triple sem i (fun w => P w ∧ (φ → w.errno i ≠ 0)) (.call .errno k) Q := by
  apply Discipline.Triple.call (R := fun e w => (φ → e ≠ 0) ∧ P w) hP.stable_errno
  · intro w e w' hinv h hcall
    have hquiet := hsem.quiet (o := .errno) trivial hcall
    obtain ⟨rfl, rfl⟩ := hsem.calls hcall
    exact ⟨hquiet.allowed hinv, h.2, h.1⟩
  · intro e
    exact Discipline.Triple.intro (hk e)

/-! ## The record -/

/-- A bundle of a lock that the process holds, with what is in it, among other bundles of
the lock that are as they should be. -/
structure AtLog (U : Upkeep L) (i : ι) (live : List LiveWriter) (n : ℤ) (filelock : FileLock)
    (l : Loc) (c : Bytes) (log : History) (w : World ι ι) : Prop where
  liveOk : U.LiveOk i live w
  lockfile : filelock.lockfile_ = lockFile L.lock_dir n
  fresh : ∀ lw ∈ live, lw.writer.info_.id ≠ n
  isId : IsId n
  holds : w.holds i (L.lockLoc n) = true
  others : ∀ m, m ≠ l → U.Bundle n m → U.Good (w.tree.content m) (w.log m)
  content : w.tree.content l = some c
  log : w.log l = log

omit [DecidableEq ι] in
/-- A process that has the lock of a bundle stands at its log. -/
theorem Tried.atLog {w : World ι ι} (h : Tried U i live n filelock w)
    (hlocked : filelock.locked_ = true) {c : Bytes} (hc : w.tree.content l = some c) :
    AtLog U i live n filelock l c (w.log l) w :=
  ⟨h.liveOk, h.lockfile, h.fresh hlocked, (h.own hlocked).isId, (h.own hlocked).holds,
    fun m _ => (h.own hlocked).good m, hc, rfl⟩

omit [DecidableEq ι] in
/-- Where this bundle is as it should be, too, all bundles of the lock are. -/
theorem AtLog.tried {w : World ι ι} {c : Bytes} {log : History}
    (h : AtLog U i live n filelock l c log w) (hgood : U.Good (some c) log) :
    Tried U i live n filelock w := by
  refine ⟨h.liveOk, h.lockfile, fun _ => h.fresh, fun _ => ⟨h.isId, h.holds, ?_⟩⟩
  intro m hm
  by_cases hne : m = l
  · rw [hne, h.content, h.log]
    exact hgood
  · exact h.others m hne hm

omit [DecidableEq ι] in
/-- What is known of a bundle under a lock of the process is held. -/
theorem held_atLog (hl : U.Bundle n l) (filelock : FileLock) (c : Bytes) (log : History) :
    U.Held i (AtLog U i live n filelock l c log) := by
  intro w w' hk h
  obtain ⟨hcontent, hlog⟩ := hk.bundle n l trivial h.holds hl
  refine ⟨held_liveOk i live w w' hk h.liveOk, h.lockfile, h.fresh, h.isId,
    hk.holds n trivial h.holds, ?_, hcontent.trans h.content, hlog.trans h.log⟩
  intro m hne hm
  obtain ⟨hcontent, hlog⟩ := hk.bundle n m trivial h.holds hm
  rw [hcontent, hlog]
  exact h.others m hne hm

omit [DecidableEq ι] in
/-- The bundle has changed, and nothing else. -/
theorem AtLog.changed {w w' : World ι ι} {c c' : Bytes} {log log' : History}
    (h : AtLog U i live n filelock l c log w) (hl : U.Bundle n l) (hchange : FileChange i l w w')
    (hcontent : w'.tree.content l = some c') (hlog : w'.log l = log') :
    AtLog U i live n filelock l c' log' w' := by
  refine ⟨h.liveOk.keeps (hchange.keeps hl) h.fresh, h.lockfile, h.fresh, h.isId, ?_, ?_,
    hcontent, hlog⟩
  · rw [hchange.holds]
    exact h.holds
  · intro m hne hm
    rw [hchange.content m hne, hchange.log m hne]
    exact h.others m hne hm

/-- What the `write` of a `Write` leaves, and what the `Write` will return. -/
def Wrote (U : Upkeep L) (R : Recording) (i : ι) (live : List LiveWriter) (n : ℤ)
    (filelock : FileLock) (l : Loc) (use : Use) (offset size : ℕ) (c : Bytes)
    (log : History) (call : WriteCall) (result : WriteResult) (w : World ι ι) : Prop :=
  ∃ a, U.Stored R use offset size c log call a ∧ a.Shown call.buf offset result ∧
    AtLog U i live n filelock l (a.content c offset) (a.accept call log offset) w

variable {use : Use} {offset size : ℕ} {c : Bytes} {log : History} {call : WriteCall}

/-- The `write` of a record. A failed one counts as one that accepted nothing
when `errno` was set. -/
theorem record_written (hsem : U.KeptWrites R sem) (hR : U.Recorded R) (hl : U.Bundle n l)
    (hwrites : R.Writes use offset size call.buf) (hfits : U.Fits use offset size c log)
    (hgood : U.Good (some c) log) {record : Bytes} (hrecord : IsRecord call record)
    {w w' : World ι ι} {count : ℤ}
    (hinv : U.Inv w) (h : AtLog U i live n filelock l c log w)
    (hcall : sem i (.write ⟨l, offset⟩ (.record call) record) w count w') :
    U.discipline.Allowed i w w' ∧ ∃ a : Accepted, a.record = record ∧
      (count = a.count ∨ count = -1 ∧ a.count = 0) ∧ U.Stored R use offset size c log call a ∧
      AtLog U i live n filelock l (a.content c offset) (a.accept call log offset) w' ∧
      (a.errno ≠ 0 → w'.errno i ≠ 0) := by
  rcases hsem.calls hcall with ⟨k, hk, hle, -, rfl⟩ | ⟨hneg, hfailed⟩
  · have hstored : U.Stored R use offset size c log call ⟨record, k, w.errno i⟩ :=
      ⟨hwrites, hfits, hgood, hrecord, hle, hsem.record hcall h.content hk⟩
    have hchange := fileChange_wrote i w ⟨l, offset⟩ (.record call) record k
    have hopened : w.tree.content (Fd.mk l offset).loc = some c := h.content
    have hcontent : (w.wrote ⟨l, offset⟩ (.record call) record k).tree.content l =
        some ((Accepted.mk record k (w.errno i)).content c offset) :=
      Tree.content_write_self hopened _
    have hlog : (w.wrote ⟨l, offset⟩ (.record call) record k).log l =
        (Accepted.mk record k (w.errno i)).accept call log offset := by
      unfold World.wrote Accepted.accept
      by_cases hall : k = record.length
      · simp only [hall, if_true, Function.update_self, h.log]
      · simp only [hall, if_false, h.log]
    have hseen := hR.seen hstored
    rw [← hcontent, ← hlog] at hseen
    exact ⟨hchange.allowed hinv h.holds hl hseen, _, rfl, .inl hk, hstored,
      h.changed hl hchange hcontent hlog, fun he => he⟩
  · have herrno := errno_ne_zero_of_failed hfailed
    obtain ⟨e, -, rfl⟩ := hfailed
    have hquiet := QuietStep.failed i w e
    have hkept := held_atLog hl filelock c log w _ (hquiet.keeps (U := U) _) h
    have hstored : U.Stored R use offset size c log call ⟨record, 0, 1⟩ :=
      ⟨hwrites, hfits, hgood, hrecord, Nat.zero_le _, hR.nothing c offset record 1 one_ne_zero⟩
    have hne : (0 : ℕ) ≠ record.length := by
      rw [hrecord.length]
      exact (fullSize_pos call.buf).ne
    refine ⟨hquiet.allowed hinv, _, rfl, .inr ⟨hneg, rfl⟩, hstored, ?_, fun _ => herrno⟩
    rw [Accepted.content_of_count_eq_zero rfl, Accepted.accept_of_ne hne]
    exact hkept

omit [DecidableEq ι] in
/-- A `Write` that does not come to its `write`. -/
theorem wrote_nothing (hR : U.Recorded R) (hwrites : R.Writes use offset size call.buf)
    (hfits : U.Fits use offset size c log) (hgood : U.Good (some c) log) {result : WriteResult}
    (hresult : ¬ result.Succeeds) {w : World ι ι} (h : AtLog U i live n filelock l c log w) :
    Wrote U R i live n filelock l use offset size c log call result w := by
  obtain ⟨record, hrecord⟩ := exists_isRecord call
  have hne : (0 : ℕ) ≠ record.length := by
    rw [hrecord.length]
    exact (fullSize_pos call.buf).ne
  refine ⟨⟨record, 0, 1⟩, ⟨hwrites, hfits, hgood, hrecord, Nat.zero_le _,
    hR.nothing c offset record 1 one_ne_zero⟩, ⟨?_, fun hall => absurd hall hne⟩, ?_⟩
  · intro hsucceeds
    exact absurd hsucceeds hresult
  · rw [Accepted.content_of_count_eq_zero rfl, Accepted.accept_of_ne hne]
    exact h

/-- `Write` gives up, and returns `errno`. -/
theorem report_kept (hsem : U.KeptCalls sem) (hP : U.Held i P)
    {Q : WriteResult → World ι ι → Prop}
    (hQ : ∀ (e : ℕ) w, (φ → e ≠ 0) → P w → Q (.returned e 0) w) :
    U.discipline.Triple sem i (fun w => P w ∧ (φ → w.errno i ≠ 0))
      (.call .errno fun e => pure (.returned e 0)) Q := by
  apply errno_kept hsem hP
  intro e he
  exact Discipline.Triple.ret fun w _ h => hQ e w he h

/-- `Write` has succeeded if it returns 0. -/
theorem succeeds_returned {e : ℕ} : WriteResult.Succeeds (.returned (e : ℤ) 0) ↔ e = 0 :=
  Nat.cast_eq_zero

/-- The last part of `Write`, from the `write` on. -/
theorem finish_kept (hsem : U.KeptWrites R sem) (hR : U.Recorded R) (hl : U.Bundle n l)
    (hwrites : R.Writes use offset size call.buf) (hfits : U.Fits use offset size c log)
    (hgood : U.Good (some c) log)
    (hoffset : offset < 2 ^ 63) {record : Bytes} (hrecord : IsRecord call record)
    (htotal : recordTotal call.buf.length = fullSize call.buf)
    (hsize : fullSize call.buf < 2 ^ 31) :
    U.discipline.Triple sem i (AtLog U i live n filelock l c log)
      (.call (.write ⟨l, offset⟩ (.record call) record) fun count =>
        .call (.close ⟨l, offset⟩) fun _ =>
          if int32 count < 0 ∨ int32 count ≠ recordTotal call.buf.length then
            .call .errno fun e => pure (.returned e 0)
          else pure (.returned 0 call.buf.length))
      (Wrote U R i live n filelock l use offset size c log call) := by
  have hlen := hrecord.length
  apply Discipline.Triple.call (R := fun (count : ℤ) w => ∃ a : Accepted, (a.record = record ∧
      (count = a.count ∨ count = -1 ∧ a.count = 0) ∧ U.Stored R use offset size c log call a) ∧
      AtLog U i live n filelock l (a.content c offset) (a.accept call log offset) w ∧
      (a.errno ≠ 0 → w.errno i ≠ 0)) (held_atLog hl filelock c log).stable
  · intro w count w' hinv h hcall
    obtain ⟨hallowed, a, hrec, hcount, hstored, hat, herrno⟩ :=
      record_written hsem hR hl hwrites hfits hgood hrecord hinv h hcall
    exact ⟨hallowed, a, ⟨hrec, hcount, hstored⟩, hat, herrno⟩
  · intro count
    apply Discipline.Triple.exists_pre
    intro a
    apply Discipline.Triple.intro
    rintro ⟨hrec, hcount, hstored⟩
    have hle := hstored.count_le
    rw [hrec, hlen] at hle
    have hheld : U.Held i (AtLog U i live n filelock l (a.content c offset)
        (a.accept call log offset)) :=
      held_atLog hl filelock _ _
    apply close_kept hsem.toKeptCalls hheld
    rw [htotal]
    apply Discipline.Triple.ite
    · intro hshort
      apply report_kept hsem.toKeptCalls hheld
      intro e w he hat
      refine ⟨a, hstored, ⟨?_, ?_⟩, hat⟩
      · intro hsucceeds
        refine ⟨.inr ?_, hoffset, hsize⟩
        by_contra hne
        exact he hne (succeeds_returned.mp hsucceeds)
      · -- the whole record was accepted, so the count is the size
        intro hall
        rw [hrec, hlen] at hall
        rcases hcount with rfl | ⟨-, hnone⟩
        · rw [hall, int32_natCast hsize] at hshort
          omega
        · have hpos := fullSize_pos call.buf
          omega
    · intro hwhole
      apply Discipline.Triple.ret
      intro w _ hat
      have hall : a.count = a.record.length := by
        rw [hrec, hlen]
        rcases hcount with rfl | ⟨rfl, -⟩
        · rw [int32_natCast (by omega)] at hwhole
          omega
        · exact absurd (.inl (by decide)) hwhole
      exact ⟨a, hstored, ⟨fun _ => ⟨.inl hall, hoffset, hsize⟩, fun _ => rfl⟩, hat.1⟩

/-- What comes behind `lseek`: the record is put together and written. -/
theorem record_kept (hsem : U.KeptWrites R sem) (hR : U.Recorded R) (hl : U.Bundle n l)
    (hwrites : R.Writes use offset size call.buf) (hfits : U.Fits use offset size c log)
    (hgood : U.Good (some c) log) (hoffset : offset < 2 ^ 63) {total : ℤ}
    (hgiven : recordTotal call.buf.length = total) :
    U.discipline.Triple sem i (AtLog U i live n filelock l c log)
      (if total < 0 then pure .threw
        else if total < kFileHeaderSize + call.buf.length then pure .overran
        else
          .call (.newChars total.toNat) fun heap =>
            .call (.write ⟨l, offset⟩ (.record call)
                (recordBytes heap call.url call.buf call.user_data)) fun count =>
              .call (.close ⟨l, offset⟩) fun _ =>
                if int32 count < 0 ∨ int32 count ≠ total then
                  .call .errno fun e => pure (.returned e 0)
                else pure (.returned 0 call.buf.length))
      (Wrote U R i live n filelock l use offset size c log call) := by
  apply Discipline.Triple.ite
  · intro _
    apply Discipline.Triple.ret
    intro w _ hat
    exact wrote_nothing hR hwrites hfits hgood id hat
  · intro _
    apply Discipline.Triple.ite
    · intro _
      apply Discipline.Triple.ret
      intro w _ hat
      exact wrote_nothing hR hwrites hfits hgood id hat
    · intro hroom
      subst hgiven
      have htotal : recordTotal call.buf.length = fullSize call.buf :=
        recordTotal_eq (not_lt.mp hroom)
      have hsize : fullSize call.buf < 2 ^ 31 := by
        have hrange := (int32_range (recordSize call.buf.length)).2
        change recordTotal call.buf.length < 2 ^ 31 at hrange
        omega
      have hheld : U.Held i (AtLog U i live n filelock l c log) := held_atLog hl filelock c log
      apply Discipline.Triple.call (R := fun (heap : Bytes) w =>
        heap.length = fullSize call.buf ∧ AtLog U i live n filelock l c log w) hheld.stable
      · intro w heap w' hinv h hcall
        have hquiet := hsem.toKeptCalls.quiet (o := .newChars _) trivial hcall
        refine ⟨hquiet.allowed hinv, ?_, hheld w w' (hquiet.keeps _) h⟩
        rw [(hsem.calls hcall).1, htotal, Int.toNat_natCast]
      · intro heap
        apply Discipline.Triple.intro
        intro hheap
        exact finish_kept hsem hR hl hwrites hfits hgood hoffset ⟨heap, hheap, rfl⟩ htotal hsize

/-- `Write` at the offset of a writer whose file is as it should be. -/
theorem writeRecord_kept (call : WriteCall) (hsem : U.KeptWrites R sem) (hR : U.Recorded R)
    {file : Bytes} (hfile : canon L.cwd file = l) (hl : U.Bundle n l)
    (hwrites : R.Writes use offset size call.buf) (hfits : U.Fits use offset size c log)
    (hgood : U.Good (some c) log) :
    U.discipline.Triple sem i (AtLog U i live n filelock l c log)
      (writeRecord file offset call.url call.buf call.user_data)
      (Wrote U R i live n filelock l use offset size c log call) := by
  have hheld : U.Held i (AtLog U i live n filelock l c log) := held_atLog hl filelock c log
  unfold writeRecord
  generalize hgiven : recordTotal call.buf.length = total
  apply Discipline.Triple.call (R := fun fd w =>
    match fd with
    | none => AtLog U i live n filelock l c log w ∧ (True → w.errno i ≠ 0)
    | some fd => fd = ⟨l, 0⟩ ∧ AtLog U i live n filelock l c log w) hheld.stable
  · intro w fd w' hinv h hcall
    have hquiet := hsem.toKeptCalls.quiet (o := .openRdwr file) trivial hcall
    have hat := hheld w w' (hquiet.keeps _) h
    cases fd with
    | none =>
        exact ⟨hquiet.allowed hinv, hat, fun _ =>
          errno_ne_zero_of_refused (hsem.calls hcall) fun _ he => Tree.openRdwr_error_ne_zero he⟩
    | some fd =>
        obtain ⟨hopen, rfl⟩ := hsem.calls hcall
        obtain ⟨rfl, -⟩ := Tree.openRdwr_ok hopen
        exact ⟨hquiet.allowed hinv, by rw [hfile], hat⟩
  · intro fd
    cases fd with
    | none =>
        apply report_kept hsem.toKeptCalls hheld
        intro e w he hat
        exact wrote_nothing hR hwrites hfits hgood
          (fun hsucceeds => he trivial (succeeds_returned.mp hsucceeds)) hat
    | some fd =>
        apply Discipline.Triple.intro
        rintro rfl
        apply Discipline.Triple.call (R := fun (at_ : ℤ × Fd) w =>
          (at_.1 = -1 ∨ at_ = ((offset : ℤ), ⟨l, offset⟩) ∧ offset < 2 ^ 63) ∧
            AtLog U i live n filelock l c log w) hheld.stable
        · intro w at_ w' hinv h hcall
          have hquiet := hsem.toKeptCalls.quiet (o := .lseek ⟨l, 0⟩ offset) trivial hcall
          refine ⟨hquiet.allowed hinv, ?_, hheld w w' (hquiet.keeps _) h⟩
          obtain ⟨pos, fd'⟩ := at_
          rcases hsem.calls hcall with ⟨hlt, rfl, rfl, -⟩ | ⟨hneg, -, -⟩
          · exact .inr ⟨rfl, hlt⟩
          · exact .inl hneg
        · rintro ⟨pos, fd'⟩
          apply Discipline.Triple.intro
          intro hpos
          apply Discipline.Triple.ite
          · intro _
            apply quiet_call (o := .close fd') hsem.toKeptCalls hheld trivial
            intro _
            apply Discipline.Triple.ret
            intro w _ hat
            refine wrote_nothing hR hwrites hfits hgood ?_ hat
            exact (show ( EIO : ℤ) ≠ 0 by decide)
          · intro hseek
            rcases hpos with hneg | ⟨hat, hoffset⟩
            · change pos = -1 at hneg
              rw [hneg] at hseek
              have hminus : int32 (-1) = -1 := by decide
              exact (hseek hminus).elim
            obtain ⟨rfl, rfl⟩ := Prod.mk.inj hat
            exact record_kept hsem hR hl hwrites hfits hgood hoffset hgiven

/-- Where a directory stands instead of the bundle, nothing is opened. -/
theorem writeRecord_dir (hsem : U.KeptCalls sem) {file : Bytes} (hfile : canon L.cwd file = l)
    (offset : ℕ) (call : WriteCall) :
    U.discipline.Triple sem i
      (fun w => Tried U i live n filelock w ∧ w.tree.node l = some .dir)
      (writeRecord file offset call.url call.buf call.user_data) fun result w =>
        ¬ result.Succeeds ∧ Tried U i live n filelock w ∧ w.tree.node l = some .dir := by
  have hheld : U.Held i fun w => Tried U i live n filelock w ∧ w.tree.node l = some .dir :=
    fun w w' hk h => ⟨held_tried i live n filelock w w' hk h.1, hk.grows l h.2⟩
  unfold writeRecord
  apply Discipline.Triple.call (R := fun fd w => fd = none ∧
    (Tried U i live n filelock w ∧ w.tree.node l = some .dir) ∧ (True → w.errno i ≠ 0))
    hheld.stable
  · intro w fd w' hinv h hcall
    have hquiet := hsem.quiet (o := .openRdwr file) trivial hcall
    cases fd with
    | none =>
        exact ⟨hquiet.allowed hinv, rfl, hheld w w' (hquiet.keeps _) h, fun _ =>
          errno_ne_zero_of_refused (hsem.calls hcall) fun _ he => Tree.openRdwr_error_ne_zero he⟩
    | some fd =>
        obtain ⟨hopen, -⟩ := hsem.calls hcall
        obtain ⟨-, c, hc⟩ := Tree.openRdwr_ok hopen
        rw [hfile, Tree.content_eq_some, h.2] at hc
        cases hc
  · intro fd
    apply Discipline.Triple.intro
    rintro rfl
    apply report_kept hsem hheld
    intro e w he hat
    exact ⟨fun hsucceeds => he trivial (succeeds_returned.mp hsucceeds), hat⟩

/-! ## The history -/

/-- A `Write` that has returned: its result is in the history. -/
def Returned (U : Upkeep L) (R : Recording) (i : ι) (live : List LiveWriter) (n : ℤ)
    (filelock : FileLock) (l : Loc) (use : Use) (offset size : ℕ) (c : Bytes)
    (log : History) (call : WriteCall) (result : WriteResult) (w : World ι ι) : Prop :=
  ∃ a, U.Stored R use offset size c log call a ∧ a.Shown call.buf offset result ∧
    AtLog U i live n filelock l (a.content c offset) (a.log call log offset result) w

/-- What `Write` returns is noted. -/
theorem note_kept (hsem : U.KeptCalls sem) (hR : U.Recorded R) (hl : U.Bundle n l)
    {writer : Writer} (hfile : canon L.cwd writer.filename_ = l) (result : WriteResult) :
    U.discipline.Triple sem i
      (Wrote U R i live n filelock l use writer.info_.offset size c log call result)
      (writer.note call result) fun _ =>
        Returned U R i live n filelock l use writer.info_.offset size c log call result := by
  unfold Writer.note
  apply Discipline.Triple.exists_pre
  intro a
  apply Discipline.Triple.intro
  intro hstored
  apply Discipline.Triple.intro
  intro hshown
  apply Discipline.Triple.ite
  · intro hsucceeds
    apply Discipline.Triple.op (held_atLog hl filelock _ _).stable
    intro w _ w' hinv h hcall
    obtain rfl : w' = w.completed (canon L.cwd writer.filename_) writer.info_.offset call :=
      hsem.calls hcall
    rw [hfile]
    have hchange := fileChange_completed i w l writer.info_.offset call
    have hlog : (w.completed l writer.info_.offset call).log l =
        a.log call log writer.info_.offset result := by
      unfold World.completed Accepted.log
      simp only [Function.update_self, h.log, if_pos hsucceeds]
    have hseen := U.seen_of_good _ _ (hR.good hstored hshown)
    rw [← h.content, ← hlog] at hseen
    exact ⟨hchange.allowed hinv h.holds hl hseen, a, hstored, hshown,
      h.changed hl hchange h.content hlog⟩
  · intro hfails
    apply Discipline.Triple.ret
    intro w _ h
    refine ⟨a, hstored, hshown, ?_⟩
    unfold Accepted.log
    rw [if_neg hfails]
    exact h

end Upkeep

end BundleStore
