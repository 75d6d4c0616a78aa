import BundleStore.Analysis.RecordSize

set_option autoImplicit false

/-!
# What a record holds of the heap

The buffer of a record is not cleared. Its header and its content are stored, a
`user_data` of fewer than 240 bytes leaves the rest of its field as the heap had it,
and nothing is stored behind the content.
-/

namespace BundleStore

open Machine Posix

/-! ## The bytes that are not stored -/

/-- A write at the front. -/
theorem overwrite_front (c b : Bytes) : ByteSeq.overwrite 0 c 0 b = b ++ c.drop b.length := by
  by_cases hb : b = []
  · rw [hb, ByteSeq.overwrite_nil]
    rfl
  · rw [ByteSeq.overwrite_of_ne_nil 0 c 0 hb]
    simp

/-- What is stored of the user data. -/
def storedUserData (user_data : Option Bytes) : Bytes :=
  (user_data.getD []).take kUserDataSize

/-- The header and the content cover the whole record. -/
def Covered (buf : Bytes) (user_data : Option Bytes) : Prop :=
  (kFileHeaderSize + buf.length) % 1024 = 0 ∧ (storedUserData user_data).length = kUserDataSize

variable {heap heap' url buf : Bytes} {user_data : Option Bytes}

/-- The record in its parts: those of the arguments, and two that the heap may show in. -/
theorem recordBytes_eq (heap url buf : Bytes) (user_data : Option Bytes) :
    recordBytes heap url buf user_data =
      (le32 FileHeader.kMAGIC_CODE ++ le32 FileHeader.kVERSION ++ le32 FileHeader.kFILE_NORMAL ++
        le32 (uint32 buf.length) ++ strncpy url kUrlSize ++ storedUserData user_data) ++
      ((ByteSeq.slice heap (16 + kUrlSize) kUserDataSize).drop (storedUserData user_data).length ++
        (buf ++ heap.drop (kFileHeaderSize + buf.length))) := by
  unfold recordBytes FileHeader.bytes recordHeader
  simp only [overwrite_front, storedUserData, List.append_assoc]

/-- The user data of a record has its room. -/
theorem length_recordSlice (hheap : kFileHeaderSize ≤ heap.length) :
    (ByteSeq.slice heap (16 + kUrlSize) kUserDataSize).length = kUserDataSize := by
  rw [ByteSeq.length_slice]
  unfold kFileHeaderSize at hheap
  unfold kUserDataSize kFileHeaderSize kUrlSize
  omega

/-- A record that is covered does not depend on the heap. -/
theorem recordBytes_of_covered (hcovered : Covered buf user_data)
    (hheap : heap.length = kFileHeaderSize + buf.length) (hheap' : heap'.length = heap.length) :
    recordBytes heap url buf user_data = recordBytes heap' url buf user_data := by
  have hfield : ∀ c : Bytes, c.length = kFileHeaderSize + buf.length →
      (ByteSeq.slice c (16 + kUrlSize) kUserDataSize).drop (storedUserData user_data).length = [] ∧
        c.drop (kFileHeaderSize + buf.length) = [] := by
    intro c hc
    constructor
    · apply List.drop_of_length_le
      rw [length_recordSlice (by omega), hcovered.2]
    · apply List.drop_of_length_le
      rw [hc]
  obtain ⟨huser, hpad⟩ := hfield heap hheap
  obtain ⟨huser', hpad'⟩ := hfield heap' (hheap'.trans hheap)
  rw [recordBytes_eq, recordBytes_eq, huser, hpad, huser', hpad']

/-- One that is not shows it. -/
theorem covered_of_recordBytes {n : ℕ} (hn : kFileHeaderSize + buf.length ≤ n)
    (hround : n % 1024 = 0) (hlt : n < kFileHeaderSize + buf.length + 1024)
    (h : recordBytes (List.replicate n 0) url buf user_data =
      recordBytes (List.replicate n 1) url buf user_data) : Covered buf user_data := by
  rw [recordBytes_eq, recordBytes_eq] at h
  have htail := List.append_cancel_left h
  have hslice : ∀ x : UInt8,
      ((ByteSeq.slice (List.replicate n x) (16 + kUrlSize) kUserDataSize).drop
        (storedUserData user_data).length) =
        List.replicate (kUserDataSize - (storedUserData user_data).length) x := by
    intro x
    have hinside : kUserDataSize ≤ n - (16 + kUrlSize) := by
      unfold kFileHeaderSize at hn
      unfold kUserDataSize kFileHeaderSize kUrlSize
      omega
    rw [ByteSeq.slice, List.drop_replicate, List.take_replicate, Nat.min_eq_left hinside,
      List.drop_replicate]
  rw [hslice, hslice] at htail
  obtain ⟨huser, hrest⟩ := List.append_inj htail (by simp)
  have hpad := List.append_cancel_left hrest
  have hempty : ∀ {k : ℕ}, List.replicate k (0 : UInt8) = List.replicate k 1 → k = 0 := by
    intro k hk
    by_contra hpos
    obtain ⟨m, rfl⟩ := Nat.exists_eq_succ_of_ne_zero hpos
    rw [List.replicate_succ, List.replicate_succ] at hk
    exact absurd (List.cons.inj hk).1 (by decide)
  rw [List.drop_replicate, List.drop_replicate] at hpad
  have hpadlen := hempty hpad
  have huserlen := hempty huser
  have hshort : (storedUserData user_data).length ≤ kUserDataSize := by
    unfold storedUserData
    rw [List.length_take]
    exact Nat.min_le_left _ _
  constructor
  · omega
  · omega

/-! ## Two runs -/

section Runs

variable {σ : Type}

/-- The environment with another heap. -/
def withHeap (h : Prog.Handler SysCall SysCall.Answer σ) (heap : ℕ → Bytes) :
    Prog.Handler SysCall SysCall.Answer σ
  | .newChars n, s => (heap n, s)
  | o, s => h o s

/-- `new` gives as many bytes as it is asked for. -/
def IsHeap (heap : ℕ → Bytes) : Prop :=
  ∀ n, (heap n).length = n

/-- What is asked of a `Write`: it stays in its buffer, and what it does to the
surroundings, the files among them, is the same whatever the heap held. -/
def HeapFree (url buf : Bytes) (user_data : Option Bytes) : Prop :=
  ∀ (σ : Type) (h : Prog.Handler SysCall SysCall.Answer σ) (heap heap' : ℕ → Bytes)
    (file : Bytes) (offset : ℕ) (s : σ), IsHeap heap → IsHeap heap' →
    let run := (writeRecord file offset url buf user_data).run (withHeap h heap) s
    let run' := (writeRecord file offset url buf user_data).run (withHeap h heap') s
    run.1 ≠ .overran ∧ run = run'

/-- A program that allocates nothing does not see the heap. -/
theorem run_withHeap {α : Type} {h : Prog.Handler SysCall SysCall.Answer σ} {heap : ℕ → Bytes}
    {p : Sys α} (hp : p.Calls fun o => ∀ n, o ≠ .newChars n) (s : σ) :
    p.run (withHeap h heap) s = p.run h s := by
  induction p generalizing s with
  | ret a => rfl
  | call o k ih =>
      have hsame : withHeap h heap o s = h o s := by
        cases o with
        | newChars n => exact absurd rfl (hp.1 n)
        | _ => rfl
      rw [Prog.run_call, Prog.run_call, hsame]
      exact ih _ (hp.2 _) _

/-- What `Write` does with its record. -/
def storeRecord (fd : Fd) (call : WriteCall) (record : Bytes) : Sys WriteResult := do
  let n ← Sys.write fd (.record call) record
  Sys.close fd
  let ret := int32 n
  if ret < 0 ∨ ret ≠ recordTotal call.buf.length then
    let e ← Sys.errno
    pure (.returned e 0)
  else pure (.returned 0 call.buf.length)

/-- `Write` up to its record, and then what it does with it. -/
theorem writeRecord_eq (file : Bytes) (offset : ℕ) (url buf : Bytes) (user_data : Option Bytes) :
    writeRecord file offset url buf user_data = (do
      match ← Sys.openRdwr file with
      | none =>
          let e ← Sys.errno
          pure (.returned e 0)
      | some fd =>
          let (pos, fd) ← Sys.lseek fd offset
          if int32 pos = -1 then
            Sys.close fd
            pure (.returned Posix.EIO 0)
          else if recordTotal buf.length < 0 then pure .threw
          else if recordTotal buf.length < kFileHeaderSize + buf.length then pure .overran
          else
            let heap ← Sys.newChars (recordTotal buf.length).toNat
            storeRecord fd ⟨url, buf, user_data⟩ (recordBytes heap url buf user_data)) :=
  rfl

/-- The calls that store a record take no memory. -/
theorem storeRecord_calls (fd : Fd) (call : WriteCall) (record : Bytes) :
    (storeRecord fd call record).Calls fun o => ∀ n, o ≠ .newChars n := by
  refine ⟨by simp, fun count => ⟨by simp, fun _ => ?_⟩⟩
  exact Prog.Calls.ite ⟨by simp, fun _ => trivial⟩ trivial

/-- The calls that store a record do not overrun. -/
theorem storeRecord_returns (fd : Fd) (call : WriteCall) (record : Bytes) :
    (storeRecord fd call record).Returns (· ≠ .overran) := by
  intro count _
  apply Prog.Returns.ite
  · intro _ e
    exact WriteResult.noConfusion
  · intro _
    exact WriteResult.noConfusion

/-- A run that stores a record takes its memory first. -/
theorem run_storeRecord (h : Prog.Handler SysCall SysCall.Answer σ) (heap : ℕ → Bytes)
    (url buf : Bytes) (user_data : Option Bytes) (fd : Fd) (s : σ) :
    (Prog.call (.newChars (recordTotal buf.length).toNat) fun heap =>
        storeRecord fd ⟨url, buf, user_data⟩ (recordBytes heap url buf user_data)).run
          (withHeap h heap) s =
      (storeRecord fd ⟨url, buf, user_data⟩
        (recordBytes (heap (recordTotal buf.length).toNat) url buf user_data)).run h s := by
  rw [Prog.run_call]
  exact run_withHeap (storeRecord_calls fd _ _) s

/-- A run that stores a record does not overrun. -/
theorem storeRecord_inside {h : Prog.Handler SysCall SysCall.Answer σ} (fd : Fd)
    (call : WriteCall) (record : Bytes) (s : σ) :
    ((storeRecord fd call record).run h s).1 ≠ .overran :=
  (storeRecord_returns fd call record).run h s

/-- The heap matters to a `Write` through its record only. -/
theorem run_writeRecord_congr {h : Prog.Handler SysCall SysCall.Answer σ} {heap heap' : ℕ → Bytes}
    {file : Bytes} {offset : ℕ} {s : σ} (hkept : SizeKept buf.length)
    (hrecord : 0 ≤ recordTotal buf.length →
      recordBytes (heap (recordTotal buf.length).toNat) url buf user_data =
        recordBytes (heap' (recordTotal buf.length).toNat) url buf user_data) :
    let run := (writeRecord file offset url buf user_data).run (withHeap h heap) s
    let run' := (writeRecord file offset url buf user_data).run (withHeap h heap') s
    run.1 ≠ .overran ∧ run = run' := by
  rw [writeRecord_eq]
  simp only [Prog.op_bind, Prog.run_call]
  simp only [withHeap]
  cases (h (.openRdwr file) s).1 with
  | none => exact ⟨WriteResult.noConfusion, rfl⟩
  | some fd =>
      simp only [Prog.run_call, withHeap]
      by_cases hpos : int32 (h (.lseek fd offset) (h (.openRdwr file) s).2).1.1 = -1
      · simp only [hpos, if_true]
        exact ⟨WriteResult.noConfusion, rfl⟩
      by_cases hneg : recordTotal buf.length < 0
      · simp only [hpos, if_false, hneg, if_true]
        exact ⟨WriteResult.noConfusion, rfl⟩
      have hnonneg := Int.not_lt.mp hneg
      have hfits := Int.not_lt.mpr (hkept.fits hnonneg)
      simp only [hpos, hneg, hfits, if_false]
      have hrun := run_storeRecord h heap url buf user_data
        (h (.lseek fd offset) (h (.openRdwr file) s).2).1.2
        (h (.lseek fd offset) (h (.openRdwr file) s).2).2
      have hrun' := run_storeRecord h heap' url buf user_data
        (h (.lseek fd offset) (h (.openRdwr file) s).2).1.2
        (h (.lseek fd offset) (h (.openRdwr file) s).2).2
      rw [← hrecord hnonneg] at hrun'
      constructor
      · exact ne_of_eq_of_ne (congrArg Prod.fst hrun) (storeRecord_inside _ _ _ _)
      · exact hrun.trans hrun'.symm

/-- Where the file is opened and the position found, the record is stored. -/
theorem run_writeRecord_opened {h : Prog.Handler SysCall SysCall.Answer σ} {heap : ℕ → Bytes}
    {file : Bytes} {offset : ℕ} {s : σ} {fd fd' : Fd} {pos : ℤ} (hpos : int32 pos ≠ -1)
    (hopen : h (.openRdwr file) s = (some fd, s)) (hseek : h (.lseek fd offset) s = ((pos, fd'), s))
    (hkept : SizeKept buf.length) (hnonneg : 0 ≤ recordTotal buf.length) :
    (writeRecord file offset url buf user_data).run (withHeap h heap) s =
      (storeRecord fd' ⟨url, buf, user_data⟩
        (recordBytes (heap (recordTotal buf.length).toNat) url buf user_data)).run h s := by
  rw [writeRecord_eq]
  simp only [Prog.op_bind, Prog.run_call, withHeap, hopen, hseek]
  rw [if_neg hpos, if_neg (Int.not_lt.mpr hnonneg), if_neg (Int.not_lt.mpr (hkept.fits hnonneg))]
  exact run_storeRecord h heap url buf user_data fd' s

/-- Where the size is not kept, the buffer is overrun. -/
theorem run_writeRecord_overran {h : Prog.Handler SysCall SysCall.Answer σ} {heap : ℕ → Bytes}
    {file : Bytes} {offset : ℕ} {s : σ} {fd fd' : Fd} {pos : ℤ} (hpos : int32 pos ≠ -1)
    (hopen : h (.openRdwr file) s = (some fd, s)) (hseek : h (.lseek fd offset) s = ((pos, fd'), s))
    (hkept : ¬ SizeKept buf.length) :
    ((writeRecord file offset url buf user_data).run (withHeap h heap) s).1 = .overran := by
  obtain ⟨hnonneg, hsmall⟩ := not_fits_of_not_kept hkept
  rw [writeRecord_eq]
  simp only [Prog.op_bind, Prog.run_call, withHeap, hopen, hseek]
  rw [if_neg hpos, if_neg (Int.not_lt.mpr hnonneg), if_pos hsmall]
  rfl

end Runs

/-! ## When nothing of the heap shows -/

/-- Environments that answer faultlessly, but for the heap. -/
def serveHeap (heap : ℕ → Bytes) : Prog.Handler SysCall SysCall.Answer (World Unit Unit) :=
  withHeap (World.serve [] id World.Surroundings.plain ()) heap

/-- What the plain disk answers to a write of a record. -/
theorem serve_write (w : World Unit Unit) (l : Loc) (call : WriteCall) {record : Bytes}
    (hlen : record.length < 2 ^ 63) :
    World.serve [] id World.Surroundings.plain () (.write ⟨l, 0⟩ (.record call) record) w =
      ((record.length : ℤ), w.wrote ⟨l, 0⟩ (.record call) record record.length) :=
  if_pos (by simpa using hlen)

/-- What follows the `write` changes nothing. -/
theorem run_storeRecord_write (w : World Unit Unit) (l : Loc) (call : WriteCall)
    (record : Bytes) :
    ((storeRecord ⟨l, 0⟩ call record).run (World.serve [] id World.Surroundings.plain ()) w).2 =
      (World.serve [] id World.Surroundings.plain () (.write ⟨l, 0⟩ (.record call) record)
        w).2 := by
  generalize hwrite : World.serve [] id World.Surroundings.plain ()
    (.write ⟨l, 0⟩ (.record call) record) w = a
  unfold storeRecord
  simp only [Prog.op_bind, Prog.run_call, hwrite]
  split
  · rfl
  · rfl

/-- The tree after a record is stored. -/
theorem tree_storeRecord (w : World Unit Unit) (l : Loc) (call : WriteCall) {record : Bytes}
    (hlen : record.length < 2 ^ 63) :
    ((storeRecord ⟨l, 0⟩ call record).run (World.serve [] id World.Surroundings.plain ())
        w).2.tree = w.tree.write ⟨l, 0⟩ record := by
  rw [run_storeRecord_write, serve_write w l call hlen]
  simp [World.wrote]

/-- `Write` on the file of the example stores its record. -/
theorem run_writeRecord_fileF {heap : ℕ → Bytes} (hkept : SizeKept buf.length)
    (hnonneg : 0 ≤ recordTotal buf.length) :
    (writeRecord (Text.ascii "f") 0 url buf user_data).run (serveHeap heap) fileF =
      (storeRecord ⟨[Text.ascii "f"], 0⟩ ⟨url, buf, user_data⟩
        (recordBytes (heap (recordTotal buf.length).toNat) url buf user_data)).run
        (World.serve [] id World.Surroundings.plain ()) fileF := by
  have hopen : World.serve [] id World.Surroundings.plain () (.openRdwr (Text.ascii "f")) fileF =
      (some ⟨[Text.ascii "f"], 0⟩, fileF) := rfl
  have hpos : int32 0 ≠ -1 := by decide
  exact run_writeRecord_opened hpos hopen rfl hkept hnonneg

/-- The file after a `Write` into `f`. -/
theorem content_writeRecord (url : Bytes) (user_data : Option Bytes) {heap : ℕ → Bytes}
    (hheap : IsHeap heap) (hkept : SizeKept buf.length) (hnonneg : 0 ≤ recordTotal buf.length) :
    ((writeRecord (Text.ascii "f") 0 url buf user_data).run
        (serveHeap heap) fileF).2.tree.content [Text.ascii "f"] =
      some (recordBytes (heap (recordTotal buf.length).toNat) url buf user_data) := by
  have hfits := hkept.fits hnonneg
  have hrange : recordTotal buf.length < 2 ^ 31 := (int32_range (recordSize buf.length)).2
  have hroom : kFileHeaderSize + buf.length ≤ (heap (recordTotal buf.length).toNat).length := by
    rw [hheap]
    omega
  have hlen := length_recordBytes (heap (recordTotal buf.length).toNat) url buf user_data hroom
  rw [run_writeRecord_fileF hkept hnonneg, tree_storeRecord _ _ _ (by
    rw [hlen, hheap]
    omega), Tree.content_write_self (c := [])]
  · exact congrArg some (ByteSeq.overwrite_length 0 [] _)
  · rfl

/-- A size that is not kept makes `Write` overrun its buffer. -/
theorem sizeKept_of_heapFree (h : HeapFree url buf user_data) : SizeKept buf.length := by
  by_contra hkept
  have hheap : IsHeap fun n => List.replicate n 0 := fun n => List.length_replicate
  have hinside := (h _ (World.serve [] id World.Surroundings.plain ()) _ _ (Text.ascii "f") 0
    fileF hheap hheap).1
  have hopen : World.serve [] id World.Surroundings.plain () (.openRdwr (Text.ascii "f")) fileF =
      (some ⟨[Text.ascii "f"], 0⟩, fileF) := rfl
  have hpos : int32 0 ≠ -1 := by decide
  exact hinside (run_writeRecord_overran hpos hopen rfl hkept)

/-- A size rounded up to 1024. -/
theorem rounded {v t : ℕ} (h : t = (v + 1023) / 1024 * 1024) :
    v ≤ t ∧ t % 1024 = 0 ∧ t < v + 1024 := by
  omega

/-- A record in which nothing of the heap shows is covered. -/
theorem covered_of_heapFree (h : HeapFree url buf user_data)
    (hnonneg : 0 ≤ recordTotal buf.length) : Covered buf user_data := by
  have hkept := sizeKept_of_heapFree h
  have hheap : ∀ x : UInt8, IsHeap fun n => List.replicate n x := fun x n => List.length_replicate
  have hrun : (writeRecord (Text.ascii "f") 0 url buf user_data).run
      (serveHeap fun n => List.replicate n 0) fileF =
      (writeRecord (Text.ascii "f") 0 url buf user_data).run
        (serveHeap fun n => List.replicate n 1) fileF :=
    (h _ _ _ _ (Text.ascii "f") 0 fileF (hheap 0) (hheap 1)).2
  have hfile := content_writeRecord url user_data (hheap 0) hkept hnonneg
  rw [hrun, content_writeRecord url user_data (hheap 1) hkept hnonneg, Option.some.injEq] at hfile
  obtain ⟨hroom, hround, hlt⟩ := rounded (toNat_recordTotal buf (hkept.fits hnonneg))
  exact covered_of_recordBytes hroom hround hlt hfile.symm

/-- A record is covered if its contents end at a multiple of 1024 and its user data fills its
room. -/
theorem covered_iff : Covered buf user_data ↔
    (kFileHeaderSize + buf.length) % 1024 = 0 ∧
      ∃ stored, user_data = some stored ∧ kUserDataSize ≤ stored.length := by
  unfold Covered storedUserData
  rw [List.length_take, min_eq_left_iff]
  apply and_congr_right
  intro _
  cases user_data with
  | none =>
      constructor
      · intro hle
        exact absurd hle (by decide)
      · rintro ⟨stored, heq, -⟩
        cases heq
  | some stored =>
      constructor
      · intro hle
        exact ⟨stored, rfl, hle⟩
      · rintro ⟨_, heq, hle⟩
        cases heq
        exact hle

/-- `Write` lets nothing of the heap into its file if and only if its arguments cover the
record, or their size makes it throw before.
SOURCE: bundle.cc:357-380 -/
theorem heap_free_iff (url buf : Bytes) (user_data : Option Bytes) :
    HeapFree url buf user_data ↔
      2 ^ 31 ≤ recordSize buf.length % 2 ^ 32 ∨
      buf.length ≤ 2 ^ 31 - 1536 ∧ (kFileHeaderSize + buf.length) % 1024 = 0 ∧
        ∃ stored, user_data = some stored ∧ kUserDataSize ≤ stored.length := by
  rw [← covered_iff]
  constructor
  · intro h
    rcases sizeKept_of_heapFree h with hsmall | hlarge
    · exact .inr ⟨hsmall, covered_of_heapFree h (recordTotal_nonneg_of_le hsmall)⟩
    · exact .inl hlarge
  · rintro (hlarge | ⟨hsmall, hcovered⟩) σ handler heap heap' file offset s hheap hheap'
    · refine run_writeRecord_congr (.inr hlarge) fun hnonneg => ?_
      rw [recordTotal_nonneg_iff] at hnonneg
      omega
    · refine run_writeRecord_congr (.inl hsmall) fun hnonneg => ?_
      have htotal := toNat_recordTotal buf (SizeKept.fits (.inl hsmall) hnonneg)
      unfold fullSize at htotal
      have hmod := hcovered.1
      apply recordBytes_of_covered hcovered
      · rw [hheap]
        omega
      · rw [hheap, hheap']

/-- A record without user data shows 240 bytes of the heap. -/
theorem not_heap_free : ¬ ∀ url buf user_data, HeapFree url buf user_data := by
  intro h
  have hcovered := covered_of_heapFree (h (Text.ascii "u") [] none) (by decide)
  exact absurd hcovered.2 (by decide)

end BundleStore
