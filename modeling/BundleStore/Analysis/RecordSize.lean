import BundleStore.Analysis.RecordFormat
import BundleStore.Model.Allocate
import BundleStore.Model.World

set_option autoImplicit false

/-!
# The size of a record

The size is computed in `size_t`, narrowed to `int` for the buffer and for `write`,
and to `uint32_t` for the header. A size from 2^31 on that becomes negative makes
`new` throw before anything is written. One that wraps around to a small number
gives a buffer that the content does not fit in.
-/

namespace BundleStore

open Machine Posix

/-! ## Which sizes go wrong -/

/-- The size is that of an `int`, or it becomes a negative one. -/
def SizeKept (n : ℕ) : Prop :=
  n ≤ 2 ^ 31 - 1536 ∨ 2 ^ 31 ≤ recordSize n % 2 ^ 32

/-- A rounded size is a multiple of 1024. -/
theorem align1K_mod (v : ℕ) : align1K v % 1024 = 0 := by
  unfold align1K
  by_cases hrest : v % 1024 = 0
  · simp only [hrest, ne_eq, not_true_eq_false, if_false]
  · simp only [hrest, ne_eq, not_false_eq_true, if_true]
    unfold uint64
    omega

/-- The size of a record is a multiple of 1024. -/
theorem recordSize_mod (n : ℕ) : recordSize n % 1024 = 0 :=
  align1K_mod _

/-- The sum that `Allocate` compares does not wrap. -/
theorem exceeds_iff {setting : Setting} {size st_size : ℕ} (hsize : size < 2 ^ 62)
    (hst : st_size < 2 ^ 63) :
    exceeds setting size (some st_size) ↔
      setting.max_bundle_size < st_size + align1K (kFileHeaderSize + size) := by
  have hheader : kFileHeaderSize + size < 2 ^ 63 := by
    unfold kFileHeaderSize
    omega
  have hrecord : recordSize size = align1K (kFileHeaderSize + size) := by
    rw [recordSize_eq hheader, align1K_eq hheader]
  have hsum : st_size + align1K (kFileHeaderSize + size) < 2 ^ 64 := by
    rw [align1K_eq hheader]
    unfold kFileHeaderSize
    omega
  unfold exceeds
  dsimp only
  rw [hrecord, uint64_natCast hsum]

/-- `int32` of a natural number, by its remainder. -/
theorem int32_of_mod (v : ℕ) :
    int32 (v : ℤ) = if v % 2 ^ 32 < 2 ^ 31 then ((v % 2 ^ 32 : ℕ) : ℤ)
      else ((v % 2 ^ 32 : ℕ) : ℤ) - 2 ^ 32 := by
  unfold int32
  rw [Int.bmod_def]
  split <;> split <;> omega

/-- A kept size that is not negative is the full one. -/
theorem SizeKept.fits {n : ℕ} (h : SizeKept n) (hnonneg : 0 ≤ recordTotal n) :
    (kFileHeaderSize + n : ℤ) ≤ recordTotal n := by
  unfold recordTotal at hnonneg ⊢
  rw [int32_of_mod] at hnonneg ⊢
  rcases h with hsmall | hlarge
  · have hsize := recordSize_eq (n := n) (by
      unfold kFileHeaderSize
      omega)
    unfold kFileHeaderSize at hsize ⊢
    rw [if_pos (by omega)]
    omega
  · rw [if_neg (by omega)] at hnonneg
    omega

/-- The size is not negative as an `int` if it is below 2^31 modulo 2^32. -/
theorem recordTotal_nonneg_iff (n : ℕ) :
    0 ≤ recordTotal n ↔ recordSize n % 2 ^ 32 < 2 ^ 31 := by
  unfold recordTotal
  rw [int32_of_mod]
  split
  · omega
  · omega

/-- A size in the range of `int` stays as it is. -/
theorem recordTotal_nonneg_of_le {n : ℕ} (h : n ≤ 2 ^ 31 - 1536) : 0 ≤ recordTotal n := by
  rw [recordTotal_nonneg_iff, recordSize_eq (by
    unfold kFileHeaderSize
    omega)]
  unfold kFileHeaderSize
  omega

/-- A size that is not kept has become too small. -/
theorem not_fits_of_not_kept {n : ℕ} (h : ¬ SizeKept n) :
    0 ≤ recordTotal n ∧ recordTotal n < (kFileHeaderSize + n : ℤ) := by
  have hmod := recordSize_mod n
  unfold SizeKept at h
  unfold recordTotal
  rw [int32_of_mod, if_pos (by omega)]
  unfold kFileHeaderSize
  omega

/-! ## What a `Write` leaves -/

/-- A record of the content, with the size that it should have. -/
structure SoundRecord (buf record : Bytes) : Prop where
  aligned : record.length % 1024 = 0
  room : kFileHeaderSize + buf.length ≤ record.length
  labelled : (FileHeader.ofBytes record).length_ = buf.length

/-- `Write` has thrown, or it tells an error. -/
def WriteResult.Fails : WriteResult → Prop
  | .returned ret _ => ret ≠ 0
  | .threw => True
  | .overran => False

/-- A call with its answer. -/
abbrev Answered : Type :=
  (o : SysCall) × o.Answer

/-- What a call passes to `write`, and what that answers. -/
def Answered.written? : Answered → Option (Fd × Bytes × ℤ)
  | ⟨.write fd _ data, count⟩ => some (fd, data, count)
  | _ => none

/-- The record of the arguments, put together in this heap, was passed to the only `write`,
which took `n` bytes of it: these are in the file. A record that was taken whole is reported
so, a short one by the `errno` there is. -/
structure Stores {ι κ : Type} (cwd : Loc) (i : ι) (file : Bytes) (offset : ℕ) (call : WriteCall)
    (calls : List Answered) (w w' : World ι κ) (result : WriteResult)
    (heap : Bytes) (n : ℕ) : Prop where
  sound : SoundRecord call.buf (recordBytes heap call.url call.buf call.user_data)
  passed : calls.filterMap Answered.written? =
    [(⟨canon cwd file, offset⟩, recordBytes heap call.url call.buf call.user_data, (n : ℤ))]
  taken : n ≤ (recordBytes heap call.url call.buf call.user_data).length
  file : w'.tree = w.tree.write ⟨canon cwd file, offset⟩
    ((recordBytes heap call.url call.buf call.user_data).take n)
  whole : n = (recordBytes heap call.url call.buf call.user_data).length →
    result = .returned 0 call.buf.length
  short : n < (recordBytes heap call.url call.buf call.user_data).length →
    result = .returned (w'.errno i) 0

/-- What is asked of a `Write` that makes these calls: nothing is stored behind its buffer,
and it fails with the files as they were, or stores a record of the right size. -/
structure SizeSafe {ι κ : Type} (cwd : Loc) (i : ι) (file : Bytes) (offset : ℕ)
    (call : WriteCall) (calls : List Answered) (w w' : World ι κ)
    (result : WriteResult) : Prop where
  inside : result ≠ .overran
  file : result.Fails ∧ w'.tree.content = w.tree.content ∨
    ∃ heap n, Stores cwd i file offset call calls w w' result heap n

/-- The bytes of a record are sound if they fit.
SOURCE: bundle.cc:357-375 -/
theorem soundRecord_recordBytes {heap buf : Bytes} (url : Bytes) (user_data : Option Bytes)
    (hfits : (kFileHeaderSize + buf.length : ℤ) ≤ recordTotal buf.length)
    (hheap : heap.length = (recordTotal buf.length).toNat) :
    SoundRecord buf (recordBytes heap url buf user_data) := by
  have htotal := toNat_recordTotal buf hfits
  have hrange : recordTotal buf.length < 2 ^ 31 := (int32_range (recordSize buf.length)).2
  have hroom : kFileHeaderSize + buf.length ≤ heap.length := by omega
  have hlt : buf.length < 2 ^ 32 := by omega
  have hlen := length_recordBytes heap url buf user_data hroom
  constructor
  · rw [hlen, hheap, htotal]
    exact Nat.mul_mod_left _ _
  · rw [hlen]
    exact hroom
  · have hread := readLe32_append_le32
      (le32 FileHeader.kMAGIC_CODE ++ le32 FileHeader.kVERSION ++ le32 FileHeader.kFILE_NORMAL)
      (uint32_lt buf.length)
      (strncpy url kUrlSize ++ (recordHeader heap url buf user_data).user_data_ ++ buf ++
        heap.drop (kFileHeaderSize + buf.length))
    rw [uint32_natCast hlt] at hread
    show readLe32 (recordBytes heap url buf user_data) 12 = buf.length
    simpa [recordBytes, recordHeader, FileHeader.bytes, uint32_natCast hlt] using hread

section Write

variable {ι κ : Type} [DecidableEq ι] [DecidableEq κ] {cwd : Loc} {proc : ι → κ} {i : ι}
variable {file url buf : Bytes} {offset : ℕ} {user_data : Option Bytes} {w w' : World ι κ}
variable {call : WriteCall} {calls : List Answered} {result : WriteResult}

omit [DecidableEq ι] [DecidableEq κ] in
/-- A `Write` that fails and leaves the file is safe. -/
theorem SizeSafe.of_fails (hfails : result.Fails) (htree : w'.tree = w.tree) :
    SizeSafe cwd i file offset call calls w w' result := by
  constructor
  · rintro rfl
    exact hfails
  · exact .inl ⟨hfails, by rw [htree]⟩

omit [DecidableEq ι] [DecidableEq κ] in
/-- Whatever `write` took of it, a record that is stored was put into a buffer of its size. -/
theorem SizeSafe.of_stores {heap : Bytes} {n : ℕ}
    (h : Stores cwd i file offset call calls w w' result heap n) :
    SizeSafe cwd i file offset call calls w w' result := by
  refine ⟨?_, .inr ⟨heap, n, h⟩⟩
  rintro rfl
  rcases h.taken.eq_or_lt with hwhole | hshort
  · cases h.whole hwhole
  · cases h.short hshort

/-- A `close` leaves the tree. -/
theorem World.close_tree {fd : Fd} (h : World.Sem cwd proc i (.close fd) w () w') :
    w'.tree = w.tree := by
  rcases h with rfl | ⟨e, -, rfl⟩
  · rfl
  · rfl

/-- An `lseek` leaves the tree. -/
theorem World.lseek_tree {fd : Fd} {a : ℤ × Fd}
    (h : World.Sem cwd proc i (.lseek fd offset) w a w') : w'.tree = w.tree := by
  rcases h with ⟨-, -, -, rfl⟩ | ⟨-, -, e, -, rfl⟩
  · rfl
  · rfl

/-- A refusal has an error. -/
theorem refused_fails {r : Except ℕ Fd} {e : ℕ} (hr : ∀ e', r = .error e' → e' ≠ 0)
    (h : r = .error e ∨ Spurious e) : e ≠ 0 := by
  rcases h with h | h
  · exact hr e h
  · exact h.1

/-- What a `Write` makes of the answer to its `write`. -/
theorem sizeSafe_of_answer {heap : Bytes} {count : ℤ} {w₁ w₂ : World ι κ}
    (hkept : (kFileHeaderSize + buf.length : ℤ) ≤ recordTotal buf.length)
    (hheap : heap.length = (recordTotal buf.length).toNat)
    (hwrite : World.Sem cwd proc i (.write ⟨canon cwd file, offset⟩ (.record ⟨url, buf, user_data⟩)
      (recordBytes heap url buf user_data)) w count w₁)
    (hclose : World.Sem cwd proc i (.close ⟨canon cwd file, offset⟩) w₁ () w₂)
    (hwrites : calls.filterMap Answered.written? =
      [(⟨canon cwd file, offset⟩, recordBytes heap url buf user_data, count)])
    (hfailed : int32 count < 0 ∨ int32 count ≠ recordTotal buf.length →
      result = .returned (w₂.errno i) 0)
    (hwhole : ¬ (int32 count < 0 ∨ int32 count ≠ recordTotal buf.length) →
      result = .returned 0 buf.length) :
    SizeSafe cwd i file offset ⟨url, buf, user_data⟩ calls w w₂ result := by
  have hsound := soundRecord_recordBytes url user_data hkept hheap
  have htotal : recordTotal buf.length = fullSize buf := recordTotal_eq hkept
  have hrange : recordTotal buf.length < 2 ^ 31 := (int32_range (recordSize buf.length)).2
  have hlen : (recordBytes heap url buf user_data).length = fullSize buf := by
    rw [length_recordBytes heap url buf user_data (by omega), hheap, htotal, Int.toNat_natCast]
  have htree := World.close_tree hclose
  rcases hwrite with ⟨n, rfl, hn, -, rfl⟩ | ⟨rfl, e, he, rfl⟩
  · have hcount : int32 (n : ℤ) = n := int32_natCast (by omega)
    rw [hcount] at hfailed hwhole
    refine .of_stores ⟨hsound, hwrites, hn, htree, ?_, ?_⟩
    · intro hall
      change n = (recordBytes heap url buf user_data).length at hall
      exact hwhole (by omega)
    · intro hshort
      change n < (recordBytes heap url buf user_data).length at hshort
      exact hfailed (by omega)
  · have hminus : int32 (-1) < 0 := by decide
    rw [hfailed (.inl hminus)]
    refine .of_fails ?_ htree
    rcases hclose with rfl | ⟨e', he', rfl⟩
    · simpa [WriteResult.Fails, World.setErrno] using he
    · simpa [WriteResult.Fails, World.setErrno] using he'

/-- A `Write` whose size is kept is as it should be. -/
theorem sizeSafe_of_kept (hkept : SizeKept buf.length)
    (h : (writeRecord file offset url buf user_data).ExecutesBy (World.Sem cwd proc i) w calls
      result w') : SizeSafe cwd i file offset ⟨url, buf, user_data⟩ calls w w' result := by
  unfold writeRecord at h
  simp only [Prog.op_bind] at h
  obtain ⟨fd, w₁, calls, hopen, rfl, hrest⟩ := h
  cases fd with
  | none =>
      obtain ⟨e, he, rfl⟩ := hopen
      obtain ⟨e', w₂, calls, ⟨rfl, rfl⟩, rfl, -, rfl, rfl⟩ := hrest
      have hne : e ≠ 0 := refused_fails (fun e' => Tree.openRdwr_error_ne_zero) he
      refine .of_fails ?_ rfl
      simpa [WriteResult.Fails, World.setErrno] using hne
  | some fd =>
      obtain ⟨hopened, rfl⟩ := hopen
      obtain ⟨hloc, -⟩ := Tree.openRdwr_ok hopened
      obtain ⟨⟨pos, fd'⟩, w₂, calls, hseek, rfl, hrest⟩ := hrest
      dsimp only at hrest
      by_cases hpos : int32 pos = -1
      · rw [if_pos hpos] at hrest
        obtain ⟨_, w₃, calls, hclose, rfl, -, rfl, rfl⟩ := hrest
        have htree : w'.tree = w₁.tree := by
          rw [World.close_tree hclose, World.lseek_tree hseek]
        exact .of_fails (show ( EIO : ℤ) ≠ 0 by decide) htree
      rw [if_neg hpos] at hrest
      have hfd : fd' = ⟨canon cwd file, offset⟩ ∧ w₂ = w₁ := by
        rcases hseek with ⟨-, -, rfl, rfl⟩ | ⟨rfl, -⟩
        · exact ⟨by rw [hloc], rfl⟩
        · exact absurd (by decide) hpos
      obtain ⟨rfl, rfl⟩ := hfd
      by_cases hneg : recordTotal buf.length < 0
      · rw [if_pos hneg] at hrest
        obtain ⟨-, rfl, rfl⟩ := hrest
        exact .of_fails trivial rfl
      have hfits := hkept.fits (Int.not_lt.mp hneg)
      rw [if_neg hneg, if_neg (Int.not_lt.mpr hfits)] at hrest
      obtain ⟨heap, w₃, calls, ⟨hheap, rfl⟩, rfl, count, w₄, calls, hwrite, rfl, _, w₅, calls,
        hclose, rfl, hrest⟩ := hrest
      by_cases hshort : int32 count < 0 ∨ int32 count ≠ recordTotal buf.length
      · rw [if_pos hshort] at hrest
        obtain ⟨e, w₆, calls, ⟨rfl, rfl⟩, rfl, rfl, rfl, rfl⟩ := hrest
        exact sizeSafe_of_answer hfits hheap hwrite hclose rfl (fun _ => rfl)
          fun h => absurd hshort h
      · rw [if_neg hshort] at hrest
        obtain ⟨rfl, rfl, rfl⟩ := hrest
        exact sizeSafe_of_answer hfits hheap hwrite hclose rfl (fun h => absurd h hshort)
          fun _ => rfl

end Write

/-! ## The sizes for which `Write` is safe -/

/-- A file `f` and nothing else. -/
def fileF : World Unit Unit :=
  World.start (Tree.bare.setFile [Text.ascii "f"] [])

/-- The file of the example can be opened. -/
theorem openRdwr_fileF :
    fileF.tree.openRdwr [] (Text.ascii "f") = .ok ⟨[Text.ascii "f"], 0⟩ := by
  rfl

/-- A size that is not kept gives a buffer that is overrun. -/
theorem overruns_of_not_kept (buf : Bytes) (h : ¬ SizeKept buf.length) :
    ∃ calls, (writeRecord (Text.ascii "f") 0 [] buf none).ExecutesBy (World.Sem [] id ()) fileF
      calls .overran fileF := by
  obtain ⟨hnonneg, hsmall⟩ := not_fits_of_not_kept h
  rw [← Prog.executes_iff_executesBy]
  unfold writeRecord
  simp only [Prog.op_bind, Prog.executes_call]
  refine ⟨some ⟨[Text.ascii "f"], 0⟩, fileF, ⟨openRdwr_fileF, rfl⟩, (0, ⟨[Text.ascii "f"], 0⟩),
    fileF, .inl ⟨by norm_num, rfl, rfl, rfl⟩, ?_⟩
  dsimp only
  rw [if_neg (show int32 0 ≠ -1 by decide), if_neg (Int.not_lt.mpr hnonneg), if_pos hsmall]
  exact ⟨rfl, rfl⟩

/-- Every execution of a `Write` with a content of this size is as it should be. -/
def WritesSafely (n : ℕ) : Prop :=
  ∀ (cwd : Loc) (file : Bytes) (offset : ℕ) (call : WriteCall)
    (calls : List Answered) (w w' : World Unit Unit) (result : WriteResult),
    call.buf.length = n →
    (writeRecord file offset call.url call.buf call.user_data).ExecutesBy (World.Sem cwd id ()) w
      calls result w' →
    SizeSafe cwd () file offset call calls w w' result

/-- `Write` is not safe for a size that is not kept. -/
theorem not_writesSafely {n : ℕ} (h : ¬ SizeKept n) : ¬ WritesSafely n := by
  intro hsafe
  have hlen := List.length_replicate (n := n) (a := (0 : UInt8))
  obtain ⟨calls, hover⟩ := overruns_of_not_kept (List.replicate n 0) (by rwa [hlen])
  exact (hsafe [] _ 0 ⟨[], List.replicate n 0, none⟩ calls _ _ _ hlen hover).inside rfl

/-- `Write` is safe for the contents of a size if and only if the size is kept.
SOURCE: bundle.cc:357-390, bundle.h:173-178 -/
theorem record_size_iff (n : ℕ) :
    WritesSafely n ↔ n ≤ 2 ^ 31 - 1536 ∨ 2 ^ 31 ≤ recordSize n % 2 ^ 32 := by
  constructor
  · intro hsafe
    by_contra hkept
    exact not_writesSafely hkept hsafe
  · rintro hkept cwd file offset ⟨url, buf, user_data⟩ calls w w' result rfl hrun
    exact sizeSafe_of_kept hkept hrun

/-- A content of 2^32 bytes is put into a buffer of 1024. -/
theorem not_record_size : ¬ ∀ n < 2 ^ 64, WritesSafely n := by
  intro h
  have hkept : ¬ SizeKept (2 ^ 32) := by
    unfold SizeKept
    decide
  exact not_writesSafely hkept (h _ (by norm_num))

end BundleStore
