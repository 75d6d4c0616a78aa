import BundleStore.Analysis.WriteReport
import BundleStore.Analysis.ReadReport

set_option autoImplicit false

/-!
# A record is read back

The header that `Write` fills in is the header that `Read` parses, and the
content stands right behind it.
-/

namespace BundleStore

open Machine

/-- `strncpy` fills its room. -/
theorem length_strncpy (src : Bytes) (n : ℕ) : (strncpy src n).length = n := by
  unfold strncpy
  rw [List.length_append, List.length_take, List.length_replicate]
  omega

namespace FileHeader

/-- A header whose fields have the sizes of the structure. -/
structure WellFormed (h : FileHeader) : Prop where
  magic_lt : h.magic_ < 2 ^ 32
  version_lt : h.version_ < 2 ^ 32
  flag_lt : h.flag_ < 2 ^ 32
  length_lt : h.length_ < 2 ^ 32
  url : h.url_.length = kUrlSize
  user_data : h.user_data_.length = kUserDataSize

/-- A header has its size.
SOURCE: bundle.h:11-26 -/
theorem WellFormed.length_bytes {h : FileHeader} (hh : h.WellFormed) :
    h.bytes.length = kFileHeaderSize := by
  unfold bytes
  simp only [List.length_append, length_le32, hh.url, hh.user_data]
  decide

/-- **A header is parsed back.** -/
theorem WellFormed.ofBytes_bytes {h : FileHeader} (hh : h.WellFormed) : ofBytes h.bytes = h := by
  have hmagic : readLe32 h.bytes 0 = h.magic_ := by
    have hread := readLe32_append_le32 [] hh.magic_lt
      (le32 h.version_ ++ le32 h.flag_ ++ le32 h.length_ ++ h.url_ ++ h.user_data_)
    simpa [bytes] using hread
  have hversion : readLe32 h.bytes 4 = h.version_ := by
    have hread := readLe32_append_le32 (le32 h.magic_) hh.version_lt
      (le32 h.flag_ ++ le32 h.length_ ++ h.url_ ++ h.user_data_)
    simpa [bytes] using hread
  have hflag : readLe32 h.bytes 8 = h.flag_ := by
    have hread := readLe32_append_le32 (le32 h.magic_ ++ le32 h.version_) hh.flag_lt
      (le32 h.length_ ++ h.url_ ++ h.user_data_)
    simpa [bytes] using hread
  have hlength : readLe32 h.bytes 12 = h.length_ := by
    have hread := readLe32_append_le32 (le32 h.magic_ ++ le32 h.version_ ++ le32 h.flag_)
      hh.length_lt (h.url_ ++ h.user_data_)
    simpa [bytes] using hread
  have hurl : ByteSeq.slice h.bytes 16 kUrlSize = h.url_ := by
    unfold bytes ByteSeq.slice
    rw [List.append_assoc, List.drop_left' (by simp), List.take_left' hh.url]
  have huser : ByteSeq.slice h.bytes (16 + kUrlSize) kUserDataSize = h.user_data_ := by
    unfold bytes ByteSeq.slice
    rw [List.drop_left' (by simp [hh.url, kUrlSize]),
      List.take_of_length_le (le_of_eq hh.user_data)]
  unfold ofBytes
  rw [hmagic, hversion, hflag, hlength, hurl, huser]

end FileHeader

section Record

variable (heap url buf : Bytes) (user_data : Option Bytes)

/-- The header of a record is well formed, whatever the heap held. -/
theorem recordHeader_wellFormed (hheap : kFileHeaderSize ≤ heap.length) :
    (recordHeader heap url buf user_data).WellFormed where
  magic_lt := by
    show FileHeader.kMAGIC_CODE < 2 ^ 32
    decide
  version_lt := by
    show FileHeader.kVERSION < 2 ^ 32
    decide
  flag_lt := by
    show FileHeader.kFILE_NORMAL < 2 ^ 32
    decide
  length_lt := by
    show uint32 buf.length < 2 ^ 32
    exact uint32_lt _
  url := length_strncpy url kUrlSize
  user_data := by
    have hslice : (ByteSeq.slice heap (16 + kUrlSize) kUserDataSize).length = kUserDataSize := by
      rw [ByteSeq.length_slice]
      unfold kFileHeaderSize at hheap
      unfold kUserDataSize kFileHeaderSize kUrlSize
      omega
    show (ByteSeq.overwrite 0 _ 0 _).length = kUserDataSize
    by_cases hud : (user_data.getD []).take kUserDataSize = []
    · rw [hud, ByteSeq.overwrite_nil, hslice]
    · rw [ByteSeq.length_overwrite _ _ _ hud, hslice, List.length_take]
      omega

/-- A full `user_data` fills its field. -/
theorem recordHeader_user_data {ud : Bytes} (hud : ud.length = kUserDataSize) :
    (recordHeader heap url buf (some ud)).user_data_ = ud := by
  have hne : ud ≠ [] := by
    rintro rfl
    exact absurd hud (by decide)
  have htake : ud.take kUserDataSize = ud := List.take_of_length_le (le_of_eq hud)
  show ByteSeq.overwrite 0 _ 0 (((some ud).getD []).take kUserDataSize) = ud
  rw [Option.getD_some, htake, ByteSeq.overwrite_of_ne_nil _ _ _ hne]
  have hdrop : (ByteSeq.slice heap (16 + kUrlSize) kUserDataSize).drop (0 + ud.length) = [] := by
    apply List.drop_of_length_le
    rw [ByteSeq.length_slice]
    omega
  rw [hdrop]
  simp

/-- A record has the length of its heap.
SOURCE: bundle.cc:357-375 -/
theorem length_recordBytes (hheap : kFileHeaderSize + buf.length ≤ heap.length) :
    (recordBytes heap url buf user_data).length = heap.length := by
  unfold recordBytes
  rw [List.length_append, List.length_append,
    (recordHeader_wellFormed heap url buf user_data (by omega)).length_bytes, List.length_drop]
  omega

/-- The front of a record is its header, and the content follows. -/
theorem slice_recordBytes (hheap : kFileHeaderSize + buf.length ≤ heap.length) :
    ByteSeq.slice (recordBytes heap url buf user_data) 0 kFileHeaderSize =
        (recordHeader heap url buf user_data).bytes ∧
      ByteSeq.slice (recordBytes heap url buf user_data) kFileHeaderSize buf.length = buf := by
  have hlen := (recordHeader_wellFormed heap url buf user_data (by omega)).length_bytes
  unfold recordBytes ByteSeq.slice
  constructor
  · rw [List.drop_zero, List.append_assoc, List.take_left' hlen]
  · rw [List.append_assoc, List.drop_left' hlen, List.take_left' rfl]

end Record

/-- The record that was put together from these stands at `offset`. -/
structure RecordAt (content : Bytes) (offset : ℕ) (heap url buf : Bytes)
    (user_data : Option Bytes) : Prop where
  fits : kFileHeaderSize + buf.length ≤ heap.length
  length_lt : buf.length < 2 ^ 31
  inside : offset + heap.length ≤ content.length
  bytes : ByteSeq.slice content offset heap.length = recordBytes heap url buf user_data

namespace RecordAt

variable {content heap url buf : Bytes} {offset : ℕ} {user_data : Option Bytes}

/-- A record begins with its header. -/
theorem slice_head (h : RecordAt content offset heap url buf user_data) :
    ByteSeq.slice content offset kFileHeaderSize = (recordHeader heap url buf user_data).bytes := by
  have hfits := h.fits
  have hpart : ByteSeq.slice (ByteSeq.slice content offset heap.length) 0 kFileHeaderSize =
      ByteSeq.slice content (offset + 0) kFileHeaderSize := by
    apply ByteSeq.slice_slice
    omega
  rw [h.bytes, Nat.add_zero] at hpart
  rw [← hpart]
  exact (slice_recordBytes heap url buf user_data h.fits).1

/-- The contents stand behind the header. -/
theorem slice_body (h : RecordAt content offset heap url buf user_data) :
    ByteSeq.slice content (offset + kFileHeaderSize) buf.length = buf := by
  have hpart : ByteSeq.slice (ByteSeq.slice content offset heap.length) kFileHeaderSize
      buf.length = ByteSeq.slice content (offset + kFileHeaderSize) buf.length :=
    ByteSeq.slice_slice content h.fits
  rw [h.bytes] at hpart
  rw [← hpart]
  exact (slice_recordBytes heap url buf user_data h.fits).2

/-- A reader accepts the header of a record, and finds its user data there. -/
theorem headerAt (h : RecordAt content offset heap url buf user_data) :
    HeaderAt content offset buf.length ∧
      (FileHeader.ofBytes (ByteSeq.slice content offset kFileHeaderSize)).user_data_ =
        (recordHeader heap url buf user_data).user_data_ := by
  have hfits := h.fits
  have hin := h.inside
  have hparse : FileHeader.ofBytes (ByteSeq.slice content offset kFileHeaderSize) =
      recordHeader heap url buf user_data := by
    rw [h.slice_head]
    exact (recordHeader_wellFormed heap url buf user_data (by omega)).ofBytes_bytes
  have hlength : buf.length ≤ (recordHeader heap url buf user_data).length_ := by
    show buf.length ≤ uint32 buf.length
    rw [uint32_natCast (lt_trans h.length_lt (by norm_num))]
  constructor
  · constructor
    · omega
    · rw [hparse]
      rfl
    · rw [hparse]
      rfl
    · rw [hparse]
      exact hlength
    · rw [hparse]
      rfl
  · rw [hparse]

end RecordAt

/-- **A record is read back** from wherever it stands. -/
theorem readFile_recordAt {view : FileView} {filename content : Bytes} {offset : ℕ}
    {heap url buf : Bytes} {user_data : Option Bytes}
    (hopen : view.fopen filename = .ok content)
    (hrec : RecordAt content offset heap url buf user_data) (hoffset : offset < 2 ^ 63)
    (errno : ℕ) :
    readFile view errno filename offset buf.length buf.length (some kUserDataSize) =
      { ret := 0, readed := some buf.length, buf,
        user_data := some (recordHeader heap url buf user_data).user_data_ } := by
  obtain ⟨hhead, huser⟩ := hrec.headerAt
  rcases readFile_cases view errno filename offset buf.length buf.length (by omega) hrec.length_lt
    hrec.length_lt (some kUserDataSize) with ⟨-, hbad⟩ | ⟨-, -, c, hc, -, hout⟩
  · exact absurd ⟨by decide, hoffset, content, hopen, hhead⟩ hbad
  · rw [hopen, Except.ok.injEq] at hc
    subst hc
    rw [hout, Nat.min_self, hrec.slice_body, huser]
    simp

end BundleStore
