import BundleStore.Analysis.PyBundle
import BundleStore.Model.PyReader

set_option autoImplicit false

/-!
# What `walk` finds in a bundle

A record that `write` has put at a multiple of 1024 is found by a round of `walk`, with its
URL and its content, and the next round starts at the next record: `align1k` of the position
behind the content is the end of the padding.
-/

namespace BundleStore

namespace PyBundle

open Machine

/-! ## The record -/

/-- A size is rounded up to 1024.
SOURCE: bundle.py:346-366 -/
theorem align1k_eq (v : ℕ) : align1k v = (v + 1023) / 1024 * 1024 := by
  unfold align1k
  split <;> omega

/-- A rounded size is a multiple of 1024. -/
theorem align1k_mod (v : ℕ) : align1k v % 1024 = 0 := by
  rw [align1k_eq]
  omega

/-- A multiple of 1024 stays in front. -/
theorem align1k_add {n : ℕ} (hn : n % 1024 = 0) (v : ℕ) : align1k (n + v) = n + align1k v := by
  simp only [align1k_eq]
  omega

/-- The 512 bytes in front of a content. -/
def recordHead (length : ℕ) (url : Bytes) : Bytes :=
  le32 kMAGIC ++ le32 (length + kFileHeaderSize) ++ le32 1 ++ le32 kFILE_NORMAL ++ ljust url 256 ++
    List.replicate (256 - 4 * 4) 0

/-- The record of a content that is as long as it was said to be. -/
def record (url content : Bytes) : Bytes :=
  recordHead content.length url ++
    ljust content (align1k (kFileHeaderSize + content.length) - kFileHeaderSize)

/-- What a writer writes is the record of its content.
SOURCE: bundle.py:95-112 -/
theorem huge_eq_record {writer : Writer} {url content : Bytes}
    (h : writer.length = content.length) : writer.huge url content = record url content := by
  simp only [Writer.huge, record, recordHead, h]

/-- A text that is padded has the larger length. -/
theorem length_ljust (s : Bytes) (width : ℕ) : (ljust s width).length = max s.length width := by
  unfold ljust
  rw [List.length_append, List.length_replicate]
  omega

/-- The head of a record has its size.
SOURCE: bundle.py:95-104 -/
theorem length_recordHead {url : Bytes} (hurl : url.length ≤ 256) (length : ℕ) :
    (recordHead length url).length = kFileHeaderSize := by
  simp only [recordHead, List.length_append, length_le32, length_ljust, List.length_replicate]
  unfold kFileHeaderSize
  omega

/-- A record has its content's size, rounded up.
SOURCE: bundle.py:107-110 -/
theorem length_record {url : Bytes} (hurl : url.length ≤ 256) (content : Bytes) :
    (record url content).length = align1k (kFileHeaderSize + content.length) := by
  rw [record, List.length_append, length_recordHead hurl, length_ljust, align1k_eq]
  unfold kFileHeaderSize
  omega

/-- What stands in the fields of the header. -/
theorem recordHead_fields {length : ℕ} (hlength : length + kFileHeaderSize < 2 ^ 32) (url : Bytes) :
    readLe32 (recordHead length url) 0 = kMAGIC ∧
      readLe32 (recordHead length url) 4 = length + kFileHeaderSize ∧
      readLe32 (recordHead length url) 8 = 1 ∧ readLe32 (recordHead length url) 12 = 1 := by
  have hmagic : kMAGIC < 2 ^ 32 := by decide
  refine ⟨?_, ?_, ?_, ?_⟩
  · have hread := readLe32_append_le32 [] hmagic (le32 (length + kFileHeaderSize) ++ le32 1 ++
      le32 kFILE_NORMAL ++ ljust url 256 ++ List.replicate (256 - 4 * 4) 0)
    simpa [recordHead] using hread
  · have hread := readLe32_append_le32 (le32 kMAGIC) hlength (le32 1 ++ le32 kFILE_NORMAL ++
      ljust url 256 ++ List.replicate (256 - 4 * 4) 0)
    simpa [recordHead] using hread
  · have hread := readLe32_append_le32 (le32 kMAGIC ++ le32 (length + kFileHeaderSize))
      (show 1 < 2 ^ 32 by norm_num) (le32 kFILE_NORMAL ++ ljust url 256 ++
        List.replicate (256 - 4 * 4) 0)
    simpa [recordHead] using hread
  · have hread := readLe32_append_le32
      (le32 kMAGIC ++ le32 (length + kFileHeaderSize) ++ le32 1)
      (show kFILE_NORMAL < 2 ^ 32 by decide) (ljust url 256 ++ List.replicate (256 - 4 * 4) 0)
    simpa [recordHead, kFILE_NORMAL] using hread

/-- The URL ends at the first zero behind the four numbers. -/
theorem recordHead_url {url : Bytes} (hurl : url.length ≤ 256) (hnul : 0 ∉ url) (length : ℕ) :
    ((recordHead length url).drop 16).findIdx? (· == 0) = some url.length ∧
      ByteSeq.slice (recordHead length url) 16 url.length = url := by
  have hdrop : (recordHead length url).drop 16 =
      url ++ (List.replicate (256 - url.length) 0 ++ List.replicate (256 - 4 * 4) 0) := by
    unfold recordHead ljust
    rw [List.append_assoc, List.drop_left' (by simp), List.append_assoc]
  constructor
  · have hzeros : List.replicate (256 - url.length) (0 : UInt8) ++ List.replicate (256 - 4 * 4) 0 =
        0 :: List.replicate (495 - url.length) 0 := by
      rw [← List.replicate_add, ← List.replicate_succ]
      congr 1
      omega
    rw [hdrop, hzeros, List.findIdx?_append, Text.findIdx?_eq_none_of_not_mem hnul]
    simp [List.findIdx?_cons]
  · rw [ByteSeq.slice, hdrop, List.take_left]

/-! ## One round -/

section Round

variable {front url content rest : Bytes} {pos : ℕ}

/-- A read from a position that is there. -/
theorem fpRead_natCast (file : Bytes) (pos n : ℕ) :
    fpRead file pos n = ByteSeq.slice file pos n := by
  simp [fpRead]

/-- A record begins with its head. -/
theorem slice_record_head (hurl : url.length ≤ 256) :
    ByteSeq.slice (front ++ record url content ++ rest) front.length kFileHeaderSize =
      recordHead content.length url := by
  rw [ByteSeq.slice, List.append_assoc, List.drop_left, record, List.append_assoc,
    List.take_left' (length_recordHead hurl _)]

/-- The content stands behind the head. -/
theorem slice_record_content (hurl : url.length ≤ 256) :
    ByteSeq.slice (front ++ record url content ++ rest) (front.length + kFileHeaderSize)
      content.length = content := by
  rw [ByteSeq.slice, ← List.drop_drop, List.append_assoc, List.drop_left, record,
    List.append_assoc, List.drop_left' (length_recordHead hurl _), ljust, List.append_assoc,
    List.take_left]

/-- A round finds the record. -/
theorem walkRound_record (hpos : align1k pos = front.length) (hurl : url.length ≤ 256)
    (hne : url ≠ []) (hnul : 0 ∉ url) (hlength : content.length + kFileHeaderSize < 2 ^ 32) :
    walkRound (front ++ record url content ++ rest) pos =
      .yields ⟨1, url, content⟩ (front.length + (content.length + kFileHeaderSize)) := by
  obtain ⟨hmagic, hlen, hversion, hflag⟩ := recordHead_fields hlength url
  obtain ⟨hzero, hslice⟩ := recordHead_url hurl hnul content.length
  have hinside : url.length > 0 ∧ url.length < kFileHeaderSize - 16 := by
    have hpos := List.length_pos_of_ne_nil hne
    unfold kFileHeaderSize
    omega
  have hcount : ((content.length + kFileHeaderSize : ℕ) : ℤ) - (kFileHeaderSize : ℕ) =
      (content.length : ℕ) := by
    omega
  unfold walkRound
  simp only [hpos, fpRead_natCast, slice_record_head hurl]
  rw [if_neg (by rw [length_recordHead hurl]; exact lt_irrefl _)]
  simp only [hmagic, hlen, hversion, hflag, ne_eq, not_true_eq_false, if_false, hzero, hinside,
    if_true, hslice, hcount, fpRead_natCast, slice_record_content hurl, and_self]

/-- `read` finds the record that its URL names. -/
theorem read_record {view : FileView} {place prefix_ bid : Bytes}
    (hextract : extractUrl url = some (some ⟨prefix_, bid, front.length, content.length⟩))
    (hopen : view.fopen (bundleFilename bid place) = .ok (front ++ record url content ++ rest))
    (hurl : url.length ≤ 256) (hlength : content.length + kFileHeaderSize < 2 ^ 32)
    (check_flag : Bool) : read view place url check_flag = some content := by
  obtain ⟨hmagic, hlen, hversion, hflag⟩ := recordHead_fields hlength url
  have hcount : ((content.length + kFileHeaderSize : ℕ) : ℤ) - (kFileHeaderSize : ℕ) =
      (content.length : ℕ) := by
    omega
  have hnormal : ¬ (check_flag = true ∧ (1 : ℕ) ≠ kFILE_NORMAL) := fun h => h.2 rfl
  unfold read
  simp only [hextract, hopen, Int.toNat_natCast, fpRead_natCast, slice_record_head hurl,
    length_recordHead hurl]
  rw [if_neg (Int.not_lt.mpr (Int.natCast_nonneg _)), if_neg (by decide)]
  simp only [hmagic, hlen, hversion, hflag, ne_eq, not_true_eq_false, if_false, hcount, hnormal,
    fpRead_natCast, slice_record_content hurl]

end Round

/-! ## The whole file -/

/-- The bytes of several records. -/
def records (items : List (Bytes × Bytes)) : Bytes :=
  (items.map fun item => record item.1 item.2).flatten

/-- What a record needs for `walk` to find it. -/
structure Walkable (item : Bytes × Bytes) : Prop where
  url_le : item.1.length ≤ 256
  url_ne : item.1 ≠ []
  url_nul : 0 ∉ item.1
  length_lt : item.2.length + kFileHeaderSize < 2 ^ 32

/-- The loop finds all records behind a place, and no others. -/
theorem walkLoop_records {items : List (Bytes × Bytes)} {front : Bytes} {pos rounds : ℕ}
    (hitems : ∀ item ∈ items, Walkable item) (hpos : align1k pos = front.length)
    (hrounds : items.length < rounds) :
    walkLoop (front ++ records items) rounds pos =
      (items.map fun item => ⟨1, item.1, item.2⟩, .finished) := by
  induction items generalizing front pos rounds with
  | nil =>
      obtain ⟨r, rfl⟩ := Nat.exists_eq_succ_of_ne_zero (Nat.ne_of_gt hrounds)
      have hbreak : walkRound (front ++ records []) pos = .breaks := by
        have hempty : ByteSeq.slice (front ++ records []) front.length kFileHeaderSize = [] := by
          simp [ByteSeq.slice, records]
        unfold walkRound
        simp only [hpos, fpRead_natCast, hempty]
        exact if_pos (by decide)
      simp only [walkLoop, hbreak, List.map_nil]
  | cons item items ih =>
      obtain ⟨url, content⟩ := item
      obtain ⟨r, rfl⟩ := Nat.exists_eq_succ_of_ne_zero (Nat.ne_of_gt (Nat.zero_lt_of_lt hrounds))
      have hitem := hitems (url, content) List.mem_cons_self
      have hfile : front ++ records ((url, content) :: items) =
          front ++ record url content ++ records items := by
        simp [records]
      have hround : walkRound (front ++ record url content ++ records items) pos =
          .yields ⟨1, url, content⟩ (front.length + (content.length + kFileHeaderSize)) :=
        walkRound_record hpos hitem.url_le hitem.url_ne hitem.url_nul hitem.length_lt
      have hnext : align1k (front.length + (content.length + kFileHeaderSize)) =
          (front ++ record url content).length := by
        have hmod : front.length % 1024 = 0 := by
          rw [← hpos]
          exact align1k_mod pos
        rw [List.length_append, length_record hitem.url_le, align1k_add hmod, Nat.add_comm
          kFileHeaderSize]
      have hrest := ih (fun other hother => hitems other (List.mem_cons_of_mem _ hother)) hnext
        (by simpa using hrounds)
      rw [hfile]
      simp only [walkLoop, hround, hrest, List.map_cons]

end PyBundle

end BundleStore
