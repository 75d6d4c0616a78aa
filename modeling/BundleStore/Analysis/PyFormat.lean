import BundleStore.Analysis.BatchReadBack
import BundleStore.Analysis.PyRounds
import BundleStore.Analysis.RecordFormat

set_option autoImplicit false

/-!
# The records of the two implementations

Both put a header of 512 bytes with the same magic number in front of a content, but not with
the same fields: `struct.pack` has the length second, and counts the header with it, while
`FileHeader` has it last and counts the content only. A reader of one finds the length of the
other where it expects a version or a flag.
-/

namespace BundleStore

namespace PyBundle

open Machine Posix

variable {ι : Type} [DecidableEq ι]

/-! ## What a reader sees -/

/-- A file that is there can be opened and has its bytes. -/
theorem fopen_of_content {t : Tree} {cwd : Loc} {name c : Bytes}
    (hpath : t.lookup cwd name = .ok (canon cwd name)) (hc : t.content (canon cwd name) = some c) :
    (treeView t cwd).fopen name = .ok c := by
  have hnode := Tree.content_eq_some.mp hc
  simp only [treeView, Tree.openRdwr, Tree.onPath, hpath, hnode, hc, Option.getD_some]

/-- A file with something written to it has that between a front and a rest. -/
theorem overwrite_parts (c : Bytes) (pos : ℕ) {b : Bytes} (hb : b ≠ []) :
    ∃ front rest, ByteSeq.overwrite 0 c pos b = front ++ b ++ rest ∧ front.length = pos := by
  refine ⟨_, _, ByteSeq.overwrite_of_ne_nil 0 c pos hb, ?_⟩
  rw [List.length_append, List.length_take, List.length_replicate]
  omega

/-! ## A Python record -/

section PyRecord

variable {front url content rest : Bytes}

/-- `Reader::Read` takes the length for a version, and refuses it. -/
theorem readFile_py_record {view : FileView} {filename : Bytes}
    (hopen : view.fopen filename = .ok (front ++ record url content ++ rest))
    (hoffset : front.length < 2 ^ 63) (hurl : url.length ≤ 256)
    (hlength : content.length + kFileHeaderSize < 2 ^ 32) (errno length buf_size : ℕ)
    {user_data_size : Option ℕ} (huser : user_data_size.any (· < kUserDataSize) = false) :
    readFile view errno filename front.length length buf_size user_data_size = { ret := EIO } := by
  obtain ⟨hmagic, hlen, -, -⟩ := recordHead_fields hlength url
  have hhead : ByteSeq.slice (front ++ record url content ++ rest) front.length
      BundleStore.kFileHeaderSize = recordHead content.length url := slice_record_head hurl
  have hsize : ¬ (recordHead content.length url).length < BundleStore.kFileHeaderSize := by
    rw [length_recordHead hurl]
    exact lt_irrefl _
  have hversion : FileHeader.kVERSION ≠ content.length + kFileHeaderSize := by
    unfold FileHeader.kVERSION kFileHeaderSize
    omega
  have hpos : ¬ int64 front.length < 0 := by
    rw [int64_natCast hoffset]
    omega
  have hmagic' : ¬ FileHeader.kMAGIC_CODE ≠ kMAGIC := fun h => h rfl
  unfold readFile
  simp only [huser, hopen, hpos, hhead, hsize, FileHeader.ofBytes, hmagic, hmagic', hlen, hversion,
    ne_eq, Bool.false_eq_true, if_false, not_false_eq_true, if_true]

end PyRecord

/-! ## A record of `Writer::Write` -/

section CppRecord

variable {L : Places} {i : ι} {w w' : World ι ι} {offset : ℕ} {heap url buf content : Bytes}
  {user_data : Option Bytes}

/-- An `open` that failed has left its reason. -/
theorem openRdwr_failed {path : Bytes} {w₁ w₂ : World ι ι} {e : ℕ}
    (hopen : WholeSem L i (.openRdwr path) w none w₁) (herrno : WholeSem L i .errno w₁ e w₂) :
    e ≠ 0 := by
  obtain ⟨e', hreason, rfl⟩ := hopen.1
  obtain ⟨rfl, -⟩ := herrno.1
  have hread : (w.setErrno i e').errno i = e' := Function.update_self _ _ _
  rw [hread]
  obtain herror | hspurious := hreason
  · exact Tree.openRdwr_error_ne_zero herror
  · exact hspurious.1

/-- What `Write` leaves, if it returns 0: the record at the offset. -/
theorem writeRecord_spec {file : Bytes} {n : ℕ}
    (h : (writeRecord file offset url buf user_data).Executes (WholeSem L i) w (.returned 0 n) w') :
    offset < 2 ^ 63 ∧ ∃ c heap, BundleStore.kFileHeaderSize + buf.length ≤ heap.length ∧
      buf.length < 2 ^ 31 ∧ heap.length % 1024 = 0 ∧
      (treeView w'.tree L.cwd).fopen file =
        .ok (ByteSeq.overwrite 0 c offset (recordBytes heap url buf user_data)) := by
  obtain ⟨answer, w₁, hopen, h⟩ := h
  cases answer with
  | none =>
      obtain ⟨e, w₂, herrno, heq, -⟩ := h
      have hzero : (0 : ℤ) = e := (WriteResult.returned.inj heq).1
      exact absurd hzero.symm (Nat.cast_ne_zero.mpr (openRdwr_failed hopen herrno))
  | some fd =>
      obtain ⟨hopen, rfl⟩ := hopen.1
      have hpath := Tree.onPath_lookup hopen
      obtain ⟨rfl, c, hc⟩ := Tree.openRdwr_ok hopen
      obtain ⟨⟨pos, fd⟩, w₂, hseek, h⟩ := h
      change Prog.Executes _ (ite _ _ _) _ _ _ at h
      split at h
      · obtain ⟨closed, w₃, -, heq, -⟩ := h
        cases heq
      rename_i hpos
      change Prog.Executes _ (ite _ _ _) _ _ _ at h
      split at h
      · cases h.1
      split at h
      · cases h.1
      rename_i hnonneg hfits
      have htotal := recordTotal_eq (n := buf.length) (by omega)
      have hrange : recordTotal buf.length < 2 ^ 31 := (int32_range _).2
      obtain ⟨heap, w₃, ⟨⟨hheap, rfl⟩, -⟩, count, w₄, hwrite, closed, w₅, hclose, h⟩ := h
      have hroom : BundleStore.kFileHeaderSize + buf.length ≤ heap.length := by omega
      have hlength := length_recordBytes heap url buf user_data hroom
      have hcount : int32 count = recordTotal buf.length := by
        have hall : count = ((recordBytes heap url buf user_data).length : ℤ) := hwrite.2
        rw [hall, hlength, int32_natCast (by omega)]
        omega
      have hdone : w' = w₅ := by
        change Prog.Executes _ (ite _ _ _) _ _ _ at h
        split at h
        · omega
        · exact h.2
      subst hdone
      obtain ⟨hlt, -, rfl, rfl⟩ | ⟨hfailed, -, -⟩ := hseek.1
      · have hputs := (wrote_puts hwrite hc).of_tree (closed_tree hclose)
        refine ⟨hlt, c, heap, hroom, by omega, by omega, ?_⟩
        exact fopen_of_content (hputs.grows.lookup hpath) hputs.content
      · have hminus : int32 pos = -1 := by
          rw [hfailed]
          exact int32_of_range (by norm_num) (by norm_num)
        exact absurd hminus hpos

/-- A record that was written is there.
SOURCE: bundle.cc:329-390 -/
theorem recordAt_overwrite (c : Bytes)
    (hfits : BundleStore.kFileHeaderSize + buf.length ≤ heap.length)
    (hlength : buf.length < 2 ^ 31) :
    RecordAt (ByteSeq.overwrite 0 c offset (recordBytes heap url buf user_data)) offset heap url buf
      user_data := by
  have hsize := length_recordBytes heap url buf user_data hfits
  have hne : recordBytes heap url buf user_data ≠ [] := by
    intro hnil
    rw [hnil, List.length_nil] at hsize
    unfold BundleStore.kFileHeaderSize at hfits
    omega
  refine ⟨hfits, hlength, ?_, ?_⟩
  · rw [ByteSeq.length_overwrite _ _ _ hne, hsize]
    exact le_max_right _ _
  · rw [← hsize]
    exact ByteSeq.slice_overwrite_self 0 c offset _

/-- The four numbers of `FileHeader`, as `walk` unpacks them. -/
theorem cpp_head_fields (hrec : RecordAt content offset heap url buf user_data) :
    (fpRead content offset kFileHeaderSize).length = kFileHeaderSize ∧
      readLe32 (fpRead content offset kFileHeaderSize) 0 = kMAGIC ∧
      readLe32 (fpRead content offset kFileHeaderSize) 4 = 1 ∧
      readLe32 (fpRead content offset kFileHeaderSize) 8 = 1 ∧
      readLe32 (fpRead content offset kFileHeaderSize) 12 = buf.length := by
  have hfits := hrec.fits
  have hlt := hrec.length_lt
  have hformed := recordHeader_wellFormed heap url buf user_data (by omega)
  have hhead :
      fpRead content offset kFileHeaderSize = (recordHeader heap url buf user_data).bytes :=
    (fpRead_natCast content offset kFileHeaderSize).trans hrec.slice_head
  have hparse := hformed.ofBytes_bytes
  rw [hhead]
  refine ⟨hformed.length_bytes, ?_, ?_, ?_, ?_⟩
  · exact congrArg FileHeader.magic_ hparse
  · exact congrArg FileHeader.version_ hparse
  · exact congrArg FileHeader.flag_ hparse
  · have hlength := congrArg FileHeader.length_ hparse
    exact hlength.trans (uint32_natCast (by omega))

/-- `walk` takes the length for a flag: only one byte passes, and then it reads everything. -/
theorem walkRound_cpp_record (hrec : RecordAt content offset heap url buf user_data)
    (haligned : offset % 1024 = 0) (hpadded : heap.length % 1024 = 0) :
    (buf.length ≠ 1 → walkRound content offset = .fails) ∧
      ∀ item pos, walkRound content offset = .yields item pos → item.content ≠ buf := by
  obtain ⟨hsize, hmagic, hlen, hversion, hflag⟩ := cpp_head_fields hrec
  have hpos : align1k offset = offset := by
    rw [align1k_eq]
    omega
  have hfails : buf.length ≠ 1 → walkRound content offset = .fails := by
    intro hne
    unfold walkRound
    simp only [hpos, hsize, hmagic, hversion, hflag, hne, lt_irrefl, ne_eq, not_true_eq_false,
      if_false, not_false_eq_true, if_true]
  refine ⟨hfails, fun item pos hround hbuf => ?_⟩
  by_cases hone : buf.length = 1
  · have hall : item.content = content.drop (offset + kFileHeaderSize) := by
      unfold walkRound at hround
      simp only [hpos, hsize, hmagic, hversion, hflag, hone, hlen, lt_irrefl, ne_eq,
        not_true_eq_false, if_false] at hround
      split at hround
      · cases hround
      split at hround
      · cases hround
        rfl
      · cases hround
    have hshort : (content.drop (offset + kFileHeaderSize)).length = 1 := by
      rw [← hall, hbuf, hone]
    have hinside := hrec.inside
    have hfits := hrec.fits
    rw [List.length_drop] at hshort
    unfold BundleStore.kFileHeaderSize at hfits
    unfold kFileHeaderSize at hshort
    omega
  · rw [hfails hone] at hround
    cases hround

end CppRecord

/-! ## One record for two readers -/

section Formats

variable (L : Places) (i : ι)

/-- `Reader::Read` gives back what `Writer.write` has written. -/
def ReadByCpp : Prop :=
  ∀ (writer : Writer) (url content : Bytes) (w w' : World ι ι), writer.url = some url →
    url.length ≤ 255 → writer.length = content.length → content.length < 2 ^ 31 - 1024 →
    (writer.write content).Executes (WholeSem L i) w (some content.length) w' →
    ∀ errno,
      let out := readFile (treeView w'.tree L.cwd) errno writer.filename writer.offset
        content.length content.length (some kUserDataSize)
      out.ret = 0 ∧ out.buf = content

/-- `walk` yields what `Writer::Write` has written. -/
def FoundByWalk : Prop :=
  ∀ (filename url content : Bytes) (offset : ℕ) (user_data : Option Bytes) (w w' : World ι ι),
    url ≠ [] → 0 ∉ url → url.length ≤ 255 → content.length < 2 ^ 31 - 1024 → offset % 1024 = 0 →
    (writeRecord filename offset url content user_data).Executes (WholeSem L i) w
      (.returned 0 content.length) w' →
    ∃ file flag pos, (treeView w'.tree L.cwd).fopen filename = .ok file ∧
      walkRound file offset = .yields ⟨flag, url, content⟩ pos

/-- What the readers make of a record of `Writer.write`: `walk` finds it, `Reader::Read` does
not. -/
def PyRecordApart (url content : Bytes) : Prop :=
  ∀ (writer : Writer) (w w' : World ι ι), writer.url = some url →
    writer.length = content.length →
    (writer.write content).Executes (WholeSem L i) w (some content.length) w' →
    ∃ file, (treeView w'.tree L.cwd).fopen writer.filename = .ok file ∧
      (url ≠ [] → 0 ∉ url → ∃ pos,
        walkRound file writer.offset = .yields ⟨kFILE_NORMAL, url, content⟩ pos) ∧
      ∀ errno length buf_size user_data_size,
        user_data_size.any (· < kUserDataSize) = false →
        readFile (treeView w'.tree L.cwd) errno writer.filename writer.offset length buf_size
          user_data_size = { ret := EIO }

/-- What the readers make of a record of `Writer::Write`: `Reader::Read` gives it back, and
`walk` fails at it, or for one byte takes the rest of the file for its content. -/
def CppRecordApart (url content : Bytes) : Prop :=
  ∀ (filename : Bytes) (offset : ℕ) (user_data : Option Bytes) (w w' : World ι ι),
    offset % 1024 = 0 →
    (writeRecord filename offset url content user_data).Executes (WholeSem L i) w
      (.returned 0 content.length) w' →
    ∃ file, (treeView w'.tree L.cwd).fopen filename = .ok file ∧
      (∀ errno,
        let out := readFile (treeView w'.tree L.cwd) errno filename offset content.length
          content.length (some kUserDataSize)
        out.ret = 0 ∧ out.buf = content) ∧
      (content.length ≠ 1 → walkRound file offset = .fails) ∧
      ∀ item pos, walkRound file offset = .yields item pos → item.content ≠ content

variable {L i} {url content : Bytes}

/-- A Python record is read by its own reader alone. -/
theorem py_record_apart (hurl : url.length ≤ 255) (hcontent : content.length < 2 ^ 31 - 1024) :
    PyRecordApart L i url content := by
  intro writer w w' hown hlength h
  obtain ⟨url', c, hown', -, ⟨haligned, hoffset, hpath⟩, hputs⟩ := write_spec h
  obtain rfl : url = url' := Option.some.inj (hown.symm.trans hown')
  rw [huge_eq_record hlength] at hputs
  have hopen := fopen_of_content (hputs.grows.lookup hpath) hputs.content
  have hne : record url content ≠ [] := by
    intro hnil
    have hlen := length_record (show url.length ≤ 256 by omega) content
    rw [hnil, align1k_eq, List.length_nil] at hlen
    unfold kFileHeaderSize at hlen
    omega
  obtain ⟨front, rest, hparts, hfront⟩ := overwrite_parts c writer.offset hne
  rw [hparts] at hopen
  have hsmall : content.length + kFileHeaderSize < 2 ^ 32 := by
    unfold kFileHeaderSize
    omega
  refine ⟨_, hopen, fun hnonempty hnul => ?_, fun errno length buf_size user_data_size huser => ?_⟩
  · have hpos : align1k writer.offset = front.length := by
      rw [← haligned, hfront]
    exact ⟨_, walkRound_record hpos (by omega) hnonempty hnul hsmall⟩
  · rw [← hfront]
    exact readFile_py_record hopen (by omega) (by omega) hsmall errno length buf_size huser

/-- A record of `Writer::Write` is read by its own reader alone. -/
theorem cpp_record_apart : CppRecordApart L i url content := by
  intro filename offset user_data w w' haligned h
  obtain ⟨hoffset, c, heap, hfits, hlt, hpadded, hopen⟩ := writeRecord_spec h
  have hrec : RecordAt (ByteSeq.overwrite 0 c offset (recordBytes heap url content user_data))
      offset heap url content user_data := recordAt_overwrite c hfits hlt
  refine ⟨_, hopen, fun errno => ?_, walkRound_cpp_record hrec haligned hpadded⟩
  rw [readFile_recordAt hopen hrec hoffset errno]
  exact ⟨rfl, rfl⟩

/-- **Each implementation reads back its own records, and not those of the other.**
SOURCE: bundle.cc:217-390, bundle.py:30-122 -/
theorem formats_apart (L : Places) (i : ι) {url content : Bytes} (hurl : url.length ≤ 255)
    (hcontent : content.length < 2 ^ 31 - 1024) :
    PyRecordApart L i url content ∧ CppRecordApart L i url content :=
  ⟨py_record_apart hurl hcontent, cpp_record_apart⟩

end Formats

/-- A record of three bytes for a new bundle, of either kind. -/
theorem formats_apart_abc :
    PyRecordApart twoPlaces false (Text.ascii "a.jpg") [97, 98, 99] ∧
      CppRecordApart twoPlaces false (Text.ascii "a.jpg") [97, 98, 99] :=
  formats_apart twoPlaces false (by decide) (by norm_num)

deriving instance DecidableEq for WriteResult

def threeByteWriter : Writer where
  flock := { lockfile := Text.ascii "locks/0" }
  filename := Text.ascii "p/00000000/00000000"
  bid := Text.ascii "0"
  offset := kBundleHeaderSize
  length := 3
  url := some (Text.ascii "a.jpg")

def newRecord : Sys WriteResult :=
  writeRecord (Text.ascii "p/00000000/00000000") 1024 (Text.ascii "a.jpg") [97, 98, 99] none

/-- Neither reader finds the content of the other's record. -/
theorem not_formats_shared : ¬ ReadByCpp twoPlaces false ∧ ¬ FoundByWalk twoPlaces false := by
  constructor
  · intro hshared
    have hexec : (threeByteWriter.write [97, 98, 99]).Executes (WholeSem twoPlaces false)
        (World.start newBundleTree) _ _ :=
      Prog.executes_run faultless_whole (by decide +kernel)
    have hresult : ((threeByteWriter.write [97, 98, 99]).run (faultless false)
        (World.start newBundleTree)).1 = some 3 := by
      decide +kernel
    rw [hresult] at hexec
    have hapart : PyRecordApart twoPlaces false (Text.ascii "a.jpg") [97, 98, 99] :=
      py_record_apart (by decide) (by norm_num)
    obtain ⟨file, -, -, hrefused⟩ := hapart threeByteWriter _ _ rfl rfl hexec
    have hread := (hshared threeByteWriter _ _ _ _ rfl (by decide) rfl (by norm_num) hexec 0).1
    rw [hrefused 0 _ _ _ (by decide)] at hread
    exact absurd hread (by decide)
  · intro hshared
    have hexec : newRecord.Executes (WholeSem twoPlaces false) (World.start newBundleTree) _ _ :=
      Prog.executes_run faultless_whole (by decide +kernel)
    have hresult : (newRecord.run (faultless false) (World.start newBundleTree)).1 =
        .returned 0 3 := by
      decide +kernel
    rw [hresult] at hexec
    obtain ⟨file, hopen, -, hfails, -⟩ := cpp_record_apart _ _ _ _ _ (by decide) hexec
    obtain ⟨file', flag, pos, hopen', hround⟩ := hshared _ _ _ _ _ _ _ (by decide) (by decide)
      (by decide) (by norm_num) (by decide) hexec
    obtain rfl := Except.ok.inj (hopen.symm.trans hopen')
    rw [hfails (by decide)] at hround
    cases hround

end PyBundle

end BundleStore
