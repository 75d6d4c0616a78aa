import BundleStore.Analysis.RecordFormat
import BundleStore.Model.World

set_option autoImplicit false

/-!
# A batch is read back

`BatchWrite` appends one record at a time and hands out a URL that was built
before the offset moved on. As long as the URLs can be taken apart again, every
one of them leads `Read` to the record of its own call, however many follow.
-/

namespace BundleStore

open Machine Posix

/-- The records that URLs are made for. -/
structure InRange (info : Info) : Prop where
  id_range : 0 ≤ info.id ∧ info.id < 2 ^ 31
  offset_lt : info.offset < 2 ^ 63
  size_lt : info.size < 2 ^ 63
  prefix_nul : 0 ∉ info.prefix_

/-- The pair gives back the id, the prefix, the offset and the size of this record. -/
def RoundTripsAt (build : BuildUrl) (extract : ExtractUrl) (info : Info) : Prop :=
  ∃ got, extract (cstr (build info)) {} = some got ∧
    got.id = info.id ∧ got.prefix_ = info.prefix_ ∧ got.offset = info.offset ∧
    got.size = info.size

/-- It does so for every record. -/
def RoundTrips (build : BuildUrl) (extract : ExtractUrl) : Prop :=
  ∀ info, InRange info → RoundTripsAt build extract info

/-- The path leads to a file with this content. -/
def FileHas (t : Tree) (cwd : Loc) (path content : Bytes) : Prop :=
  ∃ fd, t.openRdwr cwd path = .ok fd ∧ t.content fd.loc = some content

/-- The writer stands at the end of its bundle, whose size is a multiple of 1024. -/
structure AtEnd (setting : Setting) (storage : Bytes) (build : BuildUrl) (t : Tree) (cwd : Loc)
    (content : Bytes) (w : Writer) : Prop where
  builder : w.builder_ = some build
  filename : w.filename_ = bundleFile setting storage w.info_.prefix_ w.info_.id
  storage_nul : 0 ∉ storage
  prefix_nul : 0 ∉ w.info_.prefix_
  id_range : 0 ≤ w.info_.id ∧ w.info_.id < 2 ^ 31
  file : FileHas t cwd w.filename_ content
  offset : w.info_.offset = content.length
  aligned : content.length % 1024 = 0

/-- A content and the user data that goes with it. -/
abbrev Item : Type := Bytes × Option Bytes

/-- One `BatchWrite` after the other, and what each of them returned. -/
def writeBatch (w : Writer) : List Item → Sys (List (WriteResult × Option Bytes))
  | [] => pure []
  | item :: items => do
      let (w, result, url) ← w.batchWrite item.1 item.2
      let rest ← writeBatch w items
      pure ((result, url) :: rest)

/-- The infos that the URLs of a batch are built from: each has the size of its content
and stands behind the records before it. -/
def batchInfos (info : Info) : List Item → List Info
  | [] => []
  | item :: items =>
      { info with size := item.1.length } ::
        batchInfos
          { info with size := item.1.length, offset := info.offset + fullSize item.1 } items

/-- The call returned zero and a URL at which exactly its own bytes are read, and
its own user data when that fills its field. -/
def ReadsBack (setting : Setting) (storage : Bytes) (extract : ExtractUrl) (view : FileView)
    (item : Item) (r : WriteResult × Option Bytes) : Prop :=
  r.1 = .returned 0 item.1.length ∧
    ∃ url ud, r.2 = some url ∧
      (∀ errno, readUrl setting view errno url storage (some extract) =
        .returned 0 (some item.1) (some ud)) ∧
      ∀ full, item.2 = some full → full.length = kUserDataSize → ud = full

/-! ## File names are C strings -/

/-- There is no NUL in a joined path. -/
theorem pathJoin_nul_free {a b : Bytes} (ha : 0 ∉ a) (hb : 0 ∉ b) : 0 ∉ pathJoin a b := by
  unfold pathJoin
  split
  · exact ha
  · split
    · exact hb
    · split
      · exact hb
      · split
        · simp [ha, hb]
        · simp [ha, hb]

/-- No hexadecimal digit is a NUL. -/
theorem hexDigit_ne_zero {d : ℕ} (h : d < 16) : Text.hexDigit d ≠ 0 := by
  intro hzero
  have hnat := Text.hexDigit_toNat h
  rw [hzero] at hnat
  split at hnat
  · exact absurd hnat.symm (by simp)
  · exact absurd hnat.symm (by simp)

/-- There is no NUL in the name of a bundle. -/
theorem bid2Filename_nul_free (setting : Setting) (bid : ℤ) : 0 ∉ bid2Filename setting bid := by
  have hhex : ∀ n : ℕ, (0 : UInt8) ∉ Text.hex8 n := by
    intro n h
    obtain ⟨d, hd, hdigit⟩ := Text.mem_hex8 h
    exact hexDigit_ne_zero hd hdigit.symm
  unfold bid2Filename
  simp only [List.mem_append, not_or]
  exact ⟨⟨hhex _, by decide⟩, hhex _⟩

/-- The path of a bundle is a C string. -/
theorem cstr_bundleFile (setting : Setting) (id : ℤ) {storage prefix_ : Bytes}
    (hstorage : 0 ∉ storage) (hpre : 0 ∉ prefix_) :
    cstr (bundleFile setting storage prefix_ id) = bundleFile setting storage prefix_ id := by
  apply cstr_of_nul_free
  apply pathJoin_nul_free
  · exact pathJoin_nul_free hstorage hpre
  · exact bid2Filename_nul_free setting id

/-! ## One call -/

/-- A multiple of 1024 is never narrowed to `-1`. -/
theorem int32_ne_neg_one {n : ℕ} (h : n % 1024 = 0) : int32 n ≠ -1 := by
  intro hneg
  have hmod := Int.bmod_def (n : ℤ) (2 ^ 32)
  unfold int32 at hneg
  rw [hneg] at hmod
  split at hmod <;> omega

section Serve

variable {ι κ : Type} [DecidableEq ι] [DecidableEq κ] {cwd : Loc} (proc : ι → κ)
variable {env : World.Surroundings} (i : ι)

/-- A `Write` at the end of a bundle appends its record.
SOURCE: bundle.cc:329-390 -/
theorem run_writeRecord_serve (henv : env.Sound) {world : World ι κ} {file content : Bytes}
    (hfile : FileHas world.tree cwd file content) (haligned : content.length % 1024 = 0)
    (url : Bytes) {buf : Bytes} (user_data : Option Bytes) (hsize : fullSize buf < 2 ^ 31)
    (hend : content.length + fullSize buf < 2 ^ 63) :
    ∃ world', (writeRecord file content.length url buf user_data).run
        (World.serve cwd proc env i) world = (.returned 0 buf.length, world') ∧
      FileHas world'.tree cwd file
        (content ++ recordBytes (env.heap (fullSize buf)) url buf user_data) := by
  obtain ⟨fd, hopen, hcontent⟩ := hfile
  obtain ⟨-, htotal, hfits, -⟩ := recordTotal_of_fullSize hsize
  have hheap := henv.heap (fullSize buf)
  have hlen : (recordBytes (env.heap (fullSize buf)) url buf user_data).length = fullSize buf := by
    rw [length_recordBytes _ _ _ _ (by omega), hheap]
  have hpos : int32 content.length ≠ -1 := int32_ne_neg_one haligned
  have hoff : content.length < 2 ^ 63 := by omega
  have hcount : int32 (fullSize buf) = fullSize buf := int32_natCast hsize
  refine ⟨world.wrote ⟨fd.loc, content.length⟩ (.record ⟨url, buf, user_data⟩)
    (recordBytes (env.heap (fullSize buf)) url buf user_data) (fullSize buf), ?_, ?_⟩
  · have hneg : ¬ (fullSize buf : ℤ) < 0 := by omega
    have hover : ¬ (fullSize buf : ℤ) < kFileHeaderSize + buf.length := by omega
    unfold writeRecord
    simp only [Prog.op_bind, Prog.run_call, World.serve, World.answer, hopen, hoff, if_true,
      hpos, if_false, htotal, hneg, hover, Int.toNat_natCast, hlen, hend, hcount, ne_eq,
      not_true_eq_false, or_self]
    rfl
  · refine ⟨fd, ?_, ?_⟩
    · exact Tree.openRdwr_write hopen _ _
    · show (world.tree.write ⟨fd.loc, content.length⟩ _).content fd.loc = _
      rw [List.take_of_length_le (le_of_eq hlen), ← ByteSeq.overwrite_length 0]
      exact @Tree.content_write_self _ ⟨fd.loc, content.length⟩ _ hcontent _

/-- A `BatchWrite` at the end of a bundle returns zero and the URL of its record,
and leaves the writer at the end again.
SOURCE: bundle.cc:392-405 -/
theorem run_batchWrite_serve (henv : env.Sound) {setting : Setting} {storage content : Bytes}
    {build : BuildUrl} {world : World ι κ} {w : Writer}
    (hw : AtEnd setting storage build world.tree cwd content w) {buf : Bytes}
    (user_data : Option Bytes) (hsize : fullSize buf < 2 ^ 31)
    (hend : content.length + fullSize buf < 2 ^ 63) :
    ∃ world' w', (w.batchWrite buf user_data).run (World.serve cwd proc env i) world =
        ((w', .returned 0 buf.length,
          some (build { w.info_ with size := buf.length })), world') ∧
      AtEnd setting storage build world'.tree cwd
        (content ++ recordBytes (env.heap (fullSize buf))
          (build { w.info_ with size := buf.length }) buf user_data) w' ∧
      w'.info_ = { w.info_ with
        size := buf.length, offset := w.info_.offset + fullSize buf } := by
  obtain ⟨hrecord, -, hfits, hmod⟩ := recordTotal_of_fullSize hsize
  have haligned := hw.aligned
  obtain ⟨world', hrun, hfile⟩ := run_writeRecord_serve proc i henv hw.file haligned
    (build { w.info_ with size := buf.length }) user_data hsize hend
  have hlen : (recordBytes (env.heap (fullSize buf)) (build { w.info_ with size := buf.length }) buf
      user_data).length = fullSize buf := by
    rw [length_recordBytes _ _ _ _ (by rw [henv.heap]; exact hfits), henv.heap]
  have hnext : uint64 ((w.info_.offset : ℤ) + recordSize buf.length) =
      content.length + fullSize buf := by
    rw [hw.offset, hrecord, ← Nat.cast_add, uint64_natCast (by omega)]
  refine ⟨world'.completed (canon cwd w.filename_) w.info_.offset
    ⟨build { w.info_ with size := buf.length }, buf, user_data⟩, { w with info_ :=
    { w.info_ with size := buf.length, offset := content.length + fullSize buf } }, ?_, ?_, ?_⟩
  · unfold Writer.batchWrite Writer.writeUrl Writer.ensureUrl
    rw [← hw.offset] at hrun
    dsimp only at hrun
    simp only [hw.builder, Prog.run_bind, hrun, Prog.pure_eq_ret, Prog.run_ret, hnext]
    rfl
  · constructor
    · exact hw.builder
    · exact hw.filename
    · exact hw.storage_nul
    · exact hw.prefix_nul
    · exact hw.id_range
    · exact hfile
    · rw [List.length_append, hlen]
    · rw [List.length_append, hlen]
      omega
  · rw [hw.offset]

end Serve

/-- A record is read back through the URL that was built for it.
SOURCE: bundle.cc:217-250 -/
theorem readUrl_recordAt {setting : Setting} {storage : Bytes} {build : BuildUrl}
    {extract : ExtractUrl} {view : FileView} {info : Info}
    (hpair : RoundTripsAt build extract info) (hinfo : InRange info) (hurl : build info ≠ [])
    (hstorage : 0 ∉ storage) {content heap : Bytes} {url buf : Bytes} {user_data : Option Bytes}
    (hsize : info.size = buf.length)
    (hopen : view.fopen (bundleFile setting storage info.prefix_ info.id) = .ok content)
    (hrec : RecordAt content info.offset heap url buf user_data) (errno : ℕ) :
    readUrl setting view errno (build info) storage (some extract) =
      .returned 0 (some buf) (some (recordHeader heap url buf user_data).user_data_) := by
  obtain ⟨got, hgot, hid, hpre, hoffset, hgotsize⟩ := hpair
  have hname := cstr_bundleFile setting info.id hstorage hinfo.prefix_nul
  have hread := readFile_recordAt hopen hrec hinfo.offset_lt errno
  have hthrow : ¬ 2 ^ 63 ≤ buf.length := by
    have hlt := hrec.length_lt
    omega
  unfold readUrl
  simp only [hurl, if_false, Option.getD_some, hgot, hid, hpre, hoffset, hgotsize, hsize,
    hthrow, hname, hread, List.take_length]

/-- A record appended to a file stands behind what was there, whatever comes after it. -/
theorem recordAt_append (content rest : Bytes) {heap buf : Bytes} (url : Bytes)
    (user_data : Option Bytes) (hroom : kFileHeaderSize + buf.length ≤ heap.length)
    (hlt : buf.length < 2 ^ 31) :
    RecordAt (content ++ (recordBytes heap url buf user_data ++ rest)) content.length heap url buf
      user_data := by
  have hlen := length_recordBytes heap url buf user_data hroom
  refine ⟨hroom, hlt, ?_, ?_⟩
  · simp only [List.length_append, hlen]
    omega
  · unfold ByteSeq.slice
    rw [List.drop_left' rfl, List.take_left' hlen]

/-- The next record of a writer at the end of its bundle is in the range of a URL. -/
theorem AtEnd.inRange {t : Tree} {cwd : Loc} {setting : Setting} {storage content : Bytes}
    {build : BuildUrl} {w : Writer} (hw : AtEnd setting storage build t cwd content w) {size : ℕ}
    (hoffset : content.length < 2 ^ 63) (hsize : size < 2 ^ 63) :
    InRange { w.info_ with size } where
  id_range := hw.id_range
  offset_lt := hw.offset.trans_lt hoffset
  size_lt := hsize
  prefix_nul := hw.prefix_nul

section Batch

variable {ι κ : Type} [DecidableEq ι] [DecidableEq κ] {cwd : Loc} (proc : ι → κ)
variable {env : World.Surroundings} (i : ι)
variable {setting : Setting} {storage : Bytes} {build : BuildUrl} {extract : ExtractUrl}

/-- The induction over the batch: the file only grows at its end, so a record
that stands in it stays where it is. -/
theorem writeBatch_reads_back (henv : env.Sound) (items : List Item) :
    ∀ {world : World ι κ} {w : Writer} {content : Bytes},
      AtEnd setting storage build world.tree cwd content w →
      (∀ info ∈ batchInfos w.info_ items, RoundTripsAt build extract info ∧ build info ≠ []) →
      (∀ item ∈ items, fullSize item.1 < 2 ^ 31) →
      content.length + (items.map fun item => fullSize item.1).sum < 2 ^ 63 →
      (∃ rest, FileHas ((writeBatch w items).run (World.serve cwd proc env i) world).2.tree cwd
        w.filename_ (content ++ rest)) ∧
      List.Forall₂ (ReadsBack setting storage extract
          (treeView ((writeBatch w items).run (World.serve cwd proc env i) world).2.tree cwd))
        items ((writeBatch w items).run (World.serve cwd proc env i) world).1 := by
  induction items with
  | nil =>
      intro world w content hw _ _ _
      refine ⟨⟨[], ?_⟩, .nil⟩
      rw [List.append_nil]
      exact hw.file
  | cons item items ih =>
      intro world w content hw hinfos hitems htotal
      obtain ⟨buf, user_data⟩ := item
      simp only [List.map_cons, List.sum_cons] at htotal
      have hsize : fullSize buf < 2 ^ 31 := hitems (buf, user_data) List.mem_cons_self
      obtain ⟨world', w', hrun, hw', hnext⟩ :=
        run_batchWrite_serve proc i henv hw user_data hsize (by omega)
      have hhead := hinfos _ List.mem_cons_self
      obtain ⟨-, -, hfits, -⟩ := recordTotal_of_fullSize hsize
      generalize hinfo : ({ w.info_ with size := buf.length } : Info) = info at hrun hw' hhead
      generalize hheap : env.heap (fullSize buf) = heap at hw'
      have hheaplen : heap.length = fullSize buf := by
        rw [← hheap, henv.heap]
      have hroom : kFileHeaderSize + buf.length ≤ heap.length := by omega
      have hlen : (recordBytes heap (build info) buf user_data).length = heap.length :=
        length_recordBytes heap (build info) buf user_data hroom
      obtain ⟨⟨rest, hfile⟩, htail⟩ := ih hw'
        (fun info' h' => hinfos info' (List.mem_cons_of_mem _ (hnext ▸ h')))
        (fun item' h' => hitems item' (List.mem_cons_of_mem _ h'))
        (by rw [List.length_append, hlen, hheaplen]; omega)
      have hname : w'.filename_ = w.filename_ := by
        rw [hw'.filename, hw.filename, hnext]
      rw [hname, List.append_assoc] at hfile
      have hbatch : (writeBatch w ((buf, user_data) :: items)).run (World.serve cwd proc env i)
          world = ((.returned 0 buf.length, some (build info)) ::
            ((writeBatch w' items).run (World.serve cwd proc env i) world').1,
            ((writeBatch w' items).run (World.serve cwd proc env i) world').2) := by
        simp only [writeBatch, Prog.run_bind, hrun, Prog.pure_eq_ret, Prog.run_ret]
      rw [hbatch]
      refine ⟨⟨_, hfile⟩, .cons ⟨rfl, build info,
        (recordHeader heap (build info) buf user_data).user_data_, rfl, ?_, ?_⟩ htail⟩
      · intro errno
        -- the record of this call, in the file that the whole batch leaves behind
        have hrange : InRange info := hinfo ▸ hw.inRange (by omega) (by omega)
        have hoffset : info.offset = content.length := hinfo ▸ hw.offset
        have hrec := recordAt_append content rest (build info) user_data hroom (by omega)
        rw [← hoffset] at hrec
        obtain ⟨fd, hopen, hcontent⟩ := hfile
        have hview : (treeView
            ((writeBatch w' items).run (World.serve cwd proc env i) world').2.tree cwd).fopen
              (bundleFile setting storage info.prefix_ info.id) =
            .ok (content ++ (recordBytes heap (build info) buf user_data ++ rest)) := by
          have hpath : bundleFile setting storage info.prefix_ info.id = w.filename_ := by
            rw [hw.filename, ← hinfo]
          rw [hpath]
          simp only [treeView, hopen, hcontent, Option.getD_some]
        have hinfosize : info.size = buf.length := by
          rw [← hinfo]
        exact readUrl_recordAt hhead.1 hrange hhead.2 hw.storage_nul hinfosize hview hrec errno
      · intro full hfull hfulllen
        have hsome : user_data = some full := hfull
        rw [hsome]
        exact recordHeader_user_data heap (build info) buf hfulllen

/-- **A batch is read back**: every `BatchWrite` returns zero and a URL, and
after the last one each URL gives the bytes of its own call, and its user data. The
URL functions have to round-trip the records of the batch.
SOURCE: bundle.cc:217-250,392-405 -/
theorem batch_reads_back (henv : env.Sound) {world : World ι κ} {w : Writer}
    {content : Bytes} (hw : AtEnd setting storage build world.tree cwd content w)
    {items : List Item}
    (hinfos : ∀ info ∈ batchInfos w.info_ items, RoundTripsAt build extract info ∧ build info ≠ [])
    (hitems : ∀ item ∈ items, fullSize item.1 < 2 ^ 31)
    (htotal : content.length + (items.map fun item => fullSize item.1).sum < 2 ^ 63) :
    List.Forall₂ (ReadsBack setting storage extract
        (treeView ((writeBatch w items).run (World.serve cwd proc env i) world).2.tree cwd))
      items ((writeBatch w items).run (World.serve cwd proc env i) world).1 :=
  (writeBatch_reads_back proc i henv items hw hinfos hitems htotal).2

end Batch

/-! ## A pair of URL functions, and one empty URL -/

/-- A URL that counts: one byte for each unit of a number. -/
def tallyBuild : BuildUrl := fun info =>
  List.replicate info.id.toNat 1 ++ 2 :: (List.replicate info.offset 1 ++ 2 ::
    (List.replicate info.size 1 ++ 2 :: info.prefix_))

/-- The units at the front, and what follows their end mark. -/
def tally (url : Bytes) : ℕ × Bytes :=
  ((url.takeWhile (· == 1)).length, (url.dropWhile (· == 1)).drop 1)

def tallyExtract : ExtractUrl := fun url info =>
  let id := tally url
  let offset := tally id.2
  let size := tally offset.2
  some { info with id := id.1, offset := offset.1, size := size.1, prefix_ := size.2 }

/-- The ones at the front are counted. -/
theorem tally_replicate (n : ℕ) (rest : Bytes) :
    tally (List.replicate n 1 ++ 2 :: rest) = (n, rest) := by
  induction n with
  | zero => simp [tally]
  | succ n ih =>
      simp only [tally, Prod.mk.injEq] at ih
      simp only [tally, List.replicate_succ, List.cons_append, Prod.mk.injEq]
      refine ⟨?_, ?_⟩
      · rw [List.takeWhile_cons_of_pos rfl, List.length_cons, ih.1]
      · rw [List.dropWhile_cons_of_pos rfl, ih.2]

/-- The URL of the example is a C string. -/
theorem cstr_tallyBuild {info : Info} (hinfo : InRange info) :
    cstr (tallyBuild info) = tallyBuild info := by
  apply cstr_of_nul_free
  unfold tallyBuild
  simp only [List.mem_append, List.mem_cons, List.mem_replicate, not_or]
  exact ⟨by simp, by simp, by simp, by simp, by simp, by simp, hinfo.prefix_nul⟩

/-- The pair of functions of the example round-trips. -/
theorem tally_roundTrips : RoundTrips tallyBuild tallyExtract := by
  intro info hinfo
  have hid := hinfo.id_range.1
  refine ⟨_, rfl, ?_⟩
  rw [cstr_tallyBuild hinfo]
  simp only [tallyBuild, tally_replicate, and_self, and_true]
  omega

/-- The URL of the example is not empty. -/
theorem tallyBuild_ne_nil (info : Info) : tallyBuild info ≠ [] := by
  unfold tallyBuild
  simp

/-- The tree of a storage whose bundle 0 of prefix `p` is new. -/
def newBundleTree : Tree :=
  ((((Tree.bare.setDir [Text.ascii "p"]).setDir
    [Text.ascii "00000000", Text.ascii "p"])).setFile
      [Text.ascii "00000000", Text.ascii "00000000", Text.ascii "p"]
      (List.replicate kBundleHeaderSize 0))

def newBundleWorld : World Unit Unit where
  tree := newBundleTree
  errno _ := 0
  lastId _ := 0
  holds _ _ := false
  lockRead _ := 0
  log _ := {}

/-- The writer that was allocated on it. -/
def newBundleWriter (build : BuildUrl) : Writer where
  filename_ := Text.ascii "p/00000000/00000000"
  filelock_ := none
  builder_ := some build
  info_ :=
    { id := 0, offset := kBundleHeaderSize, prefix_ := Text.ascii "p"
      postfix_ := Text.ascii ".jpg" }

/-- The new bundle of the example is at its end. -/
theorem newBundleWriter_atEnd (build : BuildUrl) :
    AtEnd defaultSetting [] build newBundleTree [] (List.replicate kBundleHeaderSize 0)
      (newBundleWriter build) where
  builder := rfl
  filename :=
    show Text.ascii "p/00000000/00000000" =
        bundleFile defaultSetting [] (Text.ascii "p") 0 by
      decide +kernel
  storage_nul := by decide
  prefix_nul := show 0 ∉ Text.ascii "p" by decide
  id_range := show (0 : ℤ) ≤ 0 ∧ (0 : ℤ) < 2 ^ 31 by decide
  file := by
    refine ⟨⟨[Text.ascii "00000000", Text.ascii "00000000", Text.ascii "p"], 0⟩, ?_, ?_⟩
    · rfl
    · apply Tree.content_setFile_self
      decide +kernel
  offset := by
    rw [List.length_replicate]
    rfl
  aligned := by
    rw [List.length_replicate]
    rfl

/-- Three records, the second one empty and the third one with full user data. -/
def threeItems : List Item :=
  [(Text.ascii "first", none), ([], some [1, 2, 3]),
    (Text.ascii "third", some (List.replicate kUserDataSize 7))]

/-- The three records are read back through the URLs of `BuildSimple`. -/
theorem batch_reads_back_three :
    List.Forall₂ (ReadsBack defaultSetting [] extractSimple
        (treeView ((writeBatch (newBundleWriter buildSimple) threeItems).run
          (World.serve [] id World.Surroundings.plain ()) newBundleWorld).2.tree []))
      threeItems ((writeBatch (newBundleWriter buildSimple) threeItems).run
        (World.serve [] id World.Surroundings.plain ()) newBundleWorld).1 := by
  refine batch_reads_back id () World.Surroundings.plain_sound
    (newBundleWriter_atEnd buildSimple) ?_ ?_ ?_
  · intro info hinfo
    simp only [threeItems, batchInfos, List.mem_cons, List.not_mem_nil, or_false] at hinfo
    rcases hinfo with rfl | rfl | rfl
    · exact ⟨⟨_, rfl, by decide +kernel⟩, by decide +kernel⟩
    · exact ⟨⟨_, rfl, by decide +kernel⟩, by decide +kernel⟩
    · exact ⟨⟨_, rfl, by decide +kernel⟩, by decide +kernel⟩
  · intro item hitem
    simp only [threeItems, List.mem_cons, List.not_mem_nil, or_false] at hitem
    rcases hitem with rfl | rfl | rfl <;> decide +kernel
  · rw [List.length_replicate]
    decide +kernel

/-- The same pair of functions, but the empty file at the start of bundle 0 has
the empty string for its URL. -/
def emptyUrlInfo (info : Info) : Prop :=
  info.id = 0 ∧ info.offset = 1024 ∧ info.size = 0 ∧ info.prefix_ = Text.ascii "p"

instance (info : Info) : Decidable (emptyUrlInfo info) :=
  inferInstanceAs (Decidable (_ ∧ _ ∧ _ ∧ _))

def terseBuild : BuildUrl := fun info =>
  if emptyUrlInfo info then [] else tallyBuild info

def terseExtract : ExtractUrl := fun url info =>
  if url = [] then
    some { info with id := 0, offset := 1024, size := 0, prefix_ := Text.ascii "p" }
  else tallyExtract url info

/-- The terse pair of functions round-trips. -/
theorem terse_roundTrips : RoundTrips terseBuild terseExtract := by
  intro info hinfo
  unfold RoundTripsAt
  by_cases hempty : emptyUrlInfo info
  · obtain ⟨hid, hoffset, hsize, hpre⟩ := hempty
    have hbuild : terseBuild info = [] := if_pos ⟨hid, hoffset, hsize, hpre⟩
    rw [hbuild]
    exact ⟨_, rfl, hid.symm, hpre.symm, hoffset.symm, hsize.symm⟩
  · have hbuild : terseBuild info = tallyBuild info := if_neg hempty
    obtain ⟨got, hgot, hsame⟩ := tally_roundTrips info hinfo
    rw [hbuild]
    refine ⟨got, ?_, hsame⟩
    unfold terseExtract
    rw [cstr_tallyBuild hinfo] at hgot ⊢
    rw [if_neg (tallyBuild_ne_nil info)]
    exact hgot

/-- The record at the empty URL is written, and `Read` refuses the URL. -/
theorem not_batch_reads_back :
    ¬ ∀ (build : BuildUrl) (extract : ExtractUrl), RoundTrips build extract →
      ∀ (world : World Unit Unit) (w : Writer) (content : Bytes) (items : List Item),
        AtEnd defaultSetting [] build world.tree [] content w →
        (∀ item ∈ items, fullSize item.1 < 2 ^ 31) →
        content.length + (items.map fun item => fullSize item.1).sum < 2 ^ 63 →
        List.Forall₂ (ReadsBack defaultSetting [] extract
            (treeView ((writeBatch w items).run
              (World.serve [] id World.Surroundings.plain ()) world).2.tree []))
          items ((writeBatch w items).run
            (World.serve [] id World.Surroundings.plain ()) world).1 := by
  intro hall
  have hread := hall terseBuild terseExtract terse_roundTrips newBundleWorld
    (newBundleWriter terseBuild) _ [([], none)] (newBundleWriter_atEnd terseBuild)
    (fun item hitem => by
      rw [List.mem_singleton] at hitem
      subst hitem
      decide +kernel)
    (by
      rw [List.length_replicate]
      decide +kernel)
  have hsize : fullSize [] < 2 ^ 31 := by decide +kernel
  have hend : (List.replicate kBundleHeaderSize (0 : UInt8)).length + fullSize [] < 2 ^ 63 := by
    rw [List.length_replicate]
    decide +kernel
  have hw : AtEnd defaultSetting [] terseBuild newBundleWorld.tree []
      (List.replicate kBundleHeaderSize 0) (newBundleWriter terseBuild) :=
    newBundleWriter_atEnd terseBuild
  obtain ⟨world', w', hrun, -, -⟩ :=
    run_batchWrite_serve id () World.Surroundings.plain_sound hw none hsize hend
  simp only [writeBatch, Prog.run_bind, hrun, Prog.pure_eq_ret, Prog.run_ret] at hread
  cases hread with
  | cons hhead _ =>
      obtain ⟨-, url, ud, hurl, hok, -⟩ := hhead
      have hempty : url = [] := by
        rw [← Option.some.inj hurl]
        decide +kernel
      have hrefused := hok 0
      rw [hempty] at hrefused
      unfold readUrl at hrefused
      rw [if_pos rfl, UrlRead.returned.injEq] at hrefused
      exact absurd hrefused.1 (by decide)

end BundleStore
