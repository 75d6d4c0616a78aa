import BundleStore.Model.Reader

set_option autoImplicit false

/-!
# When a successful read is a complete read

`Read` checks the header it finds, and then reads the content. At a file that
ends inside the content the count is short and `errno` is returned, which no
call has set: a stale zero turns the short read into a success.
-/

namespace BundleStore

open Machine

/-- The 512 bytes at `offset` are a header that allows to read `length` bytes. -/
structure HeaderAt (content : Bytes) (offset length : ℕ) : Prop where
  complete : offset + kFileHeaderSize ≤ content.length
  magic : (FileHeader.ofBytes (ByteSeq.slice content offset kFileHeaderSize)).magic_ =
    FileHeader.kMAGIC_CODE
  version : (FileHeader.ofBytes (ByteSeq.slice content offset kFileHeaderSize)).version_ =
    FileHeader.kVERSION
  length_le : length ≤ (FileHeader.ofBytes (ByteSeq.slice content offset kFileHeaderSize)).length_
  flag : (FileHeader.ofBytes (ByteSeq.slice content offset kFileHeaderSize)).flag_ =
    FileHeader.kFILE_NORMAL

/-- The bytes in `buf` are the first `n` bytes of the content of the record. -/
def ContentRead (content : Bytes) (offset n : ℕ) (buf : Bytes) : Prop :=
  buf.length = n ∧ buf = ByteSeq.slice content (offset + kFileHeaderSize) n

/-- `Read(filename, ...)` returns zero only for a valid record that was read as
far as asked. -/
def ReadReports (view : FileView) (errno : ℕ) (filename : Bytes) (offset length buf_size : ℕ)
    (user_data_size : Option ℕ) : Prop :=
  let out := readFile view errno filename offset length buf_size user_data_size
  out.ret = 0 → ∃ content, view.fopen filename = .ok content ∧ HeaderAt content offset length ∧
    out.readed = some (min length buf_size) ∧
    ContentRead content offset (min length buf_size) out.buf

/-- `Read(url, ...)` returns zero only with all bytes of a valid record. -/
def UrlReadReports (setting : Setting) (view : FileView) (errno : ℕ) (url storage : Bytes)
    (extract : Option ExtractUrl) : Prop :=
  ∀ buf user_data,
    readUrl setting view errno url storage extract = .returned 0 buf user_data →
      ∃ info content got, (extract.getD setting.extract) (cstr url) {} = some info ∧
        view.fopen (cstr (bundleFile setting storage info.prefix_ info.id)) = .ok content ∧
        HeaderAt content info.offset info.size ∧ buf = some got ∧
        ContentRead content info.offset info.size got

/-- The file ends inside the bytes that are asked for, behind a valid header. -/
def EndsInContent (view : FileView) (filename : Bytes) (offset length n : ℕ) : Prop :=
  ∃ content, view.fopen filename = .ok content ∧ offset < 2 ^ 63 ∧
    HeaderAt content offset length ∧ content.length < offset + kFileHeaderSize + n

section Read

variable (view : FileView) (errno : ℕ) (filename : Bytes) (offset length buf_size : ℕ)

/-- A header is short at the end of the file. -/
theorem length_head (content : Bytes) :
    (ByteSeq.slice content offset kFileHeaderSize).length < kFileHeaderSize ↔
      ¬ offset + kFileHeaderSize ≤ content.length := by
  rw [ByteSeq.length_slice]
  unfold kFileHeaderSize
  omega

/-- An offset from 2^63 on is negative. -/
theorem int64_neg (h : offset < 2 ^ 64) : int64 offset < 0 ↔ ¬ offset < 2 ^ 63 := by
  unfold int64
  rw [Int.bmod_def]
  split <;> omega

/-- The count that is asked of the second `fread`. -/
theorem int32_rsize {length buf_size : ℕ} (hlength : length < 2 ^ 31) (hbuf : buf_size < 2 ^ 31) :
    int32 (if length > buf_size then buf_size else length : ℕ) = (min length buf_size : ℕ) := by
  have hmin : (if length > buf_size then buf_size else length) = min length buf_size := by
    split <;> omega
  rw [hmin, int32_natCast (by omega)]

/-- What a read does, with its checks of the header seen as one: it is refused,
or it reads on, and then the count alone decides.
SOURCE: bundle.cc:265-306 -/
theorem readFile_cases (hoffset : offset < 2 ^ 64) (hlength : length < 2 ^ 31)
    (hbuf : buf_size < 2 ^ 31) (user_data_size : Option ℕ) :
    ((readFile view errno filename offset length buf_size user_data_size).ret ≠ 0 ∧
      ¬(user_data_size.any (· < kUserDataSize) = false ∧ offset < 2 ^ 63 ∧
        ∃ content, view.fopen filename = .ok content ∧ HeaderAt content offset length)) ∨
    (user_data_size.any (· < kUserDataSize) = false ∧ offset < 2 ^ 63 ∧
      ∃ content, view.fopen filename = .ok content ∧ HeaderAt content offset length ∧
        readFile view errno filename offset length buf_size user_data_size =
          (let buf := ByteSeq.slice content (offset + kFileHeaderSize) (min length buf_size)
          if buf.length < min length buf_size then
            { ret := errno, readed := some buf.length, buf }
          else
            { ret := 0, readed := some buf.length, buf,
              user_data := user_data_size.map fun _ =>
                (FileHeader.ofBytes
                  (ByteSeq.slice content offset kFileHeaderSize)).user_data_ })) := by
  have hEIO : ((Posix.EIO : ℕ) : ℤ) ≠ 0 := by decide
  have hEINVAL : ((Posix.EINVAL : ℕ) : ℤ) ≠ 0 := by decide
  unfold readFile
  by_cases huser : user_data_size.any (· < kUserDataSize) = true
  · rw [if_pos huser]
    refine .inl ⟨hEINVAL, fun h => ?_⟩
    rw [huser] at h
    exact Bool.noConfusion h.1
  · rw [if_neg huser]
    have huser' : user_data_size.any (· < kUserDataSize) = false := by simpa using huser
    cases hopen : view.fopen filename with
    | error e =>
        refine .inl ⟨?_, fun h => ?_⟩
        · exact Nat.cast_ne_zero.mpr (view.error_ne_zero filename e hopen)
        · obtain ⟨_, _, content, hok, _⟩ := h
          cases hok
    | ok content =>
        simp only
        by_cases hoff : int64 offset < 0
        · rw [if_pos hoff]
          refine .inl ⟨hEINVAL, fun h => ?_⟩
          exact (int64_neg offset hoffset).mp hoff h.2.1
        · rw [if_neg hoff]
          have hoff' : offset < 2 ^ 63 := by
            rw [int64_neg offset hoffset, not_not] at hoff
            exact hoff
          -- each check that fails is a field of `HeaderAt` that fails
          have hrefuse : ∀ out : ReadOut, out.ret = Posix.EIO → ¬ HeaderAt content offset length →
              out.ret ≠ 0 ∧ ¬(user_data_size.any (· < kUserDataSize) = false ∧ offset < 2 ^ 63 ∧
                ∃ c, (Except.ok content : Except ℕ Bytes) = .ok c ∧ HeaderAt c offset length) := by
            intro out hret hbad
            refine ⟨by rw [hret]; exact hEIO, fun h => ?_⟩
            obtain ⟨_, _, c, hc, hhead⟩ := h
            cases hc
            exact hbad hhead
          by_cases hhead : (ByteSeq.slice content offset kFileHeaderSize).length < kFileHeaderSize
          · rw [if_pos hhead]
            refine .inl (hrefuse _ rfl fun h => ?_)
            exact (length_head offset content).mp hhead h.complete
          · rw [if_neg hhead]
            by_cases hmagic : FileHeader.kMAGIC_CODE ≠
                (FileHeader.ofBytes (ByteSeq.slice content offset kFileHeaderSize)).magic_
            · rw [if_pos hmagic]
              exact .inl (hrefuse _ rfl fun h => hmagic h.magic.symm)
            · rw [if_neg hmagic]
              by_cases hversion : FileHeader.kVERSION ≠
                  (FileHeader.ofBytes (ByteSeq.slice content offset kFileHeaderSize)).version_
              · rw [if_pos hversion]
                exact .inl (hrefuse _ rfl fun h => hversion h.version.symm)
              · rw [if_neg hversion]
                by_cases hlen : (FileHeader.ofBytes
                    (ByteSeq.slice content offset kFileHeaderSize)).length_ < length
                · rw [if_pos hlen]
                  exact .inl (hrefuse _ rfl fun h => absurd h.length_le (Nat.not_le.mpr hlen))
                · rw [if_neg hlen]
                  by_cases hflag : FileHeader.kFILE_NORMAL ≠
                      (FileHeader.ofBytes (ByteSeq.slice content offset kFileHeaderSize)).flag_
                  · rw [if_pos hflag]
                    exact .inl (hrefuse _ rfl fun h => hflag h.flag.symm)
                  · rw [if_neg hflag]
                    have hvalid : HeaderAt content offset length := by
                      constructor
                      · rw [length_head, not_not] at hhead
                        exact hhead
                      · exact (not_not.mp hmagic).symm
                      · exact (not_not.mp hversion).symm
                      · exact Nat.not_lt.mp hlen
                      · exact (not_not.mp hflag).symm
                    refine .inr ⟨huser', hoff', content, rfl, hvalid, ?_⟩
                    have hle : (ByteSeq.slice content (offset + kFileHeaderSize)
                        (min length buf_size)).length ≤ min length buf_size := by
                      rw [ByteSeq.length_slice]
                      exact Nat.min_le_left _ _
                    rw [int32_rsize hlength hbuf, uint64_natCast (by omega)]
                    rw [int32_natCast (by omega), uint64_natCast (by omega)]
                    simp only [Nat.cast_lt]

/-- **`Read(filename, ...)` reports honestly exactly when no valid header is cut
off from its content while `errno` is zero.** -/
theorem readReports_iff (hoffset : offset < 2 ^ 64) (hlength : length < 2 ^ 31)
    (hbuf : buf_size < 2 ^ 31) (user_data_size : Option ℕ) :
    ReadReports view errno filename offset length buf_size user_data_size ↔
      ¬(errno = 0 ∧ user_data_size.any (· < kUserDataSize) = false ∧
        EndsInContent view filename offset length (min length buf_size)) := by
  unfold ReadReports EndsInContent
  rcases readFile_cases view errno filename offset length buf_size hoffset hlength hbuf
    user_data_size with ⟨hret, hbad⟩ | ⟨huser, hoff, content, hopen, hhead, hout⟩
  · constructor
    · rintro - ⟨-, huser, content, hopen, hoff, hhead, -⟩
      exact hbad ⟨huser, hoff, content, hopen, hhead⟩
    · intro _ out hzero
      exact absurd hzero hret
  · rw [hout]
    have hcomplete := hhead.complete
    have hlen := ByteSeq.length_slice content (offset + kFileHeaderSize) (min length buf_size)
    by_cases hshort : (ByteSeq.slice content (offset + kFileHeaderSize)
        (min length buf_size)).length < min length buf_size
    · simp only [hshort, if_true]
      constructor
      · rintro hreport ⟨hzero, -⟩
        obtain ⟨c, _, _, hreaded, _⟩ := hreport (by rw [hzero]; rfl)
        simp only [Option.some.injEq] at hreaded
        omega
      · intro hshown hzero
        refine absurd ⟨Nat.cast_eq_zero.mp hzero, huser, content, hopen, hoff, hhead, ?_⟩ hshown
        omega
    · simp only [hshort, if_false]
      constructor
      · rintro - ⟨-, -, c, hc, -, -, hcut⟩
        rw [hopen, Except.ok.injEq] at hc
        subst hc
        omega
      · intro _ _
        refine ⟨content, hopen, hhead, ?_, ?_, rfl⟩
        · rw [Option.some.injEq]
          omega
        · omega

end Read

/-- The same of `Read(url, ...)`, for a URL of a record below two gigabytes. -/
theorem urlReadReports_iff (setting : Setting) (view : FileView) (errno : ℕ) (url storage : Bytes)
    (extract : Option ExtractUrl)
    (hinfo : ∀ info, (extract.getD setting.extract) (cstr url) {} = some info →
      info.offset < 2 ^ 64 ∧ info.size < 2 ^ 31) :
    UrlReadReports setting view errno url storage extract ↔
      ¬(errno = 0 ∧ url ≠ [] ∧ ∃ info, (extract.getD setting.extract) (cstr url) {} = some info ∧
        EndsInContent view (cstr (bundleFile setting storage info.prefix_ info.id)) info.offset
          info.size info.size) := by
  unfold UrlReadReports readUrl
  by_cases hurl : url = []
  · simp [hurl]
  · rw [if_neg hurl]
    cases hex : (extract.getD setting.extract) (cstr url) {} with
    | none => simp
    | some info =>
        obtain ⟨hoffset, hsize⟩ := hinfo info hex
        have hthrow : ¬ 2 ^ 63 ≤ info.size := by omega
        simp only [hthrow, if_false]
        rcases readFile_cases view errno (cstr (bundleFile setting storage info.prefix_ info.id))
          info.offset info.size info.size hoffset hsize hsize (some kUserDataSize) with
          ⟨hret, hbad⟩ | ⟨huser, hoff, content, hopen, hhead, hout⟩
        · constructor
          · rintro - ⟨-, -, info', hinfo', content, hopen, hoff, hhead, -⟩
            rw [Option.some.injEq] at hinfo'
            subst hinfo'
            exact hbad ⟨by decide, hoff, content, hopen, hhead⟩
          · intro _ buf user_data heq
            rw [UrlRead.returned.injEq] at heq
            exact absurd heq.1 hret
        · rw [hout, Nat.min_self]
          have hcomplete := hhead.complete
          have hlen := ByteSeq.length_slice content (info.offset + kFileHeaderSize) info.size
          by_cases hshort : (ByteSeq.slice content (info.offset + kFileHeaderSize)
              info.size).length < info.size
          · simp only [hshort, if_true, Option.getD_some, List.take_length]
            constructor
            · rintro hreport ⟨hzero, -⟩
              obtain ⟨info', _, got, hinfo', _, _, hgot, hread, _⟩ :=
                hreport _ _ (by rw [hzero]; rfl)
              rw [Option.some.injEq] at hinfo' hgot
              subst hinfo' hgot
              omega
            · intro hshown buf user_data heq
              rw [UrlRead.returned.injEq] at heq
              refine absurd ⟨Nat.cast_eq_zero.mp heq.1, hurl, info, rfl, content, hopen, hoff,
                hhead, ?_⟩ hshown
              omega
          · simp only [hshort, if_false, Option.getD_some, List.take_length]
            constructor
            · rintro - ⟨-, -, info', hinfo', c, hc, -, -, hcut⟩
              rw [Option.some.injEq] at hinfo'
              subst hinfo'
              rw [hopen, Except.ok.injEq] at hc
              subst hc
              omega
            · intro _ buf user_data heq
              rw [UrlRead.returned.injEq] at heq
              exact ⟨info, content, _, rfl, hopen, hhead, heq.2.1.symm, by omega, rfl⟩

/-- **Both `Read`s report complete and valid reads only, exactly when no valid
header is cut off from its content while `errno` is zero.**
SOURCE: bundle.cc:217-307, bundle.h:90-104 -/
theorem reads_report_iff (setting : Setting) (view : FileView) (errno : ℕ)
    (filename : Bytes) (offset length buf_size : ℕ) (user_data_size : Option ℕ)
    (hoffset : offset < 2 ^ 64) (hlength : length < 2 ^ 31) (hbuf : buf_size < 2 ^ 31)
    (url storage : Bytes) (extract : Option ExtractUrl)
    (hinfo : ∀ info, (extract.getD setting.extract) (cstr url) {} = some info →
      info.offset < 2 ^ 64 ∧ info.size < 2 ^ 31) :
    (ReadReports view errno filename offset length buf_size user_data_size ↔
      ¬(errno = 0 ∧ user_data_size.any (· < kUserDataSize) = false ∧
        EndsInContent view filename offset length (min length buf_size))) ∧
    (UrlReadReports setting view errno url storage extract ↔
      ¬(errno = 0 ∧ url ≠ [] ∧ ∃ info, (extract.getD setting.extract) (cstr url) {} = some info ∧
        EndsInContent view (cstr (bundleFile setting storage info.prefix_ info.id)) info.offset
          info.size info.size)) :=
  ⟨readReports_iff view errno filename offset length buf_size hoffset hlength hbuf user_data_size,
    urlReadReports_iff setting view errno url storage extract hinfo⟩

/-- A bundle whose only record, of a hundred bytes, lost its last twelve. -/
def tornBundle : Bytes :=
  List.replicate kBundleHeaderSize 0 ++
    (recordHeader (List.replicate 1024 0) (Text.ascii "p/1.jpg") (List.replicate 100 1)
      none).bytes ++
    List.replicate 88 1

/-- Every name opens the torn bundle. -/
def tornView : FileView where
  fopen _ := .ok tornBundle
  error_ne_zero _ _ h := by cases h

/-- Every URL names the torn record. -/
def tornExtract : ExtractUrl := fun _ info =>
  some { info with id := 0, offset := 1024, size := 100 }

/-- With `errno` set, neither read of the torn bundle succeeds. -/
theorem reads_report_torn :
    ReadReports tornView Posix.EIO [] 1024 100 100 none ∧
      UrlReadReports defaultSetting tornView Posix.EIO (Text.ascii "p/1.jpg") []
        (some tornExtract) := by
  have hiff := reads_report_iff defaultSetting tornView Posix.EIO [] 1024 100 100 none
    (by norm_num) (by norm_num) (by norm_num) (Text.ascii "p/1.jpg") [] (some tornExtract)
    (fun info h => by
      simp only [Option.getD_some, tornExtract, Option.some.injEq] at h
      subst h
      norm_num)
  exact ⟨hiff.1.mpr fun h => absurd h.1 (by decide), hiff.2.mpr fun h => absurd h.1 (by decide)⟩

/-- With `errno` at zero a read of the torn bundle succeeds with 88 bytes. -/
theorem not_reads_report :
    ¬ ∀ (view : FileView) (errno : ℕ) (filename : Bytes) (offset length buf_size : ℕ),
      offset < 2 ^ 64 → length < 2 ^ 31 → buf_size < 2 ^ 31 →
        ReadReports view errno filename offset length buf_size none := by
  intro hall
  have hreport := hall tornView 0 [] 1024 100 100 (by norm_num) (by norm_num) (by norm_num)
  have hret : (readFile tornView 0 [] 1024 100 100 none).ret = 0 := by decide +kernel
  have hshort : (readFile tornView 0 [] 1024 100 100 none).readed = some 88 := by decide +kernel
  obtain ⟨_, _, _, hreaded, _⟩ := hreport hret
  rw [hshort] at hreaded
  exact absurd hreaded (by decide)

end BundleStore
