import BundleStore.Analysis.Sixty
import BundleStore.Model.Url

set_option autoImplicit false

/-!
# Encoded URLs decode, unless the hash is the error value

`BuildWithEncode` puts four base-sixty numerals between the last slash and the
last dot, so `ExtractWithEncode` finds the same four fields, the same numbers
and the same hash. It refuses them in one case only: a hash of `0xFFFFFFFF` is
taken for the `-1` of a failed `FromSixty`.
-/

namespace BundleStore

open Machine Text

/-- The records a URL is built for: machine-sized numbers, a prefix without NUL,
and a postfix that is a dot and an extension. -/
structure Encodable (info : Info) : Prop where
  id_range : 0 ≤ info.id ∧ info.id < 2 ^ 31
  offset_lt : info.offset < 2 ^ 63
  size_lt : info.size < 2 ^ 63
  prefix_nul : 0 ∉ info.prefix_
  postfix_dot : ∃ ext : Bytes, info.postfix_ = 46 :: ext ∧ 46 ∉ ext ∧ 47 ∉ ext ∧ 0 ∉ ext

/-- Extracting the URL that was built succeeds and gives the fields back. -/
def Decodes (info into : Info) : Prop :=
  ∃ got, extractWithEncode (buildWithEncode info) into = some got ∧
    got.id = info.id ∧ got.offset = info.offset ∧ got.size = info.size ∧
    got.prefix_ = info.prefix_ ∧ got.postfix_ = info.postfix_

/-- The four numerals of a URL, joined by underscores. -/
def joinFields (f₀ f₁ f₂ f₃ : Bytes) : Bytes :=
  f₀ ++ 95 :: (f₁ ++ 95 :: (f₂ ++ 95 :: f₃))

/-- The order in which the stream writes them. -/
theorem append_joinFields (front f₀ f₁ f₂ f₃ rest : Bytes) :
    front ++ [47] ++ f₀ ++ [95] ++ f₁ ++ [95] ++ f₂ ++ [95] ++ f₃ ++ rest =
      front ++ 47 :: (joinFields f₀ f₁ f₂ f₃ ++ rest) := by
  simp [joinFields]

/-- Fields without separators are split apart again. -/
theorem splitFields_joinFields {f₀ f₁ f₂ f₃ : Bytes} (h₀ : ∀ c ∈ f₀, c ∉ ascii ",/._")
    (h₁ : ∀ c ∈ f₁, c ∉ ascii ",/._") (h₂ : ∀ c ∈ f₂, c ∉ ascii ",/._")
    (h₃ : ∀ c ∈ f₃, c ∉ ascii ",/._") :
    splitFields (joinFields f₀ f₁ f₂ f₃) = [f₀, f₁, f₂, f₃] := by
  have hsep : (ascii ",/._").contains 95 = true := by decide
  have hfree : ∀ f : Bytes, (∀ c ∈ f, c ∉ ascii ",/._") →
      f.splitOnP (fun c => (ascii ",/._").contains c) = [f] := by
    intro f hf
    refine List.splitOnP_eq_singleton fun c hc => ?_
    simpa using hf c hc
  simp only [splitFields, joinFields]
  rw [List.splitOnP_append_cons _ _ hsep, List.splitOnP_append_cons _ _ hsep,
    List.splitOnP_append_cons _ _ hsep, hfree f₀ h₀, hfree f₁ h₁, hfree f₂ h₂, hfree f₃ h₃]
  rfl

/-- A URL is the prefix, a slash, a coded part without slash and dot, and the
postfix; extraction cuts it at exactly these places. -/
theorem cut_url (prefix_ coded ext : Bytes) (hslash : 47 ∉ coded) (hext : 46 ∉ ext)
    (hext' : 47 ∉ ext) :
    rfind 47 (prefix_ ++ 47 :: (coded ++ 46 :: ext)) = some prefix_.length ∧
      rfind 46 (prefix_ ++ 47 :: (coded ++ 46 :: ext)) =
        some (prefix_.length + 1 + coded.length) ∧
      codedPart (prefix_ ++ 47 :: (coded ++ 46 :: ext)) (prefix_.length + 1 + coded.length)
        (some prefix_.length) = coded ∧
      (prefix_ ++ 47 :: (coded ++ 46 :: ext)).drop (prefix_.length + 1 + coded.length) =
        46 :: ext := by
  have hfront : prefix_ ++ 47 :: (coded ++ 46 :: ext) =
      (prefix_ ++ 47 :: coded) ++ 46 :: ext := by simp
  have hlen : (prefix_ ++ 47 :: coded).length = prefix_.length + 1 + coded.length := by
    simp only [List.length_append, List.length_cons]
    omega
  refine ⟨?_, ?_, ?_, ?_⟩
  · refine rfind_append_cons prefix_ ?_
    simp only [List.mem_append, List.mem_cons, not_or]
    exact ⟨hslash, by decide, hext'⟩
  · rw [hfront, rfind_append_cons _ hext, hlen]
  · have hdrop : (prefix_ ++ 47 :: (coded ++ 46 :: ext)).drop (prefix_.length + 1) =
        coded ++ 46 :: ext := by
      rw [show prefix_ ++ 47 :: (coded ++ 46 :: ext) =
        (prefix_ ++ [47]) ++ (coded ++ 46 :: ext) by simp]
      exact List.drop_left' (by simp)
    simp only [codedPart]
    rw [if_pos (by omega), ByteSeq.slice, hdrop,
      show prefix_.length + 1 + coded.length - prefix_.length - 1 = coded.length by omega,
      List.take_left' rfl]
  · rw [hfront]
    exact List.drop_left' hlen

/-- The hash that a record's URL carries. -/
def urlHash (info : Info) : UInt32 :=
  hashOf (hashText info.prefix_ info.id info.offset info.size info.postfix_)

/-- A hash is a positive number. -/
theorem urlHash_lt (info : Info) : (urlHash info).toNat < 2 ^ 63 :=
  (urlHash info).toNat_lt.trans (by norm_num)

/-- The four numerals of a record's URL. -/
def codedFields (info : Info) : Bytes :=
  joinFields (toSixty info.id) (toSixty info.offset) (toSixty info.size)
    (toSixty (urlHash info).toNat)

section Encodable

variable {info : Info} (h : Encodable info)
include h

/-- The id is a numeral like the others. -/
theorem Encodable.id_eq : info.id = info.id.toNat ∧ info.id.toNat < 2 ^ 31 := by
  have hrange := h.id_range
  omega

/-- The URL that is built, cut at the last slash and the last dot.
SOURCE: bundle.cc:159-180 -/
theorem buildWithEncode_eq {ext : Bytes} (hpost : info.postfix_ = 46 :: ext) :
    buildWithEncode info = info.prefix_ ++ 47 :: (codedFields info ++ 46 :: ext) := by
  have hslash : ascii "/" = [47] := by decide
  have hunder : ascii "_" = [95] := by decide
  rw [codedFields, ← append_joinFields, ← hslash, ← hunder, ← hpost, ← int64_natCast h.offset_lt,
    ← int64_natCast h.size_lt]
  rfl

/-- No character of a numeral separates fields or ends a C string. -/
theorem mem_numeral {f : Bytes} {c : UInt8}
    (hf : f = toSixty info.id ∨ f = toSixty info.offset ∨ f = toSixty info.size ∨
      f = toSixty (urlHash info).toNat) (hc : c ∈ f) : c ∉ ascii ",/._" ∧ c ≠ 0 := by
  obtain ⟨hid, hidlt⟩ := h.id_eq
  rcases hf with rfl | rfl | rfl | rfl
  · rw [hid] at hc
    exact mem_toSixty (by omega) hc
  · exact mem_toSixty h.offset_lt hc
  · exact mem_toSixty h.size_lt hc
  · exact mem_toSixty (urlHash_lt info) hc

/-- The coded part is split into its four fields. -/
theorem splitFields_codedFields :
    splitFields (codedFields info) =
      [toSixty info.id, toSixty info.offset, toSixty info.size,
        toSixty (urlHash info).toNat] := by
  refine splitFields_joinFields ?_ ?_ ?_ ?_ <;> intro c hc
  · exact (mem_numeral h (.inl rfl) hc).1
  · exact (mem_numeral h (.inr (.inl rfl)) hc).1
  · exact (mem_numeral h (.inr (.inr (.inl rfl))) hc).1
  · exact (mem_numeral h (.inr (.inr (.inr rfl))) hc).1

/-- There is no slash in the coded part. -/
theorem mem_codedFields {c : UInt8} (hc : c ∈ codedFields info) : c ≠ 47 ∧ c ≠ 0 := by
  have hnumeral : ∀ {f : Bytes}, (f = toSixty info.id ∨ f = toSixty info.offset ∨
      f = toSixty info.size ∨ f = toSixty (urlHash info).toNat) → c ∈ f → c ≠ 47 ∧ c ≠ 0 := by
    intro f hf hcf
    obtain ⟨hsep, hnul⟩ := mem_numeral h hf hcf
    refine ⟨?_, hnul⟩
    rintro rfl
    exact hsep (by decide)
  simp only [codedFields, joinFields, List.mem_append, List.mem_cons] at hc
  rcases hc with hc | rfl | hc | rfl | hc | rfl | hc
  · exact hnumeral (.inl rfl) hc
  · decide
  · exact hnumeral (.inr (.inl rfl)) hc
  · decide
  · exact hnumeral (.inr (.inr (.inl rfl))) hc
  · decide
  · exact hnumeral (.inr (.inr (.inr rfl))) hc

/-- A URL of an encodable info is a C string. -/
theorem cstr_buildWithEncode : cstr (buildWithEncode info) = buildWithEncode info := by
  obtain ⟨ext, hpost, -, -, hnul⟩ := h.postfix_dot
  refine cstr_of_nul_free ?_
  rw [buildWithEncode_eq h hpost]
  simp only [List.mem_append, List.mem_cons, not_or]
  exact ⟨h.prefix_nul, by decide, fun hc => (mem_codedFields h hc).2 rfl, by decide, hnul⟩

/-- The numbers read back from the four numerals. -/
theorem read_fields :
    int32 (fromSixty (toSixty info.id)) = info.id ∧
      uint64 (fromSixty (toSixty info.offset)) = info.offset ∧
      uint64 (fromSixty (toSixty info.size)) = info.size ∧
      UInt32.ofNat (uint32 (fromSixty (toSixty (urlHash info).toNat))) = urlHash info := by
  obtain ⟨hid, hidlt⟩ := h.id_eq
  refine ⟨?_, ?_, ?_, ?_⟩
  · rw [hid, fromSixty_toSixty_natCast (by omega), int32_natCast hidlt]
  · rw [fromSixty_toSixty_natCast h.offset_lt, uint64_natCast (h.offset_lt.trans (by norm_num))]
  · rw [fromSixty_toSixty_natCast h.size_lt, uint64_natCast (h.size_lt.trans (by norm_num))]
  · rw [fromSixty_toSixty_natCast (urlHash_lt info), uint32_natCast (urlHash info).toNat_lt,
      UInt32.ofNat_toNat]

/-- What extraction makes of the URL that was built for an encodable record.
SOURCE: bundle.cc:108-180 -/
theorem extract_build (into : Info) :
    extractWithEncode (buildWithEncode info) into =
      if urlHash info = kNoHash then none
      else some { into with
        id := info.id, offset := info.offset, size := info.size,
        prefix_ := info.prefix_, postfix_ := info.postfix_ } := by
  obtain ⟨ext, hpost, hdot, hslash, -⟩ := h.postfix_dot
  obtain ⟨hlast, hdotAt, hcoded, hdrop⟩ := cut_url info.prefix_ (codedFields info) ext
    (fun hc => (mem_codedFields h hc).1 rfl) hdot hslash
  obtain ⟨hid, hoff, hsize, hhash⟩ := read_fields h
  unfold extractWithEncode
  simp only [cstr_buildWithEncode h]
  rw [buildWithEncode_eq h hpost, hdotAt, hlast]
  simp only [hcoded, splitFields_codedFields h, hid, hoff, hsize, hhash, slashPrefix, hdrop,
    List.take_left' rfl]
  have hsame : hashOf (hashText info.prefix_ info.id info.offset info.size (46 :: ext)) =
      urlHash info := by
    rw [← hpost]
    rfl
  rw [hsame, ← hpost]
  simp

end Encodable

/-- **Encoded URLs decode exactly when their hash is not the error value.**
SOURCE: bundle.cc:108-180 -/
theorem decodes_iff {info : Info} (h : Encodable info) (into : Info) :
    Decodes info into ↔ urlHash info ≠ kNoHash := by
  unfold Decodes
  rw [extract_build h into]
  by_cases hhash : urlHash info = kNoHash
  · simp [hhash]
  · simp [hhash]

/-- A record as the upload server stores it. -/
def uploadInfo (id : ℤ) : Info :=
  { id, offset := 47104, size := 36, prefix_ := ascii "p/20120514", postfix_ := ascii ".jpg" }

/-- The info of an upload may be encoded. -/
theorem uploadInfo_encodable {id : ℤ} (hid : 0 ≤ id ∧ id < 2 ^ 31) :
    Encodable (uploadInfo id) where
  id_range := hid
  offset_lt := show 47104 < 2 ^ 63 by norm_num
  size_lt := show 36 < 2 ^ 63 by norm_num
  prefix_nul := show 0 ∉ ascii "p/20120514" by decide
  postfix_dot := ⟨ascii "jpg", show ascii ".jpg" = 46 :: ascii "jpg" by decide,
    by decide, by decide, by decide⟩

/-- In bundle 1017 the URL decodes. -/
theorem decodes_upload : Decodes (uploadInfo 1017) {} :=
  (decodes_iff (uploadInfo_encodable (by decide)) {}).mpr (by decide +kernel)

/-- In bundle 1016 the hash of the text is `0xFFFFFFFF`, and the URL that was
handed out is refused. -/
theorem not_decodes_upload : ¬ ∀ info, Encodable info → ∀ into, Decodes info into := by
  intro hall
  obtain ⟨got, hgot, -⟩ := hall (uploadInfo 1016) (uploadInfo_encodable (by decide)) {}
  have hrefused : extractWithEncode (buildWithEncode (uploadInfo 1016)) {} = none := by
    rw [extract_build (uploadInfo_encodable (by decide)), if_pos (by decide +kernel)]
  rw [hrefused] at hgot
  cases hgot

end BundleStore
