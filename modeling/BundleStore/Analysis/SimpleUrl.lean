import BundleStore.Analysis.EncodedUrl

set_option autoImplicit false

/-!
# Simple URLs decode, unless the prefix is empty

`BuildSimple` puts three decimal numerals between the last slash and the last dot.
With an empty prefix it writes no slash, and `ExtractSimple`, which asks twice
whether there is a dot and never whether there is a slash, then takes the whole URL
for the prefix.
-/

namespace BundleStore

open Machine Text

/-- Extracting the URL that was built succeeds and gives the fields back. -/
def DecodesWith (extract : ExtractUrl) (build : BuildUrl) (info into : Info) : Prop :=
  ∃ got, extract (build info) into = some got ∧
    got.id = info.id ∧ got.offset = info.offset ∧ got.size = info.size ∧
    got.prefix_ = info.prefix_ ∧ got.postfix_ = info.postfix_

/-- The three numerals of a simple URL, joined by commas. -/
def simpleFields (info : Info) : Bytes :=
  [44].intercalate [decimalInt info.id, decimal info.offset, decimal info.size]

/-- A URL of the simple scheme with an id.
SOURCE: bundle.cc:88-106 -/
theorem buildSimple_eq {info : Info} (hid : info.id ≠ -1) :
    buildSimple info =
      (if info.prefix_ ≠ [] then info.prefix_ ++ [47] else []) ++ simpleFields info ++
        info.postfix_ := by
  have hpost : (if info.postfix_ ≠ [] then info.postfix_ else []) = info.postfix_ := by
    split
    · rfl
    · simp_all
  have hslash : ascii "/" = [47] := by decide
  have hcomma : ascii "," = [44] := by decide
  unfold buildSimple simpleFields
  rw [if_pos hid, hpost, hslash, hcomma]
  simp

/-- No byte of a decimal numeral separates fields or ends a C string. -/
theorem mem_decimalInt_plain {x : ℤ} {b : UInt8} (hb : b ∈ decimalInt x) :
    b ∉ ascii ",/._" ∧ b ≠ 0 := by
  have hdigits : ∀ n ∈ List.range 10, UInt8.ofNat (48 + n) ∉ ascii ",/._" ∧
      UInt8.ofNat (48 + n) ≠ 0 := by decide
  obtain hb | rfl := mem_decimalInt hb
  · have hat := hdigits (b.toNat - 48) (List.mem_range.mpr (by
      have := hb.2
      omega))
    rw [Nat.add_sub_cancel' hb.1, UInt8.ofNat_toNat] at hat
    exact hat
  · decide

/-- There is no separator in a decimal numeral. -/
theorem mem_decimal_plain {n : ℕ} {b : UInt8} (hb : b ∈ decimal n) : b ∉ ascii ",/._" ∧ b ≠ 0 := by
  rw [← decimalInt_natCast] at hb
  exact mem_decimalInt_plain hb

/-- There is no slash and no dot in the fields. -/
theorem mem_simpleFields {info : Info} {b : UInt8} (hb : b ∈ simpleFields info) :
    b ≠ 47 ∧ b ≠ 46 ∧ b ≠ 0 := by
  have hplain : b ∉ ascii ",/._" ∧ b ≠ 0 → b ≠ 47 ∧ b ≠ 46 ∧ b ≠ 0 := by
    rintro ⟨hsep, hnul⟩
    refine ⟨?_, ?_, hnul⟩
    · rintro rfl
      exact hsep (by decide)
    · rintro rfl
      exact hsep (by decide)
  obtain rfl | ⟨f, hf, hb⟩ := mem_intercalate hb
  · decide
  · simp only [List.mem_cons, List.not_mem_nil, or_false] at hf
    obtain rfl | rfl | rfl := hf
    · exact hplain (mem_decimalInt_plain hb)
    · exact hplain (mem_decimal_plain hb)
    · exact hplain (mem_decimal_plain hb)

/-- The fields are split again. -/
theorem splitFields_simpleFields (info : Info) :
    splitFields (simpleFields info) =
      [decimalInt info.id, decimal info.offset, decimal info.size] := by
  refine splitOnP_intercalate (by decide) (List.cons_ne_nil _ _) ?_
  intro f hf b hb
  simp only [List.mem_cons, List.not_mem_nil, or_false] at hf
  obtain rfl | rfl | rfl := hf
  · simpa using (mem_decimalInt_plain hb).1
  · simpa using (mem_decimal_plain hb).1
  · simpa using (mem_decimal_plain hb).1

/-- A decimal numeral below 2^63 is read back.
SOURCE: bundle.cc:79-81 -/
theorem atol_decimal {n : ℕ} (h : n < 2 ^ 63) : atol (decimal n) = n := by
  rw [← decimalInt_natCast, atol_decimalInt]
  omega

/-- A URL without a slash is cut at its last dot only. -/
theorem cut_plain (coded ext : Bytes) (hslash : 47 ∉ coded) (hext : 46 ∉ ext) (hext' : 47 ∉ ext) :
    rfind 47 (coded ++ 46 :: ext) = none ∧ rfind 46 (coded ++ 46 :: ext) = some coded.length ∧
      codedPart (coded ++ 46 :: ext) coded.length none = coded ∧
      (coded ++ 46 :: ext).drop coded.length = 46 :: ext := by
  refine ⟨rfind_eq_none ?_, rfind_append_cons coded hext, ?_, ?_⟩
  · simp only [List.mem_append, List.mem_cons, not_or]
    exact ⟨hslash, by decide, hext'⟩
  · simp [codedPart]
  · simp

section Encodable

variable {info : Info} (h : Encodable info)
include h

/-- What extraction makes of the URL that was built.
SOURCE: bundle.cc:59-106 -/
theorem extract_buildSimple (into : Info) :
    extractSimple (buildSimple info) into = some { into with
      id := info.id
      offset := info.offset
      size := info.size
      prefix_ := if info.prefix_ = [] then buildSimple info else info.prefix_
      postfix_ := info.postfix_ } := by
  obtain ⟨ext, hpost, hdot, hslash, hnul⟩ := h.postfix_dot
  have hid : info.id ≠ -1 := by
    have := h.id_range.1
    omega
  have hcoded : 47 ∉ simpleFields info := fun hc => (mem_simpleFields hc).1 rfl
  have hcstr : cstr (buildSimple info) = buildSimple info := by
    refine cstr_of_nul_free ?_
    have hfields : 0 ∉ simpleFields info := fun hc => (mem_simpleFields hc).2.2 rfl
    rw [buildSimple_eq hid, hpost]
    split
    · simp [h.prefix_nul, hfields, hnul]
    · simp [hfields, hnul]
  have hrange := h.id_range
  have hread : int32 (atol (decimalInt info.id)) = info.id := by
    rw [atol_decimalInt, int32_of_range (by omega) (by omega)]
    omega
  have hsize : ∀ {n : ℕ}, n < 2 ^ 63 → uint64 (atol (decimal n)) = n := by
    intro n hn
    rw [atol_decimal hn, uint64_natCast (hn.trans (by norm_num))]
  unfold extractSimple
  simp only [hcstr]
  rw [buildSimple_eq hid, hpost]
  by_cases hempty : info.prefix_ = []
  · rw [if_neg (not_not.mpr hempty), if_pos hempty, List.nil_append]
    obtain ⟨hlast, hdotAt, hpart, hdrop⟩ := cut_plain (simpleFields info) ext hcoded hdot hslash
    rw [hlast, hdotAt]
    simp only [hpart, splitFields_simpleFields, hread, hsize h.offset_lt, hsize h.size_lt, hdrop,
      slashPrefix]
  · have hfront : info.prefix_ ++ [47] ++ simpleFields info ++ 46 :: ext =
        info.prefix_ ++ 47 :: (simpleFields info ++ 46 :: ext) := by simp
    obtain ⟨hlast, hdotAt, hpart, hdrop⟩ :=
      cut_url info.prefix_ (simpleFields info) ext hcoded hdot hslash
    rw [if_pos hempty, if_neg hempty, hfront, hlast, hdotAt]
    simp only [hpart, splitFields_simpleFields, hread, hsize h.offset_lt, hsize h.size_lt, hdrop,
      slashPrefix, List.take_left' rfl]

end Encodable

/-- **Simple URLs decode exactly when there is a prefix.**
SOURCE: bundle.cc:59-106 -/
theorem simple_decodes_iff {info : Info} (h : Encodable info) (into : Info) :
    DecodesWith extractSimple buildSimple info into ↔ info.prefix_ ≠ [] := by
  unfold DecodesWith
  rw [extract_buildSimple h into]
  by_cases hempty : info.prefix_ = []
  · have hid : info.id ≠ -1 := by
      have := h.id_range.1
      omega
    obtain ⟨ext, hpost, -⟩ := h.postfix_dot
    have hurl : buildSimple info ≠ [] := by
      rw [buildSimple_eq hid, hpost]
      simp
    simp [hempty, hurl]
  · simp [hempty]

/-- The URL of an upload is decoded again. -/
theorem simple_decodes_upload : DecodesWith extractSimple buildSimple (uploadInfo 1016) {} :=
  (simple_decodes_iff (uploadInfo_encodable (by decide)) {}).mpr (by decide)

/-- Of the URL `1,47104,36.jpg` all is taken for the prefix. -/
theorem not_simple_decodes :
    ¬ ∀ info, Encodable info → ∀ into, DecodesWith extractSimple buildSimple info into := by
  intro hall
  have hid_one : (0 : ℤ) ≤ 1 ∧ (1 : ℤ) < 2 ^ 31 := by decide
  have henc : Encodable { uploadInfo 1 with prefix_ := [] } := by
    obtain ⟨hid, hoffset, hsize, -, hpost⟩ := uploadInfo_encodable hid_one
    exact ⟨hid, hoffset, hsize, List.not_mem_nil, hpost⟩
  exact (simple_decodes_iff henc {}).mp (hall _ henc {}) rfl

end BundleStore
