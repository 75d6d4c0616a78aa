import BundleStore.Analysis.SimpleUrl

set_option autoImplicit false

/-!
# Which URLs are written again as they were read

Both schemes take any of four characters for the separator of two fields, the simple
one takes more fields than it needs, and a number has many spellings. Of the URLs
that are accepted exactly the canonical ones come out again: their separators are
those of the scheme, and their fields the numerals that it writes.
-/

namespace BundleStore

open Machine Text

/-- The file name begins behind a slash and ends before a dot. -/
def SlashBeforeDot (u : Bytes) : Prop :=
  ∃ s dot, rfind 47 u = some s ∧ rfind 46 u = some dot ∧ s < dot

/-- The fields of a URL with their separators. -/
def fieldsPart (u : Bytes) : Bytes :=
  match rfind 46 u with
  | none => []
  | some dot => codedPart u dot (rfind 47 u)

/-- Nothing but `sep` separates the fields. -/
def SeparatedBy (sep : UInt8) (part : Bytes) : Prop :=
  ∀ c ∈ part, c ∈ ascii ",/._" → c = sep

/-- No digit at all, which reads as -1, or the numeral of a number below a bound. -/
def IsSixtyField (bound : ℕ) (f : Bytes) : Prop :=
  f = [] ∨ ∃ n < bound, f = toSixty (n : ℕ)

/-- A file name of four numerals and underscores. -/
def EncodedCanonical (u : Bytes) : Prop :=
  SlashBeforeDot u ∧ SeparatedBy 95 (fieldsPart u) ∧
    ∃ f₀ f₁ f₂ f₃, splitFields (fieldsPart u) = [f₀, f₁, f₂, f₃] ∧
    IsSixtyField (2 ^ 31) f₀ ∧ IsSixtyField (2 ^ 63) f₁ ∧ IsSixtyField (2 ^ 63) f₂ ∧
      ∃ n < 2 ^ 32, f₃ = toSixty (n : ℕ)

/-- A prefix, three decimal numerals and commas; an id of -1 would be written as a name. -/
def SimpleCanonical (u : Bytes) : Prop :=
  SlashBeforeDot u ∧ rfind 47 u ≠ some 0 ∧ SeparatedBy 44 (fieldsPart u) ∧
    ∃ (id : ℤ) (offset size : ℕ), -2 ^ 31 ≤ id ∧ id < 2 ^ 31 ∧ id ≠ -1 ∧ offset < 2 ^ 63 ∧
      size < 2 ^ 63 ∧
        splitFields (fieldsPart u) = [decimalInt id, decimal offset, decimal size]

/-- A URL with its file name between the last slash and the last dot. -/
theorem cut_exists {u : Bytes} (h : SlashBeforeDot u) :
    ∃ front part ext, u = front ++ 47 :: (part ++ 46 :: ext) ∧ 47 ∉ part ∧ 46 ∉ ext ∧ 47 ∉ ext := by
  obtain ⟨s, dot, hslash, hdot, hlt⟩ := h
  obtain ⟨front, rest, hu, hfree, rfl⟩ := rfind_eq_some hslash
  obtain ⟨before, ext, hu', hext, rfl⟩ := rfind_eq_some hdot
  have hrest : before.drop (front.length + 1) ++ 46 :: ext = rest := by
    have hdrop := congrArg (List.drop (front.length + 1)) (hu'.symm.trans hu)
    rw [List.drop_append_of_le_length (by omega)] at hdrop
    simpa using hdrop
  refine ⟨front, before.drop (front.length + 1), ext, ?_, ?_, hext, ?_⟩
  · rw [hrest]
    exact hu
  · intro hmem
    exact hfree (hrest ▸ List.mem_append_left _ hmem)
  · intro hmem
    exact hfree (hrest ▸ List.mem_append_right _ (List.mem_cons_of_mem _ hmem))

/-- Where the part up to the last slash and the part from the last dot on are not longer than
the URL, the slash stands before the dot. -/
theorem slashBeforeDot_of_length {u : Bytes} {dot : ℕ} (hdot : rfind 46 u = some dot)
    (hlen : (slashPrefix u (rfind 47 u)).length + (u.drop dot).length ≤ u.length) :
    SlashBeforeDot u := by
  obtain ⟨before, ext, hu, -, rfl⟩ := rfind_eq_some hdot
  have hlength : before.length < u.length := by
    rw [hu, List.length_append, List.length_cons]
    omega
  rw [List.length_drop] at hlen
  cases hslash : rfind 47 u with
  | none =>
      rw [hslash] at hlen
      have hall : (slashPrefix u none).length = u.length := rfl
      omega
  | some s =>
      refine ⟨s, before.length, hslash, hdot, ?_⟩
      obtain ⟨front, rest, hu', -, rfl⟩ := rfind_eq_some hslash
      have hprefix : (slashPrefix u (some front.length)).length = front.length := by
        show (u.take front.length).length = _
        rw [hu', List.take_left' rfl]
      rw [hslash, hprefix] at hlen
      obtain heq | hlt := Nat.eq_or_lt_of_le (show front.length ≤ before.length by omega)
      · -- one byte cannot be a slash and a dot
        obtain ⟨-, hcons⟩ := List.append_inj (hu'.symm.trans hu) heq
        exact absurd (List.cons.inj hcons).1 (by decide)
      · exact hlt

/-- Two URLs around a part are the same if the parts are. -/
theorem url_inj {front part part' rest : Bytes} :
    front ++ 47 :: (part ++ rest) = front ++ 47 :: (part' ++ rest) ↔ part = part' := by
  simp

/-- Every part between separators is one field of the split. -/
theorem joined_iff (sep : UInt8) (hsep : sep ∈ ascii ",/._") {fields : List Bytes}
    (hne : fields ≠ []) (h : ∀ f ∈ fields, ∀ c ∈ f, c ∉ ascii ",/._") (part : Bytes) :
    [sep].intercalate fields = part ↔ SeparatedBy sep part ∧ splitFields part = fields := by
  have hiff := intercalate_eq_iff (p := fun c => (ascii ",/._").contains c)
    (by simpa using hsep) hne (fun f hf c hc => by simpa using h f hf c hc) (l := part)
  unfold SeparatedBy splitFields
  simpa using hiff

/-! ## Numbers -/

/-- There is no separator in a number of base sixty. -/
theorem sepFree_toSixty {x : ℤ} (h : x < 2 ^ 63) : ∀ c ∈ toSixty x, c ∉ ascii ",/._" := by
  intro c hc
  by_cases hneg : x < 0
  · rw [toSixty, if_pos hneg] at hc
    cases hc
  · obtain ⟨n, rfl⟩ := Int.eq_ofNat_of_zero_le (not_lt.mp hneg)
    exact (mem_toSixty (by omega) hc).1

/-- What a number is written as again. -/
theorem toSixty_eq_iff {f : Bytes} {bound : ℕ} (hbound : bound ≤ 2 ^ 63) (convert : ℤ → ℤ)
    (hlt : ∀ x, ∀ n : ℕ, convert x = n → n < bound) (hminus : convert (-1) = -1)
    (hsame : ∀ n : ℕ, n < bound → convert n = n) :
    f = toSixty (convert (fromSixty f)) ↔ IsSixtyField bound f := by
  constructor
  · intro h
    by_cases hneg : convert (fromSixty f) < 0
    · left
      rw [h, toSixty, if_pos hneg]
    · right
      obtain ⟨n, hn⟩ := Int.eq_ofNat_of_zero_le (not_lt.mp hneg)
      refine ⟨n, hlt _ n hn, ?_⟩
      rw [← hn]
      exact h
  · rintro (rfl | ⟨n, hn, rfl⟩)
    · have hread : fromSixty [] = -1 := by decide
      rw [hread, hminus]
      decide
    · rw [fromSixty_toSixty_natCast (hn.trans_le hbound), hsame n hn]

/-- A `size_t` read as a signed number is below 2^63. -/
theorem int64_uint64_lt (x : ℤ) : int64 (uint64 x) < 2 ^ 63 := by
  have hhi := Int.bmod_lt (x := uint64 x) (m := 2 ^ 64) (by decide)
  unfold int64
  omega

/-- A field of base sixty is written again from an `int` if it is a number below 2^31.
SOURCE: sixty.h:14-82 -/
theorem toSixty_id_iff {f : Bytes} :
    f = toSixty (int32 (fromSixty f)) ↔ IsSixtyField (2 ^ 31) f := by
  refine toSixty_eq_iff (by norm_num) int32 (fun x n hn => ?_) (by decide)
    fun n hn => int32_natCast hn
  have hrange := int32_range x
  omega

/-- A field of base sixty is written again from a `size_t` if it is a number below 2^63.
SOURCE: sixty.h:14-82 -/
theorem toSixty_size_iff {f : Bytes} :
    f = toSixty (int64 (uint64 (fromSixty f))) ↔ IsSixtyField (2 ^ 63) f := by
  refine toSixty_eq_iff (by norm_num) (fun x => int64 (uint64 x)) (fun x n hn => ?_) (by decide)
    fun n hn => ?_
  · have hlt := int64_uint64_lt x
    omega
  · rw [uint64_natCast (hn.trans (by norm_num)), int64_natCast hn]

/-- A hash is written as it was read. -/
theorem toSixty_hash_iff {f : Bytes} :
    f = toSixty (UInt32.ofNat (uint32 (fromSixty f))).toNat ↔
      ∃ n < 2 ^ 32, f = toSixty (n : ℕ) := by
  constructor
  · intro h
    exact ⟨_, UInt32.toNat_lt _, h⟩
  · rintro ⟨n, hn, rfl⟩
    rw [fromSixty_toSixty_natCast (hn.trans (by norm_num)), uint32_natCast hn,
      UInt32.toNat_ofNat_of_lt' hn]

/-- A field is written again from an unsigned number if it is a decimal numeral below 2^63. -/
theorem decimal_eq_iff {f : Bytes} :
    f = decimal (uint64 (atol f)) ↔ ∃ n < 2 ^ 63, f = decimal n := by
  constructor
  · intro h
    refine ⟨_, ?_, h⟩
    -- the numeral has no sign, so what it reads as is not negative
    have hread := atol_decimalInt (uint64 (atol f))
    rw [decimalInt_natCast, ← h] at hread
    generalize atol f = x at hread
    unfold uint64 at hread ⊢
    omega
  · rintro ⟨n, hn, rfl⟩
    rw [atol_decimal hn, uint64_natCast (hn.trans (by norm_num))]

/-- A field is written again from an `int` if it is the numeral of one. -/
theorem decimalInt_eq_iff {f : Bytes} :
    f = decimalInt (int32 (atol f)) ∧ int32 (atol f) ≠ -1 ↔
      ∃ id, -2 ^ 31 ≤ id ∧ id < 2 ^ 31 ∧ id ≠ -1 ∧ f = decimalInt id := by
  constructor
  · rintro ⟨h, hne⟩
    obtain ⟨hlo, hhi⟩ := int32_range (atol f)
    exact ⟨_, hlo, hhi, hne, h⟩
  · rintro ⟨id, hlo, hhi, hne, rfl⟩
    have hread : int32 (atol (decimalInt id)) = id := by
      rw [atol_decimalInt, int32_of_range (by omega) (by omega)]
      omega
    rw [hread]
    exact ⟨rfl, hne⟩

/-- The numerals of what four fields are read as. -/
def rewritten (f₀ f₁ f₂ f₃ : Bytes) : List Bytes :=
  [toSixty (int32 (fromSixty f₀)), toSixty (int64 (uint64 (fromSixty f₁))),
    toSixty (int64 (uint64 (fromSixty f₂))), toSixty (UInt32.ofNat (uint32 (fromSixty f₃))).toNat]

/-- There is no separator in a field that is written again. -/
theorem rewritten_free {f₀ f₁ f₂ f₃ f : Bytes} (hf : f ∈ rewritten f₀ f₁ f₂ f₃) :
    ∀ c ∈ f, c ∉ ascii ",/._" := by
  have hid : int32 (fromSixty f₀) < 2 ^ 63 := by
    have hrange := int32_range (fromSixty f₀)
    omega
  have hhash : ((UInt32.ofNat (uint32 (fromSixty f₃))).toNat : ℤ) < 2 ^ 63 := by
    have hlt := UInt32.toNat_lt (UInt32.ofNat (uint32 (fromSixty f₃)))
    omega
  simp only [rewritten, List.mem_cons, List.not_mem_nil, or_false] at hf
  obtain hf | hf | hf | hf := hf
  · rw [hf]
    exact sepFree_toSixty hid
  · rw [hf]
    exact sepFree_toSixty (int64_uint64_lt _)
  · rw [hf]
    exact sepFree_toSixty (int64_uint64_lt _)
  · rw [hf]
    exact sepFree_toSixty hhash

/-- The four fields are joined by underscores. -/
theorem joinFields_eq (f₀ f₁ f₂ f₃ : Bytes) :
    joinFields f₀ f₁ f₂ f₃ = [95].intercalate [f₀, f₁, f₂, f₃] := by
  simp [joinFields]

/-- The four fields are written again if the part has them between underscores. -/
theorem rewritten_joined_iff {f₀ f₁ f₂ f₃ part : Bytes} :
    [95].intercalate (rewritten f₀ f₁ f₂ f₃) = part ↔
      SeparatedBy 95 part ∧ splitFields part = rewritten f₀ f₁ f₂ f₃ :=
  joined_iff 95 (by decide) (List.cons_ne_nil _ _) (fun _ hf => rewritten_free hf) part

/-- The same for three decimal fields; an id of -1 gives way to an empty name. -/
def rewrittenSimple (f₀ f₁ f₂ : Bytes) : List Bytes :=
  [if int32 (atol f₀) ≠ -1 then decimalInt (int32 (atol f₀)) else [],
    decimal (uint64 (atol f₁)), decimal (uint64 (atol f₂))]

/-- There is no separator in a field that the simple scheme writes again. -/
theorem rewrittenSimple_free {f₀ f₁ f₂ f : Bytes} (hf : f ∈ rewrittenSimple f₀ f₁ f₂) :
    ∀ c ∈ f, c ∉ ascii ",/._" := by
  intro c hc
  simp only [rewrittenSimple, List.mem_cons, List.not_mem_nil, or_false] at hf
  obtain hf | hf | hf := hf
  · rw [hf] at hc
    split at hc
    · exact (mem_decimalInt_plain hc).1
    · cases hc
  · rw [hf] at hc
    exact (mem_decimal_plain hc).1
  · rw [hf] at hc
    exact (mem_decimal_plain hc).1

/-- The three fields are written again if the part has them between commas. -/
theorem rewrittenSimple_joined_iff {f₀ f₁ f₂ part : Bytes} :
    [44].intercalate (rewrittenSimple f₀ f₁ f₂) = part ↔
      SeparatedBy 44 part ∧ splitFields part = rewrittenSimple f₀ f₁ f₂ :=
  joined_iff 44 (by decide) (List.cons_ne_nil _ _) (fun _ hf => rewrittenSimple_free hf) part

/-- Two lists of three elements are the same if their elements are. -/
theorem cons₃_inj {α : Type} {a b c a' b' c' : α} {l : List α}
    (h : a :: b :: c :: l = [a', b', c']) : a = a' ∧ b = b' ∧ c = c' ∧ l = [] := by
  simpa using h

/-! ## The two schemes -/

/-- A URL of the encoding scheme is no shorter than its prefix and postfix.
SOURCE: bundle.cc:159-180 -/
theorem length_le_buildWithEncode (info : Info) :
    info.prefix_.length + info.postfix_.length ≤ (buildWithEncode info).length := by
  unfold buildWithEncode
  simp only [List.length_append]
  omega

/-- A URL of the simple scheme is no shorter than its prefix and postfix.
SOURCE: bundle.cc:88-106 -/
theorem length_le_buildSimple (info : Info) :
    info.prefix_.length + info.postfix_.length ≤ (buildSimple info).length := by
  have hprefix : info.prefix_.length ≤
      (if info.prefix_ ≠ [] then info.prefix_ ++ ascii "/" else []).length := by
    split
    · rw [List.length_append]
      omega
    · rename_i hempty
      rw [not_not.mp hempty]
  have hpostfix : info.postfix_.length ≤
      (if info.postfix_ ≠ [] then info.postfix_ else []).length := by
    split
    · exact le_refl _
    · rename_i hempty
      rw [not_not.mp hempty]
  unfold buildSimple
  simp only [List.length_append]
  omega

/-- What both schemes take for prefix and postfix of an accepted URL. -/
def CutAt (u : Bytes) (info : Info) : Prop :=
  info.prefix_ = slashPrefix u (rfind 47 u) ∧
    ∃ dot, rfind 46 u = some dot ∧ info.postfix_ = u.drop dot

/-- The encoding scheme cuts the prefix and the postfix out of the URL.
SOURCE: bundle.cc:108-157 -/
theorem cutAt_of_encoded {u : Bytes} {into info : Info} (hnul : 0 ∉ u)
    (h : extractWithEncode u into = some info) : CutAt u info := by
  unfold extractWithEncode at h
  simp only [cstr_of_nul_free hnul] at h
  split at h
  · cases h
  rename_i dot hdot
  split at h
  · split at h
    · cases h
    split at h
    · cases h
    obtain rfl := Option.some.inj h
    exact ⟨rfl, dot, hdot, rfl⟩
  · cases h

/-- The simple scheme cuts the prefix and the postfix out of the URL.
SOURCE: bundle.cc:59-86 -/
theorem cutAt_of_simple {u : Bytes} {into info : Info} (hnul : 0 ∉ u)
    (h : extractSimple u into = some info) : CutAt u info := by
  unfold extractSimple at h
  simp only [cstr_of_nul_free hnul] at h
  split at h
  · cases h
  rename_i dot hdot
  split at h
  · obtain rfl := Option.some.inj h
    exact ⟨rfl, dot, hdot, rfl⟩
  · cases h

/-- A URL that is written again from what was cut out of it has its slash before its dot: else
the prefix and the postfix overlap, and it would be longer. -/
theorem CutAt.slashBeforeDot {u : Bytes} {info : Info} (h : CutAt u info) {built : Bytes}
    (hlen : info.prefix_.length + info.postfix_.length ≤ built.length) (hbuilt : built = u) :
    SlashBeforeDot u := by
  obtain ⟨hpre, dot, hdot, hpostfix⟩ := h
  rw [hpre, hpostfix, hbuilt] at hlen
  exact slashBeforeDot_of_length hdot hlen

/-- An accepted URL of the encoding scheme is written again exactly if it is canonical.
SOURCE: bundle.cc:108-180 -/
theorem encoded_rebuilt_iff {u : Bytes} {into info : Info} (hnul : 0 ∉ u)
    (h : extractWithEncode u into = some info) :
    buildWithEncode info = u ↔ EncodedCanonical u := by
  by_cases hcut : SlashBeforeDot u
  swap
  · refine iff_of_false (fun hbuilt => hcut ?_) fun hcanonical => hcut hcanonical.1
    exact (cutAt_of_encoded hnul h).slashBeforeDot (length_le_buildWithEncode info) hbuilt
  have hwhole := hcut
  obtain ⟨front, part, ext, rfl, hslash, hdot, hslash'⟩ := cut_exists hcut
  obtain ⟨hlast, hdotAt, hpart, hdrop⟩ := cut_url front part ext hslash hdot hslash'
  unfold extractWithEncode at h
  simp only [cstr_of_nul_free hnul, hlast, hdotAt, hpart, hdrop, slashPrefix,
    List.take_left' rfl] at h
  unfold EncodedCanonical fieldsPart
  simp only [hlast, hdotAt, hpart]
  split at h
  · rename_i f₀ f₁ f₂ f₃ hsplit
    split at h
    · cases h
    split at h
    · cases h
    rename_i hhash
    obtain rfl := Option.some.inj h
    have hbuild : buildWithEncode { into with
        id := int32 (fromSixty f₀), offset := uint64 (fromSixty f₁), size := uint64 (fromSixty f₂),
        prefix_ := front, postfix_ := 46 :: ext } =
        front ++ 47 :: ([95].intercalate (rewritten f₀ f₁ f₂ f₃) ++ 46 :: ext) := by
      have hslash : ascii "/" = [47] := by decide
      have hunder : ascii "_" = [95] := by decide
      unfold buildWithEncode rewritten
      rw [not_not.mp hhash, hslash, hunder, append_joinFields, joinFields_eq]
    rw [hbuild, url_inj, rewritten_joined_iff, hsplit, and_iff_right hwhole]
    refine and_congr_right fun _ => ?_
    unfold rewritten
    simp only [List.cons.injEq, and_true, toSixty_id_iff, toSixty_size_iff, toSixty_hash_iff]
    constructor
    · rintro ⟨h₀, h₁, h₂, h₃⟩
      exact ⟨f₀, f₁, f₂, f₃, ⟨rfl, rfl, rfl, rfl⟩, h₀, h₁, h₂, h₃⟩
    · rintro ⟨_, _, _, _, ⟨rfl, rfl, rfl, rfl⟩, h⟩
      exact h
  · cases h

/-- An accepted simple URL is written again exactly if it is canonical. The record
was as its constructor leaves it.
SOURCE: bundle.cc:59-106 -/
theorem simple_rebuilt_iff {u : Bytes} {into info : Info} (hnul : 0 ∉ u)
    (hname : into.name = []) (h : extractSimple u into = some info) :
    buildSimple info = u ↔ SimpleCanonical u := by
  by_cases hcut : SlashBeforeDot u
  swap
  · refine iff_of_false (fun hbuilt => hcut ?_) fun hcanonical => hcut hcanonical.1
    exact (cutAt_of_simple hnul h).slashBeforeDot (length_le_buildSimple info) hbuilt
  have hwhole := hcut
  obtain ⟨front, part, ext, rfl, hslash, hdot, hslash'⟩ := cut_exists hcut
  obtain ⟨hlast, hdotAt, hpart, hdrop⟩ := cut_url front part ext hslash hdot hslash'
  unfold extractSimple at h
  simp only [cstr_of_nul_free hnul, hlast, hdotAt, hpart, hdrop, slashPrefix,
    List.take_left' rfl] at h
  unfold SimpleCanonical fieldsPart
  simp only [hlast, hdotAt, hpart]
  split at h
  · rename_i f₀ f₁ f₂ more hsplit
    obtain rfl := Option.some.inj h
    have hbuild : buildSimple { into with
        id := int32 (atol f₀), offset := uint64 (atol f₁), size := uint64 (atol f₂),
        prefix_ := front, postfix_ := 46 :: ext } =
        (if front ≠ [] then front ++ [47] else []) ++
          [44].intercalate (rewrittenSimple f₀ f₁ f₂) ++ 46 :: ext := by
      have hslash : ascii "/" = [47] := by decide
      have hcomma : ascii "," = [44] := by decide
      unfold buildSimple
      rw [hslash, hcomma, hname]
      simp [rewrittenSimple]
    rw [hbuild]
    by_cases hfront : front = []
    · -- no slash is written for an empty prefix
      subst hfront
      refine iff_of_false ?_ (by simp)
      intro heq
      have happend : [44].intercalate (rewrittenSimple f₀ f₁ f₂) ++ 46 :: ext =
          (47 :: part) ++ 46 :: ext := by
        simpa using heq
      have honly := (rewrittenSimple_joined_iff.mp (List.append_cancel_right happend)).1
      exact absurd (honly 47 List.mem_cons_self (by decide)) (by decide)
    · have hsome : some front.length ≠ some 0 := by
        simpa using hfront
      rw [if_pos hfront]
      have hshape : front ++ [47] ++ [44].intercalate (rewrittenSimple f₀ f₁ f₂) ++ 46 :: ext =
          front ++ 47 :: ([44].intercalate (rewrittenSimple f₀ f₁ f₂) ++ 46 :: ext) := by
        simp
      rw [hshape, url_inj, rewrittenSimple_joined_iff, hsplit, and_iff_right hwhole]
      simp only [ne_eq, hsome, not_false_eq_true, true_and]
      refine and_congr_right fun _ => ?_
      unfold rewrittenSimple
      constructor
      · intro heq
        obtain ⟨h₀, h₁, h₂, rfl⟩ := cons₃_inj heq
        have hne : int32 (atol f₀) ≠ -1 := by
          intro hminus
          rw [if_neg (not_not.mpr hminus)] at h₀
          rw [h₀] at hminus
          exact absurd hminus (by decide)
        rw [if_pos hne] at h₀
        obtain ⟨id, hlo, hhi, hid, rfl⟩ := decimalInt_eq_iff.mp ⟨h₀, hne⟩
        obtain ⟨offset, hoffset, rfl⟩ := decimal_eq_iff.mp h₁
        obtain ⟨size, hsize, rfl⟩ := decimal_eq_iff.mp h₂
        exact ⟨id, offset, size, hlo, hhi, hid, hoffset, hsize, rfl⟩
      · rintro ⟨id, offset, size, hlo, hhi, hne, hoffset, hsize, heq⟩
        obtain ⟨h₀, h₁, h₂, rfl⟩ := cons₃_inj heq
        obtain ⟨hid, hid'⟩ := decimalInt_eq_iff.mpr ⟨id, hlo, hhi, hne, h₀⟩
        rw [if_pos hid', ← hid, ← decimal_eq_iff.mpr ⟨offset, hoffset, h₁⟩,
          ← decimal_eq_iff.mpr ⟨size, hsize, h₂⟩]
  · cases h

/-- **Of the URLs that are accepted, both schemes write exactly the canonical ones
again.**
SOURCE: bundle.cc:59-180 -/
theorem rebuilt_iff_canonical {u : Bytes} (hnul : 0 ∉ u) :
    (∀ into info, extractWithEncode u into = some info →
      (buildWithEncode info = u ↔ EncodedCanonical u)) ∧
    ∀ into info, into.name = [] → extractSimple u into = some info →
      (buildSimple info = u ↔ SimpleCanonical u) :=
  ⟨fun _ _ h => encoded_rebuilt_iff hnul h, fun _ _ hname h => simple_rebuilt_iff hnul hname h⟩

/-- The URL of a record that was uploaded, and the one of a file in bundle 1. -/
def encodedExample : Bytes := ascii "p/20120514/R7_OFE_m_EsNNRN.jpg"

def simpleExample : Bytes := ascii "p/1.2.3.jpg"

/-- An option that passes its filter holds something that passes. -/
theorem of_isSome_filter {α : Type} {p : α → Prop} [DecidablePred p] {o : Option α}
    (h : (o.filter fun a => decide (p a)).isSome = true) : ∃ a, o = some a ∧ p a := by
  obtain ⟨a, ha⟩ := Option.isSome_iff_exists.mp h
  obtain ⟨ho, hp⟩ := Option.filter_eq_some_iff.mp ha
  exact ⟨a, ho, of_decide_eq_true hp⟩

/-- The example of a URL that is not written again. -/
theorem extractSimple_example : ∃ info, extractSimple simpleExample {} = some info ∧
    buildSimple info ≠ simpleExample :=
  of_isSome_filter (by decide +kernel)

/-- With underscores the first is canonical; with dots the second is not. -/
theorem rebuilt_iff_canonical_examples :
    EncodedCanonical encodedExample ∧ ¬ SimpleCanonical simpleExample := by
  constructor
  · obtain ⟨info, h, hbuild⟩ : ∃ info, extractWithEncode encodedExample {} = some info ∧
        buildWithEncode info = encodedExample :=
      of_isSome_filter (by decide +kernel)
    exact ((rebuilt_iff_canonical (by decide)).1 {} info h).mp hbuild
  · obtain ⟨info, h, hne⟩ := extractSimple_example
    exact fun hcanonical =>
      hne (((rebuilt_iff_canonical (by decide)).2 {} info rfl h).mpr hcanonical)

/-- With commas for its underscores the first URL is accepted as well. -/
theorem not_rebuilt :
    (¬ ∀ u, 0 ∉ u → ∀ info, extractWithEncode u {} = some info → buildWithEncode info = u) ∧
      ¬ ∀ u, 0 ∉ u → ∀ info, extractSimple u {} = some info → buildSimple info = u := by
  constructor
  · intro hall
    obtain ⟨info, h, hne⟩ : ∃ info, extractWithEncode (ascii "p/20120514/R7,OFE,m,EsNNRN.jpg") {} =
        some info ∧ buildWithEncode info ≠ ascii "p/20120514/R7,OFE,m,EsNNRN.jpg" :=
      of_isSome_filter (by decide +kernel)
    exact hne (hall _ (by decide) info h)
  · intro hall
    obtain ⟨info, h, hne⟩ := extractSimple_example
    exact hne (hall _ (by decide) info h)

end BundleStore
