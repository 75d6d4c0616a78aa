import BundleStore.Analysis.MurmurHash
import BundleStore.Analysis.Sixty
import BundleStore.Model.PyUrl

set_option autoImplicit false

/-!
# The Python URLs are read back

The numerals in base sixty hold every masked pair of an offset and a length: it is below
`2 ^ 64`, which eleven digits are enough for, and the sum of `FromSixty` has no width to
leave. The fields behind the prefix have no slash, so the split from the right finds them
whatever the prefix is.
-/

namespace BundleStore

namespace PyBundle

open Text Posix

/-! ## Numbers in base sixty -/

/-- A number in base sixty has its digits, the highest first.
SOURCE: sixty.py:4-23 -/
theorem toSixty_natCast (n : ℕ) : toSixty n = (digits60 n).reverse.map sixtyDigit := by
  have hpow : n < 60 ^ (n + 1) :=
    (Nat.lt_pow_self (by norm_num)).trans (Nat.pow_lt_pow_right (by norm_num) n.lt_succ_self)
  unfold toSixty
  rw [if_neg (Int.not_lt.mpr (Int.natCast_nonneg n)), Int.toNat_natCast,
    toSixtyLoop_rounds n.succ_pos hpow, List.map_reverse]

/-- The characters of a numeral are neither dots nor slashes. -/
theorem mem_pyToSixty {n : ℕ} {c : UInt8} (hc : c ∈ toSixty n) : c ≠ 46 ∧ c ≠ slash := by
  rw [toSixty_natCast, List.mem_map] at hc
  obtain ⟨d, hd, rfl⟩ := hc
  have hsep := (sixtyDigit_ne_separator (digits60_lt (List.mem_reverse.mp hd))).1
  constructor
  · rintro heq
    rw [heq] at hsep
    exact hsep (by decide)
  · rintro heq
    rw [heq] at hsep
    exact hsep (by decide)

/-- Reading digits, the most significant first. -/
theorem pyFromSixtyLoop_digits (ds : List ℕ) (ten : ℕ) (hds : ∀ d ∈ ds, d < 60)
    (hlen : ds.length ≤ 11) :
    fromSixtyLoop (ds.map sixtyDigit) ten = (ten + Nat.ofDigits 60 ds.reverse : ℕ) := by
  induction ds generalizing ten with
  | nil => simp [fromSixtyLoop]
  | cons d ds ih =>
      rw [List.length_cons] at hlen
      have hvalue : Nat.ofDigits 60 (d :: ds).reverse =
          d * 60 ^ ds.length + Nat.ofDigits 60 ds.reverse := by
        rw [List.reverse_cons, Nat.ofDigits_append, Nat.ofDigits_singleton, List.length_reverse]
        ring
      have htail := ih (ten + d * 60 ^ ds.length)
        (fun e he => hds e (List.mem_cons_of_mem d he)) (by omega)
      have hpow := powTable_eq (k := ds.length) (by omega)
      obtain ⟨hrange, hindex⟩ := charTable_sixtyDigit (hds d List.mem_cons_self)
      simp only [List.map_cons, fromSixtyLoop, List.length_map]
      rw [if_neg hrange, hindex, hpow, hvalue, ← Nat.add_assoc]
      push_cast at htail ⊢
      exact htail

/-- A number below 60^11 is read back.
SOURCE: sixty.py:36-57 -/
theorem fromSixty_toSixty {n : ℕ} (h : n < 60 ^ 11) : fromSixty (toSixty n) = n := by
  have hle := length_digits60_le (by norm_num) h
  have hloop := pyFromSixtyLoop_digits (digits60 n).reverse 0
    (fun d hd => digits60_lt (List.mem_reverse.mp hd)) (by simpa using hle)
  unfold fromSixty
  rw [toSixty_natCast, if_neg (by simpa using hle)]
  simpa [ofDigits_digits60] using hloop

/-! ## The id -/

/-- The value of a hexadecimal digit. -/
theorem hexDigitValue_hexDigit {d : ℕ} (h : d < 16) : hexDigitValue (hexDigit d) = some d := by
  interval_cases d <;> decide

/-- What a digit is not. -/
theorem hexDigit_plain {d : ℕ} (h : d < 16) :
    ¬ IsSpace (hexDigit d) ∧ hexDigit d ≠ 45 ∧ hexDigit d ≠ 43 ∧ hexDigit d ≠ 120 ∧
      hexDigit d ≠ 88 := by
  interval_cases d <;> decide

/-- The eight hexadecimal digits of a number. -/
theorem hex8_eq (n : ℕ) :
    hex8 n = [hexDigit (n / 16 ^ 7 % 16), hexDigit (n / 16 ^ 6 % 16), hexDigit (n / 16 ^ 5 % 16),
      hexDigit (n / 16 ^ 4 % 16), hexDigit (n / 16 ^ 3 % 16), hexDigit (n / 16 ^ 2 % 16),
      hexDigit (n / 16 ^ 1 % 16), hexDigit (n / 16 ^ 0 % 16)] := rfl

/-- The digits are added up again. -/
theorem foldlM_hex8 {n : ℕ} (h : n < 2 ^ 32) :
    (hex8 n).foldlM (fun n b => (hexDigitValue b).map (16 * n + ·)) 0 = some n := by
  have hdigit : ∀ m, hexDigitValue (hexDigit (m % 16)) = some (m % 16) := fun m =>
    hexDigitValue_hexDigit (Nat.mod_lt m (by norm_num))
  rw [hex8_eq]
  simp only [List.foldlM_cons, List.foldlM_nil, hdigit, Option.map_some, Option.bind_eq_bind,
    Option.bind_some, Option.pure_def, Option.some.injEq]
  norm_num
  omega

/-- Eight hexadecimal digits are read back.
SOURCE: bundle.py:268 -/
theorem int16_hex8 {n : ℕ} (h : n < 2 ^ 32) : int16 (hex8 n) = some (n : ℤ) := by
  have hplain : ∀ b ∈ hex8 n,
      ¬ IsSpace b ∧ b ≠ 45 ∧ b ≠ 43 ∧ b ≠ 120 ∧ b ≠ 88 := by
    intro b hb
    obtain ⟨d, hd, rfl⟩ := mem_hex8 hb
    exact hexDigit_plain hd
  have hskip : ∀ s : Bytes, (∀ b ∈ s, b ∈ hex8 n) →
      s.dropWhile (fun b => decide (IsSpace b)) = s := by
    intro s hs
    cases s with
    | nil => rfl
    | cons b s => simp [(hplain b (hs b List.mem_cons_self)).1]
  have hback : ((hex8 n).reverse.dropWhile fun b => decide (IsSpace b)).reverse = hex8 n := by
    rw [hskip _ fun b hb => List.mem_reverse.mp hb, List.reverse_reverse]
  have hsign : (hex8 n).head? ≠ some 45 ∧ (hex8 n).head? ≠ some 43 :=
    ⟨fun heq => (hplain 45 (List.mem_of_mem_head? heq)).2.1 rfl,
      fun heq => (hplain 43 (List.mem_of_mem_head? heq)).2.2.1 rfl⟩
  have hzero : (hex8 n).take 2 ≠ ascii "0x" ∧ (hex8 n).take 2 ≠ ascii "0X" := by
    constructor
    · intro heq
      refine (hplain 120 (List.mem_of_mem_take (i := 2) ?_)).2.2.2.1 rfl
      rw [heq]
      decide
    · intro heq
      refine (hplain 88 (List.mem_of_mem_take (i := 2) ?_)).2.2.2.2 rfl
      rw [heq]
      decide
  have hne : hex8 n ≠ [] := List.cons_ne_nil _ _
  simp only [int16, hskip _ fun b hb => hb, hback, hsign.1, hsign.2, or_self, if_false, hzero.1,
    hzero.2, hne, foldlM_hex8 h, Option.map_some]

/-- No hexadecimal digit is a slash. -/
theorem hexDigit_ne_slash {d : ℕ} (h : d < 16) : hexDigit d ≠ slash := by
  interval_cases d <;> decide

/-- There is no slash in a hexadecimal number. -/
theorem slash_not_mem_hex8 (n : ℕ) : slash ∉ hex8 n := by
  intro h
  obtain ⟨d, hd, heq⟩ := mem_hex8 h
  exact hexDigit_ne_slash hd heq.symm

/-! ## Masking -/

/-- A hash is below 2^32. -/
theorem murmurHash2_lt (data : Bytes) (seed : ℕ) : murmurHash2 data seed < 2 ^ 32 := by
  have hmask : ∀ x, mask x < 2 ^ 32 := fun x => by
    rw [mask_eq]
    exact Nat.mod_lt x (by norm_num)
  have hshift : ∀ x, mask x >>> 15 < 2 ^ 32 := fun x =>
    lt_of_le_of_lt (Nat.shiftRight_le _ _) (hmask x)
  exact Nat.xor_lt_two_pow (hmask _) (hshift _)

/-- An offset and a length side by side. -/
theorem pair_eq {length : ℕ} (hlength : length < 2 ^ 32) (offset : ℕ) :
    offset <<< 32 ||| length = offset * 2 ^ 32 + length := by
  rw [← Nat.shiftLeft_add_eq_or_of_lt hlength, Nat.shiftLeft_eq]

/-- The offset of a pair.
SOURCE: bundle.py:270, 325 -/
theorem pair_shiftRight {length : ℕ} (hlength : length < 2 ^ 32) (offset : ℕ) :
    (offset <<< 32 ||| length) >>> 32 = offset := by
  rw [pair_eq hlength, Nat.shiftRight_eq_div_pow]
  omega

/-- The length of a pair.
SOURCE: bundle.py:270, 326 -/
theorem pair_and {length : ℕ} (hlength : length < 2 ^ 32) (offset : ℕ) :
    (offset <<< 32 ||| length) &&& 0xFFFFFFFF = length := by
  calc (offset <<< 32 ||| length) &&& 0xFFFFFFFF = (offset <<< 32 ||| length) % 2 ^ 32 :=
        Nat.and_two_pow_sub_one_eq_mod _ 32
    _ = length := by
        rw [pair_eq hlength]
        omega

/-- The masked pair still fits 64 bits, so it has at most eleven digits. -/
theorem masked_lt {offset length b : ℕ} (hoffset : offset < 2 ^ 32) (hlength : length < 2 ^ 32)
    (hb : b < 2 ^ 32) : (offset <<< 32 ||| length) ^^^ b < 60 ^ 11 := by
  have hpair : offset <<< 32 ||| length < 2 ^ 64 := by
    rw [pair_eq hlength]
    omega
  exact (Nat.xor_lt_two_pow hpair (hb.trans (by norm_num))).trans (by norm_num)

/-! ## The round trip -/

/-- A text without a slash is one field. -/
theorem splitSlash_of_free {s : Bytes} (hs : slash ∉ s) : splitSlash s = [s] := by
  refine List.splitOnP_eq_singleton fun x hx => ?_
  rw [beq_eq_false_iff_ne]
  rintro rfl
  exact hs hx

/-- The last field of a text with a slash. -/
theorem splitSlash_append (a : Bytes) {b : Bytes} (hb : slash ∉ b) :
    splitSlash (a ++ slash :: b) = splitSlash a ++ [b] := by
  have hlast := splitSlash_of_free hb
  unfold splitSlash at hlast ⊢
  rw [List.splitOnP_append_cons _ _ (by simp), hlast]

/-- A text has a field. -/
theorem splitSlash_ne_nil (s : Bytes) : splitSlash s ≠ [] :=
  List.splitOnP_ne_nil _ _

/-- The fields of a text joined are the text. -/
theorem joinSlash_splitSlash (s : Bytes) : joinSlash (splitSlash s) = s :=
  intercalate_splitOnP fun _ _ h => eq_of_beq h

/-- The URL of a bundle's record. -/
def urlOf (prefix_ date : Bytes) (id offset length : ℕ) (postfix_ : Bytes) : Bytes :=
  let a := offset <<< 32 ||| length
  let b := urlHash prefix_ (date ++ slash :: toSixty id) a postfix_
  prefix_ ++ slash :: date ++ slash :: toSixty id ++ slash :: toSixty (a ^^^ b : ℕ) ++
    slash :: toSixty b ++ postfix_

variable {prefix_ date ext : Bytes} {id offset length : ℕ}

/-- What `build_url` makes of a bundle id and a pair.
SOURCE: bundle.py:267-275 -/
theorem buildUrl_eq (hdate : slash ∉ date) (hid : id < 2 ^ 32) (postfix_ : Bytes) :
    buildUrl prefix_ (date ++ slash :: hex8 id) offset length postfix_ =
      some (urlOf prefix_ date id offset length postfix_) := by
  have hsplit : splitSlash (date ++ slash :: hex8 id) = [date, hex8 id] := by
    rw [splitSlash_append _ (slash_not_mem_hex8 id), splitSlash_of_free hdate]
    rfl
  simp only [buildUrl, hsplit, int16_hex8 hid, urlOf, Option.bind_eq_bind, Option.bind_some]
  simp [List.append_assoc]

/-- The fields of a URL before its dot: those of the prefix, and four more. -/
theorem splitSlash_fields (prefix_ : Bytes) {date : Bytes} (hdate : slash ∉ date) (id c b : ℕ) :
    splitSlash (prefix_ ++ slash :: date ++ slash :: toSixty id ++ slash :: toSixty c ++
        slash :: toSixty b) =
      splitSlash prefix_ ++ [date, toSixty id, toSixty c, toSixty b] := by
  have hfree : ∀ n : ℕ, slash ∉ toSixty n := fun n hmem => (mem_pyToSixty hmem).2 rfl
  rw [splitSlash_append _ (hfree b), splitSlash_append _ (hfree c), splitSlash_append _ (hfree id),
    splitSlash_append _ hdate]
  simp

/-- `extract_url` on the fields from the right. -/
theorem extractUrl_eq {url : Bytes} {dot : ℕ} {parts : List Bytes} {w x y z : Bytes}
    (hdot : rfind 46 url = some dot) (hparts : parts ≠ [])
    (hfields : splitSlash (url.take dot) = parts ++ [w, x, y, z]) :
    extractUrl url =
      let a := Int.xor (fromSixty y) (fromSixty z)
      if (urlHash (joinSlash parts) (w ++ slash :: x) a (url.drop dot) : ℤ) = fromSixty z then
        some (some ⟨joinSlash parts, w ++ slash :: hex08 (fromSixty x), a >>> (32 : ℕ),
          Int.land a 0xFFFFFFFF⟩)
      else some none := by
  have hpos := List.length_pos_of_ne_nil hparts
  have hlen : (parts ++ [w, x, y, z]).length = parts.length + 4 := by
    simp
  have hback : ∀ k, (parts ++ [w, x, y, z]).getD (parts.length + k) [] =
      [w, x, y, z].getD k [] := by
    intro k
    rw [List.getD_append_right _ _ _ _ (by omega), Nat.add_sub_cancel_left]
  have hbs : joinSlash (ByteSeq.slice (parts ++ [w, x, y, z]) (parts.length + 0) 2) =
      w ++ slash :: x := by
    simp [ByteSeq.slice, joinSlash, List.intercalate]
  have htake : (parts ++ [w, x, y, z]).take (parts.length + 0) = parts := List.take_left
  simp only [extractUrl, hdot, Option.getD_some, hfields, hlen]
  rw [if_neg (by omega), show parts.length + 4 - 4 = parts.length + 0 by omega,
    show parts.length + 4 - 3 = parts.length + 1 by omega,
    show parts.length + 4 - 2 = parts.length + 2 by omega,
    show parts.length + 4 - 1 = parts.length + 3 by omega]
  simp only [hback, hbs, htake, List.getD_cons_zero, List.getD_cons_succ]

/-- A number below 2^32 has eight hexadecimal digits.
SOURCE: bundle.py:311 -/
theorem hex08_natCast {n : ℕ} (h : n < 2 ^ 32) : hex08 n = hex8 n := by
  unfold hex08
  rw [if_neg (Int.not_lt.mpr (Int.natCast_nonneg n)), Int.natAbs_natCast, if_pos h]

/-- What `extract_url` makes of the URL. -/
theorem extractUrl_urlOf (hdate : slash ∉ date) (hid : id < 2 ^ 32) (hoffset : offset < 2 ^ 32)
    (hlength : length < 2 ^ 32) (hext : 46 ∉ ext) :
    extractUrl (urlOf prefix_ date id offset length (46 :: ext)) =
      some (some ⟨prefix_, date ++ slash :: hex8 id, offset, length⟩) := by
  generalize ha : offset <<< 32 ||| length = a
  generalize hb : urlHash prefix_ (date ++ slash :: toSixty id) a (46 :: ext) = b
  generalize hstem : prefix_ ++ slash :: date ++ slash :: toSixty id ++
    slash :: toSixty (a ^^^ b : ℕ) ++ slash :: toSixty b = stem
  have hblt : b < 2 ^ 32 := by
    rw [← hb]
    exact murmurHash2_lt _ _
  have hclt : a ^^^ b < 60 ^ 11 := by
    rw [← ha]
    exact masked_lt hoffset hlength hblt
  have hurl : urlOf prefix_ date id offset length (46 :: ext) = stem ++ 46 :: ext := by
    simp only [urlOf, ha, hb, hstem]
  have hfields : splitSlash ((stem ++ 46 :: ext).take stem.length) =
      splitSlash prefix_ ++ [date, toSixty id, toSixty (a ^^^ b : ℕ), toSixty b] := by
    rw [List.take_left, ← hstem]
    exact splitSlash_fields prefix_ hdate id (a ^^^ b) b
  have hmasked : Int.xor ((a ^^^ b : ℕ) : ℤ) b = a := by
    change (((a ^^^ b) ^^^ b : ℕ) : ℤ) = a
    rw [Nat.xor_xor_cancel_right]
  have hoff : (a : ℤ) >>> (32 : ℕ) = offset := by
    change ((a >>> 32 : ℕ) : ℤ) = offset
    rw [← ha, pair_shiftRight hlength]
  have hlow : Int.land (a : ℤ) 0xFFFFFFFF = length := by
    change ((a &&& 0xFFFFFFFF : ℕ) : ℤ) = length
    rw [← ha, pair_and hlength]
  rw [hurl, extractUrl_eq (rfind_append_cons stem hext) (splitSlash_ne_nil prefix_) hfields]
  simp only [fromSixty_toSixty hclt, fromSixty_toSixty (hblt.trans (by norm_num)),
    fromSixty_toSixty (hid.trans (by norm_num)), hex08_natCast hid, hmasked, joinSlash_splitSlash,
    List.drop_left, hb, hoff, hlow, if_true]

/-- **Round trip.** A URL gives back the prefix, the bundle, the offset and the length that it
was built from, whatever slashes and dots the prefix has.
SOURCE: bundle.py:245-327, sixty.py, murmur.py -/
theorem py_url_round_trip (prefix_ date ext : Bytes) (id offset length : ℕ)
    (hdate : slash ∉ date) (hid : id < 2 ^ 32) (hoffset : offset < 2 ^ 32)
    (hlength : length < 2 ^ 32) (hext : 46 ∉ ext ∧ slash ∉ ext) :
    (buildUrl prefix_ (date ++ slash :: hex8 id) offset length (46 :: ext)).bind extractUrl =
      some (some ⟨prefix_, date ++ slash :: hex8 id, offset, length⟩) := by
  rw [buildUrl_eq hdate hid, Option.bind_some,
    extractUrl_urlOf hdate hid hoffset hlength hext.1]

/-- The example of `build_url`. -/
theorem py_url_round_trip_large :
    (buildUrl (ascii "fmn04/large") (ascii "20110919" ++ slash :: hex8 9) 1024 3
      (46 :: ascii "jpg")).bind extractUrl =
        some (some ⟨ascii "fmn04/large", ascii "20110919" ++ slash :: hex8 9, 1024, 3⟩) :=
  py_url_round_trip (ascii "fmn04/large") (ascii "20110919") (ascii "jpg") 9 1024 3 (by decide)
    (by norm_num) (by norm_num) (by norm_num) (by decide)

end PyBundle

end BundleStore
