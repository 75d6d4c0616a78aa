import BundleStore.Model.HttpFields

set_option autoImplicit false

/-!
# Query strings decode to what was encoded

The decoded value passes through a buffer that ends in a NUL, and is read back as a string of C:
what stands behind a zero byte of the value is lost.
-/

namespace BundleStore

namespace Cwf

open Text

/-! ## Percent encoding -/

def upperHexDigit (d : ℕ) : UInt8 :=
  UInt8.ofNat (if d < 10 then 48 + d else 55 + d)

/-- A hexadecimal digit, in capitals or not. -/
def hexLetter (upper : Bool) (d : ℕ) : UInt8 :=
  if upper then upperHexDigit d else hexDigit d

/-- Letters and digits. -/
def IsAlnum (b : UInt8) : Prop :=
  IsDigit b ∨ 65 ≤ b.toNat ∧ b.toNat ≤ 90 ∨ 97 ≤ b.toNat ∧ b.toNat ≤ 122

instance (b : UInt8) : Decidable (IsAlnum b) :=
  inferInstanceAs (Decidable (_ ∨ _))

/-- Every byte except letters and digits as `%XX`. -/
def percentEncode (upper : Bool) (value : Bytes) : Bytes :=
  value.flatMap fun b =>
    if IsAlnum b then [b]
    else [percentSign, hexLetter upper (b.toNat / 16), hexLetter upper (b.toNat % 16)]

/-- Two hexadecimal letters are decoded to their byte.
SOURCE: stringencode.cc:58-62 -/
theorem hexDecode_letters (upper : Bool) (b : UInt8) :
    hexDecode (hexLetter upper (b.toNat / 16)) <<< 4 |||
      hexDecode (hexLetter upper (b.toNat % 16)) = b := by
  have hall : ∀ n < 256, hexDecode (hexLetter upper (n / 16)) <<< 4 |||
      hexDecode (hexLetter upper (n % 16)) = UInt8.ofNat n := by
    cases upper <;> decide +kernel
  rw [hall b.toNat b.toNat_lt, UInt8.ofNat_toNat]

/-- A hexadecimal letter is a letter or a digit. -/
theorem isAlnum_hexLetter (upper : Bool) {d : ℕ} (h : d < 16) : IsAlnum (hexLetter upper d) := by
  cases upper <;> interval_cases d <;> decide

/-- The plus sign is neither a letter nor a digit. -/
theorem not_isAlnum_plus : ¬ IsAlnum plusSign := by decide

/-- The percent sign is neither a letter nor a digit. -/
theorem not_isAlnum_percent : ¬ IsAlnum percentSign := by decide

/-- An encoded value is of letters, digits and percent signs. -/
theorem mem_percentEncode {upper : Bool} {value : Bytes} {c : UInt8}
    (h : c ∈ percentEncode upper value) : IsAlnum c ∨ c = percentSign := by
  obtain ⟨b, -, hc⟩ := List.mem_flatMap.mp h
  split at hc
  · rename_i hb
    obtain rfl := List.mem_singleton.mp hc
    exact .inl hb
  · simp only [List.mem_cons, List.not_mem_nil, or_false] at hc
    have hlt := b.toNat_lt
    obtain rfl | rfl | rfl := hc
    · exact .inr rfl
    · exact .inl (isAlnum_hexLetter upper (by omega))
    · exact .inl (isAlnum_hexLetter upper (by omega))

/-- The loop decodes an encoded value into a buffer that has room for it. -/
theorem urlDecodeLoop_encode (upper : Bool) (value front buffer : Bytes) {buflen : ℕ}
    (hroom : buffer.length + (percentEncode upper value).length < buflen) :
    urlDecodeLoop buflen (front ++ percentEncode upper value) front.length buffer =
      buffer ++ value := by
  induction value generalizing front buffer with
  | nil =>
      rw [urlDecodeLoop, if_neg (by simp [percentEncode]), List.append_nil]
  | cons b value ih =>
      have hcons : percentEncode upper (b :: value) =
          (if IsAlnum b then [b]
            else [percentSign, hexLetter upper (b.toNat / 16), hexLetter upper (b.toNat % 16)]) ++
            percentEncode upper value := rfl
      rw [hcons] at hroom ⊢
      by_cases hb : IsAlnum b
      · rw [if_pos hb] at hroom ⊢
        have hplus : b ≠ plusSign := fun h => not_isAlnum_plus (h ▸ hb)
        have hpercent : b ≠ percentSign := fun h => not_isAlnum_percent (h ▸ hb)
        have hget : (front ++ ([b] ++ percentEncode upper value)).getD front.length 0 = b := by
          simp
        rw [List.length_append, List.length_singleton] at hroom
        rw [urlDecodeLoop, if_pos (by simp; omega), hget]
        simp only [hplus, hpercent, if_false, false_and]
        have hnext := ih (front ++ [b]) (buffer ++ [b]) (by simp; omega)
        simpa using hnext
      · rw [if_neg hb] at hroom ⊢
        generalize hhigh : hexLetter upper (b.toNat / 16) = high at hroom ⊢
        generalize hlow : hexLetter upper (b.toNat % 16) = low at hroom ⊢
        have hletters : hexDecode high <<< 4 ||| hexDecode low = b := by
          rw [← hhigh, ← hlow]
          exact hexDecode_letters upper b
        have hget : (front ++ ([percentSign, high, low] ++ percentEncode upper value)).getD
            front.length 0 = percentSign := by
          simp
        have hget₁ : (front ++ ([percentSign, high, low] ++ percentEncode upper value)).getD
            (front.length + 1) 0 = high := by
          simp
        have hget₂ : (front ++ ([percentSign, high, low] ++ percentEncode upper value)).getD
            (front.length + 1 + 1) 0 = low := by
          simp [Nat.add_assoc]
        have hlong : front.length + 1 + 1 <
            (front ++ ([percentSign, high, low] ++ percentEncode upper value)).length := by
          simp only [List.length_append, List.length_cons, List.length_nil]
          omega
        have hplus : percentSign ≠ plusSign := by decide
        have hthree : [percentSign, high, low].length = 3 := rfl
        rw [List.length_append, hthree] at hroom
        rw [urlDecodeLoop, if_pos ⟨by omega, by omega⟩, hget]
        simp only [hplus, if_false, hlong, and_self, if_true, hget₁, hget₂, hletters]
        have hnext := ih (front ++ [percentSign, high, low]) (buffer ++ [b])
          (by simp only [List.length_append, List.length_singleton]; omega)
        simpa using hnext

/-- What a value is after it has been encoded and decoded: it ends at its first zero byte. -/
def upToNul (value : Bytes) : Bytes :=
  value.takeWhile (· != 0)

/-- A value ends at its first NUL, if it has one. -/
theorem upToNul_eq_self_iff {value : Bytes} : upToNul value = value ↔ (0 : UInt8) ∉ value := by
  rw [upToNul, List.takeWhile_eq_self_iff]
  constructor
  · intro h hzero
    exact absurd (h 0 hzero) (by decide)
  · intro h b hb
    rw [bne_iff_ne]
    rintro rfl
    exact h hb

/-- A value is cut at its end. -/
theorem takeWhile_append_nul (value : Bytes) :
    (value ++ [0]).takeWhile (· != 0) = upToNul value := by
  induction value with
  | nil => rfl
  | cons b value ih =>
      rw [List.cons_append, upToNul, List.takeWhile_cons, List.takeWhile_cons, ih, upToNul]

/-- An encoded value is decoded up to its first NUL.
SOURCE: stringencode.cc:202-224 -/
theorem urlDecode_encode (upper : Bool) (value : Bytes) :
    (urlDecode (percentEncode upper value)).1 = upToNul value := by
  have hloop : urlDecodeLoop ((percentEncode upper value).length + 1)
      (percentEncode upper value) 0 [] = value :=
    urlDecodeLoop_encode upper value [] [] (by simp)
  unfold urlDecode baseUrlDecode
  rw [if_neg (Nat.succ_ne_zero _), hloop]
  exact takeWhile_append_nul value

/-! ## The pairs -/

/-- A finite map in some order, with keys that can be told from the separators. -/
structure QueryFields where
  pairs : List (Bytes × Bytes)
  nodup : (pairs.map Prod.fst).Nodup
  keys_free : ∀ p ∈ pairs, ampersand ∉ p.1 ∧ equalSign ∉ p.1

def encodeField (upper : Bool) (p : Bytes × Bytes) : Bytes :=
  p.1 ++ equalSign :: percentEncode upper p.2

/-- `key=value` for every pair, joined by `&`. -/
def QueryFields.encode (upper : Bool) (m : QueryFields) : Bytes :=
  [ampersand].intercalate (m.pairs.map (encodeField upper))

/-- A pair is split at its first equal sign. -/
theorem splitEqual_pair {key value : Bytes} (h : equalSign ∉ key) :
    splitEqual (key ++ equalSign :: value) = some (key, value) := by
  have hfind : (key ++ equalSign :: value).findIdx? (· == equalSign) = some key.length := by
    rw [List.findIdx?_append, findIdx?_eq_none_of_not_mem h]
    simp [List.findIdx?_cons]
  rw [splitEqual, hfind]
  simp

/-- There is no ampersand in an encoded field. -/
theorem ampersand_not_mem_encodeField (upper : Bool) {p : Bytes × Bytes}
    (h : ampersand ∉ p.1) : ampersand ∉ encodeField upper p := by
  intro hmem
  rcases List.mem_append.mp hmem with hkey | hvalue
  · exact h hkey
  · rcases List.mem_cons.mp hvalue with heq | hvalue
    · exact absurd heq (by decide)
    · rcases mem_percentEncode hvalue with hal | heq
      · exact absurd hal (by decide)
      · exact absurd heq (by decide)

/-- The fields are put in one behind the other. -/
theorem insert_fields (upper : Bool) (ret : StringMap) {pairs : List (Bytes × Bytes)}
    (hnodup : ((ret ++ pairs).map Prod.fst).Nodup) (hfree : ∀ p ∈ pairs, equalSign ∉ p.1) :
    (pairs.map (encodeField upper)).foldl
        (fun ret i =>
          match splitEqual i with
          | none => ret
          | some (key, value) => StringMap.insert ret key (urlDecode value).1)
        ret =
      ret ++ pairs.map fun p => (p.1, upToNul p.2) := by
  induction pairs generalizing ret with
  | nil => simp
  | cons p pairs ih =>
      have hp := hfree p List.mem_cons_self
      have hnew : ret.lookup p.1 = none := by
        have hparts := hnodup
        rw [List.map_append, List.map_cons, List.nodup_append] at hparts
        rw [List.lookup_eq_none_iff]
        intro q hq
        rw [bne_iff_ne]
        exact (hparts.2.2 q.1 (List.mem_map_of_mem hq) p.1 List.mem_cons_self).symm
      have hinsert : StringMap.insert ret p.1 (urlDecode (percentEncode upper p.2)).1 =
          ret ++ [(p.1, upToNul p.2)] := by
        rw [StringMap.insert, hnew, urlDecode_encode]
      rw [List.map_cons, List.foldl_cons, encodeField, splitEqual_pair hp]
      dsimp only
      rw [hinsert, ih]
      · simp
      · simpa using hnodup
      · exact fun q hq => hfree q (List.mem_cons_of_mem p hq)

/-- The fields of an encoded query.
SOURCE: stream.cc:258-279 -/
theorem parseQuery_encode (upper : Bool) (m : QueryFields) :
    parseQuery (m.encode upper) = m.pairs.map fun p => (p.1, upToNul p.2) := by
  cases hpairs : m.pairs with
  | nil =>
      rw [QueryFields.encode, hpairs]
      rfl
  | cons p pairs =>
      have hne : m.pairs.map (encodeField upper) ≠ [] := by
        rw [hpairs]
        exact List.cons_ne_nil _ _
      have hsplit : (m.encode upper).splitOnP (· == ampersand) =
          m.pairs.map (encodeField upper) := by
        refine splitOnP_intercalate (by decide) hne fun f hf x hx => ?_
        obtain ⟨q, hq, rfl⟩ := List.mem_map.mp hf
        rw [beq_eq_false_iff_ne]
        rintro rfl
        exact ampersand_not_mem_encodeField upper (m.keys_free q hq).1 hx
      rw [parseQuery, hsplit, ← hpairs]
      exact insert_fields upper [] m.nodup fun q hq => (m.keys_free q hq).2

/-- A name of which there is one field is looked up. -/
theorem lookup_of_mem {pairs : List (Bytes × Bytes)} (hnodup : (pairs.map Prod.fst).Nodup)
    {p : Bytes × Bytes} (h : p ∈ pairs) : pairs.lookup p.1 = some p.2 := by
  obtain ⟨before, after, rfl⟩ := List.append_of_mem h
  rw [List.map_append, List.map_cons, List.nodup_append] at hnodup
  rw [List.lookup_eq_some_iff]
  refine ⟨before, after, rfl, fun q hq => ?_⟩
  rw [bne_iff_ne]
  exact (hnodup.2.2 q.1 (List.mem_map_of_mem hq) p.1 List.mem_cons_self).symm

/-- Values cut at their NUL are looked up so. -/
theorem lookup_upToNul (pairs : List (Bytes × Bytes)) (key : Bytes) :
    (pairs.map fun p => (p.1, upToNul p.2)).lookup key = (pairs.lookup key).map upToNul := by
  induction pairs with
  | nil => rfl
  | cons p pairs ih =>
      rw [List.map_cons, List.lookup_cons, List.lookup_cons, ih]
      cases key == p.1 <;> rfl

/-- **The pairs of a query come out as they went in exactly when no value has a zero byte.**
SOURCE: stream.cc:251-279, stringencode.cc:202-224 -/
theorem query_decodes_iff (upper : Bool) (m : QueryFields) :
    (∀ key, (parseQuery (m.encode upper)).lookup key = m.pairs.lookup key) ↔
      ∀ p ∈ m.pairs, (0 : UInt8) ∉ p.2 := by
  rw [parseQuery_encode]
  constructor
  · intro hdecoded p hp
    have hkey := hdecoded p.1
    rw [lookup_upToNul, lookup_of_mem m.nodup hp] at hkey
    exact upToNul_eq_self_iff.mp (Option.some.inj hkey)
  · intro hfree key
    rw [lookup_upToNul]
    cases hlookup : m.pairs.lookup key with
    | none => rfl
    | some value =>
        obtain ⟨before, after, hpairs, -⟩ := List.lookup_eq_some_iff.mp hlookup
        have hmem : (key, value) ∈ m.pairs := by
          rw [hpairs]
          exact List.mem_append_right before List.mem_cons_self
        exact congrArg some (upToNul_eq_self_iff.mpr (hfree (key, value) hmem))

/-- The value of one zero byte is lost. -/
theorem not_query_decodes :
    ¬ ∀ (upper : Bool) (m : QueryFields) (key : Bytes),
      (parseQuery (m.encode upper)).lookup key = m.pairs.lookup key := by
  intro hdecodes
  have hkey := hdecodes true
    { pairs := [(ascii "k", [0])]
      nodup := by decide
      keys_free := by decide } (ascii "k")
  rw [parseQuery_encode] at hkey
  exact absurd hkey (by decide)

end Cwf

end BundleStore
