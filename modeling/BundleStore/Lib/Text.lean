import BundleStore.Lib.ByteSeq
import Mathlib.Data.List.TakeWhile
import Mathlib.Tactic.Common
import Mathlib.Tactic.IntervalCases

set_option autoImplicit false

/-!
# Byte strings as text

Literals, decimal and hexadecimal numerals, and the search for the last
occurrence of a byte. The facts kept here are the ones a decoder needs: a
numeral determines its number, and it contains none of the bytes that separate
fields.
-/

namespace Text

/-- The bytes of an ASCII literal. -/
def ascii (s : String) : Bytes :=
  s.toList.map fun c => UInt8.ofNat c.toNat

/-- A number in decimal, as `%u` prints it. -/
def decimal (n : ℕ) : Bytes :=
  (Nat.toDigits 10 n).map fun c => UInt8.ofNat c.toNat

/-- A number in decimal with its sign, as `%d` prints it. -/
def decimalInt (x : ℤ) : Bytes :=
  if x < 0 then 45 :: decimal x.natAbs else decimal x.natAbs

/-- A digit of a hexadecimal numeral, as `%x` prints it. -/
def hexDigit (d : ℕ) : UInt8 :=
  UInt8.ofNat (if d < 10 then 48 + d else 87 + d)

/-- A number below `2 ^ 32` as `%08x` prints it. -/
def hex8 (n : ℕ) : Bytes :=
  (List.range 8).map fun i => hexDigit (n / 16 ^ (7 - i) % 16)

/-- A number as `%x` prints it. -/
def hexadecimal (n : ℕ) : Bytes :=
  (Nat.toDigits 16 n).map fun c => UInt8.ofNat c.toNat

/-- A number as `%08x` prints it: padded with zeros, and never cut. -/
def paddedHex (n : ℕ) : Bytes :=
  (hexadecimal n).leftpad 8 48

/-- The position of the last `c`. -/
def rfind (c : UInt8) (s : Bytes) : Option ℕ :=
  (s.reverse.findIdx? (· == c)).map fun i => s.length - 1 - i

/-! ## Decimal numerals -/

/-- The bytes of the decimal digits. -/
def IsDigit (b : UInt8) : Prop :=
  48 ≤ b.toNat ∧ b.toNat ≤ 57

instance (b : UInt8) : Decidable (IsDigit b) :=
  inferInstanceAs (Decidable (_ ∧ _))

/-- `isspace`. -/
def IsSpace (b : UInt8) : Prop :=
  b.toNat = 32 ∨ 9 ≤ b.toNat ∧ b.toNat ≤ 13

instance (b : UInt8) : Decidable (IsSpace b) :=
  inferInstanceAs (Decidable (_ ∨ _))

/-- The number that a string of decimal digits denotes. -/
def decimalValue (s : Bytes) : ℕ :=
  s.foldl (fun n b => 10 * n + (b.toNat - 48)) 0

/-- `atol`: white space, a sign, and digits as far as they go; a number out of range
becomes the nearest `long`. -/
def atol (s : Bytes) : ℤ :=
  let s := s.dropWhile fun b => decide (IsSpace b)
  let digits := (if s.head? = some 45 ∨ s.head? = some 43 then s.tail else s).takeWhile
    fun b => decide (IsDigit b)
  let x : ℤ := decimalValue digits
  if s.head? = some 45 then max (-2 ^ 63) (-x) else min (2 ^ 63 - 1) x

/-- A digit is one byte, between those of `0` and of `9`. -/
theorem toNat_of_isDigit {c : Char} (h : c.isDigit = true) :
    (UInt8.ofNat c.toNat).toNat = c.toNat ∧ 48 ≤ c.toNat ∧ c.toNat ≤ 57 := by
  have hbounds : 48 ≤ c.toNat ∧ c.toNat ≤ 57 := by
    simpa [Char.isDigit, UInt32.le_iff_toNat_le] using h
  refine ⟨?_, hbounds⟩
  simp only [UInt8.toNat_ofNat']
  omega

/-- A decimal numeral has digits only. -/
theorem isDigit_of_mem_decimal {n : ℕ} {b : UInt8} (h : b ∈ decimal n) : IsDigit b := by
  obtain ⟨c, hc, rfl⟩ := List.mem_map.mp h
  have hdig := Nat.isDigit_of_mem_toDigits (by norm_num) (le_refl 10) hc
  obtain ⟨heq, hlo, hhi⟩ := toNat_of_isDigit hdig
  exact ⟨by omega, by omega⟩

/-- A decimal numeral is not empty. -/
theorem decimal_ne_nil (n : ℕ) : decimal n ≠ [] := by
  simp [decimal, Nat.toDigits_ne_nil]

/-- The digit characters are read back from their bytes. -/
theorem map_ofNat_decimal (n : ℕ) :
    (decimal n).map (fun b => Char.ofNat b.toNat) = Nat.toDigits 10 n := by
  rw [decimal, List.map_map]
  refine (List.map_congr_left fun c hc => ?_).trans (List.map_id _)
  have hdig := Nat.isDigit_of_mem_toDigits (by norm_num) (le_refl 10) hc
  simp only [Function.comp_apply, (toNat_of_isDigit hdig).1, Char.ofNat_toNat, id]

/-- A decimal numeral determines its number. -/
theorem decimal_injective : Function.Injective decimal := by
  intro m n h
  have hchars : Nat.toDigits 10 m = Nat.toDigits 10 n := by
    rw [← map_ofNat_decimal m, ← map_ofNat_decimal n, h]
  have hm := Nat.ofDigitChars_ten_toDigits (n := m)
  rw [hchars, Nat.ofDigitChars_ten_toDigits] at hm
  exact hm.symm

/-- A decimal numeral has the value of its number. -/
theorem decimalValue_decimal (n : ℕ) : decimalValue (decimal n) = n := by
  have hvalid : ∀ b : UInt8, (Char.ofNat b.toNat).toNat = b.toNat := by
    intro b
    have hb := b.toNat_lt
    unfold Char.ofNat
    rw [dif_pos (.inl (by omega))]
    rfl
  have hdigits := Nat.ofDigitChars_ten_toDigits (n := n)
  rw [← map_ofNat_decimal n, Nat.ofDigitChars_eq_foldl, List.foldl_map] at hdigits
  simp only [hvalid] at hdigits
  exact hdigits

/-- A number that is not negative is written without a sign. -/
theorem decimalInt_natCast (n : ℕ) : decimalInt n = decimal n := by
  unfold decimalInt
  rw [if_neg (Int.not_lt.mpr (Int.natCast_nonneg n)), Int.natAbs_natCast]

/-- A numeral begins with a digit. -/
theorem decimal_cons (n : ℕ) : ∃ b rest, decimal n = b :: rest ∧ IsDigit b := by
  obtain ⟨b, rest, hcons⟩ := List.exists_cons_of_ne_nil (decimal_ne_nil n)
  refine ⟨b, rest, hcons, isDigit_of_mem_decimal (n := n) ?_⟩
  rw [hcons]
  exact List.mem_cons_self

/-- What a numeral is read as. -/
theorem atol_decimalInt (x : ℤ) : atol (decimalInt x) = max (-2 ^ 63) (min (2 ^ 63 - 1) x) := by
  have hall : ∀ n : ℕ, (decimal n).takeWhile (fun b => decide (IsDigit b)) = decimal n :=
    fun n => List.takeWhile_eq_self_iff.mpr fun b hb => decide_eq_true (isDigit_of_mem_decimal hb)
  unfold decimalInt
  by_cases hneg : x < 0
  · rw [if_pos hneg]
    have hskip : (45 :: decimal x.natAbs).dropWhile (fun b => decide (IsSpace b)) =
        45 :: decimal x.natAbs := by
      simp [IsSpace]
    simp only [atol, hskip, List.head?_cons, List.tail_cons, hall, decimalValue_decimal, true_or,
      if_true]
    omega
  · rw [if_neg hneg]
    obtain ⟨b, rest, hcons, hb⟩ := decimal_cons x.natAbs
    have hspace : ¬ IsSpace b := by
      unfold IsSpace
      have := hb.1
      omega
    have hskip : (decimal x.natAbs).dropWhile (fun b => decide (IsSpace b)) =
        decimal x.natAbs := by
      simp [hcons, hspace]
    have hsign : ∀ c : UInt8, c.toNat < 48 → ¬ (decimal x.natAbs).head? = some c := by
      intro c hc heq
      rw [hcons, List.head?_cons] at heq
      obtain rfl := Option.some.inj heq
      have := hb.1
      omega
    simp only [atol, hskip, hsign 45 (by decide), hsign 43 (by decide), hall, decimalValue_decimal,
      or_self, if_false]
    omega

/-- A byte of a signed decimal numeral is a digit or the sign. -/
theorem mem_decimalInt {x : ℤ} {b : UInt8} (h : b ∈ decimalInt x) : IsDigit b ∨ b = 45 := by
  unfold decimalInt at h
  split at h
  · rcases List.mem_cons.mp h with rfl | h
    · exact .inr rfl
    · exact .inl (isDigit_of_mem_decimal h)
  · exact .inl (isDigit_of_mem_decimal h)

/-- A signed numeral is not empty. -/
theorem decimalInt_ne_nil (x : ℤ) : decimalInt x ≠ [] := by
  unfold decimalInt
  split
  · exact List.cons_ne_nil _ _
  · exact decimal_ne_nil _

/-- Different numbers have different numerals. -/
theorem decimalInt_injective : Function.Injective decimalInt := by
  have hsign : ∀ m n : ℕ, decimal m ≠ 45 :: decimal n := by
    intro m n h
    have hdig := isDigit_of_mem_decimal (n := m) (b := 45) (by rw [h]; exact List.mem_cons_self)
    exact absurd hdig.1 (by decide)
  intro x y h
  unfold decimalInt at h
  by_cases hx : x < 0 <;> by_cases hy : y < 0
  · rw [if_pos hx, if_pos hy] at h
    have habs := decimal_injective (List.cons.inj h).2
    omega
  · rw [if_pos hx, if_neg hy] at h
    exact absurd h.symm (hsign _ _)
  · rw [if_neg hx, if_pos hy] at h
    exact absurd h (hsign _ _)
  · rw [if_neg hx, if_neg hy] at h
    have habs := decimal_injective h
    omega

/-! ## Hexadecimal numerals -/

/-- The byte of a hexadecimal digit. -/
theorem hexDigit_toNat {d : ℕ} (h : d < 16) :
    (hexDigit d).toNat = if d < 10 then 48 + d else 87 + d := by
  unfold hexDigit
  interval_cases d <;> rfl

/-- Different digits have different bytes. -/
theorem hexDigit_injOn {d e : ℕ} (hd : d < 16) (he : e < 16) (h : hexDigit d = hexDigit e) :
    d = e := by
  have hnat := congrArg UInt8.toNat h
  rw [hexDigit_toNat hd, hexDigit_toNat he] at hnat
  split at hnat <;> split at hnat <;> omega

/-- Eight digits are eight bytes. -/
theorem length_hex8 (n : ℕ) : (hex8 n).length = 8 := by
  simp [hex8]

/-- Eight digits are all hexadecimal digits. -/
theorem mem_hex8 {n : ℕ} {b : UInt8} (h : b ∈ hex8 n) : ∃ d < 16, b = hexDigit d := by
  obtain ⟨i, _, rfl⟩ := List.mem_map.mp h
  exact ⟨_, Nat.mod_lt _ (by norm_num), rfl⟩

/-- Eight hexadecimal digits determine a 32-bit number. -/
theorem hex8_injOn {m n : ℕ} (hm : m < 2 ^ 32) (hn : n < 2 ^ 32) (h : hex8 m = hex8 n) :
    m = n := by
  have hdig : ∀ i < 8, m / 16 ^ (7 - i) % 16 = n / 16 ^ (7 - i) % 16 := by
    intro i hi
    have hat := List.map_inj_left.mp h i (List.mem_range.mpr hi)
    exact hexDigit_injOn (Nat.mod_lt _ (by norm_num)) (Nat.mod_lt _ (by norm_num)) hat
  have h0 := hdig 0 (by norm_num)
  have h1 := hdig 1 (by norm_num)
  have h2 := hdig 2 (by norm_num)
  have h3 := hdig 3 (by norm_num)
  have h4 := hdig 4 (by norm_num)
  have h5 := hdig 5 (by norm_num)
  have h6 := hdig 6 (by norm_num)
  have h7 := hdig 7 (by norm_num)
  norm_num at h0 h1 h2 h3 h4 h5 h6 h7
  omega

/-- The digits of `Nat.toDigits` are these ones. -/
theorem digitChar_eq_hexDigit {d : ℕ} (h : d < 16) :
    UInt8.ofNat (Nat.digitChar d).toNat = hexDigit d := by
  interval_cases d <;> rfl

/-- A number below sixteen is one digit. -/
theorem hexadecimal_of_lt {n : ℕ} (h : n < 16) : hexadecimal n = [hexDigit n] := by
  unfold hexadecimal
  rw [Nat.toDigits_of_lt_base h, List.map_singleton, digitChar_eq_hexDigit h]

/-- The last digit comes last. -/
theorem hexadecimal_of_le {n : ℕ} (h : 16 ≤ n) :
    hexadecimal n = hexadecimal (n / 16) ++ [hexDigit (n % 16)] := by
  unfold hexadecimal
  rw [Nat.toDigits_of_base_le (by norm_num) h, List.map_append, List.map_singleton,
    digitChar_eq_hexDigit (Nat.mod_lt n (by norm_num))]

/-- The last `k` hexadecimal digits of a number. -/
def lastDigits (k n : ℕ) : Bytes :=
  (List.range k).map fun i => hexDigit (n / 16 ^ (k - 1 - i) % 16)

/-- One digit more in front. -/
theorem lastDigits_succ (k n : ℕ) :
    lastDigits (k + 1) n = lastDigits k (n / 16) ++ [hexDigit (n % 16)] := by
  unfold lastDigits
  rw [List.range_succ, List.map_append, List.map_singleton]
  congr 1
  · apply List.map_congr_left
    intro i hi
    have hlt := List.mem_range.mp hi
    rw [show k + 1 - 1 - i = k - 1 - i + 1 by omega, Nat.pow_succ', Nat.div_div_eq_div_mul]
  · simp

/-- Zero is all zeros. -/
theorem lastDigits_zero (k : ℕ) : lastDigits k 0 = List.replicate k 48 := by
  unfold lastDigits
  rw [List.eq_replicate_iff]
  refine ⟨by simp, ?_⟩
  intro b hb
  obtain ⟨i, _, rfl⟩ := List.mem_map.mp hb
  rw [Nat.zero_div]
  rfl

/-- A number that has no more digits than the field is wide is padded to its width. -/
theorem leftpad_hexadecimal {k n : ℕ} (hk : k ≠ 0) (hn : n < 16 ^ k) :
    (hexadecimal n).leftpad k 48 = lastDigits k n := by
  induction k generalizing n with
  | zero => exact absurd rfl hk
  | succ k ih =>
      rw [lastDigits_succ]
      by_cases hlt : n < 16
      · rw [hexadecimal_of_lt hlt, Nat.div_eq_of_lt hlt, lastDigits_zero, Nat.mod_eq_of_lt hlt]
        rfl
      · rw [Nat.pow_succ] at hn
        have hdiv : n / 16 < 16 ^ k := by omega
        have hk' : k ≠ 0 := by
          rintro rfl
          omega
        rw [hexadecimal_of_le (by omega), ← ih hk' hdiv]
        simp [List.leftpad, Nat.add_sub_add_right]

/-- Below `2 ^ 32` eight digits are the numeral with zeros in front. -/
theorem hex8_eq_paddedHex {n : ℕ} (h : n < 2 ^ 32) : hex8 n = paddedHex n := by
  have hpad : paddedHex n = lastDigits 8 n :=
    leftpad_hexadecimal (by norm_num) (h.trans_eq (by norm_num))
  rw [hpad]
  rfl

/-! ## The last occurrence of a byte -/

/-- A byte that does not occur is not found. -/
theorem findIdx?_eq_none_of_not_mem {c : UInt8} {s : Bytes} (h : c ∉ s) :
    s.findIdx? (· == c) = none := by
  rw [List.findIdx?_eq_none_iff]
  intro x hx
  simp only [beq_eq_false_iff_ne, ne_eq]
  rintro rfl
  exact h hx

/-- A byte that does not occur has no last occurrence. -/
theorem rfind_eq_none {c : UInt8} {s : Bytes} (h : c ∉ s) : rfind c s = none := by
  rw [rfind, findIdx?_eq_none_of_not_mem (by simpa using h)]
  rfl

/-- The last `c` of a string that ends in a `c`-free part after one. -/
theorem rfind_append_cons {c : UInt8} (a : Bytes) {b : Bytes} (h : c ∉ b) :
    rfind c (a ++ c :: b) = some a.length := by
  have hfind : (a ++ c :: b).reverse.findIdx? (· == c) = some b.length := by
    have hrev : (a ++ c :: b).reverse = b.reverse ++ c :: a.reverse := by simp
    rw [hrev, List.findIdx?_append, findIdx?_eq_none_of_not_mem (by simpa using h)]
    simp [List.findIdx?_cons]
  rw [rfind, hfind]
  simp only [Option.map_some, List.length_append, List.length_cons, Option.some.injEq]
  omega

/-- The string is cut at its last `c`. -/
theorem rfind_eq_some {c : UInt8} {s : Bytes} {i : ℕ} (h : rfind c s = some i) :
    ∃ a b, s = a ++ c :: b ∧ c ∉ b ∧ a.length = i := by
  have hmem : c ∈ s := by
    by_contra hnot
    rw [rfind_eq_none hnot] at h
    cases h
  obtain ⟨b, a, hrev, hb⟩ := List.eq_append_cons_of_mem (List.mem_reverse.mpr hmem)
  have hs : s = a.reverse ++ c :: b.reverse := by
    rw [← List.reverse_reverse s, hrev]
    simp
  have hfree : c ∉ b.reverse := fun hc => hb (List.mem_reverse.mp hc)
  rw [hs, rfind_append_cons _ hfree] at h
  exact ⟨a.reverse, b.reverse, hs, hfree, Option.some.inj h⟩

/-! ## Fields -/

section Fields

variable {α : Type} {p : α → Bool} {sep : α}

/-- Two lists of fields are joined with a separator in between. -/
theorem intercalate_append {sep : List α} {xs ys : List (List α)} (hxs : xs ≠ []) (hys : ys ≠ []) :
    sep.intercalate (xs ++ ys) = sep.intercalate xs ++ sep ++ sep.intercalate ys := by
  induction xs with
  | nil => exact absurd rfl hxs
  | cons x xs ih =>
      cases xs with
      | nil =>
          rw [List.singleton_append, List.intercalate_cons_of_ne_nil hys,
            List.intercalate_singleton]
      | cons x' xs =>
          rw [List.cons_append, List.intercalate_cons_of_ne_nil (by simp), ih (by simp),
            List.intercalate_cons_cons]
          simp only [List.append_assoc]

/-- Fields that are free of separators are split apart again. -/
theorem splitOnP_intercalate (hsep : p sep = true) {fields : List (List α)} (hne : fields ≠ [])
    (h : ∀ f ∈ fields, ∀ x ∈ f, p x = false) : ([sep].intercalate fields).splitOnP p = fields := by
  induction fields with
  | nil => exact absurd rfl hne
  | cons f fields ih =>
      have hf : f.splitOnP p = [f] := List.splitOnP_eq_singleton (h f List.mem_cons_self)
      cases fields with
      | nil => simpa using hf
      | cons g fields =>
          have hrest := ih (List.cons_ne_nil _ _) fun g hg => h g (List.mem_cons_of_mem f hg)
          rw [List.intercalate_cons_cons, List.append_assoc, List.singleton_append,
            List.splitOnP_append_cons _ _ hsep, hf, hrest]
          rfl

/-- With one separator only, the fields make up the whole. -/
theorem intercalate_splitOnP {l : List α} (h : ∀ x ∈ l, p x = true → x = sep) :
    [sep].intercalate (l.splitOnP p) = l := by
  induction l with
  | nil => rfl
  | cons x l ih =>
      have hl := ih fun y hy => h y (List.mem_cons_of_mem x hy)
      obtain ⟨f, fields, hsplit⟩ := List.exists_cons_of_ne_nil (List.splitOnP_ne_nil p l)
      rw [List.splitOnP_cons_eq_if_modifyHead]
      rw [hsplit] at hl ⊢
      by_cases hx : p x = true
      · obtain rfl := h x List.mem_cons_self hx
        rw [if_pos hx, List.intercalate_cons_cons, hl]
        rfl
      · rw [if_neg hx, List.modifyHead_cons, ← hl]
        cases fields with
        | nil => simp
        | cons g fields => simp

/-- There is no separator in a field. -/
theorem free_of_mem_splitOnP {l f : List α} (hf : f ∈ l.splitOnP p) : ∀ x ∈ f, p x = false := by
  induction l generalizing f with
  | nil =>
      obtain rfl := List.mem_singleton.mp hf
      exact fun x hx => absurd hx List.not_mem_nil
  | cons y l ih =>
      rw [List.splitOnP_cons_eq_if_modifyHead] at hf
      by_cases hy : p y = true
      · rw [if_pos hy] at hf
        rcases List.mem_cons.mp hf with rfl | hf
        · exact fun x hx => absurd hx List.not_mem_nil
        · exact ih hf
      · rw [if_neg hy] at hf
        obtain ⟨g, fields, hsplit⟩ := List.exists_cons_of_ne_nil (List.splitOnP_ne_nil p l)
        rw [hsplit] at hf ih
        rcases List.mem_cons.mp hf with rfl | hf
        · intro x hx
          rcases List.mem_cons.mp hx with rfl | hx
          · exact eq_false_of_ne_true hy
          · exact ih List.mem_cons_self x hx
        · exact ih (List.mem_cons_of_mem g hf)

/-- What has no separator goes in front of the first field. -/
theorem splitOnP_append_free {a : List α} (h : ∀ x ∈ a, p x = false) (b : List α) :
    (a ++ b).splitOnP p = (b.splitOnP p).modifyHead (a ++ ·) := by
  induction a with
  | nil => exact (congrFun List.modifyHead_id _).symm
  | cons x a ih =>
      have hx : ¬ p x = true := by
        rw [h x List.mem_cons_self]
        exact Bool.false_ne_true
      rw [List.cons_append, List.splitOnP_cons_eq_if_modifyHead, if_neg hx,
        ih fun y hy => h y (List.mem_cons_of_mem x hy), List.modifyHead_modifyHead]
      rfl

/-- The separators that do not occur do not matter. -/
theorem splitOnP_congr {q : α → Bool} {l : List α} (h : ∀ x ∈ l, p x = q x) :
    l.splitOnP p = l.splitOnP q := by
  induction l with
  | nil => rfl
  | cons x l ih =>
      rw [List.splitOnP_cons_eq_if_modifyHead, List.splitOnP_cons_eq_if_modifyHead,
        h x List.mem_cons_self, ih fun y hy => h y (List.mem_cons_of_mem x hy)]

/-- What stands in the whole is a separator, or stands in a field. -/
theorem mem_intercalate {fields : List (List α)} {x : α} (hx : x ∈ [sep].intercalate fields) :
    x = sep ∨ ∃ f ∈ fields, x ∈ f := by
  induction fields with
  | nil => cases hx
  | cons f fields ih =>
      cases fields with
      | nil => exact .inr ⟨f, List.mem_cons_self, by simpa using hx⟩
      | cons g fields =>
          rw [List.intercalate_cons_cons, List.append_assoc, List.mem_append,
            List.singleton_append, List.mem_cons] at hx
          obtain hx | hx | hx := hx
          · exact .inr ⟨f, List.mem_cons_self, hx⟩
          · exact .inl hx
          · obtain hx | ⟨g', hg', hx⟩ := ih hx
            · exact .inl hx
            · exact .inr ⟨g', List.mem_cons_of_mem f hg', hx⟩

/-- Fields joined by one separator: the whole has no other, and it is split into them. -/
theorem intercalate_eq_iff (hsep : p sep = true) {fields : List (List α)} (hne : fields ≠ [])
    (h : ∀ f ∈ fields, ∀ x ∈ f, p x = false) {l : List α} :
    [sep].intercalate fields = l ↔ (∀ x ∈ l, p x = true → x = sep) ∧ l.splitOnP p = fields := by
  constructor
  · rintro rfl
    refine ⟨fun x hx hpx => ?_, splitOnP_intercalate hsep hne h⟩
    obtain hx | ⟨f, hf, hx⟩ := mem_intercalate hx
    · exact hx
    · rw [h f hf x hx] at hpx
      cases hpx
  · rintro ⟨honly, rfl⟩
    exact intercalate_splitOnP honly

end Fields

end Text
