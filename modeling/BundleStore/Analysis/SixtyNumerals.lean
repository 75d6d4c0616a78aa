import BundleStore.Analysis.Sixty

set_option autoImplicit false

/-!
# What `FromSixty` accepts

The running sum of `FromSixty` is followed through every string, not only through
numerals. The table has holes between `'0'` and `'z'`, and a hole counts as the
digit -1: it is noticed when the sum turns negative, which needs a hole in front
of every other digit. A sum that is too large is noticed unless it has wrapped
around to a positive one. The size is narrowed to `int`.
-/

namespace BundleStore

open Machine Text

/-! ## The running sum -/

/-- `CharTable[c - '0']`. -/
def tableDigit (c : UInt8) : ℤ :=
  charTable.getD (c - 48).toNat (-1)

/-- The products `index * PowTable[size - j - 1]`, in exact arithmetic. -/
def products : Bytes → List ℤ
  | [] => []
  | c :: rest => tableDigit c * powTable.getD rest.length 0 :: products rest

/-- The values of `ten` after each character, in exact arithmetic. -/
def runningSums : Bytes → ℤ → List ℤ
  | [], _ => []
  | c :: rest, ten =>
      let ten' := ten + tableDigit c * powTable.getD rest.length 0
      ten' :: runningSums rest ten'

/-- The last of them. -/
def finalSum : Bytes → ℤ → ℤ
  | [], ten => ten
  | c :: rest, ten => finalSum rest (ten + tableDigit c * powTable.getD rest.length 0)

/-- A character outside the range of the table. -/
def OutOfTable (c : UInt8) : Prop :=
  c < 48 ∨ 122 < c

instance (c : UInt8) : Decidable (OutOfTable c) :=
  inferInstanceAs (Decidable (_ ∨ _))

/-- Adding in `int64_t` is adding and wrapping. -/
theorem int64_add_int64 (x y : ℤ) : int64 (int64 x + int64 y) = int64 (x + y) := by
  unfold int64
  rw [Int.add_bmod_bmod, Int.bmod_add_bmod]

/-- What the loop makes of the characters that are left. -/
theorem fromSixtyLoop_eq (w : Bytes) (ten : ℤ) :
    (((∃ c ∈ w, OutOfTable c) ∨ ∃ s ∈ runningSums w ten, int64 s < 0) ∧
        fromSixtyLoop w (int64 ten) = -1) ∨
      (¬((∃ c ∈ w, OutOfTable c) ∨ ∃ s ∈ runningSums w ten, int64 s < 0) ∧
        fromSixtyLoop w (int64 ten) = int64 (finalSum w ten)) := by
  induction w generalizing ten with
  | nil =>
      right
      simp [fromSixtyLoop, finalSum, runningSums]
  | cons c rest ih =>
      by_cases hout : OutOfTable c
      · left
        refine ⟨.inl ⟨c, List.mem_cons_self, hout⟩, ?_⟩
        unfold fromSixtyLoop
        exact if_pos hout
      · have hstep : fromSixtyLoop (c :: rest) (int64 ten) =
            if int64 (ten + tableDigit c * powTable.getD rest.length 0) < 0 then -1
            else fromSixtyLoop rest
              (int64 (ten + tableDigit c * powTable.getD rest.length 0)) := by
          rw [fromSixtyLoop, if_neg (show ¬(c < 48 ∨ 122 < c) from hout)]
          simp only
          rw [int64_add_int64]
          rfl
        by_cases hneg : int64 (ten + tableDigit c * powTable.getD rest.length 0) < 0
        · left
          refine ⟨.inr ⟨_, List.mem_cons_self, hneg⟩, ?_⟩
          rw [hstep, if_pos hneg]
        · rw [hstep, if_neg hneg]
          have hcases : ((∃ d ∈ c :: rest, OutOfTable d) ∨
              ∃ s ∈ runningSums (c :: rest) ten, int64 s < 0) ↔
              ((∃ d ∈ rest, OutOfTable d) ∨ ∃ s ∈ runningSums rest
                (ten + tableDigit c * powTable.getD rest.length 0), int64 s < 0) := by
            simp only [runningSums, List.mem_cons, exists_eq_or_imp, hout, hneg, false_or]
          rw [hcases]
          exact ih _

/-! ## Numerals -/

/-- The digit of a character of the alphabet. -/
def alphabetDigit (c : UInt8) : ℕ :=
  sixtyChar.idxOf c

/-- The value of a string in base 60, the most significant digit first. -/
def sixtyValue (s : Bytes) : ℕ :=
  Nat.ofDigits 60 (s.reverse.map alphabetDigit)

/-- A base-60 numeral of an `int64_t`. -/
structure IsNumeral (s : Bytes) : Prop where
  ne_nil : s ≠ []
  length_le : s.length ≤ 11
  alphabet : ∀ c ∈ s, c ∈ sixtyChar
  value_lt : sixtyValue s < 2 ^ 63

/-- The table has the digits of the alphabet, and -1 for every other character. -/
theorem tableDigit_eq (c : UInt8) :
    (c ∈ sixtyChar ∧ tableDigit c = alphabetDigit c ∧ alphabetDigit c < 60 ∧ ¬OutOfTable c) ∨
      (c ∉ sixtyChar ∧ tableDigit c = -1) := by
  have hall : ∀ n : Fin 256,
      (UInt8.ofNat n ∈ sixtyChar ∧ tableDigit (UInt8.ofNat n) = alphabetDigit (UInt8.ofNat n) ∧
        alphabetDigit (UInt8.ofNat n) < 60 ∧ ¬OutOfTable (UInt8.ofNat n)) ∨
      (UInt8.ofNat n ∉ sixtyChar ∧ tableDigit (UInt8.ofNat n) = -1) := by
    decide +kernel
  have hc := hall ⟨c.toNat, c.toNat_lt⟩
  simpa using hc

/-- An entry of the table is -1 or a digit.
SOURCE: sixty.h:44-49 -/
theorem tableDigit_range (c : UInt8) : -1 ≤ tableDigit c ∧ tableDigit c < 60 := by
  rcases tableDigit_eq c with ⟨-, hdigit, hlt, -⟩ | ⟨-, hdigit⟩
  · rw [hdigit]
    omega
  · rw [hdigit]
    norm_num

/-- The value of a numeral with one more digit in front. -/
theorem sixtyValue_cons (c : UInt8) (rest : Bytes) :
    sixtyValue (c :: rest) = alphabetDigit c * 60 ^ rest.length + sixtyValue rest := by
  unfold sixtyValue
  rw [List.reverse_cons, List.map_append, Nat.ofDigits_append, List.map_singleton,
    Nat.ofDigits_singleton, List.length_map, List.length_reverse]
  ring

/-- The sums lie between these bounds: a hole takes one off, a digit adds at most 59. -/
theorem runningSums_range {w : Bytes} (hlen : w.length ≤ 11) {ten s : ℤ}
    (hs : s ∈ runningSums w ten) :
    ten - 2 * 60 ^ (w.length - 1) < s ∧ s < ten + 60 ^ w.length := by
  induction w generalizing ten with
  | nil => cases hs
  | cons c rest ih =>
      rw [List.length_cons] at hlen ⊢
      obtain ⟨hlo, hhi⟩ := tableDigit_range c
      have hpow := powTable_eq (k := rest.length) (by omega)
      have hpos : (0 : ℤ) < 60 ^ rest.length := by positivity
      simp only [runningSums, List.mem_cons, hpow] at hs
      have hterm : -(60 ^ rest.length : ℤ) ≤ tableDigit c * 60 ^ rest.length ∧
          tableDigit c * 60 ^ rest.length ≤ 59 * 60 ^ rest.length := by
        constructor
        · nlinarith
        · nlinarith
      rw [pow_succ, Nat.add_sub_cancel]
      rcases hs with rfl | hs
      · constructor <;> linarith [hterm.1, hterm.2]
      · obtain ⟨hlow, hhigh⟩ := ih (by omega) hs
        have hrest : (2 * 60 ^ (rest.length - 1) : ℤ) ≤ 60 ^ rest.length := by
          cases rest with
          | nil => cases hs
          | cons d rest =>
              simp only [List.length_cons, Nat.add_sub_cancel, pow_succ]
              have : (0 : ℤ) < 60 ^ rest.length := by positivity
              linarith
        constructor <;> linarith [hterm.1, hterm.2]

/-- The last sum is one of the running sums. -/
theorem finalSum_mem {w : Bytes} (hne : w ≠ []) (ten : ℤ) : finalSum w ten ∈ runningSums w ten := by
  induction w generalizing ten with
  | nil => exact absurd rfl hne
  | cons c rest ih =>
      cases rest with
      | nil => exact List.mem_cons_self
      | cons d rest => exact List.mem_cons_of_mem _ (ih (List.cons_ne_nil d rest) _)

/-! ## What is noticed -/

/-- The first character that is not an `A` is not in the alphabet. -/
def LeadsWithHole (w : Bytes) : Prop :=
  ∃ c, (w.dropWhile (· == 65)).head? = some c ∧ c ∉ sixtyChar

/-- Some leading part of the string, padded with zeros, has a value at which a sum
in `int64_t` shows a negative number. -/
def ShowsOverflow (w : Bytes) : Prop :=
  ∃ s ∈ runningSums w 0, 2 ^ 63 ≤ s ∧ s < 2 ^ 64 ∨ 2 ^ 64 + 2 ^ 63 ≤ s

/-- The strings for which `FromSixty` returns -1 while it reads them. -/
def Caught (w : Bytes) : Prop :=
  (∃ c ∈ w, OutOfTable c) ∨ LeadsWithHole w ∨ ShowsOverflow w

/-- A sum below zero comes from a hole in front of every other digit. -/
theorem exists_neg_iff {w : Bytes} (hlen : w.length ≤ 11) :
    (∃ s ∈ runningSums w 0, s < 0) ↔ LeadsWithHole w := by
  induction w with
  | nil => simp [runningSums, LeadsWithHole]
  | cons c rest ih =>
      rw [List.length_cons] at hlen
      have hpow := powTable_eq (k := rest.length) (by omega)
      have hpos : (0 : ℤ) < 60 ^ rest.length := by positivity
      by_cases hA : c = 65
      · subst hA
        have hzero : tableDigit 65 = 0 := by decide
        have hdrop : LeadsWithHole (65 :: rest) ↔ LeadsWithHole rest := Iff.rfl
        simp only [runningSums, hzero, zero_mul, add_zero, List.mem_cons, exists_eq_or_imp,
          lt_irrefl, false_or]
        rw [hdrop]
        exact ih (by omega)
      · have hdrop : LeadsWithHole (c :: rest) ↔ c ∉ sixtyChar := by
          unfold LeadsWithHole
          rw [List.dropWhile_cons_of_neg (by simpa using hA)]
          simp
        rw [hdrop]
        rcases tableDigit_eq c with ⟨hmem, hdigit, -, -⟩ | ⟨hmem, hdigit⟩
        · -- a digit above zero outweighs every hole behind it
          have hone : 1 ≤ tableDigit c := by
            have hall : ∀ d ∈ sixtyChar, d ≠ 65 → 1 ≤ tableDigit d := by decide +kernel
            exact hall c hmem hA
          refine iff_of_false ?_ (fun h => h hmem)
          rintro ⟨s, hs, hneg⟩
          simp only [runningSums, List.mem_cons, hpow, zero_add] at hs
          have hterm : (60 ^ rest.length : ℤ) ≤ tableDigit c * 60 ^ rest.length := by nlinarith
          rcases hs with rfl | hs
          · linarith
          · have hlow := (runningSums_range (by omega) hs).1
            have hrest : (2 * 60 ^ (rest.length - 1) : ℤ) ≤ 60 ^ rest.length := by
              cases rest with
              | nil => cases hs
              | cons d rest =>
                  simp only [List.length_cons, Nat.add_sub_cancel, pow_succ]
                  have : (0 : ℤ) < 60 ^ rest.length := by positivity
                  linarith
            linarith
        · refine iff_of_true ⟨_, List.mem_cons_self, ?_⟩ hmem
          rw [hdigit, hpow]
          linarith

/-- Where `int64_t` shows a negative number. -/
theorem int64_neg_iff {s : ℤ} (hlo : -2 ^ 63 ≤ s) (hhi : s < 2 ^ 65) :
    int64 s < 0 ↔ s < 0 ∨ (2 ^ 63 ≤ s ∧ s < 2 ^ 64 ∨ 2 ^ 64 + 2 ^ 63 ≤ s) := by
  have hmod := Int.bmod_def s (2 ^ 64)
  unfold int64
  rw [hmod]
  split <;> omega

/-- A string is refused by its characters or its running sums if it is caught.
SOURCE: sixty.h:63-79 -/
theorem caught_iff {w : Bytes} (hlen : w.length ≤ 11) :
    ((∃ c ∈ w, OutOfTable c) ∨ ∃ s ∈ runningSums w 0, int64 s < 0) ↔ Caught w := by
  have hneg : (∃ s ∈ runningSums w 0, int64 s < 0) ↔ LeadsWithHole w ∨ ShowsOverflow w := by
    rw [← exists_neg_iff hlen]
    unfold ShowsOverflow
    rw [← exists_or]
    apply exists_congr
    intro s
    rw [← and_or_left]
    apply and_congr_right
    intro hs
    obtain ⟨hlo, hhi⟩ := runningSums_range hlen hs
    have hlow : (60 ^ (w.length - 1) : ℤ) ≤ 60 ^ 10 :=
      pow_le_pow_right₀ (by norm_num) (by omega)
    have hhigh : (60 ^ w.length : ℤ) ≤ 60 ^ 11 := pow_le_pow_right₀ (by norm_num) hlen
    norm_num at hlow hhigh
    exact int64_neg_iff (by linarith) (by linarith)
  rw [hneg]
  rfl

/-- What is made of the characters that are read. -/
theorem fromSixtyLoop_zero {w : Bytes} (hlen : w.length ≤ 11) :
    (Caught w ∧ fromSixtyLoop w 0 = -1) ∨
      (¬Caught w ∧ fromSixtyLoop w 0 = int64 (finalSum w 0) ∧ 0 ≤ fromSixtyLoop w 0) := by
  have hzero : int64 0 = 0 := by decide
  have hloop := fromSixtyLoop_eq w 0
  rw [caught_iff hlen, hzero] at hloop
  rcases hloop with h | ⟨hfree, hvalue⟩
  · exact .inl h
  · refine .inr ⟨hfree, hvalue, ?_⟩
    rw [hvalue]
    cases w with
    | nil => decide
    | cons c rest =>
        rw [← caught_iff hlen, not_or] at hfree
        by_contra hneg
        exact hfree.2 ⟨_, finalSum_mem (List.cons_ne_nil c rest) 0, not_le.mp hneg⟩

/-! ## Every string -/

/-- A numeral is read as its value. -/
theorem fromSixty_of_numeral {s : Bytes} (h : IsNumeral s) : fromSixty s = sixtyValue s := by
  have hpos := List.length_pos_of_ne_nil h.ne_nil
  have hle := h.length_le
  have hsize : int32 s.length = s.length := int32_natCast (by omega)
  have hback : (s.map alphabetDigit).map sixtyDigit = s := by
    have hall : ∀ d ∈ sixtyChar, sixtyDigit (alphabetDigit d) = d := by decide +kernel
    rw [List.map_map]
    exact (List.map_congr_left fun c hc => hall c (h.alphabet c hc)).trans (List.map_id s)
  have hdigits : ∀ d ∈ s.map alphabetDigit, d < 60 := by
    intro d hd
    obtain ⟨c, hc, rfl⟩ := List.mem_map.mp hd
    rcases tableDigit_eq c with hin | hout
    · exact hin.2.2.1
    · exact absurd (h.alphabet c hc) hout.1
  have hvalue : Nat.ofDigits 60 (s.map alphabetDigit).reverse = sixtyValue s := by
    rw [← List.map_reverse]
    rfl
  have hloop := fromSixtyLoop_digits (s.map alphabetDigit) 0 hdigits
    (by rw [List.length_map]; exact hle) (by rw [hvalue, Nat.zero_add]; exact h.value_lt)
  rw [hback, hvalue, Nat.zero_add] at hloop
  unfold fromSixty
  simp only [hsize]
  rw [if_neg (by omega), Int.toNat_natCast, List.take_length]
  exact hloop

/-- A numeral is read as its value, and anything else as -1. -/
def Recognizes (s : Bytes) : Prop :=
  (IsNumeral s → fromSixty s = sixtyValue s) ∧ (¬IsNumeral s → fromSixty s = -1)

/-- **`FromSixty` recognizes a string** that is a numeral, that it does not read at
all, or that it notices while it reads. The size is narrowed to `int`.
SOURCE: sixty.h:38-82 -/
theorem fromSixty_recognizes_iff (s : Bytes) :
    Recognizes s ↔
      IsNumeral s ∨ int32 s.length = 0 ∨ 11 < int32 s.length ∨
        0 < int32 s.length ∧ Caught (s.take (int32 s.length).toNat) := by
  by_cases hnum : IsNumeral s
  · exact iff_of_true ⟨fun _ => fromSixty_of_numeral hnum, fun h => absurd hnum h⟩ (.inl hnum)
  · have hmeets : Recognizes s ↔ fromSixty s = -1 :=
      ⟨fun h => h.2 hnum, fun h => ⟨fun hn => absurd hn hnum, fun _ => h⟩⟩
    rw [hmeets]
    simp only [hnum, false_or]
    unfold fromSixty
    generalize int32 s.length = size
    by_cases hrefused : size > 11 ∨ size = 0
    · simp only [if_pos hrefused, true_iff]
      omega
    · simp only [if_neg hrefused]
      have hlen : (s.take size.toNat).length ≤ 11 := by
        rw [List.length_take]
        omega
      by_cases hneg : size < 0
      · -- a size that has become negative: nothing is read, and zero is returned
        have hnothing : size.toNat = 0 := by omega
        rw [hnothing, List.take_zero]
        refine iff_of_false (by decide) ?_
        omega
      · have hpos : 0 < size := by omega
        have hread : (size = 0 ∨ 11 < size ∨ 0 < size ∧ Caught (s.take size.toNat)) ↔
            Caught (s.take size.toNat) := by
          constructor
          · rintro (h | h | h)
            · omega
            · omega
            · exact h.2
          · exact fun h => .inr (.inr ⟨hpos, h⟩)
        rw [hread]
        rcases fromSixtyLoop_zero hlen with ⟨hcaught, hvalue⟩ | ⟨hfree, -, hvalue⟩
        · exact iff_of_true hvalue hcaught
        · refine iff_of_false ?_ hfree
          omega

/-- A hole behind a digit is taken for the digit -1. -/
theorem not_fromSixty_recognizes : ¬ ∀ s, Recognizes s := by
  intro h
  have hread : fromSixty (ascii "B:") = 59 := by decide
  have hnum : ¬IsNumeral (ascii "B:") := by
    intro hnum
    exact absurd (hnum.alphabet 58 (by decide)) (by decide)
  have hwrong := (h (ascii "B:")).2 hnum
  rw [hread] at hwrong
  exact absurd hwrong (by decide)

/-! ## The numerals that `ToSixty` writes -/

/-- The character of a digit has its value. -/
theorem alphabetDigit_sixtyDigit {d : ℕ} (h : d < 60) :
    sixtyDigit d ∈ sixtyChar ∧ alphabetDigit (sixtyDigit d) = d := by
  have hall : ∀ e ∈ List.range 60, sixtyDigit e ∈ sixtyChar ∧
      alphabetDigit (sixtyDigit e) = e := by decide
  exact hall d (List.mem_range.mpr h)

/-- What `ToSixty` writes is the numeral of the number.
SOURCE: sixty.h:14-36 -/
theorem toSixty_numeral {n : ℕ} (h : n < 2 ^ 63) :
    IsNumeral (toSixty n) ∧ sixtyValue (toSixty n) = n := by
  have hpow : n < 60 ^ 11 := h.trans (by norm_num)
  have hdigit : ∀ d ∈ (digits60 n).reverse, d < 60 :=
    fun d hd => digits60_lt (List.mem_reverse.mp hd)
  have hvalue : sixtyValue (toSixty n) = n := by
    have hback : ((digits60 n).reverse.map sixtyDigit).map alphabetDigit =
        (digits60 n).reverse := by
      rw [List.map_map]
      exact (List.map_congr_left fun d hd => (alphabetDigit_sixtyDigit (hdigit d hd)).2).trans
        (List.map_id _)
    unfold sixtyValue
    rw [List.map_reverse, toSixty_eq h, hback, List.reverse_reverse, ofDigits_digits60]
  refine ⟨⟨?_, ?_, ?_, ?_⟩, hvalue⟩
  · rw [toSixty_eq h]
    intro hnil
    have hpos := length_digits60_pos n
    rw [List.map_eq_nil_iff, List.reverse_eq_nil_iff] at hnil
    rw [hnil] at hpos
    exact absurd hpos (lt_irrefl 0)
  · rw [toSixty_eq h, List.length_map, List.length_reverse]
    exact length_digits60_le (by norm_num) hpow
  · intro c hc
    rw [toSixty_eq h, List.mem_map] at hc
    obtain ⟨d, hd, rfl⟩ := hc
    exact (alphabetDigit_sixtyDigit (hdigit d hd)).1
  · rw [hvalue]
    exact h

/-- The first digit of a number above zero is not `A`. -/
theorem head_toSixty {n : ℕ} (h : n < 2 ^ 63) (hn : n ≠ 0) : (toSixty n).head? ≠ some 65 := by
  have hdigits : digits60 n = Nat.digits 60 n := if_neg hn
  rw [toSixty_eq h, hdigits, List.head?_map, List.head?_reverse,
    List.getLast?_eq_getLast_of_ne_nil (Nat.digits_ne_nil_iff_ne_zero.mpr hn), Option.map_some]
  intro heq
  have hlast := Nat.getLast_digit_ne_zero 60 hn
  have hlt := Nat.digits_lt_base (b := 60) (by norm_num)
    (List.getLast_mem (Nat.digits_ne_nil_iff_ne_zero.mpr hn))
  have hzero : ∀ d ∈ List.range 60, sixtyDigit d = 65 → d = 0 := by decide
  exact hlast (hzero _ (List.mem_range.mpr hlt) (Option.some.inj heq))

/-- The sums of a numeral grow to its value, and so does every product. -/
theorem steps_of_numeral {w : Bytes} (hlen : w.length ≤ 11) (hw : ∀ c ∈ w, c ∈ sixtyChar)
    {ten : ℤ} (hten : 0 ≤ ten) :
    (∀ s ∈ runningSums w ten, 0 ≤ s ∧ s ≤ ten + sixtyValue w) ∧
      ∀ t ∈ products w, 0 ≤ t ∧ t ≤ sixtyValue w := by
  induction w generalizing ten with
  | nil =>
      constructor
      · intro s hs
        cases hs
      · intro t ht
        cases ht
  | cons c rest ih =>
      rw [List.length_cons] at hlen
      have hdigit : tableDigit c = alphabetDigit c := by
        rcases tableDigit_eq c with h | h
        · exact h.2.1
        · exact absurd (hw c List.mem_cons_self) h.1
      have hpow := powTable_eq (k := rest.length) (by omega)
      have hterm : (0 : ℤ) ≤ alphabetDigit c * 60 ^ rest.length := by positivity
      have hrest : (0 : ℤ) ≤ sixtyValue rest := Int.natCast_nonneg _
      obtain ⟨hsums, hproducts⟩ := ih (by omega) (fun d hd => hw d (List.mem_cons_of_mem c hd))
        (add_nonneg hten hterm)
      simp only [runningSums, products, List.mem_cons, hdigit, hpow, sixtyValue_cons]
      push_cast
      constructor
      · rintro s (rfl | hs)
        · constructor <;> linarith
        · have hrange := hsums s hs
          constructor <;> linarith [hrange.1, hrange.2]
      · rintro t (rfl | ht)
        · constructor <;> linarith
        · have hrange := hproducts t ht
          constructor <;> linarith [hrange.1, hrange.2]

/-- **Round trip over the whole range.** The numeral of a number has at most eleven
characters of the alphabet and no leading `A`, it is read back, and nothing on the
way leaves the range of `int64_t`.
SOURCE: sixty.h:14-82 -/
theorem sixty_round_trip (n : ℤ) (hlo : 0 ≤ n) (hhi : n < 2 ^ 63) :
    toSixty n ≠ [] ∧ (toSixty n).length ≤ 11 ∧ (∀ c ∈ toSixty n, c ∈ sixtyChar) ∧
      ((toSixty n).head? = some 65 → n = 0) ∧ fromSixty (toSixty n) = n ∧
      (∀ s ∈ runningSums (toSixty n) 0, -2 ^ 63 ≤ s ∧ s < 2 ^ 63) ∧
      ∀ t ∈ products (toSixty n), -2 ^ 63 ≤ t ∧ t < 2 ^ 63 := by
  obtain ⟨m, rfl⟩ := Int.eq_ofNat_of_zero_le hlo
  have hm : m < 2 ^ 63 := by omega
  obtain ⟨hnum, hvalue⟩ := toSixty_numeral hm
  obtain ⟨hsums, hproducts⟩ := steps_of_numeral hnum.length_le hnum.alphabet (le_refl 0)
  rw [hvalue] at hsums hproducts
  refine ⟨hnum.ne_nil, hnum.length_le, hnum.alphabet, ?_, fromSixty_toSixty_natCast hm, ?_, ?_⟩
  · intro hhead
    by_contra hne
    exact head_toSixty hm (by exact_mod_cast hne) hhead
  · intro s hs
    have hrange := hsums s hs
    constructor <;> linarith [hrange.1, hrange.2]
  · intro t ht
    have hrange := hproducts t ht
    constructor <;> linarith [hrange.1, hrange.2]

/-- The largest number, whose numeral is `QQOkhg5VQfH`. -/
theorem sixty_round_trip_max :
    toSixty (2 ^ 63 - 1) = ascii "QQOkhg5VQfH" ∧ (toSixty (2 ^ 63 - 1)).length ≤ 11 ∧
      fromSixty (toSixty (2 ^ 63 - 1)) = 2 ^ 63 - 1 := by
  obtain ⟨-, hlength, -, -, hback, -⟩ :=
    sixty_round_trip (2 ^ 63 - 1) (by norm_num) (by norm_num)
  exact ⟨by decide, hlength, hback⟩

end BundleStore
