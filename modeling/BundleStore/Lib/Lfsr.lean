import Mathlib.Data.Nat.Bits
import Mathlib.Logic.Function.Iterate
import Mathlib.Tactic.Ring

set_option autoImplicit false

/-!
# Shift registers with linear feedback

A register of `w` bits moves down by one bit at each turn; when the bit that falls out
is set, a fixed pattern is added to it. Addition is exclusive or, and a turn is linear
in it. What a register makes of a stream of bits is what it makes of the start value,
added to what it makes of the stream alone.
-/

namespace Lfsr

variable {w : ℕ}

/-! ## Linear maps -/

/-- A map that goes along with exclusive or. -/
def Linear (f : BitVec w → BitVec w) : Prop :=
  ∀ x y, f (x ^^^ y) = f x ^^^ f y

namespace Linear

variable {f g : BitVec w → BitVec w}

/-- A linear map keeps zero. -/
theorem zero (h : Linear f) : f 0#w = 0#w := by
  have hsame := h 0#w 0#w
  simpa using hsame

/-- Linear maps one after the other are linear. -/
theorem comp (hf : Linear f) (hg : Linear g) : Linear (f ∘ g) := by
  intro x y
  simp [hg x y, hf (g x) (g y)]

/-- A linear map repeated is linear. -/
theorem iterate (h : Linear f) (n : ℕ) : Linear f^[n] := by
  induction n with
  | zero => intro x y; simp
  | succ n ih =>
      rw [Function.iterate_succ]
      exact ih.comp h

/-- Where only zero is taken to zero, no two values are taken to one. -/
theorem injective (h : Linear f) (hzero : ∀ x, f x = 0#w → x = 0#w) : Function.Injective f := by
  intro x y heq
  have hdiff : f (x ^^^ y) = 0#w := by
    rw [h x y, heq]
    simp
  simpa using hzero _ hdiff

end Linear

/-- The columns of a map: what it makes of each single bit. -/
def columns (f : BitVec w → BitVec w) : List (BitVec w) :=
  (List.range w).map fun i => f (BitVec.twoPow w i)

/-- The sum of the columns whose bits are set. -/
def sumColumns : List (BitVec w) → BitVec w → BitVec w
  | [], _ => 0#w
  | c :: m, v => (if v.getLsbD 0 then c else 0#w) ^^^ sumColumns m (v >>> 1)

/-- No columns have no sum. -/
@[simp] theorem sumColumns_nil (v : BitVec w) : sumColumns [] v = 0#w := rfl

/-- The lowest bit says whether the first column counts. -/
theorem sumColumns_cons (c : BitVec w) (m : List (BitVec w)) (v : BitVec w) :
    sumColumns (c :: m) v = (if v.getLsbD 0 then c else 0#w) ^^^ sumColumns m (v >>> 1) := rfl

/-- Of zero no column counts. -/
@[simp] theorem sumColumns_zero (m : List (BitVec w)) : sumColumns m 0#w = 0#w := by
  induction m with
  | nil => rfl
  | cons c m ih => simp [sumColumns_cons, ih]

/-- There is a column for each bit. -/
@[simp] theorem length_columns (f : BitVec w → BitVec w) : (columns f).length = w := by
  simp [columns]

/-- The lowest bit of a word that is moved up, and the others. -/
theorem shiftLeft_split (v : BitVec w) (o : ℕ) :
    v <<< o = (if v.getLsbD 0 then BitVec.twoPow w o else 0#w) ^^^ ((v >>> 1) <<< (o + 1)) := by
  apply BitVec.eq_of_getLsbD_eq
  intro i hi
  have hsplit : (if v.getLsbD 0 then BitVec.twoPow w o else 0#w).getLsbD i =
      (v.getLsbD 0 && decide (i = o)) := by
    cases v.getLsbD 0 <;> simp [hi, eq_comm]
  rw [BitVec.getLsbD_xor, hsplit]
  simp only [BitVec.getLsbD_shiftLeft, BitVec.getLsbD_ushiftRight, hi, decide_true, Bool.true_and]
  rcases lt_trichotomy i o with hlt | rfl | hlt
  · have hbelow : i < o + 1 := by omega
    have hne : i ≠ o := by omega
    simp [hlt, hbelow, hne]
  · simp
  · have hplace : 1 + (i - (o + 1)) = i - o := by omega
    have hle : ¬ i < o := by omega
    have hle' : ¬ i < o + 1 := by omega
    have hne : i ≠ o := by omega
    simp [hplace, hle, hle', hne]

/-- A linear map is the sum of its columns. -/
theorem sumColumns_drop {f : BitVec w → BitVec w} (h : Linear f) (o : ℕ) (v : BitVec w) :
    sumColumns ((columns f).drop o) v = f (v <<< o) := by
  induction hleft : w - o generalizing o v with
  | zero =>
      have hlong : (columns f).length ≤ o := by
        rw [length_columns]
        omega
      have hgone : v <<< o = 0#w := BitVec.shiftLeft_eq_zero (by omega)
      rw [List.drop_of_length_le hlong, hgone, h.zero]
      rfl
  | succ n ih =>
      have hlt : o < (columns f).length := by
        rw [length_columns]
        omega
      have hat : (columns f)[o] = f (BitVec.twoPow w o) := by simp [columns]
      rw [List.drop_eq_getElem_cons hlt, hat, shiftLeft_split v o, h, sumColumns_cons,
        ih (o + 1) (v >>> 1) (by omega)]
      cases v.getLsbD 0 <;> simp [h.zero]

/-- A linear map is the sum of its columns. -/
theorem sumColumns_columns {f : BitVec w → BitVec w} (h : Linear f) (v : BitVec w) :
    sumColumns (columns f) v = f v := by
  simpa using sumColumns_drop h 0 v

/-! ## Turns -/

variable (poly : BitVec w)

/-- One turn of the register. -/
def step (c : BitVec w) : BitVec w :=
  (if c.getLsbD 0 then poly else 0#w) ^^^ (c >>> 1)

/-- Several turns. -/
def run (n : ℕ) : BitVec w → BitVec w :=
  (step poly)^[n]

/-- A turn of the register is linear. -/
theorem step_linear : Linear (step poly) := by
  intro x y
  unfold step
  rw [BitVec.ushiftRight_xor_distrib, BitVec.getLsbD_xor]
  cases x.getLsbD 0 <;> cases y.getLsbD 0 <;> simp
  · ac_rfl
  · ac_rfl
  · rw [BitVec.xor_assoc, ← BitVec.xor_assoc (x >>> 1), BitVec.xor_comm (x >>> 1) poly,
      BitVec.xor_assoc poly, ← BitVec.xor_assoc poly, BitVec.xor_self, BitVec.zero_xor]

/-- Any number of turns is linear. -/
theorem run_linear (n : ℕ) : Linear (run poly n) :=
  (step_linear poly).iterate n

/-- No turn changes nothing. -/
@[simp] theorem run_zero (c : BitVec w) : run poly 0 c = c := rfl

/-- One more turn. -/
theorem run_succ (n : ℕ) (c : BitVec w) : run poly (n + 1) c = step poly (run poly n c) :=
  Function.iterate_succ_apply' _ _ _

/-- Turns add up. -/
theorem run_add (m n : ℕ) (c : BitVec w) : run poly (m + n) c = run poly m (run poly n c) :=
  Function.iterate_add_apply _ m n c

/-- What has no bit below `n` only moves down for `n` turns. -/
theorem run_of_clear {n : ℕ} {c : BitVec w} (h : ∀ i < n, c.getLsbD i = false) :
    run poly n c = c >>> n := by
  induction n with
  | zero => simp
  | succ n ih =>
      have hclear : (c >>> n).getLsbD 0 = false := by
        simpa using h n (Nat.lt_succ_self n)
      rw [run_succ, ih fun i hi => h i (by omega)]
      unfold step
      rw [hclear, BitVec.shiftRight_add]
      simp

/-- The low part makes its turns, the rest moves down. -/
theorem run_split {n : ℕ} {c lo hi : BitVec w} (hc : c = lo ^^^ hi)
    (hhi : ∀ i < n, hi.getLsbD i = false) : run poly n c = run poly n lo ^^^ (hi >>> n) := by
  rw [hc, run_linear, run_of_clear poly hhi]

/-- When the pattern has the highest bit, no two values become one. -/
theorem step_injective (hpoly : poly.getLsbD (w - 1) = true) :
    Function.Injective (step poly) := by
  apply (step_linear poly).injective
  intro x hzero
  unfold step at hzero
  have hlow : x.getLsbD 0 = false := by
    cases hx : x.getLsbD 0 with
    | false => rfl
    | true =>
        have htop := congrArg (fun v => v.getLsbD (w - 1)) hzero
        simp [hx, hpoly] at htop
        have hlt := BitVec.lt_of_getLsbD htop
        omega
  have hshift : x >>> 1 = 0#w := by simpa [hlow] using hzero
  apply BitVec.eq_of_getLsbD_eq
  intro i _
  cases i with
  | zero => simpa using hlow
  | succ i =>
      have hbit := congrArg (fun v => v.getLsbD i) hshift
      simpa [Nat.add_comm] using hbit

/-- Turns lose nothing, where the polynomial has its highest bit. -/
theorem run_injective (hpoly : poly.getLsbD (w - 1) = true) (n : ℕ) :
    Function.Injective (run poly n) :=
  (step_injective poly hpoly).iterate n

/-! ## Streams of bits -/

/-- The bits of a word, the lowest first. -/
def bits {n : ℕ} (x : BitVec n) : List Bool :=
  (List.range n).map x.getLsbD

/-- The word of some bits, the lowest first. -/
def ofBits : List Bool → BitVec w
  | [] => 0#w
  | b :: bs => BitVec.ofNat w b.toNat ^^^ (ofBits bs <<< 1)

/-- The first bit is the lowest one. -/
theorem ofBits_cons (b : Bool) (bs : List Bool) :
    (ofBits (b :: bs) : BitVec w) = BitVec.ofNat w b.toNat ^^^ (ofBits bs <<< 1) := rfl

/-- A word has as many bits as its width. -/
@[simp] theorem length_bits {n : ℕ} (x : BitVec n) : (bits x).length = n := by
  simp [bits]

/-- The bit at a place, in a word that may be too short for it. -/
theorem getLsbD_ofBits (bs : List Bool) (i : ℕ) :
    (ofBits bs : BitVec w).getLsbD i = (decide (i < w) && bs.getD i false) := by
  induction bs generalizing i with
  | nil => simp [ofBits]
  | cons b bs ih =>
      simp only [ofBits, BitVec.getLsbD_xor, BitVec.getLsbD_shiftLeft, ih, BitVec.getLsbD_ofNat]
      cases i with
      | zero => cases b <;> simp
      | succ i =>
          by_cases hi : i + 1 < w
          · have hlt : i < w := by omega
            cases b <;> simp [hi, hlt, Nat.testBit_succ]
          · simp [hi]

/-- The bits of a word give the word back. -/
theorem ofBits_bits {n : ℕ} (x : BitVec n) : (ofBits (bits x) : BitVec w) = x.setWidth w := by
  apply BitVec.eq_of_getLsbD_eq
  intro i hi
  rw [getLsbD_ofBits, BitVec.getLsbD_setWidth]
  by_cases hn : i < n
  · simp [bits, hi, hn]
  · simp [bits, hi, hn, BitVec.getLsbD_of_ge x i (not_lt.mp hn)]

/-- The low word comes first. -/
theorem bits_append {m n : ℕ} (x : BitVec m) (y : BitVec n) :
    bits (x ++ y) = bits y ++ bits x := by
  have hrange : List.range (m + n) = List.range n ++ (List.range m).map (n + ·) := by
    rw [Nat.add_comm, List.range_add]
  unfold bits
  rw [hrange, List.map_append, List.map_map]
  congr 1
  · apply List.map_congr_left
    intro i hi
    simp [BitVec.getLsbD_append, List.mem_range.mp hi]
  · apply List.map_congr_left
    intro i _
    simp [BitVec.getLsbD_append]

/-- A bit comes in. -/
def feed (c : BitVec w) (b : Bool) : BitVec w :=
  step poly (c ^^^ BitVec.ofNat w b.toNat)

def feeds (c : BitVec w) (bs : List Bool) : BitVec w :=
  bs.foldl (feed poly) c

/-- No bits change nothing. -/
@[simp] theorem feeds_nil (c : BitVec w) : feeds poly c [] = c := rfl

/-- The first bit is fed first. -/
@[simp] theorem feeds_cons (c : BitVec w) (b : Bool) (bs : List Bool) :
    feeds poly c (b :: bs) = feeds poly (feed poly c b) bs := rfl

/-- Two streams may be fed one after the other. -/
theorem feeds_append (c : BitVec w) (bs bs' : List Bool) :
    feeds poly c (bs ++ bs') = feeds poly (feeds poly c bs) bs' :=
  List.foldl_append

/-- As many bits as the register has may come in at once, before the turns. -/
theorem feeds_eq_run {c : BitVec w} {bs : List Bool} (h : bs.length ≤ w) :
    feeds poly c bs = run poly bs.length (c ^^^ ofBits bs) := by
  induction bs generalizing c with
  | nil => simp [ofBits]
  | cons b bs ih =>
      have htop : ∀ i, i < 1 → (ofBits bs <<< 1 : BitVec w).getLsbD i = false := by
        intro i hi
        simp [hi]
      have hback : (ofBits bs <<< 1 : BitVec w) >>> 1 = ofBits bs := by
        apply BitVec.eq_of_getLsbD_eq
        intro i hi
        simp only [BitVec.getLsbD_ushiftRight, BitVec.getLsbD_shiftLeft, getLsbD_ofBits]
        by_cases hlast : 1 + i < w
        · have hlt : i < w := by omega
          simp [hlast, hlt]
        · have hlong : bs.length ≤ i := by
            rw [List.length_cons] at h
            omega
          simp [hlast, hlong]
      have hdown : step poly (ofBits bs <<< 1) = ofBits bs :=
        (run_of_clear poly htop).trans hback
      have hone : run poly 1 (c ^^^ ofBits (b :: bs)) = feed poly c b ^^^ ofBits bs := by
        rw [ofBits_cons, ← BitVec.xor_assoc]
        exact (step_linear poly _ _).trans (congrArg (feed poly c b ^^^ ·) hdown)
      rw [feeds_cons, ih (Nat.le_of_succ_le h), List.length_cons, run_add, hone]

/-- A word comes in. -/
theorem feeds_bits {n : ℕ} (h : n ≤ w) (c : BitVec w) (x : BitVec n) :
    feeds poly c (bits x) = run poly n (c ^^^ x.setWidth w) := by
  rw [feeds_eq_run poly (by simpa using h), ofBits_bits, length_bits]

/-- Zeros coming in are turns. -/
theorem feeds_zeros (c : BitVec w) (n : ℕ) :
    feeds poly c (List.replicate n false) = run poly n c := by
  induction n generalizing c with
  | zero => rfl
  | succ n ih =>
      rw [List.replicate_succ, feeds_cons, ih]
      simp [feed, run, Function.iterate_succ_apply]

/-- The sum of two streams, from the sum of two start values. -/
theorem feeds_xor {c d : BitVec w} {xs ys : List Bool} (h : xs.length = ys.length) :
    feeds poly (c ^^^ d) (List.zipWith xor xs ys) = feeds poly c xs ^^^ feeds poly d ys := by
  induction xs generalizing c d ys with
  | nil =>
      obtain rfl := List.length_eq_zero_iff.mp h.symm
      rfl
  | cons x xs ih =>
      cases ys with
      | nil => cases h
      | cons y ys =>
          have hbit : BitVec.ofNat w (xor x y).toNat =
              BitVec.ofNat w x.toNat ^^^ BitVec.ofNat w y.toNat := by
            cases x <;> cases y <;> simp
          have hsum : feed poly (c ^^^ d) (xor x y) = feed poly c x ^^^ feed poly d y := by
            unfold feed
            rw [hbit, ← step_linear poly]
            congr 1
            ac_rfl
          rw [List.zipWith_cons_cons, feeds_cons, feeds_cons, feeds_cons, hsum]
          exact ih (Nat.succ.inj h)

/-- The start value goes through its turns on its own. -/
theorem feeds_start (c : BitVec w) (bs : List Bool) :
    feeds poly c bs = run poly bs.length c ^^^ feeds poly 0#w bs := by
  have hlength : (List.replicate bs.length false).length = bs.length := by simp
  have hsum : feeds poly (c ^^^ 0#w) (List.zipWith xor (List.replicate bs.length false) bs) =
      feeds poly c (List.replicate bs.length false) ^^^ feeds poly 0#w bs :=
    feeds_xor poly hlength
  rw [feeds_zeros] at hsum
  rw [← hsum, BitVec.xor_zero]
  congr 1
  apply List.ext_getElem <;> simp

/-- Registers that differ before a stream differ behind it. -/
theorem feeds_injective (hpoly : poly.getLsbD (w - 1) = true) (bs : List Bool) :
    Function.Injective fun c => feeds poly c bs := by
  intro c d heq
  dsimp only at heq
  rw [feeds_start poly c, feeds_start poly d] at heq
  exact run_injective poly hpoly _ ((BitVec.xor_left_inj _).mp heq)

/-- **No burst goes unnoticed**: two streams that differ, but only within as many places as the
register has, leave different values in it. -/
theorem feeds_ne_of_burst (hpoly : poly.getLsbD (w - 1) = true) {window window' : List Bool}
    (hlength : window.length = window'.length) (hle : window.length ≤ w)
    (hne : window ≠ window') (c : BitVec w) (before behind : List Bool) :
    feeds poly c (before ++ window ++ behind) ≠ feeds poly c (before ++ window' ++ behind) := by
  intro heq
  simp only [feeds_append] at heq
  have hwindow := feeds_injective poly hpoly behind heq
  generalize feeds poly c before = d at hwindow
  have hle' : window'.length ≤ w := hlength ▸ hle
  rw [feeds_eq_run poly hle, feeds_eq_run poly hle', ← hlength] at hwindow
  have hword : (ofBits window : BitVec w) = ofBits window' :=
    (BitVec.xor_right_inj _).mp (run_injective poly hpoly _ hwindow)
  apply hne
  apply List.ext_getElem hlength
  intro i hi hi'
  have hbit := congrArg (fun v => v.getLsbD i) hword
  have hlt : i < w := by omega
  rw [getLsbD_ofBits, getLsbD_ofBits] at hbit
  simpa [hlt, hi, hi'] using hbit

end Lfsr
