import BundleStore.Analysis.Crc

set_option autoImplicit false

/-!
# Checksums of blocks put together

A table of `mycrc32_combine` is a matrix: what so many zeros that come in make of the
register. A checksum that has gone through the zeros is added to that of what comes behind.
-/

namespace BundleStore

namespace MooseFs

open Lfsr

/-! ## The matrices -/

/-- The lowest bit of a word. -/
theorem and_one_ne_zero {v : BitVec 32} : v &&& 1#32 ≠ 0#32 ↔ v.getLsbD 0 = true := by
  rw [BitVec.and_one_eq_setWidth_ofBool_getLsbD]
  cases v.getLsbD 0 <;> simp

/-- A shift takes a round less. -/
theorem toNat_shiftRight_one {v : BitVec 32} {rounds : ℕ} (h : v.toNat < 2 ^ (rounds + 1)) :
    (v >>> 1).toNat < 2 ^ rounds := by
  rw [BitVec.toNat_ushiftRight, Nat.shiftRight_eq_div_pow]
  rw [Nat.pow_succ] at h
  omega

/-- The loop adds up columns. -/
theorem matrixSum_eq {m : List (BitVec 32)} {rounds : ℕ} {v : BitVec 32}
    (h : v.toNat < 2 ^ rounds) (j : ℕ) (s : BitVec 32) :
    matrixSum m rounds j v s = s ^^^ sumColumns (m.drop j) v := by
  induction rounds generalizing j v s with
  | zero =>
      obtain rfl : v = 0#32 := BitVec.eq_of_toNat_eq (by simpa using h)
      simp [matrixSum]
  | succ rounds ih =>
      unfold matrixSum
      by_cases hv : v = 0#32
      · simp [hv]
      · rw [if_neg hv, ih (toNat_shiftRight_one h)]
        by_cases hj : j < m.length
        · rw [List.drop_eq_getElem_cons hj, List.getD_eq_getElem _ _ hj, sumColumns_cons]
          by_cases hbit : v.getLsbD 0 = true
          · rw [if_pos (and_one_ne_zero.mpr hbit), if_pos hbit, BitVec.xor_assoc]
          · rw [if_neg (mt and_one_ne_zero.mp hbit), if_neg hbit, BitVec.zero_xor]
        · have hlong : m.length ≤ j := not_lt.mp hj
          rw [List.drop_of_length_le hlong, List.drop_of_length_le (by omega),
            List.getD_eq_default _ _ hlong]
          simp

/-- The square of a matrix is what its map does twice. -/
theorem square_columns {f : BitVec 32 → BitVec 32} (h : Linear f) :
    crc_matrix_square (columns f) = columns (f ∘ f) := by
  unfold crc_matrix_square
  conv_lhs => arg 2; unfold columns
  rw [List.map_map]
  apply List.map_congr_left
  intro i _
  have hsum := matrixSum_eq (m := columns f) (f (BitVec.twoPow 32 i)).isLt 0 0#32
  rw [List.drop_zero, sumColumns_columns h, BitVec.zero_xor] at hsum
  exact hsum

/-- The square of a matrix makes its steps twice.
SOURCE: crc.c:201-211 -/
theorem square_run (n : ℕ) :
    crc_matrix_square (columns (run CRC_POLY n)) = columns (run CRC_POLY (2 * n)) := by
  have htwice : run CRC_POLY n ∘ run CRC_POLY n = run CRC_POLY (2 * n) := by
    funext c
    rw [two_mul, run_add]
    rfl
  rw [square_columns (run_linear CRC_POLY n), htwice]

/-- The first matrices make four and two steps.
SOURCE: crc.c:216-223 -/
theorem firstMatrices_eq :
    firstMatrices = (columns (run CRC_POLY 4), columns (run CRC_POLY 2)) := by
  have hone : (CRC_POLY :: (List.range 31).map fun i => 1#32 <<< i) = columns (run CRC_POLY 1) := by
    decide +kernel
  unfold firstMatrices
  rw [hone]
  dsimp only
  rw [square_run, square_run]

/-- The matrices of the next round.
SOURCE: crc.c:225-232 -/
theorem matricesBefore_succ (i : ℕ) :
    matricesBefore (i + 1) =
      if i % 2 = 1 then (crc_matrix_square (matricesBefore i).2, (matricesBefore i).2)
      else ((matricesBefore i).1, crc_matrix_square (matricesBefore i).1) := rfl

/-- Of the two matrices one has gone through the zeros so far; which one, alternates. -/
theorem matricesBefore_eq (i : ℕ) :
    (if i % 2 = 1 then (matricesBefore i).2 else (matricesBefore i).1) =
      columns (run CRC_POLY (4 * 2 ^ i)) := by
  induction i with
  | zero =>
      unfold matricesBefore
      rw [firstMatrices_eq]
      rfl
  | succ i ih =>
      have hpow : 4 * 2 ^ (i + 1) = 2 * (4 * 2 ^ i) := by ring
      rw [hpow, ← square_run, ← ih, matricesBefore_succ]
      by_cases hodd : i % 2 = 1
      · have heven : ¬ (i + 1) % 2 = 1 := by omega
        simp only [hodd, heven, if_true, if_false]
      · have hnext : (i + 1) % 2 = 1 := by omega
        simp only [hodd, hnext, if_true, if_false]

/-- The matrix of a round makes the steps of 2^i bytes. -/
theorem combineMatrix_eq (i : ℕ) : combineMatrix i = columns (run CRC_POLY (8 * 2 ^ i)) := by
  have hpow : 8 * 2 ^ i = 4 * 2 ^ (i + 1) := by ring
  rw [hpow, ← matricesBefore_eq]
  unfold combineMatrix
  by_cases hodd : i % 2 = 1
  · have heven : ¬ (i + 1) % 2 = 1 := by omega
    rw [if_pos hodd, if_neg heven]
  · have hnext : (i + 1) % 2 = 1 := by omega
    rw [if_neg hodd, if_pos hnext]

/-- An entry of the table of a round makes these steps for one byte.
SOURCE: crc.c:233-247 -/
theorem crc_combine_table_eq (i j : ℕ) (k : BitVec 32) :
    crc_combine_table i j k = run CRC_POLY (8 * 2 ^ i) (k <<< (j * 8)) := by
  unfold crc_combine_table
  rw [matrixSum_eq k.isLt, List.drop_zero, BitVec.zero_xor, combineMatrix_eq,
    sumColumns_drop (run_linear CRC_POLY _)]

/-! ## The loop -/

/-- A word is the sum of its lowest octet and the rest. -/
theorem octet_split (x : BitVec 32) : (x >>> 8) <<< 8 ^^^ (x &&& 0xff#32) = x := by
  apply BitVec.eq_of_getLsbD_eq
  intro i hi
  simp only [BitVec.getLsbD_xor, BitVec.getLsbD_shiftLeft, getLsbD_octet,
    BitVec.getLsbD_ushiftRight, hi, decide_true, Bool.true_and]
  by_cases hlow : i < 8
  · simp [hlow]
  · have hplace : 8 + (i - 8) = i := by omega
    simp [hlow, hplace]

/-- A word is the sum of its four octets. -/
theorem octets (x : BitVec 32) :
    (x >>> 24) <<< 24 ^^^ (x >>> 16 &&& 0xff#32) <<< 16 ^^^ (x >>> 8 &&& 0xff#32) <<< 8 ^^^
      (x &&& 0xff#32) = x := by
  have hthird := octet_split (x >>> 16)
  have hsecond := octet_split (x >>> 8)
  rw [← BitVec.shiftRight_add] at hthird hsecond
  calc (x >>> 24) <<< 24 ^^^ (x >>> 16 &&& 0xff#32) <<< 16 ^^^ (x >>> 8 &&& 0xff#32) <<< 8 ^^^
        (x &&& 0xff#32)
      = (((x >>> 24) <<< 8 ^^^ (x >>> 16 &&& 0xff#32)) <<< 8 ^^^ (x >>> 8 &&& 0xff#32)) <<< 8 ^^^
        (x &&& 0xff#32) := by
        simp only [BitVec.shiftLeft_xor_distrib, ← BitVec.shiftLeft_add]
    _ = ((x >>> 16) <<< 8 ^^^ (x >>> 8 &&& 0xff#32)) <<< 8 ^^^ (x &&& 0xff#32) := by rw [hthird]
    _ = (x >>> 8) <<< 8 ^^^ (x &&& 0xff#32) := by rw [hsecond]
    _ = x := octet_split x

/-- A round of the loop adds 2^i bytes of zeros.
SOURCE: crc.c:258-261 -/
theorem combineRound_eq (i : ℕ) (crc1 : BitVec 32) :
    crc_combine_table i 3 (crc1 >>> 24) ^^^ crc_combine_table i 2 ((crc1 >>> 16) &&& 0xff#32) ^^^
        crc_combine_table i 1 ((crc1 >>> 8) &&& 0xff#32) ^^^
        crc_combine_table i 0 (crc1 &&& 0xff#32) = run CRC_POLY (8 * 2 ^ i) crc1 := by
  simp only [crc_combine_table_eq]
  rw [← run_linear, ← run_linear, ← run_linear]
  congr 1
  simpa using octets crc1

/-- The loop adds the zeros of the length, by induction on the rounds.
SOURCE: crc.c:255-265 -/
theorem combineLoop_eq {rounds : ℕ} {leng2 : BitVec 32} (h : leng2.toNat < 2 ^ rounds) (i : ℕ)
    (crc1 : BitVec 32) :
    combineLoop rounds i crc1 leng2 = run CRC_POLY (8 * 2 ^ i * leng2.toNat) crc1 := by
  induction rounds generalizing i leng2 crc1 with
  | zero =>
      have hzero : leng2.toNat = 0 := by simpa using h
      rw [hzero]
      rfl
  | succ rounds ih =>
      unfold combineLoop
      by_cases hv : leng2 = 0#32
      · simp [hv]
      · have hhalf : (leng2 >>> 1).toNat = leng2.toNat / 2 := by
          rw [BitVec.toNat_ushiftRight, Nat.shiftRight_eq_div_pow, pow_one]
        have hlow : leng2.getLsbD 0 = decide (leng2.toNat % 2 = 1) := Nat.testBit_zero _
        have hparts := Nat.div_add_mod leng2.toNat 2
        rw [if_neg hv, ih (toNat_shiftRight_one h), hhalf, combineRound_eq]
        by_cases hbit : leng2.toNat % 2 = 1
        · have hturns : 8 * 2 ^ i * leng2.toNat =
              8 * 2 ^ (i + 1) * (leng2.toNat / 2) + 8 * 2 ^ i := by
            conv_lhs => rw [← hparts, hbit]
            ring
          have hset : leng2.getLsbD 0 = true := hlow.trans (decide_eq_true hbit)
          rw [if_pos (and_one_ne_zero.mpr hset), hturns, run_add]
        · have hturns : 8 * 2 ^ i * leng2.toNat = 8 * 2 ^ (i + 1) * (leng2.toNat / 2) := by
            have heven : leng2.toNat % 2 = 0 := by omega
            conv_lhs => rw [← hparts, heven]
            ring
          have hclear : ¬ leng2 &&& 1#32 ≠ 0#32 := fun hset =>
            hbit (of_decide_eq_true (hlow.symm.trans (and_one_ne_zero.mp hset)))
          rw [if_neg hclear, hturns]

/-- The checksum of the first block is moved behind the second.
SOURCE: crc.c:251-268 -/
theorem mycrc32_combine_eq (crc1 crc2 leng2 : BitVec 32) :
    mycrc32_combine crc1 crc2 leng2 = run CRC_POLY (8 * leng2.toNat) crc1 ^^^ crc2 := by
  unfold mycrc32_combine
  rw [combineLoop_eq leng2.isLt, pow_zero, mul_one]

/-! ## Blocks put together -/

/-- **The checksum of two blocks in a row**, from theirs and from the length of the second one
alone.
SOURCE: crc.c:251-268 -/
theorem combine_is_concatenation (addr addr' addr'' : ℕ) (crc : BitVec 32) (front back : Bytes)
    (hback : back.length < 2 ^ 32) :
    mycrc32_combine (mycrc32 addr crc front) (mycrc32 addr' 0#32 back)
        (BitVec.ofNat 32 back.length) = mycrc32 addr'' crc (front ++ back) := by
  have hlength : (BitVec.ofNat 32 back.length).toNat = back.length := by
    rw [BitVec.toNat_ofNat, Nat.mod_eq_of_lt hback]
  rw [mycrc32_combine_eq, hlength]
  simp only [mycrc32_eq, stream_append, feeds_append]
  rw [feeds_start CRC_POLY (feeds _ _ _) (stream back), feeds_start CRC_POLY (0#32 ^^^ _),
    length_stream, run_linear, BitVec.zero_xor]
  generalize feeds CRC_POLY 0#32 (stream back) = b
  generalize run CRC_POLY (8 * back.length) 0xFFFFFFFF#32 = m
  rw [BitVec.xor_assoc, ← BitVec.xor_assoc m, ← BitVec.xor_assoc m, BitVec.xor_self,
    BitVec.zero_xor, BitVec.xor_assoc]

/-- The checksum of `abc` is put together from those of `a` and `bc`. -/
theorem combine_is_concatenation_abc :
    mycrc32_combine (mycrc32 1 0#32 [97]) (mycrc32 2 0#32 [98, 99]) 2#32 =
      mycrc32 0 0#32 [97, 98, 99] :=
  combine_is_concatenation 1 2 0 0#32 [97] [98, 99] (by norm_num)

/-- Zeros have no bit set. -/
theorem stream_zeros (n : ℕ) : stream (List.replicate n 0) = List.replicate (8 * n) false := by
  induction n with
  | zero => rfl
  | succ n ih =>
      have hone : 8 * (n + 1) = 8 + 8 * n := by ring
      rw [List.replicate_succ, stream_cons, ih, hone, List.replicate_add]
      rfl

/-- The bits of an exclusive or. -/
theorem bits_xor (a b : UInt8) :
    bits (a ^^^ b).toBitVec = List.zipWith xor (bits a.toBitVec) (bits b.toBitVec) := by
  apply List.ext_getElem
  · simp
  · intro i _ _
    simp [bits]

/-- The bits of the exclusive or of two blocks. -/
theorem stream_xor {block block' : Bytes} (h : block.length = block'.length) :
    stream (List.zipWith (· ^^^ ·) block block') =
      List.zipWith xor (stream block) (stream block') := by
  induction block generalizing block' with
  | nil =>
      obtain rfl := List.length_eq_zero_iff.mp h.symm
      rfl
  | cons a block ih =>
      cases block' with
      | nil => cases h
      | cons b block' =>
          have hsame : (bits a.toBitVec).length = (bits b.toBitVec).length := by simp
          rw [List.zipWith_cons_cons, stream_cons, stream_cons, stream_cons, bits_xor,
            ih (Nat.succ.inj h), List.zipWith_append hsame]

/-- `mycrc32_zeroblock` is the checksum of zeros.
SOURCE: crc.h:25 -/
theorem mycrc32_zeroblock_eq (addr : ℕ) (crc zeros : BitVec 32) :
    mycrc32_zeroblock crc zeros = mycrc32 addr crc (List.replicate zeros.toNat 0) := by
  unfold mycrc32_zeroblock
  rw [mycrc32_combine_eq, mycrc32_eq, stream_zeros, feeds_zeros]

/-- **The checksums of a block that is filled up with zeros, and of the sum of two blocks**, as
the macros of `crc.h` take them from other checksums.
SOURCE: crc.h:25-27 -/
theorem macros_agree :
    (∀ (addr addr' : ℕ) (crc : BitVec 32) (block : Bytes) (zeros : BitVec 32),
      mycrc32_zeroexpanded addr crc block zeros =
        mycrc32 addr' crc (block ++ List.replicate zeros.toNat 0)) ∧
      ∀ (addr addr' addr'' : ℕ) (crc leng : BitVec 32) (block block' : Bytes),
        block.length = leng.toNat → block'.length = leng.toNat →
          mycrc32_xorblocks crc (mycrc32 addr crc block) (mycrc32 addr' crc block') leng =
            mycrc32 addr'' crc (List.zipWith (· ^^^ ·) block block') := by
  constructor
  · intro addr addr' crc block zeros
    unfold mycrc32_zeroexpanded
    rw [mycrc32_zeroblock_eq 0]
    exact mycrc32_append addr 0 addr' crc block _
  · intro addr addr' addr'' crc leng block block' hblock hblock'
    have hsame : (stream block).length = (stream block').length := by
      rw [length_stream, length_stream, hblock, hblock']
    unfold mycrc32_xorblocks
    rw [mycrc32_zeroblock_eq 0]
    simp only [mycrc32_eq]
    have hsum : feeds CRC_POLY (crc ^^^ 0xFFFFFFFF#32 ^^^ 0#32)
        (List.zipWith xor (stream block) (stream block')) =
          feeds CRC_POLY (crc ^^^ 0xFFFFFFFF#32) (stream block) ^^^
            feeds CRC_POLY 0#32 (stream block') := feeds_xor CRC_POLY hsame
    have hstart := feeds_start CRC_POLY (crc ^^^ 0xFFFFFFFF#32) (stream block')
    rw [length_stream, hblock'] at hstart
    rw [BitVec.xor_zero] at hsum
    rw [stream_xor (hblock.trans hblock'.symm), stream_zeros, feeds_zeros, hsum, hstart]
    generalize feeds CRC_POLY (crc ^^^ 0xFFFFFFFF#32) (stream block) = a
    generalize run CRC_POLY (8 * leng.toNat) (crc ^^^ 0xFFFFFFFF#32) = m
    generalize feeds CRC_POLY 0#32 (stream block') = b
    -- `m` and all ones are there twice, on the left
    apply BitVec.eq_of_getLsbD_eq
    intro i _
    simp only [BitVec.getLsbD_xor]
    generalize (0xFFFFFFFF#32).getLsbD i = one
    cases a.getLsbD i <;> cases b.getLsbD i <;> cases m.getLsbD i <;> cases one <;> rfl

/-- The two macros on the blocks `a` and `ab`, `cd`. -/
theorem macros_agree_abc :
    mycrc32_zeroexpanded 1 0#32 [97] 2#32 = mycrc32 0 0#32 ([97] ++ List.replicate 2 0) ∧
      mycrc32_xorblocks 0#32 (mycrc32 1 0#32 [97, 98]) (mycrc32 2 0#32 [99, 100]) 2#32 =
        mycrc32 3 0#32 (List.zipWith (· ^^^ ·) [97, 98] [99, 100]) :=
  ⟨macros_agree.1 1 0 0#32 [97] 2#32, macros_agree.2 1 2 3 0#32 2#32 [97, 98] [99, 100] rfl rfl⟩

end MooseFs

end BundleStore
