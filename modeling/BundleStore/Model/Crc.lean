import BundleStore.Lib.ByteSeq
import Mathlib.Logic.Function.Iterate

set_option autoImplicit false

/-!
# The checksum of MooseFS

SOURCE: src/moosefs/crc.c:64-273, src/moosefs/crc.h:23-29,
src/moosefs/MFSCommunication.h:61

With `FASTCRC`, on a little-endian machine and after `mycrc32_init`. A table is the
function from an index to its entry, a matrix the list of its entries.
-/

namespace BundleStore

namespace MooseFs

def CRC_POLY : BitVec 32 := 0xEDB88320#32

/-! ## `mycrc32` -/

/-- Each of the eight lines of `crc_generate_main_tables`. -/
def crcLine (c : BitVec 32) : BitVec 32 :=
  if c &&& 1#32 ≠ 0#32 then CRC_POLY ^^^ (c >>> 1) else c >>> 1

/-- `crc_table[0][i]` -/
def crc_table0 (i : BitVec 32) : BitVec 32 :=
  crcLine^[8] i

/-- `crc_table[t][i]` -/
def crc_table : ℕ → BitVec 32 → BitVec 32
  | 0, i => crc_table0 i
  | t + 1, i =>
      let c := crc_table t i
      crc_table0 (c &&& 0xff#32) ^^^ (c >>> 8)

/-- `CRC_ONE_BYTE` -/
def crcOneByte (crc : BitVec 32) (b : UInt8) : BitVec 32 :=
  crc_table 0 ((crc ^^^ b.toBitVec.setWidth 32) &&& 0xff#32) ^^^ (crc >>> 8)

/-- `*block4`, where these bytes stand. -/
def word (b₀ b₁ b₂ b₃ : UInt8) : BitVec 32 :=
  b₃.toBitVec ++ b₂.toBitVec ++ b₁.toBitVec ++ b₀.toBitVec

/-- `CRC_FOUR_BYTES`, where the word `w` comes next. -/
def crcFourBytes (crc w : BitVec 32) : BitVec 32 :=
  let crc := crc ^^^ w
  crc_table 3 (crc &&& 0xff#32) ^^^ crc_table 2 ((crc >>> 8) &&& 0xff#32) ^^^
    crc_table 1 ((crc >>> 16) &&& 0xff#32) ^^^ crc_table 0 (crc >>> 24)

/-- `crc`, and what is left of the block. -/
abbrev CrcState : Type := BitVec 32 × Bytes

/-- The first loop, up to an address that four divides. -/
def alignLoop : ℕ → BitVec 32 → Bytes → CrcState
  | _, crc, [] => (crc, [])
  | addr, crc, b :: block =>
      if addr % 4 ≠ 0 then alignLoop (addr + 1) (crcOneByte crc b) block
      else (crc, b :: block)

/-- `CRC_FOUR_BYTES`, where at least four bytes are left. -/
def fourBytes : CrcState → CrcState
  | (crc, b₀ :: b₁ :: b₂ :: b₃ :: block) => (crcFourBytes crc (word b₀ b₁ b₂ b₃), block)
  | s => s

/-- A loop that takes `n` times four bytes as long as they are there; it ends within
`rounds`. -/
def wordLoop (n : ℕ) : ℕ → CrcState → CrcState
  | 0, s => s
  | rounds + 1, s =>
      if 4 * n ≤ s.2.length then wordLoop n rounds (fourBytes^[n] s) else s

/-- `mycrc32(crc, block, leng)`, where the block has `leng` bytes from the address `addr`
on. -/
def mycrc32 (addr : ℕ) (crc : BitVec 32) (block : Bytes) : BitVec 32 :=
  let s := alignLoop addr (crc ^^^ 0xFFFFFFFF#32) block
  let s := wordLoop 8 s.2.length s
  let s := wordLoop 1 s.2.length s
  s.2.foldl crcOneByte s.1 ^^^ 0xFFFFFFFF#32

/-! ## `mycrc32_combine` -/

/-- The sum of the entries of `m`, from the place `j` on, whose bits are set in `v`. -/
def matrixSum (m : List (BitVec 32)) : ℕ → ℕ → BitVec 32 → BitVec 32 → BitVec 32
  | 0, _, _, s => s
  | rounds + 1, j, v, s =>
      if v = 0#32 then s
      else matrixSum m rounds (j + 1) (v >>> 1)
        (if v &&& 1#32 ≠ 0#32 then s ^^^ m.getD j 0#32 else s)

def crc_matrix_square (m : List (BitVec 32)) : List (BitVec 32) :=
  m.map fun v => matrixSum m 32 0 v 0#32

/-- `m1` and `m2` in front of the loop of `crc_generate_combine_tables`. -/
def firstMatrices : List (BitVec 32) × List (BitVec 32) :=
  let m1 := CRC_POLY :: (List.range 31).map fun i => 1#32 <<< i
  let m2 := crc_matrix_square m1
  (crc_matrix_square m2, m2)

/-- `m1` and `m2` in front of the round `i`. -/
def matricesBefore : ℕ → List (BitVec 32) × List (BitVec 32)
  | 0 => firstMatrices
  | i + 1 =>
      let m := matricesBefore i
      if i % 2 = 1 then (crc_matrix_square m.2, m.2) else (m.1, crc_matrix_square m.1)

/-- `mc` in the round `i`. -/
def combineMatrix (i : ℕ) : List (BitVec 32) :=
  if i % 2 = 1 then (matricesBefore (i + 1)).1 else (matricesBefore (i + 1)).2

/-- `crc_combine_table[i][j][k]` -/
def crc_combine_table (i j : ℕ) (k : BitVec 32) : BitVec 32 :=
  matrixSum ((combineMatrix i).drop (j * 8)) 32 0 k 0#32

/-- The loop of `mycrc32_combine`. -/
def combineLoop : ℕ → ℕ → BitVec 32 → BitVec 32 → BitVec 32
  | 0, _, crc1, _ => crc1
  | rounds + 1, i, crc1, leng2 =>
      if leng2 = 0#32 then crc1
      else combineLoop rounds (i + 1)
        (if leng2 &&& 1#32 ≠ 0#32 then
          crc_combine_table i 3 (crc1 >>> 24) ^^^
            crc_combine_table i 2 ((crc1 >>> 16) &&& 0xff#32) ^^^
            crc_combine_table i 1 ((crc1 >>> 8) &&& 0xff#32) ^^^
            crc_combine_table i 0 (crc1 &&& 0xff#32)
          else crc1)
        (leng2 >>> 1)

def mycrc32_combine (crc1 crc2 leng2 : BitVec 32) : BitVec 32 :=
  combineLoop 32 0 crc1 leng2 ^^^ crc2

def mycrc32_zeroblock (crc zeros : BitVec 32) : BitVec 32 :=
  mycrc32_combine (crc ^^^ 0xFFFFFFFF#32) 0xFFFFFFFF#32 zeros

def mycrc32_zeroexpanded (addr : ℕ) (crc : BitVec 32) (block : Bytes) (zeros : BitVec 32) :
    BitVec 32 :=
  mycrc32_zeroblock (mycrc32 addr crc block) zeros

def mycrc32_xorblocks (crc crcblock1 crcblock2 leng : BitVec 32) : BitVec 32 :=
  crcblock1 ^^^ crcblock2 ^^^ mycrc32_zeroblock crc leng

end MooseFs

end BundleStore
