import BundleStore.Lib.Lfsr
import BundleStore.Model.ChunkServer
import BundleStore.Model.Crc

set_option autoImplicit false

/-!
# The fast checksum is the plain one

Every entry of a table is what some turns of the register make of its index. So a byte, or
four bytes at once, do what their bits do one by one, and the loops of `mycrc32` may stop
wherever they like.
-/

namespace BundleStore

namespace MooseFs

open Lfsr

/-! ## The tables -/

/-- The bits of a block in their order. -/
def stream (block : Bytes) : List Bool :=
  block.flatMap fun b => bits b.toBitVec

/-- No block has no bits. -/
@[simp] theorem stream_nil : stream [] = [] := rfl

/-- A block has the bits of its first byte and those of the rest. -/
@[simp] theorem stream_cons (b : UInt8) (block : Bytes) :
    stream (b :: block) = bits b.toBitVec ++ stream block := rfl

/-- Two blocks have the bits of the first and then those of the second. -/
@[simp] theorem stream_append (block block' : Bytes) :
    stream (block ++ block') = stream block ++ stream block' :=
  List.flatMap_append

/-- A byte has eight bits. -/
@[simp] theorem length_stream (block : Bytes) : (stream block).length = 8 * block.length := by
  induction block with
  | nil => rfl
  | cons b block ih =>
      simp only [stream_cons, List.length_append, length_bits, ih, List.length_cons]
      omega

/-- A line of the table's loop is a step of the register.
SOURCE: crc.c:78-86 -/
theorem crcLine_eq (c : BitVec 32) : crcLine c = step CRC_POLY c := by
  unfold crcLine step
  rw [BitVec.and_one_eq_setWidth_ofBool_getLsbD]
  cases c.getLsbD 0 <;> simp

/-- An entry of the first table is eight steps of the register.
SOURCE: crc.c:77-96 -/
theorem crc_table0_eq (i : BitVec 32) : crc_table0 i = run CRC_POLY 8 i := by
  unfold crc_table0 run
  rw [funext crcLine_eq]

/-- A bit of the lowest byte. -/
theorem getLsbD_octet (x : BitVec 32) (i : ℕ) :
    (x &&& 0xff#32).getLsbD i = (x.getLsbD i && decide (i < 8)) := by
  have hmask : (255 : ℕ).testBit i = decide (i < 8) := Nat.testBit_two_pow_sub_one 8 i
  rw [BitVec.getLsbD_and, BitVec.getLsbD_ofNat, hmask]
  by_cases hi : i < 32
  · simp [hi]
  · simp [BitVec.getLsbD_of_ge x i (not_lt.mp hi)]

/-- Eight turns of a word: those of its low octet, and the rest moved down. -/
theorem run_octet (x : BitVec 32) :
    run CRC_POLY 8 x = run CRC_POLY 8 (x &&& 0xff#32) ^^^ (x >>> 8) := by
  have hsum : x = (x &&& 0xff#32) ^^^ (x ^^^ (x &&& 0xff#32)) := by
    rw [BitVec.xor_comm x, ← BitVec.xor_assoc, BitVec.xor_self, BitVec.zero_xor]
  have hclear : ∀ i < 8, (x ^^^ (x &&& 0xff#32)).getLsbD i = false := by
    intro i hi
    rw [BitVec.getLsbD_xor, getLsbD_octet]
    simp [hi]
  have hrest : (x ^^^ (x &&& 0xff#32)) >>> 8 = x >>> 8 := by
    apply BitVec.eq_of_getLsbD_eq
    intro i _
    rw [BitVec.getLsbD_ushiftRight, BitVec.getLsbD_xor, getLsbD_octet]
    simp
  have hsplit := run_split CRC_POLY hsum hclear
  rwa [hrest] at hsplit

/-- Eight steps more, for the lowest byte and the others by themselves. -/
theorem run_peel (n : ℕ) (x : BitVec 32) :
    run CRC_POLY (n + 8) x = run CRC_POLY (n + 8) (x &&& 0xff#32) ^^^ run CRC_POLY n (x >>> 8) := by
  rw [run_add, run_octet, run_linear, ← run_add]

/-- An entry of a table is eight steps for it and for each table before.
SOURCE: crc.c:99-116 -/
theorem crc_table_eq (t : ℕ) (i : BitVec 32) : crc_table t i = run CRC_POLY (8 * (t + 1)) i := by
  induction t with
  | zero => exact crc_table0_eq i
  | succ t ih =>
      have hrounds : 8 * (t + 1 + 1) = 8 + 8 * (t + 1) := by ring
      rw [hrounds, run_add, run_octet, ← ih, ← crc_table0_eq]
      rfl

/-! ## The loops -/

/-- A byte is eight steps of the register.
SOURCE: crc.c:146 -/
theorem crcOneByte_eq (crc : BitVec 32) (b : UInt8) :
    crcOneByte crc b = feeds CRC_POLY crc (bits b.toBitVec) := by
  have hgone : b.toBitVec.setWidth 32 >>> 8 = 0#32 := by
    apply BitVec.eq_of_toNat_eq
    have hlt := b.toBitVec.isLt
    simp only [BitVec.toNat_ushiftRight, BitVec.toNat_setWidth, BitVec.toNat_ofNat]
    rw [Nat.mod_eq_of_lt (hlt.trans (by norm_num)), Nat.shiftRight_eq_div_pow]
    exact Nat.div_eq_of_lt hlt
  rw [feeds_bits CRC_POLY (by norm_num), run_octet, BitVec.ushiftRight_xor_distrib, hgone]
  unfold crcOneByte
  rw [crc_table_eq, BitVec.xor_zero]

/-- Four bytes are 32 steps of the register.
SOURCE: crc.c:147 -/
theorem crcFourBytes_eq (crc w : BitVec 32) : crcFourBytes crc w = run CRC_POLY 32 (crc ^^^ w) := by
  unfold crcFourBytes
  generalize crc ^^^ w = x
  have hsecond : x >>> 8 >>> 8 = x >>> 16 := (BitVec.shiftRight_add x 8 8).symm
  have hthird : x >>> 16 >>> 8 = x >>> 24 := (BitVec.shiftRight_add x 16 8).symm
  simp only [crc_table_eq]
  rw [run_peel 24 x, run_peel 16 (x >>> 8), hsecond, run_peel 8 (x >>> 16), hthird]
  simp only [BitVec.xor_assoc]

/-- What comes out when the rest of the block has come in. -/
def outcome (s : CrcState) : BitVec 32 :=
  feeds CRC_POLY s.1 (stream s.2)

/-- A byte taken by the loop leaves the outcome as it is. -/
theorem outcome_byte (crc : BitVec 32) (b : UInt8) (block : Bytes) :
    outcome (crcOneByte crc b, block) = outcome (crc, b :: block) := by
  unfold outcome
  rw [crcOneByte_eq, stream_cons, feeds_append]

/-- The loop that aligns the address leaves the outcome as it is, by induction on the block.
SOURCE: crc.c:150-153 -/
theorem outcome_align (addr : ℕ) (crc : BitVec 32) (block : Bytes) :
    outcome (alignLoop addr crc block) = outcome (crc, block) := by
  induction block generalizing addr crc with
  | nil => rfl
  | cons b block ih =>
      unfold alignLoop
      split
      · rw [ih, outcome_byte]
      · rfl

/-- The bits of a word are those of its bytes, the lowest first. -/
theorem bits_word (b₀ b₁ b₂ b₃ : UInt8) :
    bits (word b₀ b₁ b₂ b₃) = stream [b₀, b₁, b₂, b₃] := by
  have hbits : bits (b₃.toBitVec ++ b₂.toBitVec ++ b₁.toBitVec ++ b₀.toBitVec) =
      stream [b₀, b₁, b₂, b₃] := by
    rw [bits_append, bits_append, bits_append]
    simp
  exact hbits

/-- Four bytes taken by the loop leave the outcome as it is. -/
theorem outcome_four (s : CrcState) : outcome (fourBytes s) = outcome s := by
  obtain ⟨crc, block⟩ := s
  match block with
  | [] | [_] | [_, _] | [_, _, _] => rfl
  | b₀ :: b₁ :: b₂ :: b₃ :: block =>
      have hword := feeds_bits CRC_POLY le_rfl crc (word b₀ b₁ b₂ b₃)
      rw [bits_word, BitVec.setWidth_eq, ← crcFourBytes_eq] at hword
      show feeds CRC_POLY (crcFourBytes crc (word b₀ b₁ b₂ b₃)) (stream block) =
        feeds CRC_POLY crc (stream ([b₀, b₁, b₂, b₃] ++ block))
      rw [stream_append, feeds_append, hword]

/-- The loops over words leave the outcome as it is, by induction on the rounds.
SOURCE: crc.c:155-169 -/
theorem outcome_words (n rounds : ℕ) (s : CrcState) :
    outcome (wordLoop n rounds s) = outcome s := by
  have hsome : ∀ k s, outcome (fourBytes^[k] s) = outcome s := by
    intro k
    induction k with
    | zero => exact fun _ => rfl
    | succ k ih => exact fun s => (ih (fourBytes s)).trans (outcome_four s)
  induction rounds generalizing s with
  | zero => rfl
  | succ rounds ih =>
      unfold wordLoop
      split
      · rw [ih, hsome]
      · rfl

/-- The last bytes are the outcome.
SOURCE: crc.c:171-173 -/
theorem outcome_bytes (crc : BitVec 32) (block : Bytes) :
    block.foldl crcOneByte crc = outcome (crc, block) := by
  induction block generalizing crc with
  | nil => rfl
  | cons b block ih => rw [List.foldl_cons, ih, outcome_byte]

/-- The checksum is what the register makes of the bits one by one, whatever the address. -/
theorem mycrc32_eq (addr : ℕ) (crc : BitVec 32) (block : Bytes) :
    mycrc32 addr crc block =
      feeds CRC_POLY (crc ^^^ 0xFFFFFFFF#32) (stream block) ^^^ 0xFFFFFFFF#32 := by
  unfold mycrc32
  dsimp only
  rw [outcome_bytes, Prod.mk.eta, outcome_words, outcome_words, outcome_align]
  rfl

/-- A checksum goes on with the next block. -/
theorem mycrc32_append (addr addr' addr'' : ℕ) (crc : BitVec 32) (front back : Bytes) :
    mycrc32 addr' (mycrc32 addr crc front) back = mycrc32 addr'' crc (front ++ back) := by
  simp only [mycrc32_eq, stream_append, feeds_append]
  rw [BitVec.xor_assoc (feeds _ _ _) 0xFFFFFFFF#32, BitVec.xor_self, BitVec.xor_zero]

/-! ## The client's checksum -/

/-- A shift of the bitwise checksum is a step of the register. -/
theorem crcShift_eq (c : UInt32) : (Moose.crcShift c).toBitVec = step CRC_POLY c.toBitVec := by
  have hlow : (c &&& 1).toBitVec = (BitVec.ofBool (c.toBitVec.getLsbD 0)).setWidth 32 := by
    rw [UInt32.toBitVec_and]
    exact BitVec.and_one_eq_setWidth_ofBool_getLsbD
  unfold Moose.crcShift step
  cases hbit : c.toBitVec.getLsbD 0 with
  | false =>
      have hzero : c &&& 1 ≠ 1 := by
        intro hone
        rw [hbit, hone] at hlow
        exact absurd hlow (by decide)
      rw [if_neg hzero]
      simp
  | true =>
      have hone : c &&& 1 = 1 := by
        apply UInt32.toBitVec_inj.mp
        rw [hlow, hbit]
        decide
      rw [if_pos hone, BitVec.xor_comm]
      simp [CRC_POLY]

/-- A byte of the bitwise checksum is eight steps of the register. -/
theorem crcByte_eq (c : UInt32) (b : UInt8) :
    (Moose.crcByte c b).toBitVec = feeds CRC_POLY c.toBitVec (bits b.toBitVec) := by
  have hshifts : ∀ n (c : UInt32), ((List.range n).foldl (fun c _ => Moose.crcShift c) c).toBitVec =
      run CRC_POLY n c.toBitVec := by
    intro n c
    induction n with
    | zero => rfl
    | succ n ih =>
        rw [List.range_succ, List.foldl_append, run_succ, ← ih]
        exact crcShift_eq _
  unfold Moose.crcByte
  rw [hshifts, feeds_bits CRC_POLY (by norm_num), UInt32.toBitVec_xor]
  rfl

/-- The client's checksum is what the register makes of the bits. -/
theorem client_crc_eq {crc_32 : Bytes → UInt32} (hcrc : Moose.IsCrc32 crc_32) (block : Bytes) :
    Moose.mycrc32 crc_32 block =
      (feeds CRC_POLY 0xFFFFFFFF#32 (stream block) ^^^ 0xFFFFFFFF#32).toNat := by
  have hfold : ∀ c : UInt32, (block.foldl Moose.crcByte c).toBitVec =
      feeds CRC_POLY c.toBitVec (stream block) := by
    induction block with
    | nil => exact fun c => rfl
    | cons b block ih =>
        intro c
        rw [List.foldl_cons, ih, crcByte_eq, stream_cons, feeds_append]
  rw [Moose.mycrc32, hcrc, Moose.bitwiseCrc, ← UInt32.toNat_toBitVec, UInt32.toBitVec_xor, hfold]
  rfl

/-- **The fast checksum is the plain one.** Whatever the address of a block, `mycrc32` of
MooseFS, with its tables and four bytes at a time, is the checksum that the client takes with
`boost::crc_32_type`; and it may be taken of a block piece by piece, wherever the pieces lie.
SOURCE: crc.c:134-195, src/mooseclient/moose.cc:51-55 -/
theorem fast_crc_is_plain {crc_32 : Bytes → UInt32} (hcrc : Moose.IsCrc32 crc_32) :
    (∀ (addr : ℕ) (block : Bytes), (mycrc32 addr 0#32 block).toNat = Moose.mycrc32 crc_32 block) ∧
      ∀ (addr addr' addr'' : ℕ) (crc : BitVec 32) (front back : Bytes),
        mycrc32 addr' (mycrc32 addr crc front) back = mycrc32 addr'' crc (front ++ back) := by
  refine ⟨fun addr block => ?_, mycrc32_append⟩
  rw [mycrc32_eq, client_crc_eq hcrc, BitVec.zero_xor]

/-- Seven bytes one byte behind an address that four divides, and their checksum in two pieces. -/
theorem fast_crc_is_plain_unaligned :
    (mycrc32 5 0#32 [49, 50, 51, 52, 53, 54, 55]).toNat =
        Moose.mycrc32 Moose.bitwiseCrc [49, 50, 51, 52, 53, 54, 55] ∧
      mycrc32 2 (mycrc32 5 0#32 [49, 50, 51]) [52, 53, 54, 55] =
        mycrc32 0 0#32 ([49, 50, 51] ++ [52, 53, 54, 55]) :=
  ⟨(@fast_crc_is_plain Moose.bitwiseCrc fun _ => rfl).1 5 _,
    (@fast_crc_is_plain Moose.bitwiseCrc fun _ => rfl).2 5 2 0 0#32 _ _⟩

end MooseFs

end BundleStore
