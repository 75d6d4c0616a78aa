import BundleStore.Analysis.MasterReplies
import BundleStore.Analysis.ReadBlocks
import BundleStore.Lib.Fields
import BundleStore.Lib.Machine

set_option autoImplicit false

/-!
# What the two parsers of a chunk make of a reply

`WriteChunk` looks at the length of a reply before it decodes it, `ReadChunk` does
not, and a file is written to the first location without looking whether there is
one.

SOURCE: src/mooseclient/moose.cc:856-936, 1148-1170, 1370-1378,
src/moosefs/MFSCommunication.h:763-780
-/

namespace BundleStore

namespace Moose

open Fields Machine

/-! ## The layout -/

/-- `length:64 chunkid:64 version:32 N*[ip:32 port:16]`, behind the packet id. -/
def chunkLayout (locations : ℕ) : List Field :=
  [.num 8, .num 8, .num 4] ++ (List.replicate locations [Field.num 4, Field.num 2]).flatten

def locationValues (loc : Location) : List Value := [.num loc.ip, .num loc.port]

/-- What has been stored, in the order of the layout. -/
def Outputs.chunkValues (out : Outputs) : List Value :=
  [.num (out.file_length.getD 0), .num (out.chunk.getD {}).id, .num (out.chunk.getD {}).version] ++
    (out.chunk.getD {}).location.flatMap locationValues

/-- The bytes of memory from a position on. -/
def memBytes (ptr : Mem) (pos n : ℕ) : Bytes := (List.range n).map fun i => ptr (pos + i)

def Reply.payload (reply : Reply) : Bytes := memBytes reply.rptr 0 reply.length.toNat

/-! ## The parsers and their users -/

/-- `chainsize` -/
def chainsize (location : List Location) : ℕ := uint32 (uint64 (location.length - 1) * 6)

/-- There is a `location[0]`, and what `WriteBlockInit` puts fits into its buffer. -/
def InBounds (chunk : Chunk) : Prop :=
  chunk.location ≠ [] ∧
    8 + 12 + (ChunkServer.putChain (chunk.location.drop 1)).length ≤
      uint32 (8 + 12 + chainsize chunk.location)

variable (inode indx : ℕ)

def readParsed (reply : Reply) : RpcResult :=
  (Rpc.readChunk inode indx true true).result reply

def writeParsed (reply : Reply) : RpcResult :=
  (Rpc.writeChunk inode indx true true).result reply

/-- A reply is parsed from its payload alone and by both parsers alike, it is decoded
when it has the layout of a chunk, and where it is accepted its locations can be
used. -/
structure ParsedSafely (reply : Reply) : Prop where
  confined : ∀ rptr : Mem, (∀ i : ℕ, i < reply.length → rptr i = reply.rptr i) →
    readParsed inode indx ⟨reply.length, rptr⟩ = readParsed inode indx reply ∧
      writeParsed inode indx ⟨reply.length, rptr⟩ = writeParsed inode indx reply
  accept : (readParsed inode indx reply).1 = STATUS_OK ↔
    (writeParsed inode indx reply).1 = STATUS_OK
  agree : (readParsed inode indx reply).1 = STATUS_OK →
    (readParsed inode indx reply).2 = (writeParsed inode indx reply).2
  lengths : reply.length ≠ 1 →
    ((readParsed inode indx reply).1 = STATUS_OK ↔ ∃ k : ℕ, reply.length = 20 + 6 * k)
  decoded : ∀ k : ℕ, reply.length = 20 + 6 * k →
    readAll (chunkLayout k) reply.payload = some (readParsed inode indx reply).2.chunkValues
  used : (writeParsed inode indx reply).1 = STATUS_OK →
    InBounds ((writeParsed inode indx reply).2.chunk.getD {})

/-- The replies that both parsers are made for: a status that is not `STATUS_OK`, or
a chunk with a location. -/
def Expected (reply : Reply) : Prop :=
  (reply.length = 1 ∧ reply.rptr 0 ≠ 0) ∨ (26 ≤ reply.length ∧ (reply.length - 20) % 6 = 0)

/-! ## What the parsers compute -/

/-- What `ReadChunk` makes of a reply.
SOURCE: moose.cc:864-892 -/
theorem readParsed_eq (reply : Reply) :
    readParsed inode indx reply =
      if reply.length = 1 then ((get8bit reply.rptr 0 : ℤ), {})
      else (STATUS_OK, MasterServer.chunkOutputs true true reply) :=
  readChunk_result inode indx true true reply

/-- What `WriteChunk` makes of a reply.
SOURCE: moose.cc:903-936 -/
theorem writeParsed_eq (reply : Reply) :
    writeParsed inode indx reply =
      if reply.length = 1 then ((get8bit reply.rptr 0 : ℤ), {})
      else if MasterServer.chunkLength reply.length then
        (STATUS_OK, MasterServer.chunkOutputs true true reply)
      else ( ERROR_IO, {}) :=
  exchange_result _ _ _ _ reply []

/-! ## The bytes that are decoded -/

/-- The bytes of a memory have their number. -/
@[simp] theorem length_memBytes (ptr : Mem) (pos n : ℕ) : (memBytes ptr pos n).length = n := by
  simp [memBytes]

/-- The bytes of a memory in two parts. -/
theorem memBytes_add (ptr : Mem) (pos m n : ℕ) :
    memBytes ptr pos (m + n) = memBytes ptr pos m ++ memBytes ptr (pos + m) n := by
  simp [memBytes, List.range_add, Nat.add_assoc]

/-- A 16-bit number is read off its bytes. -/
theorem get16bit_eq (ptr : Mem) (pos : ℕ) : get16bit ptr pos = readNum (memBytes ptr pos 2) := by
  simp [get16bit, get8bit, readNum, memBytes, List.range_succ]
  omega

/-- A 32-bit number is read off its bytes. -/
theorem get32bit_eq (ptr : Mem) (pos : ℕ) : get32bit ptr pos = readNum (memBytes ptr pos 4) := by
  simp [get32bit, get8bit, readNum, memBytes, List.range_succ]
  omega

/-- A 64-bit number is read off its bytes. -/
theorem get64bit_eq (ptr : Mem) (pos : ℕ) : get64bit ptr pos = readNum (memBytes ptr pos 8) := by
  have happend := readNum_append (memBytes ptr pos 4) (memBytes ptr (pos + 4) 4)
  rw [← memBytes_add, length_memBytes] at happend
  rw [get64bit, get32bit_eq, get32bit_eq]
  exact happend.symm

/-- A number in front is read off. -/
theorem read_memBytes (ptr : Mem) (pos size n : ℕ) :
    Field.read (.num size) (memBytes ptr pos (size + n)) =
      some (.num (readNum (memBytes ptr pos size)), memBytes ptr (pos + size) n) := by
  have hlength := length_memBytes ptr pos size
  rw [Field.read, if_pos (by simp), memBytes_add, List.take_left' hlength, List.drop_left' hlength]

/-- A field at the front of a layout. -/
theorem readAll_cons_num (layout : List Field) (ptr : Mem) (pos size n : ℕ) {values : List Value}
    (h : readAll layout (memBytes ptr (pos + size) n) = some values) :
    readAll (.num size :: layout) (memBytes ptr pos (size + n)) =
      some (.num (readNum (memBytes ptr pos size)) :: values) := by
  rw [readAll, read_memBytes]
  simp [h]

/-- The locations one after the other. -/
theorem readAll_locations (ptr : Mem) (k pos : ℕ) :
    readAll (List.replicate k [Field.num 4, Field.num 2]).flatten (memBytes ptr pos (6 * k)) =
      some (((List.range k).map fun i =>
        (⟨get32bit ptr (pos + 6 * i), get16bit ptr (pos + 4 + 6 * i)⟩ : Location)).flatMap
          locationValues) := by
  induction k generalizing pos with
  | zero => rfl
  | succ k ih =>
      have hrest := ih (pos + 4 + 2)
      have hport := readAll_cons_num _ ptr (pos + 4) 2 (6 * k) hrest
      have hip := readAll_cons_num _ ptr pos 4 (2 + 6 * k) hport
      rw [show 6 * (k + 1) = 4 + (2 + 6 * k) by ring, List.replicate_succ, List.flatten_cons]
      rw [List.range_succ_eq_map, List.map_cons, List.flatMap_cons, List.map_map]
      have hmap : ((List.range k).map fun i =>
          (⟨get32bit ptr (pos + 4 + 2 + 6 * i), get16bit ptr (pos + 4 + 2 + 4 + 6 * i)⟩ :
            Location)) =
          (List.range k).map ((fun i => (⟨get32bit ptr (pos + 6 * i),
            get16bit ptr (pos + 4 + 6 * i)⟩ : Location)) ∘ Nat.succ) := by
        refine List.map_congr_left fun i _ => ?_
        simp only [Function.comp_apply, Nat.succ_eq_add_one, Location.mk.injEq]
        constructor
        · congr 1
          ring
        · congr 1
          ring
      rw [hmap] at hip
      rw [get32bit_eq ptr (pos + 6 * 0), get16bit_eq ptr (pos + 4 + 6 * 0)]
      exact hip

/-- What is decoded from a reply with `k` locations is what its layout says. -/
theorem readAll_payload {reply : Reply} {k : ℕ} (h : reply.length = 20 + 6 * k) :
    readAll (chunkLayout k) reply.payload =
      some (MasterServer.chunkOutputs true true reply).chunkValues := by
  have hlength : reply.length.toNat = 8 + (8 + (4 + 6 * k)) := by omega
  have hcount : ((reply.length - 20 + 5) / 6).toNat = k := by omega
  have hlocations := readAll_locations reply.rptr k (8 + 8 + 4)
  have hversion := readAll_cons_num _ reply.rptr (8 + 8) 4 (6 * k) hlocations
  have hid := readAll_cons_num _ reply.rptr (0 + 8) 8 (4 + 6 * k) hversion
  have hfile := readAll_cons_num _ reply.rptr 0 8 (8 + (4 + 6 * k)) hid
  rw [Reply.payload, hlength, chunkLayout, List.cons_append, List.cons_append, List.cons_append,
    List.nil_append, hfile]
  simp [Outputs.chunkValues, MasterServer.chunkOutputs, MasterServer.locations, hcount,
    get64bit_eq, get32bit_eq]

/-- Locations are decoded from the bytes they are made of. -/
theorem chunkOutputs_congr {rptr : Mem} {reply : Reply} {k : ℕ} (hk : reply.length = 20 + 6 * k)
    (h : ∀ i : ℕ, i < reply.length → rptr i = reply.rptr i) :
    MasterServer.chunkOutputs true true ⟨reply.length, rptr⟩ =
      MasterServer.chunkOutputs true true reply := by
  have h64 : ∀ pos, pos + 8 ≤ 20 → get64bit rptr pos = get64bit reply.rptr pos :=
    fun pos hpos => get64bit_congr fun i hi => h (pos + i) (by omega)
  have h32 : ∀ pos, pos + 4 ≤ 20 + 6 * k → get32bit rptr pos = get32bit reply.rptr pos :=
    fun pos hpos => get32bit_congr fun i hi => h (pos + i) (by omega)
  have h16 : ∀ pos, pos + 2 ≤ 20 + 6 * k → get16bit rptr pos = get16bit reply.rptr pos :=
    fun pos hpos => get16bit_congr fun i hi => h (pos + i) (by omega)
  have hlocations : MasterServer.locations rptr (reply.length - 20) =
      MasterServer.locations reply.rptr (reply.length - 20) := by
    refine List.map_congr_left fun i hi => ?_
    have hlt := List.mem_range.mp hi
    rw [h32 (20 + 6 * i) (by omega), h16 (24 + 6 * i) (by omega)]
  simp only [MasterServer.chunkOutputs, if_true, hlocations, h64 0 (by omega), h64 8 (by omega),
    h32 16 (by omega)]

/-- Every six bytes are a location.
SOURCE: moose.cc:880-889 -/
theorem length_locations {reply : Reply} {k : ℕ} (hk : reply.length = 20 + 6 * k) :
    (MasterServer.locations reply.rptr (reply.length - 20)).length = k := by
  rw [MasterServer.locations, List.length_map, List.length_range]
  omega

/-- The lengths that `WriteChunk` accepts are those of the layout. -/
theorem chunkLength_iff {length : ℤ} :
    MasterServer.chunkLength length = true ↔ ∃ k : ℕ, length = 20 + 6 * k := by
  simp only [MasterServer.chunkLength, Bool.not_eq_true', Bool.or_eq_false_iff,
    decide_eq_false_iff_not, bne_eq_false_iff_eq, not_lt]
  constructor
  · rintro ⟨hle, hmod⟩
    exact ⟨((length - 20) / 6).toNat, by omega⟩
  · rintro ⟨k, rfl⟩
    exact ⟨by omega, by omega⟩

/-- A chunk with a location can be written to. -/
theorem inBounds_iff {chunk : Chunk} (h : 6 * chunk.location.length < 2 ^ 31) :
    InBounds chunk ↔ chunk.location ≠ [] := by
  refine ⟨And.left, fun hne => ⟨hne, ?_⟩⟩
  have hpos := List.length_pos_iff.mpr hne
  have hchain : (ChunkServer.putChain (chunk.location.drop 1)).length =
      6 * (chunk.location.length - 1) := by
    simp [ChunkServer.putChain, List.length_flatMap, put32bit, put16bit, Nat.mul_comm]
  obtain ⟨n, hn⟩ : ∃ n, chunk.location.length = n + 1 := ⟨_, (Nat.sub_add_cancel hpos).symm⟩
  have hsize : chainsize chunk.location = 6 * n := by
    have hcount : ((chunk.location.length : ℤ) - 1) = (n : ℕ) := by omega
    have hsix : (n : ℤ) * 6 = (6 * n : ℕ) := by push_cast; ring
    rw [chainsize, hcount, uint64_natCast (by omega), hsix, uint32_natCast (by omega)]
  have htotal : (8 : ℤ) + 12 + (6 * n : ℕ) = (20 + 6 * n : ℕ) := by push_cast; ring
  rw [hchain, hsize, htotal, uint32_natCast (by omega), hn]
  omega

/-! ## Safe replies -/

section Replies

variable {inode indx : ℕ} {reply : Reply}

/-- A reply of the layout is parsed by both.
SOURCE: moose.cc:856-936 -/
theorem parsed_of_layout (inode indx : ℕ) {k : ℕ} (hk : reply.length = 20 + 6 * k) :
    readParsed inode indx reply = (STATUS_OK, MasterServer.chunkOutputs true true reply) ∧
      writeParsed inode indx reply = (STATUS_OK, MasterServer.chunkOutputs true true reply) := by
  have hone : reply.length ≠ 1 := by omega
  have hlength := chunkLength_iff.mpr ⟨k, hk⟩
  rw [readParsed_eq, writeParsed_eq, if_neg hone, if_neg hone, if_pos hlength]
  exact ⟨rfl, rfl⟩

/-- A status that is not `STATUS_OK` is all that is taken from its reply. -/
theorem parsedSafely_of_status (hone : reply.length = 1) (hstatus : reply.rptr 0 ≠ 0) :
    ParsedSafely inode indx reply := by
  have hget : (get8bit reply.rptr 0 : ℤ) ≠ STATUS_OK := by
    intro h
    have hzero : (reply.rptr 0).toNat = 0 := by simpa [get8bit, STATUS_OK] using h
    exact hstatus (UInt8.toNat_inj.mp hzero)
  have hread : readParsed inode indx reply = ((get8bit reply.rptr 0 : ℤ), {}) := by
    rw [readParsed_eq, if_pos hone]
  have hwrite : writeParsed inode indx reply = ((get8bit reply.rptr 0 : ℤ), {}) := by
    rw [writeParsed_eq, if_pos hone]
  constructor
  case confined =>
    intro rptr hrptr
    have hzero : rptr 0 = reply.rptr 0 := hrptr 0 (by rw [hone]; decide)
    rw [readParsed_eq, writeParsed_eq, readParsed_eq, writeParsed_eq]
    simp [hone, get8bit, hzero]
  case accept => rw [hread, hwrite]
  case agree =>
    intro _
    rw [hread, hwrite]
  case lengths => exact fun hne => absurd hone hne
  case decoded =>
    intro k hk
    omega
  case used =>
    intro hok
    rw [hwrite] at hok
    exact absurd hok hget

/-- A chunk with a location is decoded by both parsers, and can be used. -/
theorem parsedSafely_of_chunk (hint : reply.length < 2 ^ 31) (hle : 26 ≤ reply.length)
    (hmod : (reply.length - 20) % 6 = 0) : ParsedSafely inode indx reply := by
  obtain ⟨k, hk⟩ : ∃ k : ℕ, reply.length = 20 + 6 * k :=
    ⟨((reply.length - 20) / 6).toNat, by omega⟩
  obtain ⟨hread, hwrite⟩ := parsed_of_layout inode indx hk
  constructor
  case confined =>
    intro rptr hrptr
    have hrptr' : MasterServer.chunkOutputs true true ⟨reply.length, rptr⟩ =
        MasterServer.chunkOutputs true true reply := chunkOutputs_congr hk hrptr
    obtain ⟨hread', hwrite'⟩ :=
      parsed_of_layout inode indx
        (show (⟨reply.length, rptr⟩ : Reply).length = 20 + 6 * k from hk)
    rw [hread', hwrite', hread, hwrite, hrptr']
    exact ⟨rfl, rfl⟩
  case accept => rw [hread, hwrite]
  case agree =>
    intro _
    rw [hread, hwrite]
  case lengths =>
    intro _
    rw [hread]
    exact iff_of_true rfl ⟨k, hk⟩
  case decoded =>
    intro k' hk'
    rw [hread]
    exact readAll_payload hk'
  case used =>
    intro _
    rw [hwrite]
    have hcount := length_locations hk
    refine (inBounds_iff ?_).mpr ?_
    · simp only [MasterServer.chunkOutputs, if_true, Option.getD_some, hcount]
      omega
    · simp only [MasterServer.chunkOutputs, if_true, Option.getD_some]
      rw [← List.length_pos_iff, hcount]
      omega

/-- **Chunk replies.** A reply is parsed safely exactly when it is a status other than
`STATUS_OK` or a chunk with a location.
SOURCE: moose.cc:856-937, 1148-1170, 1370-1378 -/
theorem parsedSafely_iff (hnonneg : 0 ≤ reply.length) (hint : reply.length < 2 ^ 31) :
    ParsedSafely inode indx reply ↔ Expected reply := by
  constructor
  · intro h
    by_cases hone : reply.length = 1
    · refine .inl ⟨hone, fun hzero => ?_⟩
      have hwrite : writeParsed inode indx reply = ((get8bit reply.rptr 0 : ℤ), {}) := by
        rw [writeParsed_eq, if_pos hone]
      have hok : (writeParsed inode indx reply).1 = STATUS_OK := by
        rw [hwrite, get8bit, hzero]
        rfl
      have hbounds := h.used hok
      rw [hwrite] at hbounds
      exact hbounds.1 rfl
    · have hread : (readParsed inode indx reply).1 = STATUS_OK := by
        rw [readParsed_eq, if_neg hone]
      obtain ⟨k, hk⟩ := (h.lengths hone).mp hread
      have hbounds := h.used (h.accept.mp hread)
      rw [(parsed_of_layout _ _ hk).2] at hbounds
      have hne := hbounds.1
      simp only [MasterServer.chunkOutputs, if_true, Option.getD_some] at hne
      rw [← List.length_pos_iff, length_locations hk] at hne
      exact .inr ⟨by omega, by omega⟩
  · rintro (⟨hone, hstatus⟩ | ⟨hle, hmod⟩)
    · exact parsedSafely_of_status hone hstatus
    · exact parsedSafely_of_chunk hint hle hmod

end Replies

/-- One location at address 1, port 2. -/
def oneLocation : Reply :=
  ⟨26, memory [0, 0, 0, 0, 0, 0, 0, 9, 0, 0, 0, 0, 0, 0, 0, 5, 0, 0, 0, 1, 0, 0, 0, 1, 0, 2]⟩

/-- A reply with one location is parsed safely. -/
theorem parsedSafely_oneLocation : ParsedSafely 1 0 oneLocation :=
  (parsedSafely_iff (by decide) (by decide)).mpr (.inr (by decide))

/-- A payload of two bytes is decoded as if it had twenty. -/
theorem not_parsedSafely :
    ¬ ∀ (inode indx : ℕ) (reply : Reply), 0 ≤ reply.length → reply.length < 2 ^ 31 →
      ParsedSafely inode indx reply := by
  intro hall
  have h := hall 1 0 ⟨2, memory [0, 0]⟩ (by decide) (by decide)
  have hread : (readParsed 1 0 ⟨2, memory [0, 0]⟩).1 = STATUS_OK := rfl
  obtain ⟨k, hk⟩ := (h.lengths (by decide)).mp hread
  dsimp only at hk
  omega

end Moose

end BundleStore
