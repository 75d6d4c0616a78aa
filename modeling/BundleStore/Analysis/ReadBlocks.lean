import BundleStore.Model.ChunkServer

set_option autoImplicit false

/-!
# What `ReadBlock` leaves in the buffer

A block is received behind its header, and its checksum is compared after it has
been stored. When `ReadBlock` succeeds every byte of the range is one of a block
whose checksum was right; what is before the range stays as it was.
-/

namespace BundleStore

namespace Moose

open Machine Prog

/-! ## What has been received -/

/-- All the bytes that were asked for. -/
def Received.whole (data : Bytes) : Received data.length where
  ret := data.length
  data := data
  length_eq := (Int.toNat_natCast _).symm
  length_le := le_rfl

def newMemory (mem : Bytes) : { mem' : Bytes // mem'.length = mem.length } := ⟨mem, rfl⟩

/-- The bytes that the answer to a call has brought from a socket. -/
def readBytes (fd : ℤ) : (o : NetCall) → o.Answer → Bytes
  | .read fd' _ _, received => if fd' = fd then received.data else []
  | _, _ => []

/-- The bytes received from a socket, in order. -/
def received (fd : ℤ) (t : Trace NetCall NetCall.Answer) : Bytes :=
  t.flatMap fun e => readBytes fd e.1 e.2

/-- No call has received anything. -/
@[simp] theorem received_nil (fd : ℤ) : received fd [] = [] := rfl

/-- What one call and the rest have received. -/
@[simp] theorem received_cons (fd : ℤ) (e : Σ o : NetCall, o.Answer)
    (t : Trace NetCall NetCall.Answer) :
    received fd (e :: t) = readBytes fd e.1 e.2 ++ received fd t := rfl

/-- What two lists of calls have received. -/
@[simp] theorem received_append (fd : ℤ) (t₁ t₂ : Trace NetCall NetCall.Answer) :
    received fd (t₁ ++ t₂) = received fd t₁ ++ received fd t₂ :=
  List.flatMap_append

/-- The empty block stores nothing. -/
@[simp] theorem Buffer.store_nil (buf : Buffer) (pos : ℕ) : buf.store pos [] = buf := rfl

/-- Two blocks stored one behind the other are stored as one. -/
theorem Buffer.store_store (buf : Buffer) (pos : ℕ) (b b' : Bytes) :
    (buf.store pos b).store (pos + b.length) b' = buf.store pos (b ++ b') := by
  simp only [Buffer.store, ByteSeq.overwrite_append]

/-- The bytes of a buffer after a store. -/
theorem Buffer.memAt_store (buf : Buffer) (pos : ℕ) (b : Bytes) (i : ℕ) :
    (buf.store pos b).memAt 0 i =
      if pos ≤ i ∧ i < pos + b.length then b.getD (i - pos) 0 else buf.memAt 0 i := by
  simp only [Buffer.memAt, Buffer.store, ByteSeq.getD_overwrite, zero_add]

variable {crc_32 : Bytes → UInt32}
variable {fd : ℤ} {t : Trace NetCall NetCall.Answer} {pos leng : ℕ} {buf buf' : Buffer} {ret : ℤ}

/-- `tcptoread` stores what it receives, and tells when it has received all. -/
theorem tcptoreadLoop_runs {rounds rcvd : ℕ} (hrcvd : rcvd ≤ leng)
    (h : (tcptoreadLoop fd pos leng rounds rcvd buf).Runs t (ret, buf')) :
    buf' = buf.store (pos + rcvd) (received fd t) ∧ rcvd + (received fd t).length ≤ leng ∧
      (ret ≤ 0 ∨ ret = (rcvd + (received fd t).length : ℕ)) := by
  induction rounds generalizing rcvd buf t with
  | zero =>
      obtain ⟨rfl, heq⟩ := h
      cases heq
      exact ⟨rfl, hrcvd, .inr rfl⟩
  | succ rounds ih =>
      unfold tcptoreadLoop at h
      by_cases hlt : rcvd < leng
      · rw [if_pos hlt] at h
        obtain ⟨i, t', rfl, hrest⟩ := runs_op_bind.mp h
        have hread : readBytes fd (.read fd (pos + rcvd) (leng - rcvd)) i = i.data := if_pos rfl
        have hlength : i.data.length ≤ leng - rcvd := i.length_le
        by_cases hret : i.ret ≤ 0
        · rw [if_pos hret] at hrest
          obtain ⟨rfl, heq⟩ := hrest
          cases heq
          have hdata : i.data = [] := by
            have hlen := i.length_eq
            rw [Int.toNat_of_nonpos hret] at hlen
            exact List.length_eq_zero_iff.mp hlen
          rw [received_cons, hread, hdata]
          exact ⟨rfl, hrcvd, .inl hret⟩
        · rw [if_neg hret] at hrest
          obtain ⟨hbuf, hle, hend⟩ := ih (by omega) hrest
          rw [received_cons, hread, List.length_append]
          refine ⟨?_, by omega, ?_⟩
          · rw [hbuf, ← Nat.add_assoc, Buffer.store_store]
          · obtain hneg | hall := hend
            · exact .inl hneg
            · right
              rw [hall]
              congr 1
              omega
      · rw [if_neg hlt] at h
        obtain ⟨rfl, heq⟩ := h
        cases heq
        exact ⟨rfl, hrcvd, .inr rfl⟩

/-- `tcptoread` stores what it has received, and answers its length only for all of it.
SOURCE: moose.cc:187-199 -/
theorem tcptoread_runs (h : (tcptoread fd buf pos leng).Runs t (ret, buf')) :
    buf' = buf.store pos (received fd t) ∧ (received fd t).length ≤ leng ∧
      (ret = leng → (received fd t).length = leng) := by
  obtain ⟨hbuf, hle, hend⟩ := tcptoreadLoop_runs (Nat.zero_le leng) h
  refine ⟨hbuf, by omega, ?_⟩
  intro hret
  obtain hneg | hall := hend
  · omega
  · omega

/-- `Alloca` receives nothing.
SOURCE: moose.cc:65-79 -/
theorem alloca_runs {len : ℕ} (h : (buf.alloca len).Runs t buf') : received fd t = [] := by
  unfold Buffer.alloca at h
  split at h
  · obtain ⟨mem, t', rfl, hrest⟩ := runs_op_bind.mp h
    obtain ⟨rfl, -⟩ := hrest
    rfl
  · obtain ⟨rfl, -⟩ := h
    rfl

/-! ## Packets -/

/-- A string of bytes as memory. -/
def memory (b : Bytes) : Mem := fun i => b.getD i 0

/-- A 16-bit number depends on its two bytes. -/
theorem get16bit_congr {p q : Mem} {a b : ℕ} (h : ∀ i < 2, p (a + i) = q (b + i)) :
    get16bit p a = get16bit q b := by
  have h0 := h 0 (by omega)
  have h1 := h 1 (by omega)
  simp only [Nat.add_zero] at h0
  simp only [get16bit, get8bit, h0, h1]

/-- A 32-bit number depends on its four bytes. -/
theorem get32bit_congr {p q : Mem} {a b : ℕ} (h : ∀ i < 4, p (a + i) = q (b + i)) :
    get32bit p a = get32bit q b := by
  have h0 := h 0 (by omega)
  have h1 := h 1 (by omega)
  have h2 := h 2 (by omega)
  have h3 := h 3 (by omega)
  simp only [Nat.add_zero] at h0
  simp only [get32bit, get8bit, h0, h1, h2, h3]

/-- A 64-bit number depends on its eight bytes. -/
theorem get64bit_congr {p q : Mem} {a b : ℕ} (h : ∀ i < 8, p (a + i) = q (b + i)) :
    get64bit p a = get64bit q b := by
  have hlow : get32bit p (a + 4) = get32bit q (b + 4) := by
    refine get32bit_congr fun i hi => ?_
    rw [Nat.add_assoc, Nat.add_assoc]
    exact h (4 + i) (by omega)
  rw [get64bit, get64bit, get32bit_congr fun i hi => h i (by omega), hlow]

/-- A `READ_DATA` packet with a block of the chunk that starts at `offset`, and the
checksum of the block. -/
structure IsBlock (crc_32 : Bytes → UInt32) (chunk : Chunk) (offset : ℕ) (packet : Bytes) :
    Prop where
  length : 28 ≤ packet.length
  cmd : get32bit (memory packet) 0 = CSTOCU_READ_DATA
  id : get64bit (memory packet) 8 = chunk.id
  blockno : get16bit (memory packet) 16 = offset / 2 ^ 16
  blockoffset : get16bit (memory packet) 18 = offset % 2 ^ 16
  blocksize : get32bit (memory packet) 20 = (packet.drop 28).length
  blockcrc : get32bit (memory packet) 24 = mycrc32 crc_32 (packet.drop 28)

/-- The byte at `offset` of the chunk was received from the socket, in a block whose
checksum was right. -/
def ServedByte (crc_32 : Bytes → UInt32) (fd : ℤ) (chunk : Chunk)
    (t : Trace NetCall NetCall.Answer) (offset : ℕ) (b : UInt8) : Prop :=
  ∃ before packet after start k, received fd t = before ++ packet ++ after ∧
    IsBlock crc_32 chunk start packet ∧ start + k = offset ∧ (packet.drop 28)[k]? = some b

/-- A byte that was served is served by a longer run. -/
theorem ServedByte.append_left {chunk : Chunk} {offset : ℕ} {b : UInt8}
    (h : ServedByte crc_32 fd chunk t offset b) (t₁ : Trace NetCall NetCall.Answer) :
    ServedByte crc_32 fd chunk (t₁ ++ t) offset b := by
  obtain ⟨before, packet, after, start, k, hreceived, hrest⟩ := h
  refine ⟨received fd t₁ ++ before, packet, after, start, k, ?_, hrest⟩
  simp [hreceived]

/-! ## `ReadBlock` -/

section Reading

variable {chunk : Chunk} {offset size length : ℕ} {input input' buff buff' : Buffer}
variable {block : Option ℕ} {socket_ : ℤ}

/-- What is behind the header of a data packet that is accepted. -/
structure Accepts (crc_32 : Bytes → UInt32) (chunk : Chunk) (offset size : ℕ)
    (body data : Bytes) : Prop where
  length : body.length = 20
  id : get64bit (memory body) 0 = chunk.id
  blockno : get16bit (memory body) 8 = offset / 2 ^ 16
  blockoffset : get16bit (memory body) 10 = offset % 2 ^ 16
  blocksize : get32bit (memory body) 12 = data.length
  blockcrc : get32bit (memory body) 16 = mycrc32 crc_32 data
  le : data.length ≤ size

/-- What was stored at the start of a buffer is what the memory holds there. -/
theorem memAt_store_zero {b : Bytes} {i : ℕ} (hi : i < b.length) :
    (buf.store 0 b).memAt 0 i = memory b i := by
  rw [Buffer.memAt_store, if_pos ⟨Nat.zero_le i, by omega⟩]
  rfl

/-- A block whose header is expected and whose checksum is right is accepted.
SOURCE: moose.cc:1073-1137 -/
theorem accepts_of_expects {ptr : Mem} {body data : Bytes} (hbody : body.length = 20)
    (hptr : ∀ i < 20, ptr i = memory body i)
    (hexpects : ChunkServer.expectsBlock chunk length offset size ptr = true)
    (hdata : data.length = get32bit ptr 12) (hcrc : get32bit ptr 16 = mycrc32 crc_32 data) :
    Accepts crc_32 chunk offset size body data := by
  have h16 : ∀ a, a + 2 ≤ 20 → get16bit ptr a = get16bit (memory body) a := fun a ha =>
    get16bit_congr fun i hi => hptr (a + i) (by omega)
  have h32 : ∀ a, a + 4 ≤ 20 → get32bit ptr a = get32bit (memory body) a := fun a ha =>
    get32bit_congr fun i hi => hptr (a + i) (by omega)
  have h64 : get64bit ptr 0 = get64bit (memory body) 0 :=
    get64bit_congr fun i hi => hptr (0 + i) (by omega)
  simp only [ChunkServer.expectsBlock, Bool.and_eq_true, decide_eq_true_eq, ne_eq] at hexpects
  obtain ⟨⟨⟨⟨⟨hid, -⟩, -⟩, hblockno⟩, hblockoffset⟩, hblocksize⟩ := hexpects
  rw [h32 12 (by norm_num)] at hdata
  constructor
  · exact hbody
  · exact h64 ▸ hid
  · exact h16 8 (by norm_num) ▸ hblockno
  · exact h16 10 (by norm_num) ▸ hblockoffset
  · exact hdata.symm
  · exact h32 16 (by norm_num) ▸ hcrc
  · rw [hdata, ← h32 12 (by norm_num), hblocksize]
    exact min_le_left _ _

/-- Nothing is stored before the place the data go to; an accepted packet is stored
there, with its checksum. -/
theorem readData_runs
    (h : (ChunkServer.readData crc_32 socket_ chunk length offset size input buff pos).Runs
      t (block, input', buff')) :
    (∀ i < pos, buff'.memAt 0 i = buff.memAt 0 i) ∧ ∀ blocksize, block = some blocksize →
      ∃ body data, received socket_ t = body ++ data ∧ Accepts crc_32 chunk offset size body data ∧
        data.length = blocksize ∧ buff' = buff.store pos data := by
  have hrefused : ∀ {t' : Trace NetCall NetCall.Answer} {input₁ : Buffer},
      (pure (none, input₁, buff) : Net (Option ℕ × Buffer × Buffer)).Runs t'
          (block, input', buff') →
        (∀ i < pos, buff'.memAt 0 i = buff.memAt 0 i) ∧ ∀ blocksize, block = some blocksize →
          ∃ body data, received socket_ t = body ++ data ∧
            Accepts crc_32 chunk offset size body data ∧
            data.length = blocksize ∧ buff' = buff.store pos data := by
    rintro t' input₁ ⟨-, heq⟩
    cases heq
    exact ⟨fun _ _ => rfl, fun _ hnone => by cases hnone⟩
  unfold ChunkServer.readData at h
  by_cases hlength : length < 20
  · rw [if_pos hlength] at h
    exact hrefused h
  rw [if_neg hlength] at h
  obtain ⟨t₁, t₂, input₁, rfl, halloca, h₂⟩ := runs_bind.mp h
  obtain ⟨t₃, t₄, ⟨ret, input₂⟩, rfl, hbody, h₄⟩ := runs_bind.mp h₂
  obtain ⟨rfl, hle, hall⟩ := tcptoread_runs hbody
  by_cases hret : ret = 20
  swap
  · simp only [hret, ne_eq, not_false_eq_true, if_true] at h₄
    exact hrefused h₄
  have hlen : (received socket_ t₃).length = 20 := hall hret
  simp only [hret, ne_eq, not_true_eq_false, if_false] at h₄
  cases hexpects : ChunkServer.expectsBlock chunk length offset size
      ((input₁.store 0 (received socket_ t₃)).memAt 0) with
  | false =>
      simp only [hexpects, Bool.false_eq_true, if_false] at h₄
      exact hrefused h₄
  | true =>
      simp only [hexpects, if_true] at h₄
      obtain ⟨t₅, t₆, ⟨readed, buff₁⟩, rfl, hdata, h₆⟩ := runs_bind.mp h₄
      obtain ⟨rfl, hdle, hdall⟩ := tcptoread_runs hdata
      have hbefore : ∀ i < pos,
          (buff.store pos (received socket_ t₅)).memAt 0 i = buff.memAt 0 i := by
        intro i hi
        rw [Buffer.memAt_store, if_neg (by omega)]
      have hkept : ∀ {t' : Trace NetCall NetCall.Answer} {result : Option ℕ} {input₃ : Buffer},
          (pure (result, input₃, buff.store pos (received socket_ t₅)) :
            Net (Option ℕ × Buffer × Buffer)).Runs t' (block, input', buff') →
          t' = [] ∧ block = result ∧ buff' = buff.store pos (received socket_ t₅) := by
        rintro t' result input₃ ⟨rfl, heq⟩
        cases heq
        exact ⟨rfl, rfl, rfl⟩
      have hmem : ∀ i < 20, (input₁.store 0 (received socket_ t₃)).memAt 0 i =
          memory (received socket_ t₃) i := fun i hi => memAt_store_zero (by omega)
      generalize (input₁.store 0 (received socket_ t₃)).memAt 0 = ptr at *
      by_cases hreaded : readed = get32bit ptr 12
      swap
      · simp only [hreaded, not_false_eq_true, if_true] at h₆
        obtain ⟨-, rfl, rfl⟩ := hkept h₆
        exact ⟨hbefore, fun _ hnone => by cases hnone⟩
      have hdlen : (received socket_ t₅).length = get32bit ptr 12 := hdall hreaded
      have hslice : ByteSeq.slice (buff.store pos (received socket_ t₅)).mem pos (get32bit ptr 12) =
          received socket_ t₅ := by
        rw [← hdlen]
        exact ByteSeq.slice_overwrite_self _ _ _ _
      simp only [hreaded, not_true_eq_false, if_false, hslice] at h₆
      by_cases hcrc : get32bit ptr 16 = mycrc32 crc_32 (received socket_ t₅)
      swap
      · simp only [hcrc, not_false_eq_true, if_true] at h₆
        obtain ⟨-, rfl, rfl⟩ := hkept h₆
        exact ⟨hbefore, fun _ hnone => by cases hnone⟩
      simp only [hcrc, not_true_eq_false, if_false] at h₆
      obtain ⟨rfl, rfl, rfl⟩ := hkept h₆
      refine ⟨hbefore, ?_⟩
      rintro blocksize ⟨⟩
      refine ⟨received socket_ t₃, received socket_ t₅, ?_, ?_, hdlen, rfl⟩
      · simp [alloca_runs halloca]
      · exact accepts_of_expects hlen hmem hexpects hdlen hcrc

/-- The end of the blocks comes when nothing is left to receive. -/
theorem readStatus_runs (h : (ChunkServer.readStatus socket_ chunk length size input).Runs t ret)
    (hret : ret = STATUS_OK) : size = 0 := by
  have hrefused : ∀ {t' : Trace NetCall NetCall.Answer},
      ¬ (pure (-1) : Net ℤ).Runs t' ret := by
    rintro t' ⟨-, rfl⟩
    cases hret
  unfold ChunkServer.readStatus at h
  split at h
  · exact absurd h hrefused
  obtain ⟨t₁, t₂, ⟨readed, input₁⟩, -, -, h₂⟩ := runs_bind.mp h
  dsimp only at h₂
  split at h₂
  · exact absurd h₂ hrefused
  split at h₂
  · exact absurd h₂ hrefused
  split at h₂
  · exact absurd h₂ hrefused
  split at h₂
  · exact absurd h₂ hrefused
  · rename_i hsize
    exact not_not.mp hsize

/-- A header and what an accepted packet has behind it. -/
theorem isBlock_of_accepts {header body data : Bytes} (hheader : header.length = 8)
    (hcmd : get32bit (memory header) 0 = CSTOCU_READ_DATA)
    (h : Accepts crc_32 chunk offset size body data) :
    IsBlock crc_32 chunk offset (header ++ body ++ data) ∧
      (header ++ body ++ data).drop 28 = data := by
  have hbody := h.length
  have hfront : (header ++ body).length = 28 := by
    rw [List.length_append, hheader, hbody]
  have hdrop : (header ++ body ++ data).drop 28 = data := by
    rw [← hfront, List.drop_left]
  have hhead : ∀ i < 8, memory (header ++ body ++ data) i = memory header i := by
    intro i hi
    simp only [memory, List.getD_eq_getElem?_getD]
    rw [List.append_assoc, List.getElem?_append_left (by omega)]
  have hmid : ∀ i < 20, memory (header ++ body ++ data) (8 + i) = memory body i := by
    intro i hi
    simp only [memory, List.getD_eq_getElem?_getD]
    rw [List.append_assoc, List.getElem?_append_right (by omega),
      List.getElem?_append_left (by omega), hheader]
    congr 2
    omega
  have h16 : ∀ a, a + 2 ≤ 20 →
      get16bit (memory (header ++ body ++ data)) (8 + a) = get16bit (memory body) a := by
    intro a ha
    refine get16bit_congr fun i hi => ?_
    rw [Nat.add_assoc]
    exact hmid (a + i) (by omega)
  have h32 : ∀ a, a + 4 ≤ 20 →
      get32bit (memory (header ++ body ++ data)) (8 + a) = get32bit (memory body) a := by
    intro a ha
    refine get32bit_congr fun i hi => ?_
    rw [Nat.add_assoc]
    exact hmid (a + i) (by omega)
  refine ⟨?_, hdrop⟩
  constructor
  · rw [List.length_append, hfront]
    exact Nat.le_add_right _ _
  · rw [← hcmd]
    exact get32bit_congr fun i hi => hhead (0 + i) (by omega)
  · rw [← h.id]
    refine get64bit_congr fun i hi => ?_
    rw [Nat.zero_add]
    exact hmid i (by omega)
  · exact (h16 8 (by norm_num)).trans h.blockno
  · exact (h16 10 (by norm_num)).trans h.blockoffset
  · rw [hdrop]
    exact (h32 12 (by norm_num)).trans h.blocksize
  · rw [hdrop]
    exact (h32 16 (by norm_num)).trans h.blockcrc

/-- What a round of the loop does, by what it receives: nothing more when the header fails,
and behind the header the end, a block that is refused or stored, or another packet. -/
inductive Round (crc_32 : Bytes → UInt32) (socket_ : ℤ) (chunk : Chunk) (rounds offset size : ℕ)
    (buff : Buffer) (pos : ℕ) :
    Trace NetCall NetCall.Answer → ℤ → Buffer → Prop
  | failed {t : Trace NetCall NetCall.Answer} :
      Round crc_32 socket_ chunk rounds offset size buff pos t ERROR_IO buff
  | status {t₁ t₂ : Trace NetCall NetCall.Answer} {input : Buffer} {ret : ℤ}
      (hlen : (received socket_ t₁).length = 8)
      (hcmd : get32bit (memory (received socket_ t₁)) 0 = CSTOCU_READ_STATUS)
      (hstatus : (ChunkServer.readStatus socket_ chunk
        (get32bit (memory (received socket_ t₁)) 4) size input).Runs t₂ ret) :
      Round crc_32 socket_ chunk rounds offset size buff pos (t₁ ++ t₂) ret buff
  | refused {t₁ t₂ : Trace NetCall NetCall.Answer} {input input' buff' : Buffer}
      (hdata : (ChunkServer.readData crc_32 socket_ chunk
        (get32bit (memory (received socket_ t₁)) 4) offset size input buff pos).Runs t₂
          (none, input', buff')) :
      Round crc_32 socket_ chunk rounds offset size buff pos (t₁ ++ t₂) (-1) buff'
  | taken {t₁ t₂ t₃ : Trace NetCall NetCall.Answer} {input input' buff₁ buff' : Buffer}
      {blocksize : ℕ} {ret : ℤ} (hlen : (received socket_ t₁).length = 8)
      (hcmd : get32bit (memory (received socket_ t₁)) 0 = CSTOCU_READ_DATA)
      (hdata : (ChunkServer.readData crc_32 socket_ chunk
        (get32bit (memory (received socket_ t₁)) 4) offset size input buff pos).Runs t₂
          (some blocksize, input', buff₁))
      (hrest : (ChunkServer.readBlockLoop crc_32 socket_ chunk rounds
        ((offset + blocksize) % 2 ^ 32) (size - blocksize) input' buff₁ (pos + blocksize)).Runs t₃
          (ret, buff')) :
      Round crc_32 socket_ chunk rounds offset size buff pos (t₁ ++ (t₂ ++ t₃)) ret buff'
  | passed {t₁ t₂ : Trace NetCall NetCall.Answer} {input buff' : Buffer} {ret : ℤ}
      (hlen : (received socket_ t₁).length = 8)
      (hstatus : get32bit (memory (received socket_ t₁)) 0 ≠ CSTOCU_READ_STATUS)
      (hdata : get32bit (memory (received socket_ t₁)) 0 ≠ CSTOCU_READ_DATA)
      (hrest : (ChunkServer.readBlockLoop crc_32 socket_ chunk rounds offset size input buff
        pos).Runs t₂ (ret, buff')) :
      Round crc_32 socket_ chunk rounds offset size buff pos (t₁ ++ t₂) ret buff'

/-- A round of `ReadBlock` ends, or takes one packet and goes on.
SOURCE: moose.cc:1022-1143 -/
theorem readBlockLoop_round {rounds : ℕ}
    (h : (ChunkServer.readBlockLoop crc_32 socket_ chunk (rounds + 1) offset size input buff
      pos).Runs t (ret, buff')) :
    Round crc_32 socket_ chunk rounds offset size buff pos t ret buff' := by
  unfold ChunkServer.readBlockLoop at h
  obtain ⟨t₁, t₂, ⟨readed, input₁⟩, rfl, hheader, h₂⟩ := runs_bind.mp h
  obtain ⟨rfl, -, hall⟩ := tcptoread_runs hheader
  by_cases hreaded : readed = 8
  swap
  · simp only [hreaded, ne_eq, not_false_eq_true, if_true] at h₂
    obtain ⟨-, heq⟩ := h₂
    cases heq
    exact .failed
  have hlen : (received socket_ t₁).length = 8 := hall hreaded
  have hword : ∀ a, a + 4 ≤ 8 → get32bit ((input.store 0 (received socket_ t₁)).memAt 0) a =
      get32bit (memory (received socket_ t₁)) a := fun a ha =>
    get32bit_congr fun i hi => memAt_store_zero (by omega)
  simp only [hreaded, ne_eq, not_true_eq_false, if_false] at h₂
  rw [hword 0 (by norm_num), hword 4 (by norm_num)] at h₂
  split at h₂
  · rename_i hcmd
    obtain ⟨t₃, t₄, ret', rfl, hstatus, hend⟩ := runs_bind.mp h₂
    obtain ⟨rfl, heq⟩ := hend
    cases heq
    rw [List.append_nil]
    exact .status hlen hcmd hstatus
  rename_i hstatus
  split at h₂
  · rename_i hcmd
    obtain ⟨t₃, t₄, ⟨block, input₂, buff₁⟩, rfl, hdata, h₄⟩ := runs_bind.mp h₂
    cases block with
    | none =>
        obtain ⟨rfl, heq⟩ := h₄
        cases heq
        rw [List.append_nil]
        exact .refused hdata
    | some blocksize => exact .taken hlen hcmd hdata h₄
  · rename_i hcmd
    exact .passed hlen hstatus hcmd h₂

/-- The blocks of a range: what is before it stays, and on success every byte of it
has been served. -/
theorem readBlockLoop_runs {rounds : ℕ}
    (h : (ChunkServer.readBlockLoop crc_32 socket_ chunk rounds offset
      size input buff pos).Runs t (ret, buff')) :
    (∀ i < pos, buff'.memAt 0 i = buff.memAt 0 i) ∧ (ret = STATUS_OK → ∀ k < size,
      offset + k < 2 ^ 32 →
        ServedByte crc_32 socket_ chunk t (offset + k) (buff'.memAt 0 (pos + k))) := by
  induction rounds generalizing offset size input buff pos t with
  | zero =>
      obtain ⟨answer, -⟩ := h
      cases answer
  | succ rounds ih =>
      cases readBlockLoop_round h with
      | failed => exact ⟨fun _ _ => rfl, fun hret => by cases hret⟩
      | status hlen hcmd hstatus =>
          refine ⟨fun _ _ => rfl, fun hret k hk => ?_⟩
          rw [readStatus_runs hstatus hret] at hk
          omega
      | refused hdata => exact ⟨(readData_runs hdata).1, fun hret => by cases hret⟩
      | @taken t₁ t₂ t₃ _ _ _ _ blocksize _ hlen hcmd hdata hrest =>
          obtain ⟨hbefore, hstored⟩ := readData_runs hdata
          obtain ⟨body, data, hreceived, haccepts, rfl, rfl⟩ := hstored blocksize rfl
          obtain ⟨hkept, hserved⟩ := ih hrest
          refine ⟨fun i hi => (hkept i (by omega)).trans (hbefore i hi), ?_⟩
          intro hret k hk hwrap
          by_cases hblock : k < data.length
          · -- the byte is one of this block
            obtain ⟨hpacket, hdrop⟩ := isBlock_of_accepts hlen hcmd haccepts
            refine ⟨[], received socket_ t₁ ++ body ++ data, received socket_ t₃, offset, k,
              ?_, hpacket, rfl, ?_⟩
            · simp [hreceived]
            · rw [hdrop, hkept (pos + k) (by omega), Buffer.memAt_store, if_pos (by omega)]
              rw [Nat.add_sub_cancel_left, List.getD_eq_getElem?_getD,
                List.getElem?_eq_getElem hblock]
              rfl
          · have hnext : (offset + data.length) % 2 ^ 32 = offset + data.length :=
              Nat.mod_eq_of_lt (by omega)
            have h := hserved hret (k - data.length) (by omega) (by rw [hnext]; omega)
            have hoffset : offset + data.length + (k - data.length) = offset + k := by omega
            have hpos : pos + data.length + (k - data.length) = pos + k := by omega
            rw [hnext, hoffset, hpos] at h
            exact (h.append_left t₂).append_left t₁
      | @passed t₁ _ _ _ _ _ _ _ hrest =>
          obtain ⟨hkept, hserved⟩ := ih hrest
          refine ⟨hkept, fun hret k hk hwrap => ?_⟩
          exact (hserved hret k hk hwrap).append_left t₁

end Reading

/-- The request, and behind it the loop. -/
theorem readBlock_loop {rounds : ℕ} {cs : ChunkServer} {chunk : Chunk} {offset size : ℕ}
    {buff buff' : Buffer}
    (h : (cs.readBlock crc_32 rounds chunk offset size buff pos).Runs t (ret, buff')) :
    (ret = ERROR_IO ∧ buff' = buff) ∨ ∃ t₁ t₂ input, t = t₁ ++ t₂ ∧ received cs.socket_ t₁ = [] ∧
      (ChunkServer.readBlockLoop crc_32 cs.socket_ chunk rounds offset size input buff pos).Runs t₂
        (ret, buff') := by
  obtain ⟨written, t', rfl, hrest⟩ := runs_op_bind.mp h
  by_cases hwritten : written = 28
  · simp only [hwritten, ne_eq, not_true_eq_false, if_false] at hrest
    obtain ⟨t₁, t₂, input, rfl, halloca, hloop⟩ := runs_bind.mp hrest
    refine .inr ⟨⟨_, written⟩ :: t₁, t₂, input, rfl, ?_, hloop⟩
    rw [received_cons, alloca_runs halloca]
    rfl
  · simp only [hwritten, ne_eq, not_false_eq_true, if_true] at hrest
    obtain ⟨-, heq⟩ := hrest
    cases heq
    exact .inl ⟨rfl, rfl⟩

/-- `ReadBlock`: what is before the range stays, and on success every byte of it has
been served. -/
theorem readBlock_runs {rounds : ℕ} {cs : ChunkServer} {chunk : Chunk} {offset size : ℕ}
    {buff buff' : Buffer}
    (h : (cs.readBlock crc_32 rounds chunk offset size buff pos).Runs t (ret, buff')) :
    (∀ i < pos, buff'.memAt 0 i = buff.memAt 0 i) ∧
      (ret = STATUS_OK → ∀ k < size, offset + k < 2 ^ 32 →
        ServedByte crc_32 cs.socket_ chunk t (offset + k) (buff'.memAt 0 (pos + k))) := by
  obtain ⟨rfl, rfl⟩ | ⟨t₁, t₂, input, rfl, -, hloop⟩ := readBlock_loop h
  · exact ⟨fun _ _ => rfl, fun hret => by cases hret⟩
  · obtain ⟨hkept, hserved⟩ := readBlockLoop_runs hloop
    exact ⟨hkept, fun hret k hk hwrap => (hserved hret k hk hwrap).append_left t₁⟩

/-! ## A connection that brings single bytes -/

/-- The request for a range, and the memory for the headers. -/
def rangeAsked (offset size : ℕ) : Trace NetCall NetCall.Answer :=
  [⟨.write 4 (ChunkServer.readRequest {} offset size), (28 : ℤ)⟩,
    ⟨.alloc 20, newMemory (List.replicate 20 255)⟩]

/-- The reads of a data packet with the byte `sent`, which arrives as `byte` and goes to `pos`. -/
def bytePacket (pos blockno blockoffset : ℕ) (sent byte : UInt8) : Trace NetCall NetCall.Answer :=
  [⟨.read 4 0 8, Received.whole (put32bit CSTOCU_READ_DATA ++ put32bit 21)⟩,
    ⟨.read 4 0 20, Received.whole (put64bit 0 ++ put16bit blockno ++ put16bit blockoffset ++
      put32bit 1 ++ put32bit (mycrc32 bitwiseCrc [sent]))⟩,
    ⟨.read 4 pos 1, Received.whole [byte]⟩]

/-- The status of a chunk that has been read. -/
def statusRead : Trace NetCall NetCall.Answer :=
  [⟨.read 4 0 8, Received.whole [0, 0, 0, 201, 0, 0, 0, 9]⟩,
    ⟨.read 4 0 9, Received.whole [0, 0, 0, 0, 0, 0, 0, 0, 0]⟩]

end Moose

end BundleStore
