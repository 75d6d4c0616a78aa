import BundleStore.Analysis.Intake

set_option autoImplicit false

/-!
# The packets that `ReadBlock` accepts

All that `ReadBlock` does to the buffer is to store bytes from `pos` on, no more than were
asked for. When it succeeds they are the blocks of data packets that have come one after
the other, and the status has come behind them; a packet of another kind is passed over
with its header only.
-/

namespace BundleStore

namespace Moose

open Machine Prog

/-! ## Packets in a stream -/

variable {crc_32 : Bytes → UInt32}

/-- The block that a data packet brings. -/
def blockOf (packet : Bytes) : Bytes := packet.drop 28

/-- A data packet with the next block of the chunk, which has a byte and does not reach
over the end of 64 KiB. -/
structure IsDataPacket (crc_32 : Bytes → UInt32) (chunk : Chunk) (offset : ℕ) (packet : Bytes) :
    Prop
    extends IsBlock crc_32 chunk offset packet where
  packet_length : get32bit (memory packet) 4 + 8 = packet.length
  nonempty : blockOf packet ≠ []
  within : offset % 2 ^ 16 + (blockOf packet).length ≤ 2 ^ 16

/-- The status packet of a chunk that has been read. -/
structure IsStatusPacket (chunk : Chunk) (packet : Bytes) : Prop where
  length : packet.length = 17
  cmd : get32bit (memory packet) 0 = CSTOCU_READ_STATUS
  packet_length : get32bit (memory packet) 4 = 9
  id : get64bit (memory packet) 8 = chunk.id
  status : get8bit (memory packet) 16 = 0

/-- Data packets whose blocks follow one after the other. -/
def Consecutive (crc_32 : Bytes → UInt32) (chunk : Chunk) : ℕ → List Bytes → Prop
  | _, [] => True
  | offset, packet :: packets => IsDataPacket crc_32 chunk offset packet ∧
      Consecutive crc_32 chunk (offset + (blockOf packet).length) packets

/-- The pieces come in the stream, one behind the other. -/
def InOrder : List Bytes → Bytes → Prop
  | [], _ => True
  | piece :: pieces, stream => ∃ gap rest, stream = gap ++ (piece ++ rest) ∧ InOrder pieces rest

/-- The stream has brought the range of the chunk in consecutive blocks, and the status
behind them. -/
def Brings (crc_32 : Bytes → UInt32) (chunk : Chunk) (offset size : ℕ) (stream data : Bytes) :
    Prop :=
  ∃ packets status, Consecutive crc_32 chunk offset packets ∧ IsStatusPacket chunk status ∧
    InOrder (packets ++ [status]) stream ∧ packets.flatMap blockOf = data ∧ data.length = size

/-- Pieces stand in their order in a longer stream. -/
theorem InOrder.append_left {pieces : List Bytes} {stream : Bytes} (h : InOrder pieces stream)
    (front : Bytes) : InOrder pieces (front ++ stream) := by
  cases pieces with
  | nil => trivial
  | cons piece pieces =>
      obtain ⟨gap, rest, rfl, hrest⟩ := h
      exact ⟨front ++ gap, rest, by rw [List.append_assoc], hrest⟩

/-- A block is brought by a longer stream. -/
theorem Brings.append_left {chunk : Chunk} {offset size : ℕ} {stream data : Bytes}
    (h : Brings crc_32 chunk offset size stream data) (front : Bytes) :
    Brings crc_32 chunk offset size (front ++ stream) data := by
  obtain ⟨packets, status, hpackets, hstatus, hinorder, hdata⟩ := h
  exact ⟨packets, status, hpackets, hstatus, hinorder.append_left front, hdata⟩

/-- A block in front of the range. -/
theorem Brings.cons {chunk : Chunk} {offset size : ℕ} {stream data packet : Bytes}
    (hpacket : IsDataPacket crc_32 chunk offset packet)
    (h : Brings crc_32 chunk (offset + (blockOf packet).length) size stream data) :
    Brings crc_32 chunk offset ((blockOf packet).length + size) (packet ++ stream)
      (blockOf packet ++ data) := by
  obtain ⟨packets, status, hpackets, hstatus, hinorder, rfl, hsize⟩ := h
  refine ⟨packet :: packets, status, ⟨hpacket, hpackets⟩, hstatus, ⟨[], stream, rfl, hinorder⟩,
    rfl, ?_⟩
  rw [List.length_append, hsize]

/-- A block that is brought has its size. -/
theorem Brings.length_eq {chunk : Chunk} {offset size : ℕ} {stream data : Bytes}
    (h : Brings crc_32 chunk offset size stream data) : data.length = size := by
  obtain ⟨-, -, -, -, -, -, hsize⟩ := h
  exact hsize

/-- A status packet brings the empty block. -/
theorem brings_nothing {chunk : Chunk} {offset : ℕ} {status : Bytes}
    (h : IsStatusPacket chunk status) : Brings crc_32 chunk offset 0 status [] :=
  ⟨[], status, trivial, h, ⟨[], [], by simp, trivial⟩, rfl, rfl⟩

/-! ## What is stored -/

section Stored

variable {chunk : Chunk} {offset size length pos leng : ℕ} {input buff buff' : Buffer}
variable {socket_ ret : ℤ} {t : Trace NetCall NetCall.Answer}

/-- What `tcptoread` stores is no longer than it was asked for, by induction on the rounds.
SOURCE: moose.cc:187-199 -/
theorem tcptoreadLoop_returns {fd : ℤ} {rounds rcvd : ℕ} {buf : Buffer} :
    (tcptoreadLoop fd pos leng rounds rcvd buf).Returns fun r =>
      ∃ data : Bytes, r.2 = buf.store (pos + rcvd) data ∧ data.length ≤ leng - rcvd := by
  induction rounds generalizing rcvd buf with
  | zero => exact ⟨[], rfl, Nat.zero_le _⟩
  | succ rounds ih =>
      unfold tcptoreadLoop
      apply Returns.ite
      · intro hlt i
        have hlength : i.data.length ≤ leng - rcvd := i.length_le
        apply Returns.ite
        · exact fun _ => ⟨[], rfl, Nat.zero_le _⟩
        · intro _
          refine Returns.mono ?_ ih
          rintro r ⟨data, hstored, hle⟩
          refine ⟨i.data ++ data, ?_, ?_⟩
          · rw [hstored, ← Nat.add_assoc, Buffer.store_store]
          · rw [List.length_append]
            omega
      · exact fun _ => ⟨[], rfl, Nat.zero_le _⟩

/-- The size of the block that comes next. -/
def nextSize (offset size : ℕ) : ℕ := min size (65536 - offset % 2 ^ 16)

/-- A packet that is taken has the next size.
SOURCE: moose.cc:1085-1109 -/
theorem nextSize_of_expects {ptr : Mem}
    (h : ChunkServer.expectsBlock chunk length offset size ptr = true) :
    get32bit ptr 12 ≠ 0 ∧ length = (20 + get32bit ptr 12) % 2 ^ 32 ∧
      get32bit ptr 12 = nextSize offset size := by
  simp only [ChunkServer.expectsBlock, Bool.and_eq_true, decide_eq_true_eq] at h
  obtain ⟨⟨⟨⟨⟨-, hlength⟩, hzero⟩, -⟩, hoffset⟩, hsize⟩ := h
  refine ⟨hzero, hlength, ?_⟩
  rw [nextSize, ← hoffset]
  exact hsize

/-- What is stored of a data packet, and of which size it is when it is accepted. -/
theorem readData_returns :
    (ChunkServer.readData crc_32 socket_ chunk length offset size input buff pos).Returns fun r =>
      (∃ data : Bytes, r.2.2 = buff.store pos data ∧ data.length ≤ size) ∧
        ∀ n, r.1 = some n → n ≠ 0 ∧ length = (20 + n) % 2 ^ 32 ∧ n = nextSize offset size := by
  have hnothing : ∀ input' : Buffer, (pure (none, input', buff) :
      Net (Option ℕ × Buffer × Buffer)).Returns fun r =>
        (∃ data : Bytes, r.2.2 = buff.store pos data ∧ data.length ≤ size) ∧
          ∀ n, r.1 = some n → n ≠ 0 ∧ length = (20 + n) % 2 ^ 32 ∧ n = nextSize offset size :=
    fun _ => ⟨⟨[], rfl, Nat.zero_le _⟩, fun _ hnone => by cases hnone⟩
  unfold ChunkServer.readData
  apply Returns.ite
  · exact fun _ => hnothing input
  intro _
  refine Returns.bind (returns_true _) fun input₁ _ => ?_
  refine Returns.bind (returns_true _) ?_
  rintro ⟨ret, input₂⟩ -
  apply Returns.ite
  · exact fun _ => hnothing input₂
  intro _
  apply Returns.ite
  swap
  · exact fun _ => hnothing input₂
  intro hexpects
  obtain ⟨hzero, hlength, hsize⟩ := nextSize_of_expects hexpects
  refine Returns.bind tcptoreadLoop_returns ?_
  rintro ⟨readed, buff₁⟩ ⟨data, rfl, hle⟩
  have hfits : data.length ≤ size := by
    rw [hsize, nextSize] at hle
    omega
  apply Returns.ite
  · exact fun _ => ⟨⟨data, rfl, hfits⟩, fun _ hnone => by cases hnone⟩
  intro _
  apply Returns.ite
  · exact fun _ => ⟨⟨data, rfl, hfits⟩, fun _ hnone => by cases hnone⟩
  · intro _
    refine ⟨⟨data, rfl, hfits⟩, ?_⟩
    rintro n ⟨⟩
    exact ⟨hzero, hlength, hsize⟩

/-! ## Complete runs -/

/-- A byte of the first part. -/
theorem memory_append_left {a b : Bytes} {i : ℕ} (hi : i < a.length) :
    memory (a ++ b) i = memory a i := by
  simp only [memory, List.getD_eq_getElem?_getD]
  rw [List.getElem?_append_left hi]

/-- A byte of the second part. -/
theorem memory_append_right {a b : Bytes} {i : ℕ} :
    memory (a ++ b) (a.length + i) = memory b i := by
  simp only [memory, List.getD_eq_getElem?_getD]
  rw [List.getElem?_append_right (Nat.le_add_right _ _), Nat.add_sub_cancel_left]

/-- A status that is accepted comes when nothing is left to receive. -/
theorem readStatus_accepts (h : (ChunkServer.readStatus socket_ chunk length size input).Runs t 0) :
    length = 9 ∧ size = 0 ∧ (received socket_ t).length = 9 ∧
      get64bit (memory (received socket_ t)) 0 = chunk.id ∧
      get8bit (memory (received socket_ t)) 8 = 0 := by
  have hrefused : ∀ {t' : Trace NetCall NetCall.Answer}, ¬ (pure (-1) : Net ℤ).Runs t' 0 := by
    rintro t' ⟨-, heq⟩
    cases heq
  unfold ChunkServer.readStatus at h
  split at h
  · exact absurd h hrefused
  rename_i hlength
  obtain ⟨t₁, t₂, ⟨readed, input₁⟩, rfl, hread, h₂⟩ := runs_bind.mp h
  obtain ⟨rfl, -, hall⟩ := tcptoread_runs hread
  dsimp only at h₂
  split at h₂
  · exact absurd h₂ hrefused
  rename_i hreaded
  have hnine : (received socket_ t₁).length = 9 := hall (not_not.mp hreaded)
  have hmem : ∀ i < 9, (input.store 0 (received socket_ t₁)).memAt 0 i =
      memory (received socket_ t₁) i := fun i hi => memAt_store_zero (by omega)
  split at h₂
  · exact absurd h₂ hrefused
  rename_i hstatus
  split at h₂
  · exact absurd h₂ hrefused
  rename_i hid
  split at h₂
  · exact absurd h₂ hrefused
  rename_i hsize
  obtain ⟨rfl, -⟩ := h₂
  rw [List.append_nil]
  refine ⟨not_not.mp hlength, not_not.mp hsize, hnine, ?_, ?_⟩
  · exact (get64bit_congr fun i hi => (hmem (0 + i) (by omega)).symm).trans (not_not.mp hid)
  · rw [get8bit, ← hmem 8 (by norm_num)]
    exact not_not.mp hstatus

/-- A status that is taken is a status packet.
SOURCE: moose.cc:1034-1058 -/
theorem isStatusPacket_of_accepts {front body : Bytes} (hfront : front.length = 8)
    (hcmd : get32bit (memory front) 0 = CSTOCU_READ_STATUS)
    (hlength : get32bit (memory front) 4 = 9) (hbody : body.length = 9)
    (hid : get64bit (memory body) 0 = chunk.id) (hstatus : get8bit (memory body) 8 = 0) :
    IsStatusPacket chunk (front ++ body) := by
  have hbehind : ∀ i, memory (front ++ body) (8 + i) = memory body i := fun i => by
    rw [← hfront]
    exact memory_append_right
  constructor
  case length => rw [List.length_append, hfront, hbody]
  case cmd =>
    rw [← hcmd]
    exact get32bit_congr fun i hi => memory_append_left (by omega)
  case packet_length =>
    rw [← hlength]
    exact get32bit_congr fun i hi => memory_append_left (by omega)
  case id =>
    rw [← hid]
    exact get64bit_congr fun i hi => (hbehind i).trans (congrArg _ (Nat.zero_add i).symm)
  case status =>
    rw [get8bit, hbehind 8]
    exact hstatus

/-- A block that is taken is a data packet.
SOURCE: moose.cc:1059-1137 -/
theorem isDataPacket_of_accepts {front body block : Bytes} (hfront : front.length = 8)
    (hcmd : get32bit (memory front) 0 = CSTOCU_READ_DATA)
    (hlength : get32bit (memory front) 4 = (20 + block.length) % 2 ^ 32)
    (hzero : block.length ≠ 0) (hnext : block.length = nextSize offset size)
    (h : Accepts crc_32 chunk offset size body block) :
    IsDataPacket crc_32 chunk offset (front ++ body ++ block) ∧
      blockOf (front ++ body ++ block) = block := by
  obtain ⟨hblock, hdrop⟩ := isBlock_of_accepts hfront hcmd h
  have hof : blockOf (front ++ body ++ block) = block := hdrop
  have hle : block.length ≤ 65536 - offset % 2 ^ 16 := hnext ▸ min_le_right _ _
  refine ⟨⟨hblock, ?_, ?_, ?_⟩, hof⟩
  · have hword : get32bit (memory (front ++ body ++ block)) 4 = get32bit (memory front) 4 := by
      rw [List.append_assoc]
      exact get32bit_congr fun i hi => memory_append_left (by omega)
    rw [hword, hlength, Nat.mod_eq_of_lt (by omega), List.length_append, List.length_append,
      hfront, h.length]
    omega
  · rw [hof]
    exact fun hnil => hzero (by rw [hnil]; rfl)
  · rw [hof]
    omega

/-- All that `ReadBlock` does is one store into the range, and on success the stream has
brought what is stored. -/
theorem readBlockLoop_stores {rounds : ℕ} (hrange : offset + size < 2 ^ 32)
    (h : (ChunkServer.readBlockLoop crc_32 socket_ chunk rounds offset size input buff pos).Runs t
      (ret, buff')) :
    ∃ data : Bytes, buff' = buff.store pos data ∧ data.length ≤ size ∧
      (ret = STATUS_OK → Brings crc_32 chunk offset size (received socket_ t) data) := by
  induction rounds generalizing offset size input buff pos t with
  | zero =>
      obtain ⟨answer, -⟩ := h
      cases answer
  | succ rounds ih =>
      cases readBlockLoop_round h with
      | failed => exact ⟨[], rfl, Nat.zero_le _, fun hret => by cases hret⟩
      | status hlen hcmd hstatus =>
          refine ⟨[], rfl, Nat.zero_le _, ?_⟩
          rintro rfl
          obtain ⟨hlength, rfl, hnine, hid, hzero⟩ := readStatus_accepts hstatus
          rw [received_append]
          exact brings_nothing (isStatusPacket_of_accepts hlen hcmd hlength hnine hid hzero)
      | refused hdata =>
          obtain ⟨⟨data, hbuff, hle⟩, -⟩ := hdata.returns readData_returns
          exact ⟨data, hbuff, hle, fun hret => by cases hret⟩
      | @taken t₁ t₂ t₃ _ _ _ _ blocksize _ hlen hcmd hdata hrest =>
          obtain ⟨-, hsize⟩ := hdata.returns readData_returns
          obtain ⟨-, hstored⟩ := readData_runs hdata
          obtain ⟨body, block, hreceived, haccepts, rfl, rfl⟩ := hstored blocksize rfl
          obtain ⟨hzero, hlength, hnext⟩ := hsize _ rfl
          have hfits := haccepts.le
          have hwrap : (offset + block.length) % 2 ^ 32 = offset + block.length :=
            Nat.mod_eq_of_lt (by omega)
          rw [hwrap] at hrest
          obtain ⟨rest, rfl, hle, hbrings⟩ := ih (by omega) hrest
          refine ⟨block ++ rest, Buffer.store_store _ _ _ _, ?_, fun hret => ?_⟩
          · rw [List.length_append]
            omega
          obtain ⟨hpacket, hdrop⟩ :=
            isDataPacket_of_accepts hlen hcmd hlength hzero hnext haccepts
          have hbrought := hbrings hret
          rw [← hdrop] at hbrought
          have hcons := Brings.cons hpacket hbrought
          rw [hdrop] at hcons
          rw [received_append, received_append, hreceived]
          have hsum : block.length + (size - block.length) = size := by omega
          rw [hsum] at hcons
          simpa using hcons
      | @passed t₁ _ _ _ _ _ _ _ hrest =>
          obtain ⟨data, hbuff, hle, hbrings⟩ := ih hrange hrest
          rw [received_append]
          exact ⟨data, hbuff, hle, fun hret => (hbrings hret).append_left _⟩

end Stored

/-! ## Runs under way -/

section Range

variable {chunk : Chunk} {offset size length pos from_ count : ℕ} {input buff : Buffer}
variable {socket_ : ℤ} {bound : ℕ} {s : Intake}

/-- What is read goes into the 20 bytes for the packets or into the range. -/
def InBlockRange (from_ count : ℕ) (_ pos n : ℕ) : Prop :=
  pos + n ≤ 20 ∨ (from_ ≤ pos ∧ pos + n ≤ from_ + count)

/-- A read into the buffer for headers touches no block. -/
theorem inBlockRange_input {leng : ℕ} (h : leng ≤ 20) :
    ∀ p n, 0 ≤ p → p + n ≤ 0 + leng → InBlockRange from_ count s.capacity p n :=
  fun _ _ _ hle => .inl (by omega)

/-- `Alloca` takes nothing off the stream. -/
theorem alloca_count {buf : Buffer} {len : ℕ} {room : ℕ → ℕ → ℕ → Prop} {fd : ℤ} :
    (intake fd room bound).Passes (fun _ s' => s'.count = s.count) (buf.alloca len) s := by
  unfold Buffer.alloca
  apply Monitor.Passes.ite
  · exact fun _ => ⟨trivial, fun _ => rfl⟩
  · exact fun _ => rfl

/-- A status is read inside the buffer.
SOURCE: moose.cc:1039 -/
theorem readStatus_intake : (intake socket_ (InBlockRange from_ count) bound).Passes
    (fun _ _ => True) (ChunkServer.readStatus socket_ chunk length size input) s := by
  unfold ChunkServer.readStatus
  apply Monitor.Passes.ite
  · exact fun _ => trivial
  intro _
  refine Monitor.Passes.bind
    (tcptoreadLoop_intake (inBlockRange_input (by norm_num)) (Nat.zero_le _)) fun r s' _ => ?_
  repeat
    apply Monitor.Passes.ite
    · exact fun _ => trivial
    intro _
  trivial

/-- A block is read into its place.
SOURCE: moose.cc:1066-1113 -/
theorem readData_intake (hfrom : from_ ≤ pos) (hto : pos + size ≤ from_ + count) :
    (intake socket_ (InBlockRange from_ count) bound).Passes (fun _ s' => s.count ≤ s'.count)
      (ChunkServer.readData crc_32 socket_ chunk length offset size input buff pos) s := by
  unfold ChunkServer.readData
  apply Monitor.Passes.ite
  · exact fun _ => le_rfl
  intro _
  refine Monitor.Passes.bind alloca_count fun input₁ s₁ hcount₁ => ?_
  refine Monitor.Passes.bind
    (tcptoreadLoop_intake (inBlockRange_input (by norm_num)) (Nat.zero_le _)) ?_
  rintro ⟨ret, input₂⟩ s₂ ⟨-, -, hcount₂, -⟩
  have hcount : s.count ≤ s₂.count := by omega
  apply Monitor.Passes.ite
  · exact fun _ => hcount
  intro _
  apply Monitor.Passes.ite
  swap
  · exact fun _ => hcount
  intro hexpects
  obtain ⟨-, -, hsize⟩ := nextSize_of_expects hexpects
  have hfits : get32bit (input₂.memAt 0) 12 ≤ size := hsize ▸ min_le_left _ _
  refine Monitor.Passes.bind (tcptoreadLoop_intake
    (fun p n hp hn => .inr ⟨by omega, by omega⟩) (Nat.zero_le _)) ?_
  rintro ⟨readed, buff₁⟩ s₃ ⟨-, -, hcount₃, -⟩
  apply Monitor.Passes.ite
  · exact fun _ => hcount.trans hcount₃
  intro _
  apply Monitor.Passes.ite
  · exact fun _ => hcount.trans hcount₃
  · exact fun _ => hcount.trans hcount₃

/-- Each round of the loop takes a header, and what it stores goes into the range. -/
theorem readBlockLoop_intake {rounds : ℕ} (hfrom : from_ ≤ pos)
    (hto : pos + size ≤ from_ + count) (hbound : bound ≤ s.count + 8 * rounds) :
    (intake socket_ (InBlockRange from_ count) bound).Passes (fun _ _ => True)
      (ChunkServer.readBlockLoop crc_32 socket_ chunk rounds offset size input buff pos) s := by
  induction rounds generalizing offset size input buff pos s with
  | zero =>
      have hreached : bound ≤ s.count := by omega
      exact ⟨hreached, fun answer => answer.elim⟩
  | succ rounds ih =>
      unfold ChunkServer.readBlockLoop
      refine Monitor.Passes.bind
        (tcptoreadLoop_intake (inBlockRange_input (by norm_num)) (Nat.zero_le _)) ?_
      rintro ⟨ret, input₁⟩ s₁ ⟨-, -, -, hall⟩
      apply Monitor.Passes.ite
      · exact fun _ => trivial
      intro hret
      have hcount : s.count + 8 ≤ s₁.count + 0 := hall (not_not.mp hret)
      apply Monitor.Passes.ite
      · exact fun _ => Monitor.Passes.bind readStatus_intake fun _ _ _ => trivial
      intro _
      apply Monitor.Passes.ite
      · intro _
        refine Monitor.Passes.bind
          ((readData_intake hfrom hto).and_returns readData_returns) ?_
        rintro ⟨block, input₂, buff₁⟩ s₂ ⟨hcount₂, -, hsize⟩
        cases block with
        | none => trivial
        | some blocksize =>
            have hfits : blocksize ≤ size := (hsize blocksize rfl).2.2 ▸ min_le_left _ _
            exact ih (by omega) (by omega) (by omega)
      · exact fun _ => ih hfrom hto (by omega)

/-- `ReadBlock` reads inside the range it was given.
SOURCE: moose.cc:1001-1146 -/
theorem readBlock_intake {rounds : ℕ} {cs : ChunkServer} (hbound : bound ≤ s.count + 8 * rounds) :
    (intake cs.socket_ (InBlockRange pos size) bound).Passes (fun _ _ => True)
      (cs.readBlock crc_32 rounds chunk offset size buff pos) s := by
  refine ⟨trivial, fun written => ?_⟩
  have hwritten : ((intake cs.socket_ (InBlockRange pos size) bound).step
      (.write cs.socket_ (ChunkServer.readRequest chunk offset size)) written s).count =
        s.count := rfl
  apply Monitor.Passes.ite
  · exact fun _ => trivial
  intro _
  refine Monitor.Passes.bind alloca_count fun input s₁ hcount => ?_
  exact readBlockLoop_intake le_rfl le_rfl (by omega)

end Range

/-! ## `ReadBlock` -/

/-- What has to hold of a run of `ReadBlock`, under way or complete. -/
structure ReadsFaithfully (crc_32 : Bytes → UInt32) (cs : ChunkServer) (chunk : Chunk)
    (offset size : ℕ) (buff : Buffer) (pos rounds : ℕ) (t : Trace NetCall NetCall.Answer) :
    Prop where
  in_range : (intake cs.socket_ (InBlockRange pos size) 0).Along
    (InRoom (InBlockRange pos size)) t ⟨0, 0⟩
  goes_on : (∃ r, (cs.readBlock crc_32 rounds chunk offset size buff pos).Runs t r) ∨
    ∃ o, (cs.readBlock crc_32 rounds chunk offset size buff pos).Waits t o ∧ o ≠ .forever
  kept : ∀ ret buff', (cs.readBlock crc_32 rounds chunk offset size buff pos).Runs t (ret, buff') →
    ∀ i, (i < pos ∨ pos + size ≤ i) → buff'.memAt 0 i = buff.memAt 0 i
  brought : ∀ buff',
    (cs.readBlock crc_32 rounds chunk offset size buff pos).Runs t (STATUS_OK, buff') →
    Brings crc_32 chunk offset size (received cs.socket_ t) (ByteSeq.slice buff'.mem pos size)

/-- What `ReadBlock` stores is a block, wherever it stops.
SOURCE: moose.cc:1001-1146 -/
theorem readBlock_stores {cs : ChunkServer} {chunk : Chunk} {offset size rounds pos : ℕ} {ret : ℤ}
    {buff buff' : Buffer} {t : Trace NetCall NetCall.Answer} (hrange : offset + size < 2 ^ 32)
    (h : (cs.readBlock crc_32 rounds chunk offset size buff pos).Runs t (ret, buff')) :
    ∃ data : Bytes, buff' = buff.store pos data ∧ data.length ≤ size ∧
      (ret = STATUS_OK → Brings crc_32 chunk offset size (received cs.socket_ t) data) := by
  obtain ⟨rfl, rfl⟩ | ⟨t₁, t₂, input, rfl, hnothing, hloop⟩ := readBlock_loop h
  · exact ⟨[], rfl, Nat.zero_le _, fun hret => by cases hret⟩
  · obtain ⟨data, hbuff, hle, hbrings⟩ := readBlockLoop_stores hrange hloop
    refine ⟨data, hbuff, hle, fun hret => ?_⟩
    rw [received_append, hnothing]
    exact hbrings hret

/-- **What `ReadBlock` accepts.** Whatever the chunk server sends, and however the reads
divide it, `ReadBlock` stores into the range only and comes to an end; when it succeeds
the stream has brought the range.
SOURCE: moose.cc:1001-1146 -/
theorem readBlock_faithful {cs : ChunkServer} {chunk : Chunk} {offset size pos rounds : ℕ}
    {buff : Buffer} {stream : Bytes} {t : Trace NetCall NetCall.Answer}
    (hrange : offset + size ≤ 2 ^ 26) (hrounds : stream.length < rounds)
    (hstream : received cs.socket_ t <+: stream)
    (h : (cs.readBlock crc_32 rounds chunk offset size buff pos).Makes t) :
    ReadsFaithfully crc_32 cs chunk offset size buff pos rounds t := by
  have hle : (received cs.socket_ t).length ≤ stream.length := hstream.length_le
  constructor
  case in_range => exact inRoom_of_passes (readBlock_intake (Nat.zero_le _)) h
  case goes_on =>
    refine goes_on_of_passes (readBlock_intake (s := ⟨0, 0⟩) le_rfl) h ?_
    dsimp only
    omega
  case kept =>
    intro ret buff' hruns i hi
    obtain ⟨data, rfl, hdata, -⟩ := readBlock_stores (by omega) hruns
    rw [Buffer.memAt_store, if_neg (by omega)]
  case brought =>
    intro buff' hruns
    obtain ⟨data, rfl, -, hbrings⟩ := readBlock_stores (by omega) hruns
    have hbrought := hbrings rfl
    have hsize : data.length = size := hbrought.length_eq
    have hslice : ByteSeq.slice (buff.store pos data).mem pos size = data := by
      rw [← hsize]
      exact ByteSeq.slice_overwrite_self _ _ _ _
    rwa [hslice]

/-- What a read of two bytes receives that are in two blocks of 64 KiB. -/
def twoBlocks : Trace NetCall NetCall.Answer :=
  rangeAsked 65535 2 ++ (bytePacket 0 0 65535 97 97 ++ (bytePacket 1 1 0 98 98 ++ statusRead))

/-- The example reads two bytes over the end of a block. -/
theorem twoBlocks_runs :
    (ChunkServer.readBlock bitwiseCrc 80 ⟨1, 4, 0, 0⟩ {} 65535 2 {} 0).Runs twoBlocks
      (STATUS_OK, ⟨[97, 98], 0⟩) := by
  iterate 10 refine ⟨_, _, rfl, ?_⟩
  exact ⟨rfl, rfl⟩

/-- The last byte of a block and the first byte of the next one, in two packets.
SOURCE: moose.cc:1001-1146 -/
theorem readBlock_faithful_twoBlocks :
    ReadsFaithfully bitwiseCrc ⟨1, 4, 0, 0⟩ {} 65535 2 {} 0 80 twoBlocks :=
  readBlock_faithful (by norm_num) (by decide) (List.prefix_refl (received 4 twoBlocks))
    twoBlocks_runs.makes

end Moose

end BundleStore
