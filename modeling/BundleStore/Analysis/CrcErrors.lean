import BundleStore.Analysis.BlockFrames
import BundleStore.Analysis.Crc

set_option autoImplicit false

/-!
# Blocks that are damaged on their way

The register of the checksum is one to one in its start value and in as many bits as it has.
So a burst of errors no longer than it changes the checksum of a block, and `ReadBlock` does
not take the block.
-/

namespace BundleStore

namespace Moose

open Lfsr Machine MooseFs Prog

/-! ## Bursts -/

/-- A block and what has become of it: they differ, but only within 32 bits in a row. -/
def Burst (block block' : Bytes) : Prop :=
  ∃ before window window' behind, stream block = before ++ window ++ behind ∧
    stream block' = before ++ window' ++ behind ∧ window.length = window'.length ∧
    window.length ≤ 32 ∧ window ≠ window'

/-- A burst changes the checksum. -/
theorem mycrc32_ne_of_burst {crc_32 : Bytes → UInt32} (hcrc : IsCrc32 crc_32)
    {block block' : Bytes} (h : Burst block block') :
    mycrc32 crc_32 block ≠ mycrc32 crc_32 block' := by
  obtain ⟨before, window, window', behind, hblock, hblock', hlength, hle, hne⟩ := h
  have htop : CRC_POLY.getLsbD (32 - 1) = true := by decide
  rw [client_crc_eq hcrc, client_crc_eq hcrc, hblock, hblock']
  intro heq
  apply feeds_ne_of_burst CRC_POLY htop hlength hle hne 0xFFFFFFFF#32 before behind
  simpa using BitVec.eq_of_toNat_eq heq

/-- A burst keeps the length of a block. -/
theorem Burst.length_eq {block block' : Bytes} (h : Burst block block') :
    block.length = block'.length := by
  obtain ⟨before, window, window', behind, hblock, hblock', hlength, -, -⟩ := h
  have hbits := congrArg List.length hblock
  have hbits' := congrArg List.length hblock'
  simp only [length_stream, List.length_append] at hbits hbits'
  omega

/-! ## Packets on their way -/

/-- A data packet and what arrives of it: the header as it was sent, and the block, which a
burst may have damaged. -/
def Carried (packet packet' : Bytes) : Prop :=
  packet'.take 28 = packet.take 28 ∧
    (blockOf packet' = blockOf packet ∨ Burst (blockOf packet) (blockOf packet'))

section Reading

variable {crc_32 : Bytes → UInt32}
variable {chunk : Chunk} {offset size length pos : ℕ} {input input' buff buff' : Buffer}
variable {socket_ ret : ℤ} {t : Trace NetCall NetCall.Answer}
variable {packet packet' : Bytes}

/-- A packet that was carried has a block of the same length. -/
theorem Carried.blockOf_length (h : Carried packet packet') :
    (blockOf packet').length = (blockOf packet).length := by
  obtain ⟨-, heq | hburst⟩ := h
  · rw [heq]
  · exact hburst.length_eq.symm

/-- What a carried packet is made of: the header that was sent, in its two parts. -/
theorem Carried.parts (h : Carried packet packet')
    (hpacket : IsDataPacket crc_32 chunk offset packet) :
    ∃ front body, front.length = 8 ∧ body.length = 20 ∧
      packet = front ++ (body ++ blockOf packet) ∧ packet' = front ++ (body ++ blockOf packet') ∧
      get32bit (memory front) 0 = CSTOCU_READ_DATA ∧
      get32bit (memory body) 12 = (blockOf packet).length ∧
      get32bit (memory body) 16 = mycrc32 crc_32 (blockOf packet) := by
  have hlength := hpacket.length
  have hfront : (packet.take 8).length = 8 := by
    rw [List.length_take]
    omega
  have hbody : ((packet.drop 8).take 20).length = 20 := by
    rw [List.length_take, List.length_drop]
    omega
  have hhead : packet.take 28 = packet.take 8 ++ (packet.drop 8).take 20 :=
    List.take_add (i := 8) (j := 20)
  have hsplit : packet = packet.take 8 ++ ((packet.drop 8).take 20 ++ blockOf packet) := by
    rw [← List.append_assoc, ← hhead]
    exact (List.take_append_drop 28 packet).symm
  have hsplit' : packet' = packet.take 8 ++ ((packet.drop 8).take 20 ++ blockOf packet') := by
    rw [← List.append_assoc, ← hhead, ← h.1]
    exact (List.take_append_drop 28 packet').symm
  generalize packet.take 8 = front at hfront hsplit hsplit'
  generalize (packet.drop 8).take 20 = body at hbody hsplit hsplit'
  have hbehind : ∀ a i, a + i < 20 → memory packet (8 + a + i) = memory body (a + i) := by
    intro a i hi
    conv_lhs => rw [hsplit]
    rw [Nat.add_assoc, ← hfront, memory_append_right, memory_append_left (by omega)]
  refine ⟨front, body, hfront, hbody, hsplit, hsplit', ?_, ?_, ?_⟩
  · rw [← hpacket.cmd]
    refine get32bit_congr fun i hi => ?_
    conv_rhs => rw [hsplit]
    exact (memory_append_left (by omega)).symm
  · exact (get32bit_congr fun i hi => (hbehind 12 i (by omega)).symm).trans hpacket.blocksize
  · exact (get32bit_congr fun i hi => (hbehind 16 i (by omega)).symm).trans hpacket.blockcrc

/-- A packet that is taken has come as it was sent. -/
theorem carried_taken {n : ℕ} {body rest : Bytes} (his : IsCrc32 crc_32)
    (hcarried : Carried packet packet') (hbody : body.length = 20)
    (hsize : get32bit (memory body) 12 = (blockOf packet).length)
    (hcrc : get32bit (memory body) 16 = mycrc32 crc_32 (blockOf packet))
    (hreceived : received socket_ t <+: body ++ (blockOf packet' ++ rest))
    (h : (ChunkServer.readData crc_32 socket_ chunk length offset size input buff pos).Runs
      t (some n, input', buff')) :
    blockOf packet' = blockOf packet ∧ n = (blockOf packet).length ∧
      n ≤ size ∧ received socket_ t = body ++ blockOf packet ∧
      buff' = buff.store pos (blockOf packet) := by
  obtain ⟨-, hstored⟩ := readData_runs h
  obtain ⟨body', data, hsum, haccepts, rfl, rfl⟩ := hstored n rfl
  rw [hsum] at hreceived
  obtain ⟨behind, hbehind⟩ := hreceived
  rw [List.append_assoc] at hbehind
  obtain ⟨rfl, hdata⟩ := List.append_inj hbehind (haccepts.length.trans hbody.symm)
  have hlength : data.length = (blockOf packet').length := by
    rw [hcarried.blockOf_length, ← hsize]
    exact haccepts.blocksize.symm
  obtain ⟨rfl, -⟩ := List.append_inj hdata hlength
  have hsame : blockOf packet' = blockOf packet := by
    obtain ⟨-, heq | hburst⟩ := hcarried
    · exact heq
    · exact absurd (hcrc.symm.trans haccepts.blockcrc) (mycrc32_ne_of_burst his hburst)
  rw [hsame] at haccepts hsum ⊢
  exact ⟨rfl, rfl, haccepts.le, hsum, rfl⟩

/-- Packet for packet, what is taken is what was sent. -/
theorem readBlockLoop_carried {rounds : ℕ} {packets packets' : List Bytes} {status : Bytes}
    (his : IsCrc32 crc_32) (hrange : offset + size < 2 ^ 32)
    (hpackets : Consecutive crc_32 chunk offset packets)
    (hcarried : List.Forall₂ Carried packets packets') (hstatus : IsStatusPacket chunk status)
    (hreceived : received socket_ t <+: packets'.flatten ++ status)
    (h : (ChunkServer.readBlockLoop crc_32 socket_ chunk rounds offset size input buff pos).Runs t
      (ret, buff')) (hret : ret = STATUS_OK) :
    packets' = packets ∧ buff' = buff.store pos (packets.flatMap blockOf) := by
  induction rounds generalizing offset size input buff pos t packets packets' with
  | zero =>
      obtain ⟨answer, -⟩ := h
      cases answer
  | succ rounds ih =>
      obtain ⟨behind, hbehind⟩ := hreceived
      cases hcarried with
      | nil =>
          -- only the status is left
          have hfront : ∀ {t₁ t₂ : Trace NetCall NetCall.Answer},
              received socket_ (t₁ ++ t₂) ++ behind = status →
                (received socket_ t₁).length = 8 →
                get32bit (memory (received socket_ t₁)) 0 = CSTOCU_READ_STATUS := by
            intro t₁ t₂ hsum hlen
            rw [← hstatus.cmd]
            refine get32bit_congr fun i hi => ?_
            rw [← hsum, received_append, List.append_assoc, memory_append_left (by omega)]
          cases readBlockLoop_round h with
          | failed => cases hret
          | status => exact ⟨rfl, rfl⟩
          | refused => cases hret
          | taken hlen hcmd => exact absurd (hcmd.symm.trans (hfront hbehind hlen)) (by decide)
          | passed hlen hother => exact absurd (hfront hbehind hlen) hother
      | @cons packet packet' packets packets' hpacket' hrest' =>
          obtain ⟨hpacket, hconsecutive⟩ := hpackets
          obtain ⟨front, body, hfront, hbody, hsent, harrives, hcmd, hsize, hcrc⟩ :=
            hpacket'.parts hpacket
          rw [List.flatten_cons, harrives] at hbehind
          simp only [List.append_assoc] at hbehind
          -- the header that is read is that of the packet
          have hheader : ∀ {t₁ t₂ : Trace NetCall NetCall.Answer},
              received socket_ (t₁ ++ t₂) ++ behind =
                  front ++ (body ++ (blockOf packet' ++ (packets'.flatten ++ status))) →
                (received socket_ t₁).length = 8 → received socket_ t₁ = front ∧
                received socket_ t₂ ++ behind =
                  body ++ (blockOf packet' ++ (packets'.flatten ++ status)) := by
            intro t₁ t₂ hsum hlen
            rw [received_append, List.append_assoc] at hsum
            exact List.append_inj hsum (hlen.trans hfront.symm)
          cases readBlockLoop_round h with
          | failed => cases hret
          | status hlen hstatus' =>
              rw [(hheader hbehind hlen).1, hcmd] at hstatus'
              exact absurd hstatus' (by decide)
          | refused => cases hret
          | passed hlen _ hdata =>
              rw [(hheader hbehind hlen).1] at hdata
              exact absurd hcmd hdata
          | @taken t₁ t₂ t₃ _ _ _ _ n _ hlen _ hdata hrest =>
              obtain ⟨-, hleft⟩ := hheader hbehind hlen
              rw [received_append, List.append_assoc] at hleft
              obtain ⟨hsame, rfl, hfits, htaken, rfl⟩ :=
                carried_taken his hpacket' hbody hsize hcrc ⟨_, hleft⟩ hdata
              rw [htaken, hsame] at hleft
              simp only [List.append_assoc, List.append_cancel_left_eq] at hleft
              have hwrap : (offset + (blockOf packet).length) % 2 ^ 32 =
                  offset + (blockOf packet).length := Nat.mod_eq_of_lt (by omega)
              rw [hwrap] at hrest
              obtain ⟨rfl, rfl⟩ := ih (by omega) hconsecutive hrest' ⟨_, hleft⟩ hrest
              refine ⟨?_, Buffer.store_store _ _ _ _⟩
              rw [harrives, hsame, ← hsent]

end Reading

/-- **No burst gets through.** A chunk server sends consecutive data packets and the status; on
the way a burst of errors, up to 32 bits long, may damage the block of each packet. However
the reads divide what arrives, `ReadBlock` succeeds only when no block was damaged, and then
it has stored what was sent.
SOURCE: moose.cc:1001-1146 -/
theorem bursts_refused {crc_32 : Bytes → UInt32} {cs : ChunkServer} {chunk : Chunk}
    {offset size rounds pos : ℕ}
    {packets packets' : List Bytes} {status : Bytes} {ret : ℤ} {buff buff' : Buffer}
    {t : Trace NetCall NetCall.Answer} (hcrc : IsCrc32 crc_32) (hrange : offset + size < 2 ^ 32)
    (hpackets : Consecutive crc_32 chunk offset packets)
    (hcarried : List.Forall₂ Carried packets packets') (hstatus : IsStatusPacket chunk status)
    (hreceived : received cs.socket_ t <+: packets'.flatten ++ status)
    (h : (cs.readBlock crc_32 rounds chunk offset size buff pos).Runs t (ret, buff')) :
    (packets' ≠ packets → ret ≠ STATUS_OK) ∧
      (ret = STATUS_OK → buff' = buff.store pos (packets.flatMap blockOf)) := by
  have hdone : ret = STATUS_OK →
      packets' = packets ∧ buff' = buff.store pos (packets.flatMap blockOf) := by
    intro hret
    obtain ⟨rfl, -⟩ | ⟨t₁, t₂, input, rfl, hnothing, hloop⟩ := readBlock_loop h
    · cases hret
    · rw [received_append, hnothing] at hreceived
      exact readBlockLoop_carried hcrc hrange hpackets hcarried hstatus hreceived hloop hret
  exact ⟨fun hdamaged hret => hdamaged (hdone hret).1, fun hret => (hdone hret).2⟩

/-- What a read of two bytes receives when the second one has been damaged. -/
def damagedBlocks : Trace NetCall NetCall.Answer :=
  rangeAsked 65535 2 ++ (bytePacket 0 0 65535 97 97 ++ bytePacket 1 1 0 98 99)

/-- The example's first block arrives whole and the second damaged. -/
theorem damagedBlocks_runs :
    (ChunkServer.readBlock bitwiseCrc 80 ⟨1, 4, 0, 0⟩ {} 65535 2 {} 0).Runs damagedBlocks
      (-1, ⟨[97, 99], 0⟩) := by
  iterate 8 refine ⟨_, _, rfl, ?_⟩
  exact ⟨rfl, rfl⟩

/-- A packet that brings one byte of the chunk, sent with the checksum of `sent`. -/
def onePacket (blockno blockoffset : ℕ) (sent byte : UInt8) : Bytes :=
  put32bit CSTOCU_READ_DATA ++ put32bit 21 ++ (put64bit 0 ++ put16bit blockno ++
    put16bit blockoffset ++ put32bit 1 ++ put32bit (mycrc32 bitwiseCrc [sent])) ++ [byte]

def zeroStatus : Bytes := [0, 0, 0, 201, 0, 0, 0, 9, 0, 0, 0, 0, 0, 0, 0, 0, 0]

/-- The packets as they are sent. -/
def sentPackets : List Bytes := [onePacket 0 65535 97 97, onePacket 1 0 98 98]

/-- The packets of the example are consecutive. -/
theorem consecutive_sentPackets : Consecutive bitwiseCrc {} 65535 sentPackets := by
  refine ⟨?_, ?_, trivial⟩
  all_goals
    constructor
    · constructor
      · decide
      all_goals rfl
    · rfl
    · decide
    · decide

/-- A status of zero is a status packet. -/
theorem isStatusPacket_zeroStatus : IsStatusPacket {} zeroStatus := by
  constructor <;> rfl

/-- The lowest bit of the byte has been turned over. -/
theorem carried_onePacket : Carried (onePacket 1 0 98 98) (onePacket 1 0 98 99) :=
  ⟨rfl, .inr ⟨[], [false], [true], [true, false, false, false, true, true, false],
    by decide, by decide, rfl, by decide, by decide⟩⟩

/-- Two packets of which the second one has been damaged, and the same two as they were sent.
SOURCE: moose.cc:1001-1146 -/
theorem bursts_refused_twoBlocks :
    (-1 : ℤ) ≠ STATUS_OK ∧ (⟨[97, 98], 0⟩ : Buffer) = Buffer.store {} 0 [97, 98] :=
  ⟨(bursts_refused (fun _ => rfl) (by norm_num) consecutive_sentPackets
      (.cons ⟨rfl, .inl rfl⟩ (.cons carried_onePacket .nil))
      isStatusPacket_zeroStatus ⟨zeroStatus, rfl⟩ damagedBlocks_runs).1 (by decide),
    (bursts_refused (fun _ => rfl) (by norm_num) consecutive_sentPackets
      (.cons ⟨rfl, .inl rfl⟩ (.cons ⟨rfl, .inl rfl⟩ .nil))
      isStatusPacket_zeroStatus ⟨[], rfl⟩ twoBlocks_runs).2 rfl⟩

end Moose

end BundleStore
