import BundleStore.Analysis.ReadDelivered

set_option autoImplicit false

/-!
# What a read asks the chunk servers for

The size of a request is computed from the length of the file that the master has
told for this chunk. The length is compared with where the read has begun, not with
where it has come to: a file that has shrunk in between makes the size wrap around.

SOURCE: src/mooseclient/moose.cc:1442-1529
-/

namespace BundleStore

namespace Moose

open Machine Prog

/-! ## What the calls of a read have come to -/

/-- The end of the range, the chunk asked for last, the size of the last `ReadBlock`
request, the bytes of `buf` behind the read, and whether a reply has told a length
that ends in what has been read. -/
structure Reading where
  rounds : ℕ
  end_ : ℕ
  index : ℕ := 0
  size : ℕ := 0
  filled : ℕ := 0
  shrunk : Prop := False

/-- The offset and the size in the bytes of a request. -/
def requestOffset (data : Bytes) : ℕ := get32bit (memory data) 20
def requestSize (data : Bytes) : ℕ := get32bit (memory data) 24

/-- What the answer to a call changes. A server that is given back has served its
chunk. -/
def Reading.step (stale : ℕ → ℕ) (file : File) : (o : FileCall) → o.Answer → Reading → Reading
  | .master (.send (.readChunk _ indx)), answer, s =>
      match (answer : Option Reply) with
      | some reply =>
          let told := toldLength (stale (s.rounds - 1)) reply
          { s with
            rounds := s.rounds - 1
            end_ := min s.end_ told
            index := indx
            shrunk := s.shrunk ∨ (file.position_ ≤ told ∧ told < indx * 2 ^ 26) }
      | none => s
  | .net (.write _ data), _, s => { s with size := requestSize data }
  | .giveBack _ _, _, s => { s with filled := s.filled + s.size }
  | _, _, s => s

/-- The request is for what is left of the range in the chunk, computed without
underflow; it fits into the chunk and into what is left of `buf`. -/
structure FitsBuffer (file : File) (count : ℕ) (s : Reading) (data : Bytes) : Prop where
  offset_eq : s.index * 2 ^ 26 + requestOffset data = file.position_ + s.filled
  size_eq : file.position_ + s.filled + requestSize data = min s.end_ ((s.index + 1) * 2 ^ 26)
  in_chunk : requestOffset data + requestSize data ≤ 2 ^ 26
  in_buf : s.filled + requestSize data ≤ count

/-- The end of the last chunk is not a product of an `int`; the range ends before. -/
def BeforeLast (s : Reading) : Prop := s.index + 1 = 2 ^ 31 → s.end_ ≤ 2 ^ 57

/-- A test of the calls that are requests for data. -/
def OnRequests (P : Reading → Bytes → Prop) (o : FileCall) (s : Reading) : Prop :=
  match o with
  | .net (.write _ data) => P s data
  | _ => True

/-- Allows the requests that fit. -/
def requests (stale : ℕ → ℕ) (file : File) (count : ℕ) :
    Monitor FileCall FileCall.Answer Reading where
  step o a s := s.step stale file o a
  Allows := OnRequests fun s data => BeforeLast s ∧ FitsBuffer file count s data

/-- No reply has told a length that ends in what has been read, and the end of the range
is a number of 64 bits. -/
def Steady (file : File) (count : ℕ) : FileCall → Reading → Prop :=
  OnRequests fun s _ => BeforeLast s ∧ ¬ s.shrunk ∧ file.position_ + count < 2 ^ 64

/-- The start of a read. -/
def Reading.start (rounds : ℕ) (file : File) (count : ℕ) : Reading where
  rounds := rounds
  end_ := uint64 (file.position_ + count)

/-! ## Calls that are not requests -/

/-- A call on a connection that reads, or gets memory. -/
def ReadsOnly (o : NetCall) : Prop := ∀ fd data, o ≠ .write fd data

section Calls

variable {crc_32 : Bytes → UInt32}
variable {buf input buff : Buffer} {fd : ℤ} {pos leng : ℕ}

/-- `Alloca` only reads. -/
theorem alloca_readsOnly (len : ℕ) : (buf.alloca len).Calls ReadsOnly := by
  unfold Buffer.alloca
  apply Calls.ite
  · exact ⟨by rintro fd data ⟨⟩, fun _ => trivial⟩
  · trivial

/-- The loop of `tcptoread` only reads. -/
theorem tcptoreadLoop_readsOnly (rounds rcvd : ℕ) :
    (tcptoreadLoop fd pos leng rounds rcvd buf).Calls ReadsOnly := by
  induction rounds generalizing rcvd buf with
  | zero => trivial
  | succ rounds ih =>
      unfold tcptoreadLoop
      apply Calls.ite
      · refine ⟨by rintro fd data ⟨⟩, fun i => ?_⟩
        apply Calls.ite
        · trivial
        · exact ih _
      · trivial

/-- `tcptoread` only reads. -/
theorem tcptoread_readsOnly : (tcptoread fd buf pos leng).Calls ReadsOnly :=
  tcptoreadLoop_readsOnly leng 0

/-- The reading of a status only reads.
SOURCE: moose.cc:1034-1058 -/
theorem readStatus_readsOnly (chunk : Chunk) (length size : ℕ) :
    (ChunkServer.readStatus fd chunk length size input).Calls ReadsOnly := by
  unfold ChunkServer.readStatus
  apply Calls.ite
  · trivial
  · apply Calls.bind tcptoread_readsOnly
    rintro ⟨ret, input⟩
    apply Calls.ite (.pure _)
    apply Calls.ite (.pure _)
    apply Calls.ite (.pure _)
    apply Calls.ite (.pure _)
    trivial

/-- The reading of a block only reads.
SOURCE: moose.cc:1059-1142 -/
theorem readData_readsOnly (chunk : Chunk) (length offset size : ℕ) :
    (ChunkServer.readData crc_32 fd chunk length offset size input buff pos).Calls ReadsOnly := by
  unfold ChunkServer.readData
  apply Calls.ite
  · trivial
  · apply Calls.bind (alloca_readsOnly 20)
    intro input
    apply Calls.bind tcptoread_readsOnly
    rintro ⟨ret, input⟩
    apply Calls.ite (.pure _)
    apply Calls.ite
    · apply Calls.bind tcptoread_readsOnly
      rintro ⟨readed, buff⟩
      apply Calls.ite (.pure _)
      apply Calls.ite (.pure _)
      trivial
    · trivial

/-- Behind its request, `ReadBlock` reads. -/
theorem readBlockLoop_readsOnly (chunk : Chunk) (rounds offset size : ℕ) :
    (ChunkServer.readBlockLoop crc_32 fd chunk rounds offset size input buff pos).Calls
      ReadsOnly := by
  induction rounds generalizing offset size input buff pos with
  | zero => exact ⟨by rintro fd data ⟨⟩, fun x => x.elim⟩
  | succ rounds ih =>
      unfold ChunkServer.readBlockLoop
      apply Calls.bind tcptoread_readsOnly
      rintro ⟨ret, input⟩
      apply Calls.ite (.pure _)
      apply Calls.ite
      · exact (readStatus_readsOnly chunk _ size).bind fun _ => trivial
      · apply Calls.ite
        · apply Calls.bind (readData_readsOnly chunk _ offset size)
          rintro ⟨block, input, buff⟩
          cases block with
          | none => trivial
          | some blocksize => exact ih _ _
        · exact ih _ _

end Calls

/-- A call that is neither a request nor the end of one. -/
def Silent : FileCall → Prop
  | .master (.send (.readChunk _ _)) => False
  | .net (.write _ _) => False
  | .giveBack _ _ => False
  | _ => True

/-- The search for a server sends nothing.
SOURCE: moose.cc:1482-1491 -/
theorem findServer_silent (locations : List Location) :
    (File.findServer locations).Calls Silent := by
  induction locations with
  | nil => trivial
  | cons loc rest ih =>
      refine ⟨trivial, fun answer => ?_⟩
      cases answer with
      | some cs => trivial
      | none => exact ih

/-- Calls that only read send no request. -/
theorem onNet_silent {α : Type} {p : Net α} (h : p.Calls ReadsOnly) : (onNet p).Calls Silent := by
  refine calls_embed (h.mono fun o ho => ?_)
  cases o with
  | write fd data => exact ho fd data rfl
  | _ => trivial

section Requests

variable {crc_32 : Bytes → UInt32}
variable {stale : ℕ → ℕ} {file : File} {count : ℕ} {s : Reading}

/-- Silent calls are no requests, and what the calls have come to stays. -/
theorem silent_agrees {α : Type} {p : Client α} (h : p.Calls Silent) :
    (requests stale file count).Agrees (Steady file count) (fun _ s' => s' = s) p s := by
  refine Monitor.Agrees.of_calls h ?_ ?_ ?_
  · intro o ho
    cases o with
    | net o =>
        cases o with
        | write => exact ho.elim
        | _ => trivial
    | _ => trivial
  · intro o ho
    cases o with
    | net o =>
        cases o with
        | write => exact ho.elim
        | _ => trivial
    | _ => trivial
  · intro o x ho
    cases o with
    | net o =>
        cases o with
        | write => exact ho.elim
        | _ => rfl
    | master o =>
        cases o with
        | send request =>
            cases request with
            | readChunk => exact ho.elim
            | _ => rfl
        | disconnect => rfl
    | giveBack => exact ho.elim
    | _ => rfl

/-- A silent call agrees with every plan. -/
theorem silent_call_agrees {α : Type} {Q : α → Reading → Prop} {o : FileCall}
    {k : o.Answer → Client α} (ho : Silent o)
    (hk : ∀ x, (requests stale file count).Agrees (Steady file count) Q (k x) s) :
    (requests stale file count).Agrees (Steady file count) Q (Prog.call o k) s := by
  have hop : (Prog.op o : Client o.Answer).Calls Silent := ⟨ho, fun _ => trivial⟩
  refine (silent_agrees hop).bind (f := k) ?_
  rintro x s' rfl
  exact hk x

/-- Asking for a chunk stores what the reply tells. -/
theorem readChunk_agrees (inode indx : ℕ) :
    (requests stale file count).Agrees (Steady file count)
      (fun r s' => r.1 = STATUS_OK → ∃ reply,
        s' = s.step stale file (.master (.send (.readChunk inode indx))) (some reply) ∧
          (∀ stale, r.2.file_length.getD stale = toldLength stale reply) ∧
            r.2.chunk.getD {} = toldChunk reply)
      (onMaster (MasterServer.readChunk inode indx true true)) s := by
  refine ⟨iff_of_true trivial trivial, fun _ answer => ?_⟩
  cases answer with
  | none => exact fun hok => absurd hok (by decide)
  | some reply =>
      change Monitor.Agrees _ _ _ (embed _ _ (if reply.length = 1 then _ else _)) _
      by_cases hone : reply.length = 1
      · rw [if_pos hone]
        intro _
        refine ⟨reply, rfl, ?_, ?_⟩
        · intro stale
          rw [toldLength, if_pos hone]
          rfl
        · rw [toldChunk, if_pos hone]
          rfl
      · rw [if_neg hone]
        intro _
        refine ⟨reply, rfl, ?_, ?_⟩
        · intro stale
          rw [toldLength, if_neg hone]
          rfl
        · rw [toldChunk, if_neg hone]
          rfl

/-- The offset of a request.
SOURCE: moose.cc:1010 -/
theorem requestOffset_readRequest (chunk : Chunk) {offset : ℕ} (size : ℕ) (h : offset < 2 ^ 32) :
    requestOffset (ChunkServer.readRequest chunk offset size) = offset := by
  simp [requestOffset, ChunkServer.readRequest, memory, get32bit, get8bit, put32bit, put64bit]
  omega

/-- The size of a request.
SOURCE: moose.cc:1011 -/
theorem requestSize_readRequest (chunk : Chunk) (offset : ℕ) {size : ℕ} (h : size < 2 ^ 32) :
    requestSize (ChunkServer.readRequest chunk offset size) = size := by
  simp [requestSize, ChunkServer.readRequest, memory, get32bit, get8bit, put32bit, put64bit]
  omega

/-- `ReadBlock` makes its request, and then reads. -/
theorem readBlock_agrees (cs : ChunkServer) (chunk : Chunk) (rounds offset size : ℕ) (buf : Buffer)
    (pos : ℕ)
    (h : (BeforeLast s ∧ FitsBuffer file count s (ChunkServer.readRequest chunk offset size)) ↔
      BeforeLast s ∧ ¬ s.shrunk ∧ file.position_ + count < 2 ^ 64) :
    (requests stale file count).Agrees (Steady file count)
      (fun _ s' => (BeforeLast s ∧
          FitsBuffer file count s (ChunkServer.readRequest chunk offset size)) ∧
        s' = { s with size := requestSize (ChunkServer.readRequest chunk offset size) })
      (onNet (cs.readBlock crc_32 rounds chunk offset size buf pos)) s := by
  refine ⟨h, fun hallows ret => ?_⟩
  have hrest : ((if ret ≠ 28 then pure ( ERROR_IO, buf)
      else do
        let input ← Buffer.alloca {} 20
        ChunkServer.readBlockLoop crc_32 cs.socket_ chunk rounds offset size input buf pos :
      Net (ℤ × Buffer))).Calls ReadsOnly := by
    apply Calls.ite (.pure _)
    exact (alloca_readsOnly 20).bind fun input => readBlockLoop_readsOnly chunk rounds offset size
  exact (silent_agrees (onNet_silent hrest)).mono fun r s' hs' => ⟨hallows, hs'⟩

/-- Where the loop over the chunks is. -/
structure AtChunk (file : File) (count : ℕ) (s : Reading) (rounds end_ write_position : ℕ)
    (chunk_index : ℤ) : Prop where
  rounds_eq : s.rounds = rounds
  end_eq : s.end_ = end_
  end_lt : end_ < 2 ^ 64
  end_le : end_ ≤ file.position_ + count
  position_eq : write_position = file.position_ + s.filled
  position_lt : write_position < 2 ^ 57
  index_eq : chunk_index = (write_position / 2 ^ 26 : ℕ)
  /-- the first chunk, or the start of another one -/
  start : s.filled = 0 ∨ write_position % 2 ^ 26 = 0
  steady : (¬ s.shrunk ∧ file.position_ + count < 2 ^ 64) ↔ write_position ≤ end_

variable {rounds end_ write_position : ℕ} {chunk_index : ℤ}

/-- A reply that does not end before the read has begun. -/
theorem AtChunk.told {reply : Reply} (inode : ℕ)
    (h : AtChunk file count s (rounds + 1) end_ write_position chunk_index)
    (htold : file.position_ ≤ toldLength (stale rounds) reply) :
    AtChunk file count (s.step stale file
        (.master (.send (.readChunk inode (uint32 chunk_index)))) (some reply)) rounds
      (min end_ (toldLength (stale rounds) reply)) write_position chunk_index ∧
    (s.step stale file (.master (.send (.readChunk inode (uint32 chunk_index))))
      (some reply)).index = write_position / 2 ^ 26 := by
  obtain ⟨hrounds, hend, hlt, hle, hposition, hbelow, hindex, hstart, hsteady⟩ := h
  have hround : s.rounds - 1 = rounds := by omega
  have huint : uint32 chunk_index = write_position / 2 ^ 26 := by
    rw [hindex]
    exact uint32_natCast (by omega)
  simp only [Reading.step, hround, huint, hend]
  generalize toldLength (stale rounds) reply = told at *
  refine ⟨⟨rfl, rfl, by omega, by omega, hposition, hbelow, hindex, hstart, ?_⟩, trivial⟩
  have hshrunk : (file.position_ ≤ told ∧ told < write_position / 2 ^ 26 * 2 ^ 26) ↔
      told < write_position := by
    obtain hzero | hmod := hstart <;> omega
  simp only [not_or, hshrunk]
  rw [and_right_comm, hsteady]
  omega

/-- The size of the request, where the chunk ends by a product that does not overflow
or is not needed. -/
theorem AtChunk.size (h : AtChunk file count s rounds end_ write_position chunk_index)
    (hindex : s.index = write_position / 2 ^ 26) (hlast : BeforeLast s)
    (hle : write_position ≤ end_) :
    write_position + File.chunkSize end_ write_position chunk_index =
      min end_ ((s.index + 1) * 2 ^ 26) := by
  have hbelow := h.position_lt
  have hend : s.end_ = end_ := h.end_eq
  rw [BeforeLast, hend, hindex] at hlast
  rw [h.index_eq, hindex]
  obtain hinner | hequal := lt_or_ge (write_position / 2 ^ 26 + 1) (2 ^ 31)
  · have hchunk := chunkEnd_of_lt hinner
    rw [chunkSize_of_le h.end_lt (by omega), hchunk]
    omega
  · have hmax : write_position / 2 ^ 26 = 2 ^ 31 - 1 := by omega
    have hchunk := chunkEnd_last
    rw [← hmax] at hchunk
    have hend := hlast (by omega)
    rw [chunkSize_of_le h.end_lt (by omega), hchunk]
    omega

/-- A request fits exactly when the range does not end before it. -/
theorem AtChunk.fits_iff (h : AtChunk file count s rounds end_ write_position chunk_index)
    (hindex : s.index = write_position / 2 ^ 26) (hlast : BeforeLast s) (chunk : Chunk) :
    FitsBuffer file count s (ChunkServer.readRequest chunk
        (uint32 (File.chunkOffset write_position chunk_index))
        (uint32 (File.chunkSize end_ write_position chunk_index))) ↔
      write_position ≤ end_ := by
  have hposition := h.position_eq
  have hend := h.end_eq
  have hoffset : uint32 (File.chunkOffset write_position chunk_index) =
      write_position % 2 ^ 26 := by
    rw [h.index_eq]
    exact uint32_chunkOffset
  constructor
  · intro hfits
    have hsize := hfits.size_eq
    rw [hend] at hsize
    omega
  · intro hle
    have hsize := h.size hindex hlast hle
    have hlt : File.chunkSize end_ write_position chunk_index < 2 ^ 32 := by omega
    have huint : uint32 (File.chunkSize end_ write_position chunk_index) =
        File.chunkSize end_ write_position chunk_index := uint32_natCast hlt
    have hcount := h.end_le
    rw [hoffset, huint]
    refine ⟨?_, ?_, ?_, ?_⟩
    · rw [requestOffset_readRequest chunk _ (by omega)]
      omega
    · rw [requestSize_readRequest chunk _ hlt, hend]
      omega
    · rw [requestOffset_readRequest chunk _ (by omega), requestSize_readRequest chunk _ hlt]
      omega
    · rw [requestSize_readRequest chunk _ hlt]
      omega

/-- Behind a chunk that was asked for, where more is left, comes the start of the next
one. -/
theorem AtChunk.next (h : AtChunk file count s rounds end_ write_position chunk_index)
    (hindex : s.index = write_position / 2 ^ 26) (hlast : BeforeLast s)
    (hle : write_position ≤ end_) {chunk : Chunk}
    (hmore : uint64 (write_position + File.chunkSize end_ write_position chunk_index) < end_) :
    AtChunk file count
      { s with
        size := requestSize (ChunkServer.readRequest chunk
          (uint32 (File.chunkOffset write_position chunk_index))
          (uint32 (File.chunkSize end_ write_position chunk_index)))
        filled := s.filled + requestSize (ChunkServer.readRequest chunk
          (uint32 (File.chunkOffset write_position chunk_index))
          (uint32 (File.chunkSize end_ write_position chunk_index))) }
      rounds end_ (uint64 (write_position + File.chunkSize end_ write_position chunk_index))
      (int32 (chunk_index + 1)) := by
  have hfits := (h.fits_iff hindex hlast chunk).mpr hle
  have hsize := h.size hindex hlast hle
  have hposition := h.position_eq
  have hbelow := h.position_lt
  have hsteady := h.steady.mpr hle
  have hlt := h.end_lt
  have hfitsSize := hfits.size_eq
  rw [h.end_eq, ← hposition] at hfitsSize
  rw [BeforeLast, h.end_eq] at hlast
  have hnext : uint64 (write_position + File.chunkSize end_ write_position chunk_index) =
      write_position + File.chunkSize end_ write_position chunk_index := by
    have hcast : ((write_position : ℤ) + (File.chunkSize end_ write_position chunk_index : ℕ)) =
        ((write_position + File.chunkSize end_ write_position chunk_index : ℕ) : ℤ) := by
      push_cast
      rfl
    rw [hcast]
    exact uint64_natCast (by omega)
  rw [hnext] at hmore ⊢
  have hinner : s.index + 1 < 2 ^ 31 := by
    by_contra hnot
    have hend := hlast (by omega)
    omega
  have hindexNext : int32 (chunk_index + 1) = ((s.index + 1 : ℕ) : ℤ) := by
    rw [h.index_eq, ← hindex]
    exact_mod_cast int32_natCast hinner
  refine ⟨h.rounds_eq, h.end_eq, hlt, h.end_le, ?_, by omega, ?_, .inr (by omega), ?_⟩
  · dsimp only
    omega
  · rw [hindexNext]
    congr 1
    omega
  · exact iff_of_true hsteady (by omega)

/-- As long as the requests fit, no reply has told that the file has shrunk, and the
other way round. -/
theorem readLoop_agrees {buf : Buffer} {pos : ℕ}
    (h : AtChunk file count s rounds end_ write_position chunk_index) :
    (requests stale file count).Agrees (Steady file count) (fun _ _ => True)
      (File.readLoop crc_32 stale file rounds end_ write_position chunk_index buf pos) s := by
  induction rounds generalizing end_ write_position chunk_index buf pos s with
  | zero => exact ⟨iff_of_true trivial trivial, fun _ x => x.elim⟩
  | succ rounds ih =>
      unfold File.readLoop
      apply Monitor.Agrees.bind (readChunk_agrees file.inode_ (uint32 chunk_index))
      rintro ⟨status, out⟩ s' hok
      apply Monitor.Agrees.ite
      · exact fun _ => trivial
      intro hstatus
      obtain ⟨reply, rfl, hlength, hchunk⟩ := hok (not_not.mp hstatus)
      simp only [hlength, hchunk]
      apply Monitor.Agrees.ite
      · exact fun _ => trivial
      intro htold
      obtain ⟨hat, hindex⟩ := h.told file.inode_ (not_lt.mp htold)
      generalize s.step stale file (.master (.send (.readChunk file.inode_ (uint32 chunk_index))))
        (some reply) = s₁ at hat hindex ⊢
      generalize min end_ (toldLength (stale rounds) reply) = e at hat ⊢
      apply Monitor.Agrees.ite
      · -- no location
        intro _
        refine silent_call_agrees trivial fun elapsed => ?_
        apply Monitor.Agrees.ite
        · exact fun _ => silent_call_agrees trivial fun _ => ih hat
        · exact fun _ => trivial
      intro _
      apply Monitor.Agrees.bind (silent_agrees (findServer_silent _))
      rintro server s₂ rfl
      cases server with
      | none => trivial
      | some cs =>
          have hiff : (BeforeLast s₂ ∧ FitsBuffer file count s₂
              (ChunkServer.readRequest (toldChunk reply)
                (uint32 (File.chunkOffset write_position chunk_index))
                (uint32 (File.chunkSize e write_position chunk_index)))) ↔
              BeforeLast s₂ ∧ ¬ s₂.shrunk ∧ file.position_ + count < 2 ^ 64 := by
            rw [hat.steady]
            exact and_congr_right fun hlast => hat.fits_iff hindex hlast _
          apply Monitor.Agrees.bind (readBlock_agrees cs (toldChunk reply) rounds _ _ buf pos hiff)
          rintro ⟨ret, buf'⟩ s₃ ⟨⟨hlast, hfits⟩, rfl⟩
          have hle := (hat.fits_iff hindex hlast _).mp hfits
          have hagain : AtChunk file count { s₂ with
              size := requestSize (ChunkServer.readRequest (toldChunk reply)
                (uint32 (File.chunkOffset write_position chunk_index))
                (uint32 (File.chunkSize e write_position chunk_index))) }
              rounds e write_position chunk_index :=
            ⟨hat.rounds_eq, hat.end_eq, hat.end_lt, hat.end_le, hat.position_eq, hat.position_lt,
              hat.index_eq, hat.start, hat.steady⟩
          have hnext : ∀ buf' : Buffer, (requests stale file count).Agrees (Steady file count)
              (fun _ _ => True) (do
                Prog.op (FileCall.giveBack cs true)
                let write_position' := uint64 (write_position +
                  File.chunkSize e write_position chunk_index)
                if e ≤ write_position' then pure (some write_position', buf')
                else
                  File.readLoop crc_32 stale file rounds e write_position' (int32 (chunk_index + 1))
                    buf'
                    (pos + File.chunkSize e write_position chunk_index) :
                Client (Option ℕ × Buffer)) { s₂ with
              size := requestSize (ChunkServer.readRequest (toldChunk reply)
                (uint32 (File.chunkOffset write_position chunk_index))
                (uint32 (File.chunkSize e write_position chunk_index))) } := by
            intro buf'
            refine ⟨iff_of_true trivial trivial, fun _ _ => ?_⟩
            apply Monitor.Agrees.ite
            · exact fun _ => trivial
            · exact fun hmore => ih (hat.next hindex hlast hle (not_le.mp hmore))
          apply Monitor.Agrees.ite
          · -- `ReadBlock` has failed
            intro _
            refine silent_call_agrees trivial fun _ => silent_call_agrees trivial fun elapsed => ?_
            apply Monitor.Agrees.ite
            · exact fun _ => silent_call_agrees trivial fun _ => ih hagain
            · exact fun _ => hnext buf'
          · exact fun _ => hnext buf'

end Requests

/-! ## Whole reads -/

/-- **Requests of a read.** Whatever the calls of a read are answered, and however far
it has come: where the end of no last chunk is needed, all its requests fit into the
buffer exactly when none comes behind a reply that tells a length between where the
read has begun and where the chunk begins, and the end of the range is a number of 64
bits.
SOURCE: moose.cc:1001-1020, 1442-1529 -/
theorem requests_fit_iff {crc_32 : Bytes → UInt32} {stale : ℕ → ℕ} {rounds : ℕ} {file : File}
    {buf : Buffer} {count : ℕ} {t : ClientTrace} (hcount : count < 2 ^ 64)
    (h : (file.read crc_32 rounds stale buf count).Makes t) :
    (requests stale file count).Along
        (OnRequests fun s data => BeforeLast s ∧ FitsBuffer file count s data) t
        (Reading.start rounds file count) ↔
      (requests stale file count).Along
        (OnRequests fun s _ => BeforeLast s ∧ ¬ s.shrunk ∧ file.position_ + count < 2 ^ 64) t
        (Reading.start rounds file count) := by
  have hagrees : (requests stale file count).Agrees (Steady file count) (fun _ _ => True)
      (file.read crc_32 rounds stale buf count) (Reading.start rounds file count) := by
    unfold File.read
    apply Monitor.Agrees.ite
    · exact fun _ => trivial
    intro hbelow
    have hposition : file.position_ < 2 ^ 57 := not_le.mp hbelow
    have hsteady : (¬ False ∧ file.position_ + count < 2 ^ 64) ↔
        file.position_ ≤ uint64 (file.position_ + count) := by
      rw [not_false_eq_true, true_and]
      unfold uint64
      omega
    have hle : uint64 (file.position_ + count) ≤ file.position_ + count := by
      unfold uint64
      omega
    have hat : AtChunk file count (Reading.start rounds file count) rounds
        (uint64 (file.position_ + count)) file.position_ (file.position_ / 2 ^ 26 : ℕ) :=
      ⟨rfl, rfl, uint64_lt _, hle, rfl, hposition, rfl, .inl rfl, hsteady⟩
    apply Monitor.Agrees.bind (readLoop_agrees hat)
    rintro ⟨reached, buf⟩ s -
    cases reached <;> trivial
  exact hagrees.along_iff h

/-- Both requests of a read over the end of a chunk, behind replies that tell the same length.
SOURCE: moose.cc:1442-1529 -/
theorem requests_fit_twoChunks : (requests (fun _ => 0) beforeBoundary 2).Along
    (OnRequests fun s data => BeforeLast s ∧ FitsBuffer beforeBoundary 2 s data) twoChunkRead
    (Reading.start 4 beforeBoundary 2) := by
  have hlast : ∀ indx ≤ 1, ¬ indx + 1 = 2 ^ 31 := by omega
  have htold : toldLength 0 (lengthReply (2 ^ 26 + 1)) = 2 ^ 26 + 1 := rfl
  have hkept : ∀ indx ≤ 1, ¬ (beforeBoundary.position_ ≤ toldLength 0 (lengthReply (2 ^ 26 + 1)) ∧
      toldLength 0 (lengthReply (2 ^ 26 + 1)) < indx * 2 ^ 26) := by
    rintro indx hle ⟨-, hlt⟩
    rw [htold] at hlt
    omega
  have hfirst := not_or.mpr ⟨not_false, hkept 0 (by norm_num)⟩
  have hboth := not_or.mpr ⟨hfirst, hkept 1 le_rfl⟩
  refine (requests_fit_iff (by norm_num) twoChunkRead_runs.makes).mpr ?_
  -- for each chunk the two calls before its request, the request, and what follows it
  exact ⟨trivial, trivial, ⟨fun h => absurd h (hlast 0 (by norm_num)), hfirst, by norm_num⟩,
    trivial, trivial, trivial, trivial, trivial, trivial, trivial,
    trivial, trivial, ⟨fun h => absurd h (hlast 1 le_rfl), hboth, by norm_num⟩,
    trivial, trivial, trivial, trivial, trivial, trivial, trivial, trivial⟩

/-- A read that goes on into a chunk; the file has lost the chunk in between. -/
def shrunkStart : ClientTrace :=
  lastByteRead ++ [askedChunk 7 1 (some (lengthReply (2 ^ 26 - 1))), gave ⟨0, 0⟩ server]

def shrunkRead : ClientTrace :=
  shrunkStart ++ [⟨.net (.write 4 (ChunkServer.readRequest {} 0 (2 ^ 32 - 1))), (28 : ℤ)⟩]

/-- One byte of the buffer is left, and `2 ^ 32 - 1` are asked for. -/
theorem not_requests_fit : ¬ ∀ (stale : ℕ → ℕ) (rounds : ℕ) (file : File) (buf : Buffer)
    (count : ℕ) (t : ClientTrace), count < 2 ^ 64 →
    (file.read bitwiseCrc rounds stale buf count).Makes t →
      (requests stale file count).Along (OnRequests fun s data => FitsBuffer file count s data) t
        (Reading.start rounds file count) := by
  intro hall
  have hmakes :
    (File.read bitwiseCrc 4 (fun _ => 0) beforeBoundary {} 2).Makes
      shrunkRead := by
    iterate 13 refine .inr ⟨_, _, rfl, ?_⟩
    exact .inl rfl
  have hfits := (Monitor.along_iff ..).mp (hall _ _ _ _ _ _ (by norm_num) hmakes)
    shrunkStart _ [] rfl
  have hfilled : ((requests (fun _ => 0) beforeBoundary 2).after
      (Reading.start 4 beforeBoundary 2) shrunkStart).filled = 1 := rfl
  have hbuf : 1 + requestSize (ChunkServer.readRequest {} 0 (2 ^ 32 - 1)) ≤ 2 :=
    hfilled ▸ FitsBuffer.in_buf hfits
  have hsize : requestSize (ChunkServer.readRequest {} 0 (2 ^ 32 - 1)) = 2 ^ 32 - 1 :=
    requestSize_readRequest _ _ (by norm_num)
  omega

end Moose

end BundleStore
