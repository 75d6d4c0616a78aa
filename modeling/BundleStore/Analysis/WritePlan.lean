import BundleStore.Analysis.ReadDelivered

set_option autoImplicit false

/-!
# The plan of a write

`File::Write` over the calls of the two servers, with its places in the file as numbers
that do not wrap: the range is cut where a chunk of 64 MiB ends, and each part of a chunk
where a block of 64 KiB ends. The code carries out the plan, for ranges that end before
the last chunk.
-/

namespace BundleStore

namespace Moose

open Machine Prog

/-! ## The calls of a write -/

inductive WriteCall
  /-- `WriteChunk` -/
  | writeChunk (inode chunk_index : ℕ)
  /-- the two attempts at a connection to the first location -/
  | findWriter (loc : Location)
  | writeBlockInit (cs : ChunkServer) (chunk : Chunk)
  | writeBlock (cs : ChunkServer) (chunk : Chunk) (writeid blockno offset : ℕ) (block : Bytes)
  /-- `Cached::Return` -/
  | giveBack (cs : ChunkServer)
  | delete (cs : ChunkServer)
  | writeChunkEnd (chunkid inode length : ℕ)
  | forever

abbrev WriteCall.Answer : WriteCall → Type
  | .writeChunk _ _ => RpcResult
  | .findWriter _ => Option ChunkServer
  | .writeBlockInit _ _ => ℤ × ℕ
  | .writeBlock _ _ _ _ _ _ => ℤ
  | .giveBack _ => Unit
  | .delete _ => Unit
  | .writeChunkEnd _ _ _ => RpcResult
  | .forever => Empty

/-- How the code carries out a call. -/
def WriteCall.perform (crc_32 : Bytes → UInt32) : (o : WriteCall) → Client o.Answer
  | .writeChunk inode chunk_index => onMaster (MasterServer.writeChunk inode chunk_index true true)
  | .findWriter loc => File.writeLoop.findWriter loc
  | .writeBlockInit cs chunk => onNet (cs.writeBlockInit chunk)
  | .writeBlock cs chunk writeid blockno offset block =>
      onNet (cs.writeBlock crc_32 chunk writeid blockno offset block)
  | .giveBack cs => Prog.op (FileCall.giveBack cs false)
  | .delete cs => Prog.op (FileCall.delete cs)
  | .writeChunkEnd chunkid inode length =>
      onMaster (MasterServer.writeChunkEnd chunkid inode length)
  | .forever => Prog.call (.net .forever) Empty.elim

abbrev Plan (α : Type) : Type := Prog WriteCall WriteCall.Answer α

/-! ## The plan -/

/-- A piece of the range, inside one block of one chunk. -/
structure Piece where
  chunk_index : ℕ
  blockno : ℕ
  offset : ℕ
  block : Bytes

/-- Where the piece is in the file. -/
def Piece.place (q : Piece) : ℕ := q.chunk_index * 2 ^ 26 + q.blockno * 2 ^ 16 + q.offset

/-- The piece of the range from `start` on that is at a place, before `end_`. -/
def pieceAt (start : ℕ) (data : Bytes) (end_ place : ℕ) : Piece where
  chunk_index := place / 2 ^ 26
  blockno := place % 2 ^ 26 / 2 ^ 16
  offset := place % 2 ^ 16
  block := ByteSeq.slice data (place - start)
    (min end_ ((place / 2 ^ 16 + 1) * 2 ^ 16) - place)

/-- The end of what is written of the chunk at a place. -/
def partEnd (end_ place : ℕ) : ℕ := min end_ ((place / 2 ^ 26 + 1) * 2 ^ 26)

/-- The pieces of one chunk; `none` when one fails. -/
def planBlocks (start : ℕ) (data : Bytes) (cs : ChunkServer) (chunk : Chunk) (end_ : ℕ) :
    ℕ → ℕ → ℕ → Plan (Option ℕ)
  | 0, _, _ => Prog.call .forever Empty.elim
  | rounds + 1, place, writeid => do
      let piece := pieceAt start data end_ place
      let status ←
        Prog.op (WriteCall.writeBlock cs chunk writeid piece.blockno piece.offset piece.block)
      if status ≠ STATUS_OK then do
        Prog.op (WriteCall.delete cs)
        pure none
      else if end_ ≤ place + piece.block.length then
        pure (some (place + piece.block.length - start))
      else
        planBlocks start data cs chunk end_ rounds (place + piece.block.length)
          (uint32 (writeid + 1))

/-- The chunks of the range. -/
def planChunks (inode start : ℕ) (data : Bytes) : ℕ → ℕ → Plan (Option ℕ)
  | 0, _ => Prog.call .forever Empty.elim
  | rounds + 1, place => do
      let (status, out) ← Prog.op (WriteCall.writeChunk inode (place / 2 ^ 26))
      if status ≠ STATUS_OK then pure none
      else
        let chunk := out.chunk.getD {}
        let end_ := partEnd (start + data.length) place
        match chunk.location with
        | [] => Prog.call .forever Empty.elim
        | loc :: _ => do
            match ← Prog.op (WriteCall.findWriter loc) with
            | none => pure none
            | some cs => do
                let (status, writeid) ← Prog.op (WriteCall.writeBlockInit cs chunk)
                if status ≠ STATUS_OK then pure none
                else do
                  match ← planBlocks start data cs chunk end_ rounds place writeid with
                  | none => pure none
                  | some _ => do
                      Prog.op (WriteCall.giveBack cs)
                      let (status, _) ← Prog.op (WriteCall.writeChunkEnd chunk.id inode end_)
                      if status ≠ STATUS_OK then pure none
                      else if start + data.length ≤ end_ then pure (some end_)
                      else planChunks inode start data rounds end_

def planWrite (rounds : ℕ) (self : File) (data : Bytes) : Plan (ℕ × File) := do
  match ← planChunks self.inode_ self.position_ data rounds self.position_ with
  | none => pure (0, self)
  | some position => pure (uint32 data.length, { self with position_ := position })

/-! ## The code carries out the plan -/

section Refinement

variable {crc_32 : Bytes → UInt32}
variable {start end_ place base limit chunk_pos blockno pos : ℕ} {data : Bytes}
variable {cs : ChunkServer} {chunk : Chunk} {chunk_offset chunk_size writeid rounds : ℕ}

/-- The variables of the loop over the blocks at a place of the plan. -/
structure AtBlock (start end_ place base limit chunk_pos blockno pos : ℕ) : Prop where
  place_eq : place = base * 2 ^ 26 + chunk_pos
  end_eq : end_ = base * 2 ^ 26 + limit
  limit_le : limit ≤ 2 ^ 26
  lt : chunk_pos < limit
  blockno_eq : blockno = chunk_pos / 2 ^ 16
  pos_eq : place = start + pos

/-- The size of a piece. -/
theorem AtBlock.size_eq (h : AtBlock start end_ place base limit chunk_pos blockno pos) :
    min end_ ((place / 2 ^ 16 + 1) * 2 ^ 16) - place =
      min limit ((chunk_pos / 2 ^ 16 + 1) * 2 ^ 16) - chunk_pos := by
  rw [h.place_eq, h.end_eq]
  omega

/-- A block of the plan goes to the end of its 64 KiB, or to the limit. -/
theorem AtBlock.length_block (h : AtBlock start end_ place base limit chunk_pos blockno pos)
    (hdata : end_ ≤ start + data.length) :
    (pieceAt start data end_ place).block.length =
      min limit ((chunk_pos / 2 ^ 16 + 1) * 2 ^ 16) - chunk_pos := by
  have hplace := h.place_eq
  have hend := h.end_eq
  have hpos := h.pos_eq
  rw [pieceAt, ByteSeq.length_slice, h.size_eq]
  omega

/-- The arithmetic of one round of the loop over the blocks. -/
structure BlockStep (limit chunk_pos blockno n : ℕ) : Prop where
  size : uint32 (((min limit (uint64 (((blockno : ℤ) + 1) * (K64 : ℕ))) : ℕ) : ℤ) - chunk_pos) = n
  offset : uint32 ((chunk_pos : ℤ) - blockno * (K64 : ℕ)) % 2 ^ 16 = chunk_pos % 2 ^ 16
  blockno_mod : blockno % 2 ^ 16 = chunk_pos / 2 ^ 16
  reached : uint64 ((chunk_pos : ℤ) + n) = chunk_pos + n
  pos : 0 < n
  le : chunk_pos + n ≤ limit
  next : chunk_pos + n < limit → uint64 ((blockno : ℤ) + 1) = (chunk_pos + n) / 2 ^ 16

/-- The next block follows the one before.
SOURCE: moose.cc:1395-1422 -/
theorem AtBlock.step (h : AtBlock start end_ place base limit chunk_pos blockno pos) :
    BlockStep limit chunk_pos blockno
      (min limit ((chunk_pos / 2 ^ 16 + 1) * 2 ^ 16) - chunk_pos) := by
  have hlimit := h.limit_le
  have hlt := h.lt
  have hblockno := h.blockno_eq
  have hnext : uint64 (((blockno : ℤ) + 1) * (K64 : ℕ)) = (chunk_pos / 2 ^ 16 + 1) * 2 ^ 16 := by
    have hcast : ((blockno : ℤ) + 1) * (K64 : ℕ) = ((chunk_pos / 2 ^ 16 + 1) * 2 ^ 16 : ℕ) := by
      rw [hblockno, K64]
      push_cast
      rfl
    rw [hcast]
    exact uint64_natCast (by omega)
  constructor
  case size =>
    rw [hnext]
    unfold uint32
    omega
  case offset =>
    unfold uint32 K64
    omega
  case blockno_mod => omega
  case reached =>
    unfold uint64
    omega
  case pos => omega
  case le => omega
  case next =>
    intro hmore
    unfold uint64
    omega

/-- The limit does not wrap. -/
theorem AtBlock.uint64_limit (h : AtBlock start end_ place base limit chunk_pos blockno pos)
    (hlimit : limit = chunk_offset + chunk_size) :
    uint64 ((chunk_offset : ℤ) + chunk_size) = limit := by
  have hle := h.limit_le
  unfold uint64
  omega

/-- The code writes the blocks of the plan, by induction on the rounds.
SOURCE: moose.cc:1395-1422 -/
theorem lower_planBlocks (h : AtBlock start end_ place base limit chunk_pos blockno pos)
    (hlimit : limit = chunk_offset + chunk_size) (hdata : end_ ≤ start + data.length) :
    (planBlocks start data cs chunk end_ rounds place writeid).lower
        (stateless (WriteCall.perform crc_32)) () =
      File.writeBlocks crc_32 cs chunk chunk_offset chunk_size data rounds chunk_pos blockno writeid
        pos
        >>= fun r => ret (r, ()) := by
  induction rounds generalizing place chunk_pos blockno writeid pos with
  | zero => 
      exact congrArg (Prog.call _) (funext fun answer => answer.elim)
  | succ rounds ih =>
      rw [planBlocks, op_bind, lower_call_stateless, File.writeBlocks]
      obtain ⟨hsize, hoffset, hblockno, hreached, hpos, hle, hnext⟩ := h.step
      have hlength := h.length_block hdata
      have hlim := h.uint64_limit hlimit
      have hplace := h.place_eq
      have hpiece : ByteSeq.slice data pos
          (min limit ((chunk_pos / 2 ^ 16 + 1) * 2 ^ 16) - chunk_pos) =
            (pieceAt start data end_ place).block := by
        rw [pieceAt, h.size_eq, h.pos_eq, Nat.add_sub_cancel_left]
      have hno : (pieceAt start data end_ place).blockno = chunk_pos / 2 ^ 16 := by
        have hlt := h.lt
        have hlimit := h.limit_le
        change place % 2 ^ 26 / 2 ^ 16 = _
        omega
      have hoff : (pieceAt start data end_ place).offset = chunk_pos % 2 ^ 16 := by
        change place % 2 ^ 16 = _
        omega
      rw [hlim, hsize, hoffset, hblockno, hreached, hpiece, hno, hoff, hlength]
      generalize min limit ((chunk_pos / 2 ^ 16 + 1) * 2 ^ 16) - chunk_pos = n at *
      rw [bind_assoc]
      refine congrArg (_ >>= ·) (funext fun status => ?_)
      by_cases hstatus : status = STATUS_OK
      swap
      · simp only [hstatus, ne_eq, not_false_eq_true, if_true]
        rfl
      simp only [hstatus, ne_eq, not_true_eq_false, if_false]
      have hend := h.end_eq
      have hplace_pos := h.pos_eq
      have hreach : end_ ≤ place + n ↔ limit ≤ chunk_pos + n := by omega
      by_cases hmore : limit ≤ chunk_pos + n
      · rw [if_pos (hreach.mpr hmore), if_pos hmore]
        have hback : place + n - start = pos + n := by omega
        rw [hback]
        rfl
      · rw [if_neg (mt hreach.mp hmore), if_neg hmore, hnext (not_le.mp hmore)]
        refine ih ⟨by omega, hend, h.limit_le, not_le.mp hmore, rfl, by omega⟩

/-- The blocks of a chunk end at its limit. -/
theorem writeBlocks_returns (h : AtBlock start end_ place base limit chunk_pos blockno pos)
    (hlimit : limit = chunk_offset + chunk_size) :
    (File.writeBlocks crc_32 cs chunk chunk_offset chunk_size data rounds chunk_pos blockno writeid
      pos).Returns fun r => ∀ pos', r = some pos' → end_ = start + pos' := by
  induction rounds generalizing place chunk_pos blockno writeid pos with
  | zero => exact fun answer => answer.elim
  | succ rounds ih =>
      obtain ⟨hsize, -, -, hreached, -, hle, hnext⟩ := h.step
      have hlim := h.uint64_limit hlimit
      have hplace := h.place_eq
      have hend := h.end_eq
      have hpos := h.pos_eq
      rw [File.writeBlocks, hlim, hsize, hreached]
      generalize min limit ((chunk_pos / 2 ^ 16 + 1) * 2 ^ 16) - chunk_pos = n at *
      refine Returns.bind (returns_true _) fun status _ => ?_
      apply Returns.ite
      · exact fun _ _ pos' hnone => by cases hnone
      intro _
      apply Returns.ite
      · rintro hreach pos' ⟨⟩
        omega
      · intro hmore
        rw [hnext (not_le.mp hmore)]
        have hat : AtBlock start end_ (place + n) base limit (chunk_pos + n)
            ((chunk_pos + n) / 2 ^ 16) (pos + n) :=
          ⟨by omega, hend, h.limit_le, not_le.mp hmore, rfl, by omega⟩
        exact ih hat

/-- The range ends before the last chunk. -/
theorem partEnd_eq (h : end_ < 2 ^ 57 - 2 ^ 26) (hlt : place < end_) :
    min end_ (chunkEnd (place / 2 ^ 26 : ℕ)) = partEnd end_ place := by
  have hplace : place < 2 ^ 57 - 2 ^ 26 := hlt.trans h
  rw [chunkEnd_of_lt (by omega), partEnd]

/-- The offset in a chunk is the place modulo the chunk's size.
SOURCE: moose.cc:1370 -/
theorem chunkOffset_eq :
    File.chunkOffset place (place / 2 ^ 26 : ℕ) = place % 2 ^ 26 := by
  unfold File.chunkOffset uint64 M64
  omega

/-- A part of the data is not empty. -/
theorem le_partEnd (hlt : place < end_) : place < partEnd end_ place := by
  unfold partEnd
  omega

/-- Behind a part that does not end the range the next chunk begins. -/
theorem partEnd_of_lt (hmore : ¬ end_ ≤ partEnd end_ place) :
    partEnd end_ place = (place / 2 ^ 26 + 1) * 2 ^ 26 := by
  unfold partEnd at hmore ⊢
  omega

/-- A part of a chunk, seen from the start of the chunk. -/
theorem atBlock_of_lt (hplace : place = start + pos) (hlt : place < end_) :
    AtBlock start (partEnd end_ place) place (place / 2 ^ 26)
      (place % 2 ^ 26 + (partEnd end_ place - place)) (place % 2 ^ 26)
      (place % 2 ^ 26 / 2 ^ 16) pos := by
  have hle := le_partEnd hlt
  have hpart : partEnd end_ place ≤ (place / 2 ^ 26 + 1) * 2 ^ 26 := min_le_right _ _
  generalize partEnd end_ place = e at hle hpart ⊢
  exact ⟨by omega, by omega, by omega, by omega, rfl, hplace⟩

/-- The variables of the loop over the chunks at a place of the plan. -/
theorem atBlock_of_place (hend : end_ < 2 ^ 57 - 2 ^ 26) (hplace : place = start + pos)
    (hlt : place < end_) :
    uint64 ((place : ℤ) + (File.chunkSize end_ place (place / 2 ^ 26 : ℕ) : ℕ)) =
        partEnd end_ place ∧
      AtBlock start (partEnd end_ place) place (place / 2 ^ 26)
        (File.chunkOffset place (place / 2 ^ 26 : ℕ) +
          File.chunkSize end_ place (place / 2 ^ 26 : ℕ))
        (File.chunkOffset place (place / 2 ^ 26 : ℕ))
        (File.chunkOffset place (place / 2 ^ 26 : ℕ) / 2 ^ 16) pos ∧
      (¬ end_ ≤ partEnd end_ place →
        int32 (((place / 2 ^ 26 : ℕ) : ℤ) + 1) = (partEnd end_ place / 2 ^ 26 : ℕ)) := by
  have hpart := partEnd_eq hend hlt
  have hbound : end_ < 2 ^ 64 := by omega
  have hposition : uint64 ((place : ℤ) + (File.chunkSize end_ place (place / 2 ^ 26 : ℕ) : ℕ)) =
      min end_ (chunkEnd (place / 2 ^ 26 : ℕ)) := next_position hbound
  have hsize := chunkSize_of_le hbound (hpart.symm ▸ (le_partEnd hlt).le)
  rw [hpart] at hposition hsize
  refine ⟨hposition, ?_, fun hmore => ?_⟩
  · rw [hsize, chunkOffset_eq]
    exact atBlock_of_lt hplace hlt
  · rw [partEnd_of_lt hmore, Nat.mul_div_cancel _ (by norm_num)]
    exact_mod_cast int32_natCast (show place / 2 ^ 26 + 1 < 2 ^ 31 by omega)

/-- The code carries out the plan of the chunks. -/
theorem lower_planChunks {self : File} (hend : start + data.length < 2 ^ 57 - 2 ^ 26)
    (hplace : place = start + pos) (hlt : place < start + data.length) :
    (planChunks self.inode_ start data rounds place).lower
      (stateless (WriteCall.perform crc_32)) () =
      File.writeLoop crc_32 self (start + data.length) data rounds place (place / 2 ^ 26 : ℕ) pos
        >>= fun r => ret (r, ()) := by
  induction rounds generalizing place pos with
  | zero => exact congrArg (Prog.call _) (funext fun answer => answer.elim)
  | succ rounds ih =>
      have hindex : uint32 ((place / 2 ^ 26 : ℕ) : ℤ) = place / 2 ^ 26 :=
        uint32_natCast (by omega)
      obtain ⟨hposition, hat, hnext⟩ := atBlock_of_place hend hplace hlt
      rw [planChunks, op_bind, lower_call_stateless, File.writeLoop, hindex, bind_assoc]
      refine congrArg (_ >>= ·) (funext fun result => ?_)
      obtain ⟨status, out⟩ := result
      dsimp only
      by_cases hstatus : status = STATUS_OK
      swap
      · simp only [hstatus, ne_eq, not_false_eq_true, if_true]
        rfl
      simp only [hstatus, ne_eq, not_true_eq_false, if_false]
      cases hlocation : (out.chunk.getD {}).location with
      | nil => exact congrArg (Prog.call _) (funext fun answer => answer.elim)
      | cons loc locations =>
          dsimp only
          rw [op_bind, lower_call_stateless, bind_assoc]
          refine congrArg (_ >>= ·) (funext fun found => ?_)
          cases found with
          | none => rfl
          | some cs =>
              dsimp only
              rw [op_bind, lower_call_stateless, bind_assoc]
              refine congrArg (_ >>= ·) (funext fun init => ?_)
              obtain ⟨status, writeid⟩ := init
              dsimp only
              by_cases hinit : status = STATUS_OK
              swap
              · simp only [hinit, not_false_eq_true, if_true]
                rfl
              simp only [hinit, not_true_eq_false, if_false]
              rw [lower_bind, lower_planBlocks hat rfl (min_le_left _ _), bind_assoc, bind_assoc]
              refine (writeBlocks_returns hat rfl).bind_congr fun written hwritten => ?_
              cases written with
              | none => rfl
              | some pos' =>
                  have hpos' := hwritten pos' rfl
                  rw [ret_bind]
                  dsimp only
                  rw [op_bind, lower_call_stateless, bind_assoc]
                  refine congrArg (_ >>= ·) (funext fun _ => ?_)
                  rw [op_bind, lower_call_stateless, hposition, bind_assoc]
                  refine congrArg (_ >>= ·) (funext fun closed => ?_)
                  obtain ⟨status, -⟩ := closed
                  dsimp only
                  by_cases hclosed : status = STATUS_OK
                  swap
                  · simp only [hclosed, not_false_eq_true, if_true]
                    rfl
                  simp only [hclosed, not_true_eq_false, if_false]
                  by_cases hdone : start + data.length ≤ partEnd (start + data.length) place
                  · simp only [hdone, if_true]
                    rfl
                  · simp only [hdone, if_false]
                    rw [hnext hdone]
                    exact ih hpos' (not_le.mp hdone)

/-- The code of `Write` carries out its plan. -/
theorem lower_planWrite {self : File} (hdata : data ≠ [])
    (hend : self.position_ + data.length < 2 ^ 57 - 2 ^ 26) :
    (planWrite rounds self data).lower (stateless (WriteCall.perform crc_32)) () =
      self.write crc_32 rounds data >>= fun r => ret (r, ()) := by
  have hlt : self.position_ < self.position_ + data.length :=
    Nat.lt_add_of_pos_right (List.length_pos_of_ne_nil hdata)
  have hindex : int32 ((self.position_ / 2 ^ 26 : ℕ) : ℤ) = (self.position_ / 2 ^ 26 : ℕ) :=
    int32_natCast (by omega)
  have hsum : uint64 ((self.position_ : ℤ) + data.length) = self.position_ + data.length := by
    exact_mod_cast uint64_natCast (show self.position_ + data.length < 2 ^ 64 by omega)
  rw [planWrite, lower_bind, lower_planChunks hend (Nat.add_zero _).symm hlt, File.write, hsum,
    hindex, bind_assoc, bind_assoc]
  refine congrArg (_ >>= ·) (funext fun reached => ?_)
  cases reached <;> rfl

end Refinement

/-! ## What the plan does -/

/-- A call of a write has been answered with success; a chunk has a location. -/
def Succeeds (e : Σ o : WriteCall, o.Answer) : Prop :=
  match e with
  | ⟨.writeChunk _ _, result⟩ =>
      result.1 = STATUS_OK ∧ (result.2.chunk.getD {}).location ≠ []
  | ⟨.findWriter _, found⟩ => found ≠ none
  | ⟨.writeBlockInit _ _, result⟩ => result.1 = STATUS_OK
  | ⟨.writeBlock _ _ _ _ _ _, status⟩ => status = STATUS_OK
  | ⟨.writeChunkEnd _ _ _, result⟩ => result.1 = STATUS_OK
  | _ => True

/-- A piece of the range that is not empty, inside its block and its chunk. -/
structure Piece.Fits (q : Piece) : Prop where
  blockno_lt : q.blockno < 1024
  offset_lt : q.offset < 65536
  block_pos : 1 ≤ q.block.length
  in_block : q.offset + q.block.length ≤ 65536

/-- The piece has the bytes of the data that are at its place. -/
def Piece.Brings (start : ℕ) (data : Bytes) (q : Piece) : Prop :=
  q.block = ByteSeq.slice data (q.place - start) q.block.length

/-- The pieces follow one after the other, from the first place to the last one. -/
def Covers : ℕ → ℕ → List Piece → Prop
  | place, end_, [] => place = end_
  | place, end_, q :: pieces => q.place = place ∧ Covers (place + q.block.length) end_ pieces

/-- The write ids count up from the first one. -/
def blockCalls (cs : ChunkServer) (chunk : Chunk) :
    ℕ → List Piece → Trace WriteCall WriteCall.Answer
  | _, [] => []
  | writeid, q :: pieces =>
      ⟨.writeBlock cs chunk writeid q.blockno q.offset q.block, STATUS_OK⟩ ::
        blockCalls cs chunk (uint32 (writeid + 1)) pieces

/-- What is done for one chunk. -/
structure ChunkRound where
  chunk_index : ℕ
  out : Outputs
  loc : Location
  cs : ChunkServer
  writeid : ℕ
  pieces : List Piece
  end_ : ℕ
  closed : Outputs

def ChunkRound.chunk (r : ChunkRound) : Chunk := r.out.chunk.getD {}

/-- The calls for one chunk, all of which succeed. -/
def ChunkRound.calls (inode : ℕ) (r : ChunkRound) : Trace WriteCall WriteCall.Answer :=
  ⟨.writeChunk inode r.chunk_index, (STATUS_OK, r.out)⟩ :: ⟨.findWriter r.loc, some r.cs⟩ ::
    ⟨.writeBlockInit r.cs r.chunk, (STATUS_OK, r.writeid)⟩ ::
      (blockCalls r.cs r.chunk r.writeid r.pieces ++
        [⟨.giveBack r.cs, ()⟩, ⟨.writeChunkEnd r.chunk.id inode r.end_, (STATUS_OK, r.closed)⟩])

/-- The pieces of a chunk are in the chunk, and it is closed with the end of the last one. -/
structure ChunkRound.Fits (start : ℕ) (data : Bytes) (place : ℕ) (r : ChunkRound) : Prop where
  location : r.chunk.location.head? = some r.loc
  pieces_ne : r.pieces ≠ []
  in_chunk : ∀ q ∈ r.pieces, q.chunk_index = r.chunk_index
  in_block : ∀ q ∈ r.pieces, q.Fits
  brings : ∀ q ∈ r.pieces, q.Brings start data
  covers : Covers place r.end_ r.pieces

/-- The chunks follow one after the other, from the first place to the last one. -/
def ChunksFit (start : ℕ) (data : Bytes) : ℕ → ℕ → List ChunkRound → Prop
  | place, end_, [] => place = end_
  | place, end_, r :: rs => r.Fits start data place ∧ ChunksFit start data r.end_ end_ rs

section Plan

variable {start end_ place writeid rounds : ℕ} {data : Bytes} {cs : ChunkServer} {chunk : Chunk}
variable {t : Trace WriteCall WriteCall.Answer}

/-- A place in a part of a chunk that the data reach to the end of. -/
structure InPart (start : ℕ) (data : Bytes) (end_ place : ℕ) : Prop where
  start_le : start ≤ place
  lt : place < end_
  in_chunk : end_ ≤ (place / 2 ^ 26 + 1) * 2 ^ 26
  in_data : end_ ≤ start + data.length

/-- A block in a part goes to the end of its 64 KiB, or to the end of the part. -/
theorem InPart.length_block (h : InPart start data end_ place) :
    (pieceAt start data end_ place).block.length =
      min end_ ((place / 2 ^ 16 + 1) * 2 ^ 16) - place := by
  have hdata := h.in_data
  have hstart := h.start_le
  rw [pieceAt, ByteSeq.length_slice]
  omega

/-- A piece stands at its place. -/
theorem place_pieceAt : (pieceAt start data end_ place).place = place := by
  change place / 2 ^ 26 * 2 ^ 26 + place % 2 ^ 26 / 2 ^ 16 * 2 ^ 16 + place % 2 ^ 16 = place
  omega

/-- A piece fits into its block. -/
theorem InPart.fits (h : InPart start data end_ place) :
    (pieceAt start data end_ place).Fits := by
  have hlt := h.lt
  have hoffset : (pieceAt start data end_ place).offset = place % 2 ^ 16 := rfl
  have hblockno : (pieceAt start data end_ place).blockno = place % 2 ^ 26 / 2 ^ 16 := rfl
  constructor
  · omega
  · omega
  · rw [h.length_block]
    omega
  · rw [h.length_block, hoffset]
    omega

/-- A piece brings the bytes of the data that belong at its place. -/
theorem InPart.brings (h : InPart start data end_ place) :
    (pieceAt start data end_ place).Brings start data := by
  rw [Piece.Brings, place_pieceAt, h.length_block]
  rfl

/-- A piece ends inside the data. -/
theorem InPart.le (h : InPart start data end_ place) :
    place + (pieceAt start data end_ place).block.length ≤ end_ := by
  have hlt := h.lt
  rw [h.length_block]
  omega

/-- Behind a piece that does not end the part the part goes on in the same chunk. -/
theorem InPart.next (h : InPart start data end_ place)
    (hmore : place + (pieceAt start data end_ place).block.length < end_) :
    InPart start data end_ (place + (pieceAt start data end_ place).block.length) ∧
      (place + (pieceAt start data end_ place).block.length) / 2 ^ 26 = place / 2 ^ 26 := by
  have hchunk := h.in_chunk
  have hindex : (place + (pieceAt start data end_ place).block.length) / 2 ^ 26 =
      place / 2 ^ 26 := by omega
  refine ⟨⟨h.start_le.trans (Nat.le_add_right _ _), hmore, ?_, h.in_data⟩, hindex⟩
  rw [hindex]
  exact hchunk

/-- The blocks of a part bring it, in their order, if every call succeeds. -/
theorem planBlocks_runs {r : Option ℕ} (h : InPart start data end_ place)
    (hruns : (planBlocks start data cs chunk end_ rounds place writeid).Runs t r)
    (hok : ∀ e ∈ t, Succeeds e) :
    r = some (end_ - start) ∧ ∃ pieces, t = blockCalls cs chunk writeid pieces ∧ pieces ≠ [] ∧
      (∀ q ∈ pieces, q.chunk_index = place / 2 ^ 26 ∧ q.Fits ∧ q.Brings start data) ∧
      Covers place end_ pieces := by
  induction rounds generalizing place writeid t with
  | zero =>
      obtain ⟨answer, -⟩ := hruns
      cases answer
  | succ rounds ih =>
      rw [planBlocks, runs_op_bind] at hruns
      obtain ⟨status, t', rfl, hrest⟩ := hruns
      have hstatus : status = STATUS_OK := hok _ List.mem_cons_self
      have hok' : ∀ e ∈ t', Succeeds e := fun e he => hok e (List.mem_cons_of_mem _ he)
      subst hstatus
      simp only [ne_eq, not_true_eq_false, if_false] at hrest
      have hpiece : ∀ {q : Piece}, q = pieceAt start data end_ place →
          q.chunk_index = place / 2 ^ 26 ∧ q.Fits ∧ q.Brings start data := by
        rintro q rfl
        exact ⟨rfl, h.fits, h.brings⟩
      by_cases hdone : end_ ≤ place + (pieceAt start data end_ place).block.length
      · rw [if_pos hdone] at hrest
        obtain ⟨rfl, rfl⟩ := hrest
        have heq := le_antisymm h.le hdone
        refine ⟨by rw [heq], [pieceAt start data end_ place], rfl, List.cons_ne_nil _ _, ?_, ?_⟩
        · exact fun q hq => hpiece (List.mem_singleton.mp hq)
        · exact ⟨place_pieceAt, heq⟩
      · rw [if_neg hdone] at hrest
        obtain ⟨hnext, hindex⟩ := h.next (not_le.mp hdone)
        obtain ⟨rfl, pieces, rfl, -, hpieces, hcovers⟩ := ih hnext hrest hok'
        refine ⟨rfl, pieceAt start data end_ place :: pieces, rfl, List.cons_ne_nil _ _, ?_, ?_⟩
        · intro q hq
          obtain hq | hq := List.mem_cons.mp hq
          · exact hpiece hq
          · exact hindex ▸ hpieces q hq
        · exact ⟨place_pieceAt, hcovers⟩

/-- The chunks bring the data, in their order, if every call succeeds. -/
theorem planChunks_runs {inode : ℕ} {r : Option ℕ} (hstart : start ≤ place)
    (hlt : place < start + data.length)
    (hruns : (planChunks inode start data rounds place).Runs t r) (hok : ∀ e ∈ t, Succeeds e) :
    r = some (start + data.length) ∧ ∃ rs : List ChunkRound,
      t = rs.flatMap (ChunkRound.calls inode) ∧
        ChunksFit start data place (start + data.length) rs := by
  induction rounds generalizing place t with
  | zero =>
      obtain ⟨answer, -⟩ := hruns
      cases answer
  | succ rounds ih =>
      rw [planChunks, runs_op_bind] at hruns
      obtain ⟨⟨status, out⟩, t₁, rfl, h₁⟩ := hruns
      obtain ⟨hopened, hlocation⟩ := hok _ List.mem_cons_self
      have hok₁ : ∀ e ∈ t₁, Succeeds e := fun e he => hok e (List.mem_cons_of_mem _ he)
      obtain rfl : status = STATUS_OK := hopened
      simp only [ne_eq, not_true_eq_false, if_false] at h₁
      cases hloc : (out.chunk.getD {}).location with
      | nil => exact absurd hloc hlocation
      | cons loc locations =>
          rw [hloc, runs_op_bind] at h₁
          obtain ⟨found, t₂, rfl, h₂⟩ := h₁
          have hfound : found ≠ none := hok₁ _ List.mem_cons_self
          have hok₂ : ∀ e ∈ t₂, Succeeds e := fun e he => hok₁ e (List.mem_cons_of_mem _ he)
          obtain ⟨cs, rfl⟩ := Option.ne_none_iff_exists'.mp hfound
          rw [runs_op_bind] at h₂
          obtain ⟨⟨status, writeid⟩, t₃, rfl, h₃⟩ := h₂
          obtain rfl : status = STATUS_OK := hok₂ _ List.mem_cons_self
          have hok₃ : ∀ e ∈ t₃, Succeeds e := fun e he => hok₂ e (List.mem_cons_of_mem _ he)
          simp only [not_true_eq_false, if_false] at h₃
          obtain ⟨t₄, t₅, written, rfl, hblocks, h₅⟩ := runs_bind.mp h₃
          have hok₄ : ∀ e ∈ t₄, Succeeds e := fun e he => hok₃ e (List.mem_append_left _ he)
          have hok₅ : ∀ e ∈ t₅, Succeeds e := fun e he => hok₃ e (List.mem_append_right _ he)
          have hpart : InPart start data (partEnd (start + data.length) place) place :=
            ⟨hstart, le_partEnd hlt, min_le_right _ _, min_le_left _ _⟩
          obtain ⟨rfl, pieces, rfl, hne, hpieces, hcovers⟩ := planBlocks_runs hpart hblocks hok₄
          rw [runs_op_bind] at h₅
          obtain ⟨given, t₆, rfl, h₆⟩ := h₅
          rw [runs_op_bind] at h₆
          obtain ⟨⟨status, closed⟩, t₇, rfl, h₇⟩ := h₆
          obtain rfl : status = STATUS_OK :=
            hok₅ _ (List.mem_cons_of_mem _ List.mem_cons_self)
          have hok₇ : ∀ e ∈ t₇, Succeeds e := fun e he =>
            hok₅ e (List.mem_cons_of_mem _ (List.mem_cons_of_mem _ he))
          simp only [not_true_eq_false, if_false] at h₇
          let round : ChunkRound := ⟨place / 2 ^ 26, out, loc, cs, writeid, pieces,
            partEnd (start + data.length) place, closed⟩
          have hround : round.Fits start data place := by
            refine ⟨?_, hne, fun q hq => (hpieces q hq).1, fun q hq => (hpieces q hq).2.1,
              fun q hq => (hpieces q hq).2.2, hcovers⟩
            rw [ChunkRound.chunk, hloc]
            rfl
          by_cases hdone : start + data.length ≤ partEnd (start + data.length) place
          · rw [if_pos hdone] at h₇
            obtain ⟨rfl, rfl⟩ := h₇
            have hend := le_antisymm (min_le_left _ _) hdone
            refine ⟨congrArg some hend, [round], ?_, hround, hend⟩
            simp [round, ChunkRound.calls, ChunkRound.chunk]
          · rw [if_neg hdone] at h₇
            obtain ⟨rfl, rs, rfl, hrs⟩ :=
              ih (hstart.trans (le_partEnd hlt).le) (not_le.mp hdone) h₇ hok₇
            refine ⟨rfl, round :: rs, ?_, hround, hrs⟩
            simp [round, ChunkRound.calls, ChunkRound.chunk]

/-! ## The plan comes to an end -/

/-- A call that fails is one of more calls. -/
theorem exists_fails_cons {e : Σ o : WriteCall, o.Answer} (h : ∃ e ∈ t, ¬ Succeeds e) :
    ∃ e' ∈ e :: t, ¬ Succeeds e' := by
  obtain ⟨e', he', hfails⟩ := h
  exact ⟨e', List.mem_cons_of_mem _ he', hfails⟩

/-- With a round for each byte the loop over the blocks ends, unless a call fails. -/
theorem planBlocks_waits (h : InPart start data end_ place) (hrounds : end_ - place ≤ rounds)
    (hwaits : (planBlocks start data cs chunk end_ rounds place writeid).Waits t .forever) :
    ∃ e ∈ t, ¬ Succeeds e := by
  induction rounds generalizing place writeid t with
  | zero =>
      have hlt := h.lt
      omega
  | succ rounds ih =>
      rw [planBlocks, waits_op_bind] at hwaits
      obtain ⟨-, heq⟩ | ⟨status, t', rfl, hrest⟩ := hwaits
      · cases heq
      by_cases hstatus : status = STATUS_OK
      swap
      · exact ⟨_, List.mem_cons_self, hstatus⟩
      simp only [hstatus, ne_eq, not_true_eq_false, if_false] at hrest
      by_cases hdone : end_ ≤ place + (pieceAt start data end_ place).block.length
      · rw [if_pos hdone] at hrest
        exact hrest.elim
      · rw [if_neg hdone] at hrest
        have hpos := h.fits.block_pos
        exact exists_fails_cons (ih (h.next (not_le.mp hdone)).1 (by omega) hrest)

/-- With more rounds than bytes the plan ends, unless a call fails. -/
theorem planChunks_waits {inode : ℕ} (hstart : start ≤ place) (hlt : place < start + data.length)
    (hrounds : start + data.length - place < rounds)
    (hwaits : (planChunks inode start data rounds place).Waits t .forever) :
    ∃ e ∈ t, ¬ Succeeds e := by
  induction rounds generalizing place t with
  | zero => omega
  | succ rounds ih =>
      rw [planChunks, waits_op_bind] at hwaits
      obtain ⟨-, heq⟩ | ⟨⟨status, out⟩, t₁, rfl, h₁⟩ := hwaits
      · cases heq
      by_cases hopened : status = STATUS_OK ∧ (out.chunk.getD {}).location ≠ []
      swap
      · exact ⟨_, List.mem_cons_self, hopened⟩
      obtain ⟨rfl, hlocation⟩ := hopened
      refine exists_fails_cons ?_
      simp only [ne_eq, not_true_eq_false, if_false] at h₁
      cases hloc : (out.chunk.getD {}).location with
      | nil => exact absurd hloc hlocation
      | cons loc locations =>
          rw [hloc, waits_op_bind] at h₁
          obtain ⟨-, heq⟩ | ⟨found, t₂, rfl, h₂⟩ := h₁
          · cases heq
          cases found with
          | none => exact h₂.elim
          | some cs =>
              refine exists_fails_cons ?_
              rw [waits_op_bind] at h₂
              obtain ⟨-, heq⟩ | ⟨⟨status, writeid⟩, t₃, rfl, h₃⟩ := h₂
              · cases heq
              by_cases hinit : status = STATUS_OK
              swap
              · exact ⟨_, List.mem_cons_self, hinit⟩
              refine exists_fails_cons ?_
              simp only [hinit, not_true_eq_false, if_false] at h₃
              have hpart : InPart start data (partEnd (start + data.length) place) place :=
                ⟨hstart, le_partEnd hlt, min_le_right _ _, min_le_left _ _⟩
              have hle := hpart.in_data
              obtain hblocks | ⟨t₄, t₅, written, rfl, -, h₅⟩ := waits_bind.mp h₃
              · exact planBlocks_waits hpart (by omega) hblocks
              obtain ⟨e, he, hfails⟩ : ∃ e ∈ t₅, ¬ Succeeds e := by
                cases written with
                | none => exact h₅.elim
                | some _ =>
                    rw [waits_op_bind] at h₅
                    obtain ⟨-, heq⟩ | ⟨given, t₆, rfl, h₆⟩ := h₅
                    · cases heq
                    refine exists_fails_cons ?_
                    rw [waits_op_bind] at h₆
                    obtain ⟨-, heq⟩ | ⟨⟨status, closed⟩, t₇, rfl, h₇⟩ := h₆
                    · cases heq
                    by_cases hclosed : status = STATUS_OK
                    swap
                    · exact ⟨_, List.mem_cons_self, hclosed⟩
                    simp only [hclosed, not_true_eq_false, if_false] at h₇
                    by_cases hdone : start + data.length ≤ partEnd (start + data.length) place
                    · rw [if_pos hdone] at h₇
                      exact h₇.elim
                    · rw [if_neg hdone] at h₇
                      have hafter := le_partEnd hlt
                      exact exists_fails_cons
                        (ih (hstart.trans hafter.le) (not_le.mp hdone) (by omega) h₇)
              exact ⟨e, List.mem_append_right _ he, hfails⟩

end Plan

/-! ## `Write` -/

section Answered

variable {crc_32 : Bytes → UInt32}
variable {fd : ℤ} {pos leng : ℕ} {buf : Buffer}

/-- A call that is answered some time. -/
def Answered (o : NetCall) : Prop := o ≠ .forever

/-- `Alloca` needs an answer. -/
theorem alloca_answered (len : ℕ) : (buf.alloca len).Calls Answered := by
  unfold Buffer.alloca
  apply Calls.ite
  · exact ⟨by rintro ⟨⟩, fun _ => trivial⟩
  · trivial

/-- `tcptoread` needs an answer. -/
theorem tcptoread_answered : (tcptoread fd buf pos leng).Calls Answered := by
  have hloop : ∀ rounds rcvd buf, (tcptoreadLoop fd pos leng rounds rcvd buf).Calls Answered := by
    intro rounds
    induction rounds with
    | zero => exact fun _ _ => trivial
    | succ rounds ih =>
        intro rcvd buf
        unfold tcptoreadLoop
        apply Calls.ite
        · refine ⟨by rintro ⟨⟩, fun i => ?_⟩
          exact Calls.ite trivial (ih _ _)
        · trivial
  exact hloop leng 0 buf

/-- The status of a write needs an answer. -/
theorem readWriteStatus_answered :
    (ChunkServer.readWriteStatus fd buf).Calls Answered := by
  unfold ChunkServer.readWriteStatus
  refine (alloca_answered _).bind fun input => tcptoread_answered.bind fun r => ?_
  exact Calls.ite trivial trivial

/-- `WriteBlockInit` needs an answer. -/
theorem writeBlockInit_answered (cs : ChunkServer) (chunk : Chunk) :
    (cs.writeBlockInit chunk).Calls Answered := by
  unfold ChunkServer.writeBlockInit
  refine (alloca_answered _).bind fun input => ⟨by rintro ⟨⟩, fun _ => ?_⟩
  refine readWriteStatus_answered.bind fun status => ?_
  cases status with
  | none => trivial
  | some status => exact Calls.ite trivial trivial

/-- `WriteBlock` needs an answer. -/
theorem writeBlock_answered (cs : ChunkServer) (chunk : Chunk) (writeid blockno offset : ℕ)
    (block : Bytes) : (cs.writeBlock crc_32 chunk writeid blockno offset block).Calls Answered := by
  unfold ChunkServer.writeBlock
  refine ⟨by rintro ⟨⟩, fun _ => Calls.ite trivial ⟨by rintro ⟨⟩, fun _ => Calls.ite trivial ?_⟩⟩
  refine readWriteStatus_answered.bind fun status => ?_
  cases status with
  | none => trivial
  | some status => exact Calls.ite trivial trivial

/-- What carries out a call of the plan comes to an end. -/
theorem perform_answered {o : WriteCall} (ho : o ≠ .forever) :
    (o.perform crc_32).Calls fun o' => o' ≠ .net .forever := by
  have honMaster : ∀ {α : Type} (p : Master α), (onMaster p).Calls fun o' => o' ≠ .net .forever :=
    fun p => calls_embed ((calls_true p).mono fun o _ => by rintro ⟨⟩)
  have honNet : ∀ {α : Type} {p : Net α}, p.Calls Answered →
      (onNet p).Calls fun o' => o' ≠ .net .forever :=
    fun hp => calls_embed (hp.mono fun o hanswered => by
      rintro ⟨⟩
      exact hanswered rfl)
  cases o with
  | writeChunk inode chunk_index => exact honMaster _
  | findWriter loc =>
      refine ⟨by rintro ⟨⟩, fun found => ?_⟩
      cases found with
      | none => exact ⟨by rintro ⟨⟩, fun _ => trivial⟩
      | some cs => trivial
  | writeBlockInit cs chunk => exact honNet (writeBlockInit_answered cs chunk)
  | writeBlock cs chunk writeid blockno offset block =>
      exact honNet (writeBlock_answered cs chunk writeid blockno offset block)
  | giveBack cs => exact ⟨by rintro ⟨⟩, fun _ => trivial⟩
  | delete cs => exact ⟨by rintro ⟨⟩, fun _ => trivial⟩
  | writeChunkEnd chunkid inode length => exact honMaster _
  | forever => exact absurd rfl ho

end Answered

/-- The write carries out these calls of the plan. -/
abbrev CarriesOut (crc_32 : Bytes → UInt32) (t : Trace WriteCall WriteCall.Answer)
    (t' : ClientTrace) : Prop :=
  Carries (stateless (WriteCall.perform crc_32)) () t t' ()

/-- Chunk by chunk and block by block the whole range has been written. -/
structure WritesRange (self : File) (data : Bytes) (t : Trace WriteCall WriteCall.Answer)
    (result : ℕ × File) : Prop where
  calls : ∃ rs : List ChunkRound, t = rs.flatMap (ChunkRound.calls self.inode_) ∧
    ChunksFit self.position_ data self.position_ (self.position_ + data.length) rs
  result_eq : result =
    (uint32 data.length, { self with position_ := self.position_ + data.length })

/-- What has to hold of a run of `Write`, under way or complete. -/
structure WritesPlanned (crc_32 : Bytes → UInt32) (rounds : ℕ) (self : File) (data : Bytes)
    (t' : ClientTrace) : Prop where
  complete : ∀ result, (self.write crc_32 rounds data).Runs t' result →
    ∃ t, CarriesOut crc_32 t t' ∧ ((∀ e ∈ t, Succeeds e) → WritesRange self data t result)
  ends : (self.write crc_32 rounds data).Waits t' (.net .forever) →
    ∃ t t₁ t₂, t' = t₁ ++ t₂ ∧ CarriesOut crc_32 t t₁ ∧ ∃ e ∈ t, ¬ Succeeds e

/-- A run of a program and a function behind it. -/
theorem runs_bind_ret {α β : Type} {p : Client α} {g : α → β} {t : ClientTrace} {b : β} :
    (p >>= fun a => ret (g a)).Runs t b ↔ ∃ a, p.Runs t a ∧ b = g a := by
  rw [runs_bind]
  constructor
  · rintro ⟨t₁, t₂, a, rfl, hp, rfl, rfl⟩
    exact ⟨a, (List.append_nil t₁).symm ▸ hp, rfl⟩
  · rintro ⟨a, hp, rfl⟩
    exact ⟨t, [], a, (List.append_nil t).symm, hp, rfl, rfl⟩

/-- **A write partitions its range.** Where its calls succeed, `Write` writes each byte of
the range once, in pieces that follow one after the other inside the blocks, closes each
chunk with the end of what has been written, and ends behind the range.
SOURCE: moose.cc:1148-1253, 1351-1440 -/
theorem write_partitions {crc_32 : Bytes → UInt32} {rounds : ℕ} {self : File} {data : Bytes}
    {t' : ClientTrace}
    (hdata : 1 ≤ data.length) (hend : self.position_ + data.length < 2 ^ 57 - 2 ^ 26)
    (hrounds : data.length < rounds) : WritesPlanned crc_32 rounds self data t' := by
  have hne : data ≠ [] := List.ne_nil_of_length_pos hdata
  have hplan : (planWrite rounds self data).lower (stateless (WriteCall.perform crc_32)) () =
      self.write crc_32 rounds data >>= fun r => ret (r, ()) := lower_planWrite hne hend
  have hlt : self.position_ < self.position_ + data.length := by omega
  constructor
  case complete =>
    intro result hruns
    have hlower : ((planWrite rounds self data).lower
        (stateless (WriteCall.perform crc_32)) ()).Runs t' (result, ()) := by
      rw [hplan]
      exact runs_bind_ret.mpr ⟨result, hruns, rfl⟩
    obtain ⟨t, ht, hcarries⟩ := runs_lower.mp hlower
    refine ⟨t, hcarries, fun hok => ?_⟩
    obtain ⟨t₁, t₂, reached, rfl, hchunks, hret⟩ := runs_bind.mp ht
    obtain ⟨rfl, rs, rfl, hrs⟩ := planChunks_runs le_rfl hlt hchunks
      fun e he => hok e (List.mem_append_left _ he)
    obtain ⟨rfl, rfl⟩ := hret
    exact ⟨⟨rs, List.append_nil _, hrs⟩, rfl⟩
  case ends =>
    intro hwaits
    have hlower : ((planWrite rounds self data).lower
        (stateless (WriteCall.perform crc_32)) ()).Waits t' (.net .forever) := by
      rw [hplan]
      exact waits_bind.mpr (.inl hwaits)
    obtain ⟨t, t₁, t₂, s₁, o, rfl, hcarries, ht, hcall⟩ := waits_lower hlower
    refine ⟨t, t₁, t₂, rfl, hcarries, ?_⟩
    by_cases ho : o = .forever
    swap
    · -- the call comes to an end
      obtain hperform | ⟨t₃, t₄, x, -, -, hno⟩ := waits_bind.mp hcall
      · exact absurd rfl (hperform.calls (perform_answered ho))
      · exact hno.elim
    · rw [ho] at ht
      obtain hchunks | ⟨t₃, t₄, reached, rfl, -, hno⟩ := waits_bind.mp ht
      · exact planChunks_waits le_rfl hlt (by omega) hchunks
      · cases reached <;> exact hno.elim

/-- What a write of one byte to a chunk of inode 7 does, where the chunk server hands out the write
id 5. -/
def byteCalls (chunk_index blockno offset length : ℕ) (byte : UInt8) : ClientTrace :=
  [⟨.master (.send (.writeChunk 7 chunk_index)), some (lengthReply 1)⟩,
    ⟨.create 0 0 false, some server⟩,
    ⟨.net (.alloc 20), newMemory (List.replicate 20 255)⟩,
    ⟨.net (.write 4 (put32bit CUTOCS_WRITE ++ put32bit 12 ++ put64bit 0 ++ put32bit 0)), (20 : ℤ)⟩,
    ⟨.net (.alloc 21), newMemory (List.replicate 21 255)⟩,
    ⟨.net (.read 4 0 21), Received.whole (put64bit 0 ++ put64bit 0 ++ put32bit 5 ++ put8bit 0)⟩,
    ⟨.net (.write 4 (put32bit CUTOCS_WRITE_DATA ++ put32bit 25 ++ put64bit 0 ++ put32bit 5 ++
      put16bit blockno ++ put16bit offset ++ put32bit 1 ++
      put32bit (mycrc32 bitwiseCrc [byte]))), (32 : ℤ)⟩,
    ⟨.net (.write 4 [byte]), (1 : ℤ)⟩,
    ⟨.net (.alloc 21), newMemory (List.replicate 21 255)⟩,
    ⟨.net (.read 4 0 21), Received.whole (put64bit 0 ++ put64bit 0 ++ put32bit 5 ++ put8bit 0)⟩,
    ⟨.giveBack server false, ()⟩,
    ⟨.master (.send (.writeChunkEnd 0 7 length)), some ⟨1, fun _ => 0⟩⟩]

/-- A write of two bytes goes on into the second chunk. -/
def twoChunkWrite : ClientTrace :=
  byteCalls 0 1023 65535 (2 ^ 26) 97 ++ byteCalls 1 0 0 (2 ^ 26 + 1) 98

/-- The example writes two bytes over the end of a chunk. -/
theorem twoChunkWrite_runs : (File.write bitwiseCrc 3 beforeBoundary [97, 98]).Runs twoChunkWrite
    (2, { position_ := 2 ^ 26 + 1, inode_ := 7 }) := by
  iterate 24 refine ⟨_, _, rfl, ?_⟩
  exact ⟨rfl, rfl⟩

/-- The last byte of a chunk and the first byte of the next one.
SOURCE: moose.cc:1350-1440 -/
theorem write_partitions_twoChunks :
    (File.write bitwiseCrc 3 beforeBoundary [97, 98]).Runs twoChunkWrite
        (2, { position_ := 2 ^ 26 + 1, inode_ := 7 }) ∧
      WritesPlanned bitwiseCrc 3 beforeBoundary [97, 98] twoChunkWrite :=
  ⟨twoChunkWrite_runs, write_partitions (by decide) (by norm_num [beforeBoundary]) (by decide)⟩

end Moose

end BundleStore
