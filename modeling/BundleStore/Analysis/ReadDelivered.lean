import BundleStore.Analysis.Exchanges
import BundleStore.Analysis.ReadBlocks
import BundleStore.Model.MooseDescriptors

set_option autoImplicit false

/-!
# What a read of a file returns

A read goes from chunk to chunk. A chunk is asked for until a `ReadBlock` succeeds
or `Read` gives up, but for one case: when a `ReadBlock` fails and the client has
not registered for ten seconds, the chunk counts as read. `EFBIG` is returned like
a number of bytes, and a number of bytes like a `uint32_t`.
-/

namespace BundleStore

namespace Moose

open Machine Prog

/-! ## What the replies tell -/

/-- The length of the file that a reply tells; one byte stores nothing. -/
def toldLength (stale : ℕ) (reply : Reply) : ℕ :=
  if reply.length = 1 then stale else get64bit reply.rptr 0

/-- The chunk that a reply tells. -/
def toldChunk (reply : Reply) : Chunk :=
  if reply.length = 1 then {}
  else ⟨get64bit reply.rptr 8, get32bit reply.rptr 16,
    MasterServer.locations reply.rptr (reply.length - 20)⟩

/-- A request for a chunk, and the answer of the master. -/
def askedChunk (inode indx : ℕ) (answer : Option Reply) : Σ o : FileCall, o.Answer :=
  ⟨.master (.send (.readChunk inode indx)), answer⟩

/-- A server that a location has given. -/
def gave (loc : Location) (cs : ChunkServer) : Σ o : FileCall, o.Answer :=
  ⟨.create loc.ip loc.port true, some cs⟩

/-- The calls of `ReadBlock` in a run of a file. -/
def netCalls (v : Trace NetCall NetCall.Answer) : ClientTrace :=
  v.map fun e => ⟨.net e.1, e.2⟩

/-- The calls in between are not requests to the master. -/
def Quiet (t : ClientTrace) : Prop :=
  ∀ e ∈ t, ∀ o, e.1 ≠ .master o

/-- Follows the end of the range: how many rounds are left, and the least of the end
at first and the lengths told since. -/
def lengths (stale : ℕ → ℕ) : Monitor FileCall FileCall.Answer (ℕ × ℕ) where
  step
    | .master (.send (.readChunk _ _)), answer, s =>
        match (answer : Option Reply) with
        | some reply => (s.1 - 1, min s.2 (toldLength (stale (s.1 - 1)) reply))
        | none => s
    | _, _, s => s
  Allows _ _ := True

/-- Where the range ends, by the replies of a run. -/
def leastEnd (stale : ℕ → ℕ) (rounds end_ : ℕ) (t : ClientTrace) : ℕ :=
  ((lengths stale).after (rounds, end_) t).2

/-- The loop over the chunks has come to its end: the last call gives a server back. -/
def Ends (t : ClientTrace) : Prop :=
  ∃ cs, t.getLast? = some ⟨.giveBack cs true, ()⟩

/-- A `ReadBlock` has failed ten seconds or more after the client has registered. -/
def Late (t : ClientTrace) : Prop :=
  ∃ elapsed : ℤ, 10 ≤ elapsed ∧
    (⟨.sinceRegistered .readFailed, elapsed⟩ : Σ o : FileCall, o.Answer) ∈ t

/-- The byte of the file at `p` was received from a server that the master had named
for its chunk, in a block whose checksum was right. -/
def Delivered (crc_32 : Bytes → UInt32) (inode : ℕ) (t : ClientTrace) (p : ℕ) (b : UInt8) : Prop :=
  ∃ t₁ reply u loc cs v w,
    t = t₁ ++ askedChunk inode (p / 2 ^ 26) (some reply) ::
        (u ++ gave loc cs :: (netCalls v ++ w)) ∧
      Quiet u ∧ loc ∈ (toldChunk reply).location ∧
        ServedByte crc_32 cs.socket_ (toldChunk reply) v (p % 2 ^ 26) b

/-- What is asked of a read: the bytes it reports are there, were delivered, and the
position has moved behind them; when it reports none, the position has not moved. -/
structure ReadSound (crc_32 : Bytes → UInt32) (file file' : File) (count n : ℕ)
    (t : ClientTrace) (buf' : Buffer) : Prop where
  delivered : 0 < n → n ≤ count ∧ file'.position_ = file.position_ + n ∧
    ∀ i < n, Delivered crc_32 file.inode_ t (file.position_ + i) (buf'.memAt 0 i)
  nothing : n = 0 → file'.position_ = file.position_

variable {crc_32 : Bytes → UInt32}
variable {t t' u : ClientTrace} {stale : ℕ → ℕ} {rounds end_ inode p : ℕ} {b : UInt8}

/-- A byte that was delivered is delivered by a longer run. -/
theorem Delivered.append_left (h : Delivered crc_32 inode t p b) (u : ClientTrace) :
    Delivered crc_32 inode (u ++ t) p b := by
  obtain ⟨t₁, reply, u₁, loc, cs, v, w, rfl, hrest⟩ := h
  exact ⟨u ++ t₁, reply, u₁, loc, cs, v, w, by rw [List.append_assoc], hrest⟩

/-- A run ends as its last calls do. -/
theorem ends_append (ht : t ≠ []) : Ends (u ++ t) ↔ Ends t := by
  unfold Ends
  rw [List.getLast?_append_of_ne_nil u ht]

/-- A late failure is one of a longer run. -/
theorem Late.append_left (h : Late t) (u : ClientTrace) : Late (u ++ t) := by
  obtain ⟨elapsed, hle, hmem⟩ := h
  exact ⟨elapsed, hle, List.mem_append_right _ hmem⟩

/-- Nobody has told a length. -/
@[simp] theorem leastEnd_nil : leastEnd stale rounds end_ [] = end_ := rfl

/-- A reply with a length may bring the end nearer.
SOURCE: moose.cc:1454-1461 -/
theorem leastEnd_asked {indx : ℕ} {reply : Reply} :
    leastEnd stale (rounds + 1) end_ (askedChunk inode indx (some reply) :: t) =
      leastEnd stale rounds (min end_ (toldLength (stale rounds) reply)) t := rfl

/-- Calls without a reply leave the end. -/
theorem leastEnd_quiet (h : Quiet u) :
    leastEnd stale rounds end_ (u ++ t) = leastEnd stale rounds end_ t := by
  induction u with
  | nil => rfl
  | cons e u ih =>
      have hstep : (lengths stale).step e.1 e.2 (rounds, end_) = (rounds, end_) := by
        obtain ⟨o, a⟩ := e
        cases o with
        | master o => exact absurd rfl (h _ List.mem_cons_self o)
        | _ => rfl
      have hrest := ih fun e' he' => h e' (List.mem_cons_of_mem _ he')
      rw [leastEnd] at hrest ⊢
      rw [List.cons_append, Monitor.after_cons, hstep]
      exact hrest

/-- The end comes only nearer. -/
theorem leastEnd_le : leastEnd stale rounds end_ t ≤ end_ := by
  induction t generalizing rounds end_ with
  | nil => exact le_refl _
  | cons e t ih =>
      have hstep : ((lengths stale).step e.1 e.2 (rounds, end_)).2 ≤ end_ := by
        obtain ⟨o, a⟩ := e
        cases o with
        | master o =>
            cases o with
            | send request =>
                cases request with
                | readChunk =>
                    cases a with
                    | none => exact le_refl _
                    | some reply => exact min_le_left _ _
                | _ => exact le_refl _
            | disconnect => exact le_refl _
        | _ => exact le_refl _
      exact ih.trans hstep

/-- Quiet calls after quiet calls are quiet. -/
theorem Quiet.append (hu : Quiet u) (ht : Quiet t) : Quiet (u ++ t) := by
  intro e he
  obtain he | he := List.mem_append.mp he
  · exact hu e he
  · exact ht e he

/-- A quiet call before quiet calls. -/
theorem Quiet.cons {e : Σ o : FileCall, o.Answer} (he : ∀ o, e.1 ≠ .master o) (ht : Quiet t) :
    Quiet (e :: t) := by
  intro e' he'
  obtain rfl | he' := List.mem_cons.mp he'
  · exact he
  · exact ht e' he'

/-- Calls on the network are quiet. -/
theorem quiet_netCalls (v : Trace NetCall NetCall.Answer) : Quiet (netCalls v) := by
  intro e he o ho
  obtain ⟨e', -, rfl⟩ := List.mem_map.mp he
  cases ho

/-! ## The parts of a round -/

/-- A chunk is asked for in one request. -/
theorem readChunk_runs {indx : ℕ} {r : RpcResult}
    (h : (onMaster (MasterServer.readChunk inode indx true true)).Runs t r) :
    ∃ answer, t = [askedChunk inode indx answer] ∧ (r.1 = STATUS_OK → ∃ reply,
      answer = some reply ∧ (∀ stale, r.2.file_length.getD stale = toldLength stale reply) ∧
        r.2.chunk.getD {} = toldChunk reply) := by
  obtain ⟨t₀, hruns, rfl⟩ := runs_embed.mp h
  obtain ⟨answer, t', rfl, hrest⟩ := runs_op_bind.mp hruns
  cases answer with
  | none =>
      obtain ⟨rfl, rfl⟩ := hrest
      exact ⟨none, rfl, fun hok => by cases hok⟩
  | some reply =>
      by_cases hone : reply.length = 1
      · simp only [hone, if_true] at hrest
        obtain ⟨rfl, rfl⟩ := hrest
        refine ⟨some reply, rfl, fun _ => ⟨reply, rfl, ?_, ?_⟩⟩
        · intro stale
          rw [toldLength, if_pos hone]
          rfl
        · rw [toldChunk, if_pos hone]
          rfl
      · simp only [hone, if_false] at hrest
        obtain ⟨rfl, rfl⟩ := hrest
        refine ⟨some reply, rfl, fun _ => ⟨reply, rfl, ?_, ?_⟩⟩
        · intro stale
          rw [toldLength, if_neg hone]
          rfl
        · rw [toldChunk, if_neg hone]
          rfl

/-- The servers are tried in order; what is found is at one of the locations. -/
theorem findServer_runs {locations : List Location} {r : Option ChunkServer}
    (h : (File.findServer locations).Runs t r) :
    (r = none ∧ ¬ Ends t) ∨ ∃ u loc cs, t = u ++ [gave loc cs] ∧ Quiet u ∧ loc ∈ locations ∧
      r = some cs := by
  induction locations generalizing t with
  | nil =>
      obtain ⟨rfl, rfl⟩ := h
      refine .inl ⟨rfl, ?_⟩
      rintro ⟨cs, hlast⟩
      cases hlast
  | cons loc rest ih =>
      obtain ⟨answer, t', rfl, hrest⟩ := runs_op_bind.mp h
      cases answer with
      | some cs =>
          obtain ⟨rfl, rfl⟩ := hrest
          refine .inr ⟨[], loc, cs, rfl, ?_, List.mem_cons_self, rfl⟩
          intro e he
          cases he
      | none =>
          obtain ⟨rfl, hends⟩ | ⟨u, loc', cs, rfl, hquiet, hmem, rfl⟩ := ih hrest
          · refine .inl ⟨rfl, ?_⟩
            rintro ⟨cs, hlast⟩
            cases t' with
            | nil => cases hlast
            | cons e t' => exact hends ⟨cs, hlast⟩
          · refine .inr ⟨_ :: u, loc', cs, rfl, ?_, List.mem_cons_of_mem _ hmem, rfl⟩
            intro e he
            obtain rfl | he := List.mem_cons.mp he
            · intro o ho
              cases ho
            · exact hquiet e he

/-- `ReadBlock` in a run of a file. -/
theorem readBlock_client {cs : ChunkServer} {chunk : Chunk} {offset size pos : ℕ}
    {buf : Buffer} {r : ℤ × Buffer}
    (h : (onNet (cs.readBlock crc_32 rounds chunk offset size buf pos)).Runs t r) :
    ∃ v, t = netCalls v ∧ (∀ i < pos, r.2.memAt 0 i = buf.memAt 0 i) ∧
      (r.1 = STATUS_OK → ∀ k < size, offset + k < 2 ^ 32 →
        ServedByte crc_32 cs.socket_ chunk v (offset + k) (r.2.memAt 0 (pos + k))) := by
  obtain ⟨v, hruns, rfl⟩ := runs_embed.mp h
  obtain ⟨hkept, hserved⟩ := readBlock_runs hruns
  exact ⟨v, rfl, hkept, hserved⟩

/-- The range of a chunk has been served, or its `ReadBlock` has failed too late to be
tried again. -/
def Filled (crc_32 : Bytes → UInt32) (reply : Reply) (offset size pos : ℕ) (buf' : Buffer)
    (t : ClientTrace) : Prop :=
  Late t ∨ ∃ u loc cs v w, t = u ++ gave loc cs :: (netCalls v ++ w) ∧ Quiet u ∧
    loc ∈ (toldChunk reply).location ∧ ∀ k < size, offset + k < 2 ^ 32 →
      ServedByte crc_32 cs.socket_ (toldChunk reply) v (offset + k) (buf'.memAt 0 (pos + k))

/-- The loop goes on behind a chunk, or ends there. -/
def Goes (crc_32 : Bytes → UInt32) (stale : ℕ → ℕ) (self : File)
    (rounds end_ write_position : ℕ) (chunk_index : ℤ) (pos : ℕ) (buf' : Buffer)
    (t₁ t₂ : ClientTrace) (r : Option ℕ × Buffer) : Prop :=
  let chunk_size := File.chunkSize end_ write_position chunk_index
  let write_position := uint64 (write_position + chunk_size)
  (end_ ≤ write_position ∧ t₂ = [] ∧ Ends t₁ ∧ r = (some write_position, buf')) ∨
    (write_position < end_ ∧ (File.readLoop crc_32 stale self rounds end_ write_position
      (int32 (chunk_index + 1)) buf' (pos + chunk_size)).Runs t₂ r)

section Rounds

variable {self : File} {write_position pos : ℕ} {chunk_index : ℤ} {buf : Buffer}
variable {r : Option ℕ × Buffer}

/-- Behind a chunk the server is given back, and the loop goes on or ends. -/
theorem giveBack_goes {cs : ChunkServer} (t₁ : ClientTrace)
    (h : (do
      Prog.op (FileCall.giveBack cs true)
      let write_position' := uint64 (write_position +
        File.chunkSize end_ write_position chunk_index)
      if end_ ≤ write_position' then pure (some write_position', buf)
      else
        File.readLoop crc_32 stale self rounds end_ write_position' (int32 (chunk_index + 1)) buf
          (pos + File.chunkSize end_ write_position chunk_index) :
      Client (Option ℕ × Buffer)).Runs t r) :
    ∃ t₂, t = ⟨.giveBack cs true, ()⟩ :: t₂ ∧
      Goes crc_32 stale self rounds end_ write_position chunk_index pos buf
        (t₁ ++ [⟨.giveBack cs true, ()⟩]) t₂ r := by
  obtain ⟨⟨⟩, t₂, rfl, h₂⟩ := runs_op_bind.mp h
  refine ⟨t₂, rfl, ?_⟩
  dsimp only at h₂
  split at h₂
  · rename_i hend
    obtain ⟨rfl, rfl⟩ := h₂
    exact .inl ⟨hend, rfl, ⟨cs, List.getLast?_concat⟩, rfl⟩
  · rename_i hend
    exact .inr ⟨not_le.mp hend, h₂⟩

/-- A round gives up, asks for the chunk again, or goes on behind it. -/
theorem readLoop_round
    (h : (File.readLoop crc_32 stale self (rounds + 1) end_ write_position chunk_index
      buf pos).Runs t r) :
    (t ≠ [] ∧ r = (none, buf) ∧ ¬ Ends t) ∨
    ∃ reply t₁ t₂ buf',
      t = askedChunk self.inode_ (uint32 chunk_index) (some reply) :: (t₁ ++ t₂) ∧ Quiet t₁ ∧
      (∀ i < pos, buf'.memAt 0 i = buf.memAt 0 i) ∧
      ((File.readLoop crc_32 stale self rounds (min end_ (toldLength (stale rounds) reply))
          write_position chunk_index buf' pos).Runs t₂ r ∨
        (Filled crc_32 reply (uint32 (File.chunkOffset write_position chunk_index))
            (uint32 (File.chunkSize (min end_ (toldLength (stale rounds) reply)) write_position
              chunk_index)) pos buf' t₁ ∧
          Goes crc_32 stale self rounds (min end_ (toldLength (stale rounds) reply)) write_position
            chunk_index pos buf' t₁ t₂ r)) := by
  obtain ⟨t₁, t₂, ⟨status, out⟩, rfl, hask, h₂⟩ := runs_bind.mp h
  obtain ⟨answer, rfl, htold⟩ := readChunk_runs hask
  dsimp only at h₂
  split at h₂
  · obtain ⟨rfl, rfl⟩ := h₂
    exact .inl ⟨by simp, rfl, by rintro ⟨cs, hlast⟩; cases hlast⟩
  rename_i hstatus
  obtain ⟨reply, rfl, hlength, hchunk⟩ := htold (not_not.mp hstatus)
  simp only [hlength, hchunk] at h₂
  split at h₂
  · obtain ⟨rfl, rfl⟩ := h₂
    exact .inl ⟨by simp, rfl, by rintro ⟨cs, hlast⟩; cases hlast⟩
  split at h₂
  · -- no location
    obtain ⟨elapsed, t₃, rfl, h₃⟩ := runs_op_bind.mp h₂
    split at h₃
    · obtain ⟨⟨⟩, t₄, rfl, h₄⟩ := runs_op_bind.mp h₃
      refine .inr ⟨reply, [_, _], t₄, buf, rfl, ?_, fun _ _ => rfl, .inl h₄⟩
      intro e he o
      simp at he
      obtain rfl | rfl := he <;> rintro ⟨⟩
    · obtain ⟨rfl, rfl⟩ := h₃
      exact .inl ⟨by simp, rfl, by rintro ⟨cs, hlast⟩; cases hlast⟩
  obtain ⟨t₃, t₄, server, rfl, hfind, h₄⟩ := runs_bind.mp h₂
  obtain ⟨rfl, hends⟩ | ⟨u, loc, cs, rfl, hquiet, hloc, rfl⟩ := findServer_runs hfind
  · obtain ⟨rfl, rfl⟩ := h₄
    refine .inl ⟨by simp, rfl, ?_⟩
    rintro ⟨cs, hlast⟩
    rw [List.append_nil] at hlast
    cases t₃ with
    | nil => cases hlast
    | cons e t₃ => exact hends ⟨cs, hlast⟩
  dsimp only at h₄
  obtain ⟨t₅, t₆, ⟨ret, buf₁⟩, rfl, hblock, h₆⟩ := runs_bind.mp h₄
  obtain ⟨v, rfl, hkept, hserved⟩ := readBlock_client hblock
  have hquiet₂ : ∀ {w : ClientTrace}, Quiet w → Quiet (u ++ gave loc cs :: (netCalls v ++ w)) :=
    fun hw => hquiet.append (.cons (by rintro o ⟨⟩) ((quiet_netCalls v).append hw))
  have hquiet₁ : ∀ {e : Σ o : FileCall, o.Answer}, (∀ o, e.1 ≠ .master o) → Quiet [e] :=
    fun he => .cons he (by rintro e ⟨⟩)
  dsimp only at h₆
  split at h₆
  · -- `ReadBlock` has failed
    obtain ⟨⟨⟩, t₇, rfl, h₇⟩ := runs_op_bind.mp h₆
    obtain ⟨elapsed, t₈, rfl, h₈⟩ := runs_op_bind.mp h₇
    split at h₈
    · obtain ⟨⟨⟩, t₉, rfl, h₉⟩ := runs_op_bind.mp h₈
      refine .inr ⟨reply, u ++ gave loc cs :: (netCalls v ++ [⟨.delete cs, ()⟩,
        ⟨.sinceRegistered .readFailed, elapsed⟩, ⟨.sleep, ()⟩]), t₉, buf₁, ?_, ?_, hkept, .inl h₉⟩
      · simp
      · exact hquiet₂ (.cons (by rintro o ⟨⟩) (.cons (by rintro o ⟨⟩) (hquiet₁ (by rintro o ⟨⟩))))
    · rename_i hlate
      obtain ⟨t₉, rfl, hgoes⟩ := giveBack_goes (u ++ gave loc cs :: (netCalls v ++
        [⟨.delete cs, ()⟩, ⟨.sinceRegistered .readFailed, elapsed⟩])) h₈
      refine .inr ⟨reply, _, t₉, buf₁, ?_, ?_, hkept, .inr ⟨.inl ?_, hgoes⟩⟩
      · simp
      · simp only [List.append_assoc, List.cons_append]
        exact hquiet₂ (.cons (by rintro o ⟨⟩) (.cons (by rintro o ⟨⟩) (hquiet₁ (by rintro o ⟨⟩))))
      · exact ⟨elapsed, not_lt.mp hlate, by simp⟩
  · rename_i hok
    obtain ⟨t₇, rfl, hgoes⟩ := giveBack_goes (u ++ gave loc cs :: netCalls v) h₆
    refine .inr ⟨reply, _, t₇, buf₁, ?_, ?_, hkept, .inr ⟨.inr ?_, hgoes⟩⟩
    · simp
    · simp only [List.append_assoc, List.cons_append]
      exact hquiet₂ (hquiet₁ (by rintro o ⟨⟩))
    · exact ⟨u, loc, cs, v, [⟨.giveBack cs true, ()⟩], by simp, hquiet, hloc,
        hserved (not_not.mp hok)⟩

/-! ## Where the chunks end -/

/-- Where the chunk ends, by the `int` that is multiplied for it. -/
def chunkEnd (chunk_index : ℤ) : ℕ := uint64 (int32 (chunk_index + 1) * M64)

/-- The end of a chunk is not wrapped.
SOURCE: moose.cc:1469 -/
theorem chunkEnd_of_lt {n : ℕ} (h : n + 1 < 2 ^ 31) : chunkEnd n = (n + 1) * 2 ^ 26 := by
  have hint : int32 ((n : ℤ) + 1) = (n : ℤ) + 1 := int32_of_range (by omega) (by omega)
  unfold chunkEnd
  rw [hint]
  unfold uint64 M64
  omega

/-- Behind the last chunk of a file of the largest size the `int` overflows. -/
theorem chunkEnd_last : chunkEnd (2 ^ 31 - 1 : ℕ) = 2 ^ 64 - 2 ^ 57 := by
  have hint : int32 (((2 ^ 31 - 1 : ℕ) : ℤ) + 1) = -2 ^ 31 := by
    norm_num [int32, Int.bmod]
  unfold chunkEnd
  rw [hint]
  rfl

/-- Behind a chunk the loop is where the chunk or the range ends. -/
theorem next_position (hend : end_ < 2 ^ 64) :
    uint64 (write_position + File.chunkSize end_ write_position chunk_index) =
      min end_ (chunkEnd chunk_index) := by
  have hlt : min end_ (chunkEnd chunk_index) < 2 ^ 64 := (min_le_left _ _).trans_lt hend
  unfold File.chunkSize
  change
    uint64 (_ + (uint64 (((min end_ (chunkEnd chunk_index) : ℕ) : ℤ) - write_position) : ℕ)) = _
  generalize min end_ (chunkEnd chunk_index) = x at hlt ⊢
  unfold uint64
  omega

/-- The size of a chunk that the range does not end before. -/
theorem chunkSize_of_le (hend : end_ < 2 ^ 64)
    (hle : write_position ≤ min end_ (chunkEnd chunk_index)) :
    File.chunkSize end_ write_position chunk_index =
      min end_ (chunkEnd chunk_index) - write_position := by
  have hlt : min end_ (chunkEnd chunk_index) < 2 ^ 64 := (min_le_left _ _).trans_lt hend
  unfold File.chunkSize
  change uint64 (((min end_ (chunkEnd chunk_index) : ℕ) : ℤ) - write_position) = _
  generalize min end_ (chunkEnd chunk_index) = x at hle hlt ⊢
  unfold uint64
  omega

/-- The offset in a chunk fits into a word.
SOURCE: moose.cc:1468 -/
theorem uint32_chunkOffset :
    uint32 (File.chunkOffset write_position (write_position / 2 ^ 26 : ℕ)) =
      write_position % 2 ^ 26 := by
  unfold File.chunkOffset uint32 uint64 M64
  omega

/-- The chunk behind one that is not the last. -/
theorem next_chunk (h : write_position / 2 ^ 26 + 1 < 2 ^ 31) :
    write_position < (write_position / 2 ^ 26 + 1) * 2 ^ 26 ∧
      (write_position / 2 ^ 26 + 1) * 2 ^ 26 / 2 ^ 26 = write_position / 2 ^ 26 + 1 ∧
        (write_position / 2 ^ 26 + 1) * 2 ^ 26 < 2 ^ 57 := by
  omega

/-- A position below the largest size, and before the end of the range and of the chunk:
it is in the chunk that is asked for, and in the range that is asked of the server. -/
theorem mem_chunk (hend : end_ < 2 ^ 64) (hlt : write_position < 2 ^ 57)
    (hcase : chunkEnd (write_position / 2 ^ 26 : ℕ) < end_ ∨ end_ ≤ 2 ^ 57)
    (hle : write_position ≤ p) (hp : p < end_) (hmax : p < 2 ^ 57)
    (hchunk : p < chunkEnd (write_position / 2 ^ 26 : ℕ)) :
    p / 2 ^ 26 = write_position / 2 ^ 26 ∧
      p - write_position <
        uint32 (File.chunkSize end_ write_position (write_position / 2 ^ 26 : ℕ)) := by
  have hbefore : write_position ≤ min end_ (chunkEnd (write_position / 2 ^ 26 : ℕ)) :=
    le_min (hle.trans hp.le) (hle.trans hchunk.le)
  rw [chunkSize_of_le hend hbefore]
  obtain hinner | hlast := lt_or_ge (write_position / 2 ^ 26 + 1) (2 ^ 31)
  · rw [chunkEnd_of_lt hinner] at hchunk hcase ⊢
    refine ⟨by omega, ?_⟩
    rw [uint32_natCast (by omega)]
    omega
  · have hindex : write_position / 2 ^ 26 = 2 ^ 31 - 1 := by omega
    rw [hindex, chunkEnd_last] at hcase hchunk ⊢
    refine ⟨by omega, ?_⟩
    unfold uint32
    omega

/-! ## Whole reads -/

/-- The loop gives up or comes to the end of the range; what is before the chunk stays. -/
theorem readLoop_runs
    (h : (File.readLoop crc_32 stale self rounds end_ write_position chunk_index buf
      pos).Runs t r) (hend : end_ < 2 ^ 64) :
    t ≠ [] ∧ (∀ i < pos, r.2.memAt 0 i = buf.memAt 0 i) ∧
      ((r.1 = none ∧ ¬ Ends t) ∨ (r.1 = some (leastEnd stale rounds end_ t) ∧ Ends t)) := by
  induction rounds generalizing end_ write_position chunk_index buf pos t with
  | zero =>
      obtain ⟨answer, -⟩ := h
      cases answer
  | succ rounds ih =>
      obtain ⟨hne, rfl, hends⟩ | ⟨reply, t₁, t₂, buf', rfl, hquiet, hkept, hagain | ⟨-, hgoes⟩⟩ :=
        readLoop_round h
      · exact ⟨hne, fun _ _ => rfl, .inl ⟨rfl, hends⟩⟩
      all_goals
        have hend' : min end_ (toldLength (stale rounds) reply) < 2 ^ 64 :=
          (min_le_left _ _).trans_lt hend
        refine ⟨List.cons_ne_nil _ _, ?_⟩
        rw [leastEnd_asked, leastEnd_quiet hquiet, ← List.cons_append]
      · obtain ⟨hne, hsame, hresult⟩ := ih hagain hend'
        rw [ends_append hne]
        exact ⟨fun i hi => (hsame i hi).trans (hkept i hi), hresult⟩
      · obtain ⟨hle, rfl, hends, rfl⟩ | ⟨-, hrest⟩ := hgoes
        · rw [next_position hend'] at hle ⊢
          rw [List.append_nil, leastEnd_nil, min_eq_left (hle.trans (min_le_right _ _))]
          have hne : t₁ ≠ [] := by
            rintro rfl
            obtain ⟨cs, hlast⟩ := hends
            cases hlast
          exact ⟨hkept, .inr ⟨rfl, (ends_append (u := [_]) hne).mpr hends⟩⟩
        · obtain ⟨hne, hsame, hresult⟩ := ih hrest hend'
          rw [ends_append hne]
          exact ⟨fun i hi => (hsame i (by omega)).trans (hkept i hi), hresult⟩

/-- The bytes of a chunk that has been served are delivered. -/
theorem delivered_of_filled {reply : Reply} {t₁ t₂ : ClientTrace} {size i : ℕ}
    (hlt : write_position < 2 ^ 57) (hchunk : p / 2 ^ 26 = write_position / 2 ^ 26)
    (hle : write_position ≤ p) (hsize : p - write_position < size)
    (hi : i = pos + (p - write_position))
    (hfilled : Filled crc_32 reply
      (uint32 (File.chunkOffset write_position (write_position / 2 ^ 26 : ℕ))) size pos buf t₁)
    (hlate : ¬ Late t₁) :
    Delivered crc_32 inode (askedChunk inode (uint32 (write_position / 2 ^ 26 : ℕ)) (some reply) ::
      (t₁ ++ t₂)) p (buf.memAt 0 i) := by
  subst hi
  rw [uint32_chunkOffset] at hfilled
  obtain hlate' | ⟨u, loc, cs, v, w, rfl, hquiet, hloc, hserved⟩ := hfilled
  · exact absurd hlate' hlate
  have hindex : uint32 (write_position / 2 ^ 26 : ℕ) = p / 2 ^ 26 := by
    rw [uint32_natCast (by omega), hchunk]
  have hoffset : write_position % 2 ^ 26 + (p - write_position) = p % 2 ^ 26 := by omega
  have hbyte := hserved (p - write_position) hsize (by omega)
  rw [hoffset] at hbyte
  rw [hindex]
  exact ⟨[], reply, u, loc, cs, v, w ++ t₂, by simp, hquiet, hloc, hbyte⟩

/-- Every byte from the chunk on is delivered when no `ReadBlock` has failed too late. -/
theorem readLoop_delivered
    (h : (File.readLoop crc_32 stale self rounds end_ write_position chunk_index
      buf pos).Runs t r) (hend : end_ < 2 ^ 64) (hpos : write_position = self.position_ + pos)
    (hindex : chunk_index = (write_position / 2 ^ 26 : ℕ)) (hlt : write_position < 2 ^ 57)
    (hlate : ¬ Late t) (hends : Ends t) (hmax : leastEnd stale rounds end_ t ≤ 2 ^ 57)
    {i : ℕ} (hi : pos ≤ i) (hin : self.position_ + i < leastEnd stale rounds end_ t) :
    Delivered crc_32 self.inode_ t (self.position_ + i) (r.2.memAt 0 i) := by
  induction rounds generalizing end_ write_position chunk_index buf pos t with
  | zero =>
      obtain ⟨answer, -⟩ := h
      cases answer
  | succ rounds ih =>
      subst hindex
      obtain ⟨-, -, hnot⟩ | ⟨reply, t₁, t₂, buf', rfl, hquiet, hkept, hcases⟩ := readLoop_round h
      · exact absurd hends hnot
      rw [leastEnd_asked, leastEnd_quiet hquiet] at hmax hin
      have hend' : min end_ (toldLength (stale rounds) reply) < 2 ^ 64 :=
        (min_le_left _ _).trans_lt hend
      generalize min end_ (toldLength (stale rounds) reply) = e at hcases hmax hin hend'
      have hbyte : i = pos + (self.position_ + i - write_position) := by omega
      obtain hagain | ⟨hfilled, hgoes⟩ := hcases
      · -- the chunk is asked for again
        obtain ⟨hne, -⟩ := readLoop_runs hagain hend'
        rw [← List.cons_append] at hlate hends ⊢
        exact (ih hagain hend' hpos rfl hlt (fun hl => hlate (hl.append_left _))
          ((ends_append hne).mp hends) hmax hi hin).append_left _
      have hlate₁ : ¬ Late t₁ := by
        rintro ⟨elapsed, hle, hmem⟩
        exact hlate ⟨elapsed, hle, List.mem_cons_of_mem _ (List.mem_append_left _ hmem)⟩
      obtain ⟨hle, rfl, -, rfl⟩ | ⟨hmore, hrest⟩ := hgoes
      · -- the range ends in this chunk
        rw [next_position hend'] at hle
        rw [leastEnd_nil] at hmax hin
        obtain ⟨hchunk, hsize⟩ := mem_chunk hend' hlt (.inr hmax) (by omega) hin (by omega)
          (by omega)
        exact delivered_of_filled hlt hchunk (by omega) hsize hbyte hfilled hlate₁
      · rw [next_position hend'] at hmore hrest
        have hafter : min e (chunkEnd (write_position / 2 ^ 26 : ℕ)) =
            chunkEnd (write_position / 2 ^ 26 : ℕ) := min_eq_right (by omega)
        rw [hafter] at hmore hrest
        obtain ⟨hne, hsame, -⟩ := readLoop_runs hrest hend'
        have hin' : self.position_ + i < e := hin.trans_le leastEnd_le
        obtain hhere | hbehind := lt_or_ge (self.position_ + i)
          (chunkEnd (write_position / 2 ^ 26 : ℕ))
        · obtain ⟨hchunk, hsize⟩ :=
            mem_chunk hend' hlt (.inl hmore) (by omega) hin' (by omega) hhere
          have hplace :
              i < pos + File.chunkSize e write_position (write_position / 2 ^ 26 : ℕ) := by
            rw [chunkSize_of_le hend' (by omega), hafter]
            omega
          rw [hsame i hplace]
          exact delivered_of_filled hlt hchunk (by omega) hsize hbyte hfilled hlate₁
        · -- behind the last chunk nothing is below the largest size
          have hinner : write_position / 2 ^ 26 + 1 < 2 ^ 31 := by
            by_contra hlast
            have hindex : write_position / 2 ^ 26 = 2 ^ 31 - 1 := by omega
            rw [hindex, chunkEnd_last] at hbehind
            omega
          have hnext : int32 (((write_position / 2 ^ 26 : ℕ) : ℤ) + 1) =
              ((write_position / 2 ^ 26 + 1 : ℕ) : ℤ) := by
            exact_mod_cast int32_natCast hinner
          obtain ⟨hbefore, hnextIndex, hnextLt⟩ := next_chunk hinner
          have hle : write_position ≤ min e (chunkEnd (write_position / 2 ^ 26 : ℕ)) := by
            rw [hafter, chunkEnd_of_lt hinner]
            exact hbefore.le
          rw [hnext, chunkSize_of_le hend' hle, hafter] at hrest
          rw [chunkEnd_of_lt hinner] at hrest hbehind hmore
          generalize (write_position / 2 ^ 26 + 1) * 2 ^ 26 = next at *
          rw [← List.cons_append] at hlate hends ⊢
          exact (ih hrest hend' (by omega) (congrArg _ hnextIndex.symm) hnextLt
            (fun hl => hlate (hl.append_left _)) ((ends_append hne).mp hends) hmax
            (by omega) hin).append_left _

end Rounds

/-! ## What `Read` returns -/

/-- What the result of `Read` needs to be a number of bytes: a position below the
largest size and, when the loop comes to its end, an end of the range that is neither
before the position nor `2^32` or more behind it. -/
structure InRange (stale : ℕ → ℕ) (rounds : ℕ) (file : File) (count : ℕ) (t : ClientTrace) :
    Prop where
  below : file.position_ < MFS_MAX_FILE_SIZE
  le : Ends t → file.position_ ≤ leastEnd stale rounds (uint64 (file.position_ + count)) t
  lt : Ends t → leastEnd stale rounds (uint64 (file.position_ + count)) t < file.position_ + 2 ^ 32

section Whole

variable {self self' : File} {buf buf' : Buffer} {count n : ℕ}

/-- Below the largest size, `Read` returns nothing or moves to the end of the range. -/
theorem read_runs (h : (self.read crc_32 rounds stale buf count).Runs t (n, self', buf'))
    (hbelow : self.position_ < MFS_MAX_FILE_SIZE) :
    (n = 0 ∧ self' = self ∧ ¬ Ends t) ∨
    (Ends t ∧
      n = uint32 (leastEnd stale rounds (uint64 (self.position_ + count)) t - self.position_) ∧
      self' = { self with
        position_ := leastEnd stale rounds (uint64 (self.position_ + count)) t } ∧
      (File.readLoop crc_32 stale self rounds (uint64 (self.position_ + count)) self.position_
        (self.position_ / 2 ^ 26 : ℕ) buf 0).Runs t
        (some (leastEnd stale rounds (uint64 (self.position_ + count)) t), buf')) := by
  unfold File.read at h
  rw [if_neg (not_le.mpr hbelow)] at h
  obtain ⟨t₁, t₂, ⟨reached, buf₁⟩, rfl, hloop, hrest⟩ := runs_bind.mp h
  obtain ⟨-, -, ⟨hnone, hends⟩ | ⟨hsome, hends⟩⟩ := readLoop_runs hloop (uint64_lt _)
  · obtain rfl : reached = none := hnone
    obtain ⟨rfl, heq⟩ := hrest
    cases heq
    rw [List.append_nil]
    exact .inl ⟨rfl, rfl, hends⟩
  · obtain rfl : reached = some _ := hsome
    obtain ⟨rfl, heq⟩ := hrest
    cases heq
    rw [List.append_nil]
    exact .inr ⟨hends, rfl, rfl, hloop⟩

/-- A read whose result is a number of bytes is right, in every run in which no
`ReadBlock` fails too late and the range ends within the largest size; and no other
result is right.
SOURCE: moose.cc:1442-1529 -/
theorem read_delivers (h : (self.read crc_32 rounds stale buf count).Runs t (n, self', buf')) :
    (InRange stale rounds self count t → (Ends t → ¬ Late t) →
      (Ends t → leastEnd stale rounds (uint64 (self.position_ + count)) t ≤ MFS_MAX_FILE_SIZE) →
        ReadSound crc_32 self self' count n t buf') ∧
      (ReadSound crc_32 self self' count n t buf' → InRange stale rounds self count t) := by
  constructor
  · intro hrange hlate hmax
    obtain ⟨rfl, rfl, -⟩ | ⟨hends, rfl, rfl, hloop⟩ := read_runs h hrange.below
    · exact ⟨fun hpos => absurd hpos (lt_irrefl 0), fun _ => rfl⟩
    have hle := hrange.le hends
    have hlt := hrange.lt hends
    have hmax := hmax hends
    have hlate := hlate hends
    have hbelow := hrange.below
    have hcount : leastEnd stale rounds (uint64 (self.position_ + count)) t ≤
        self.position_ + count := by
      refine leastEnd_le.trans ?_
      unfold uint64
      omega
    have hbytes := fun i => readLoop_delivered (i := i) hloop (uint64_lt _) rfl rfl hbelow hlate
      hends hmax (Nat.zero_le i)
    generalize leastEnd stale rounds (uint64 (self.position_ + count)) t = e at *
    have hn : uint32 ((e : ℤ) - self.position_) = e - self.position_ := by
      rw [← Nat.cast_sub hle]
      exact uint32_natCast (by omega)
    rw [hn]
    refine ⟨fun hpos => ⟨by omega, by simp only; omega, fun i hi => hbytes i (by omega)⟩, ?_⟩
    intro hzero
    simp only
    omega
  · intro hsound
    obtain hbelow | hbeyond := lt_or_ge self.position_ MFS_MAX_FILE_SIZE
    · obtain ⟨rfl, rfl, hends⟩ | ⟨hends, hn, rfl, -⟩ := read_runs h hbelow
      · exact ⟨hbelow, fun he => absurd he hends, fun he => absurd he hends⟩
      obtain hzero | hpos := Nat.eq_zero_or_pos n
      · have heq := hsound.nothing hzero
        dsimp only at heq
        exact ⟨hbelow, fun _ => heq.ge, fun _ => by omega⟩
      · obtain ⟨-, heq, -⟩ := hsound.delivered hpos
        dsimp only at heq
        have hlt : n < 2 ^ 32 := hn ▸ uint32_lt _
        exact ⟨hbelow, fun _ => by omega, fun _ => by omega⟩
    · -- `EFBIG` is returned, and the position stays
      unfold File.read at h
      rw [if_pos hbeyond] at h
      obtain ⟨rfl, heq⟩ := h
      cases heq
      obtain ⟨-, hmoved, -⟩ := hsound.delivered (by decide)
      exact absurd hmoved (by unfold EFBIG; omega)

end Whole

/-- Nothing is delivered unless something is received. -/
theorem Delivered.received (h : Delivered crc_32 inode t p b) : ∃ e ∈ t, ∃ fd pos count,
    e.1 = FileCall.net (.read fd pos count) := by
  obtain ⟨t₁, reply, u, loc, cs, v, w, rfl, -, -, before, packet, after, start, k, hreceived,
    hblock, -⟩ := h
  have hne : Moose.received cs.socket_ v ≠ [] := by
    intro hnil
    have hlength := congrArg List.length (hreceived.symm.trans hnil)
    have hpacket := hblock.length
    simp only [List.length_append, List.length_nil] at hlength
    omega
  obtain ⟨e, he, hbytes⟩ : ∃ e ∈ v, readBytes cs.socket_ e.1 e.2 ≠ [] := by
    by_contra hall
    push Not at hall
    exact hne (List.flatMap_eq_nil_iff.mpr hall)
  obtain ⟨o, answer⟩ := e
  cases o with
  | read fd pos count =>
      refine ⟨⟨.net (.read fd pos count), answer⟩, ?_, fd, pos, count, rfl⟩
      have hmem := List.mem_map_of_mem (f := fun e : Σ o : NetCall, o.Answer =>
        (⟨.net e.1, e.2⟩ : Σ o : FileCall, o.Answer)) he
      simp only [List.mem_append, List.mem_cons]
      exact .inr (.inr (.inr (.inr (.inl hmem))))
  | _ => exact absurd rfl hbytes

/-! ## Two runs -/

/-- A reply for a chunk at one location, of a file with so many bytes. -/
def lengthReply (length : ℕ) : Reply :=
  ⟨26, memory (put64bit length ++ put64bit 0 ++ put32bit 0 ++ put32bit 0 ++ put16bit 0)⟩

def server : ChunkServer := ⟨1, 4, 0, 0⟩

/-- A file of inode 7 that is one byte before the end of its first chunk. -/
abbrev beforeBoundary : File := { position_ := 2 ^ 26 - 1, inode_ := 7 }

/-- The last byte of the first chunk is read. -/
def lastByteRead : ClientTrace :=
  askedChunk 7 0 (some (lengthReply (2 ^ 26 + 1))) :: gave ⟨0, 0⟩ server ::
    (netCalls (rangeAsked (2 ^ 26 - 1) 1 ++ (bytePacket 0 1023 65535 97 97 ++ statusRead)) ++
      [⟨.giveBack server true, ()⟩])

/-- A read of two bytes goes on into the second chunk. -/
def twoChunkRead : ClientTrace :=
  lastByteRead ++ askedChunk 7 1 (some (lengthReply (2 ^ 26 + 1))) :: gave ⟨0, 0⟩ server ::
    (netCalls (rangeAsked 0 1 ++ (bytePacket 1 0 0 98 98 ++ statusRead)) ++
      [⟨.giveBack server true, ()⟩])

/-- The example reads two bytes over the end of a chunk. -/
theorem twoChunkRead_runs :
    (File.read bitwiseCrc 4 (fun _ => 0) beforeBoundary {} 2).Runs twoChunkRead
      (2, { position_ := 2 ^ 26 + 1, inode_ := 7 }, ⟨[97, 98], 0⟩) := by
  -- for each chunk the request, the server, the seven calls of `ReadBlock`, and the server
  -- given back
  iterate 20 refine ⟨_, _, rfl, ?_⟩
  exact ⟨rfl, rfl⟩

/-- A read over the end of a chunk. The end of its range is that of the file.
SOURCE: moose.cc:1442-1529 -/
theorem read_delivers_twoChunks :
    ReadSound bitwiseCrc beforeBoundary { position_ := 2 ^ 26 + 1, inode_ := 7 } 2 2 twoChunkRead
      ⟨[97, 98], 0⟩ := by
  have hend : leastEnd (fun _ => 0) 4 (uint64 (beforeBoundary.position_ + (2 : ℕ)))
      twoChunkRead = 2 ^ 26 + 1 := rfl
  refine (read_delivers twoChunkRead_runs).1 ⟨by decide, fun _ => ?_, fun _ => ?_⟩ ?_ fun _ => ?_
  · rw [hend]
    norm_num [beforeBoundary]
  · rw [hend]
    norm_num [beforeBoundary]
  · rintro - ⟨elapsed, -, hmem⟩
    have hcall := List.mem_map_of_mem (f := Sigma.fst) hmem
    simp [twoChunkRead, lastByteRead, netCalls, rangeAsked, bytePacket, statusRead, askedChunk,
      gave] at hcall
  · rw [hend]
    decide

/-- The write of the request fails, ten seconds after the client has registered. -/
def lateRead : ClientTrace :=
  [askedChunk 7 0 (some (lengthReply 5)), gave ⟨0, 0⟩ server,
    ⟨.net (.write 4 (ChunkServer.readRequest {} 0 5)), (-1 : ℤ)⟩,
    ⟨.delete server, ()⟩, ⟨.sinceRegistered .readFailed, (10 : ℤ)⟩, ⟨.giveBack server true, ()⟩]

/-- Five bytes are reported, and none has been received. -/
theorem not_read_delivers : ¬ ∀ rounds stale self buf count t n self' buf',
    (File.read bitwiseCrc rounds stale self buf count).Runs t (n, self', buf') →
      ReadSound bitwiseCrc self self' count n t buf' := by
  intro hall
  have hruns : (File.read bitwiseCrc 3 (fun _ => 0) { inode_ := 7 } {} 5).Runs lateRead
      (5, { position_ := 5, inode_ := 7 }, {}) := by
    iterate 6 refine ⟨_, _, rfl, ?_⟩
    exact ⟨rfl, rfl⟩
  obtain ⟨-, -, hbytes⟩ := (hall _ _ _ _ _ _ _ _ _ hruns).delivered (by norm_num)
  obtain ⟨e, he, fd, pos, count, hread⟩ := (hbytes 0 (by norm_num)).received
  simp only [lateRead, List.mem_cons, List.not_mem_nil, or_false] at he
  obtain rfl | rfl | rfl | rfl | rfl | rfl := he <;> cases hread

end Moose

end BundleStore
