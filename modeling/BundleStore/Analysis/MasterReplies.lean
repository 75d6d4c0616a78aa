import BundleStore.Model.MasterServer

set_option autoImplicit false

/-!
# The statuses the master answers

Every request decodes its reply by hand. Ten of the twelve do it alike;
`Truncate` returns the result of a comparison in place of the status byte, and
`ReadChunk` does not look at the length of what it decodes.
-/

namespace BundleStore

namespace Moose

/-- The requests of `MasterServer` with their arguments; a pointer is given or
null. -/
inductive Rpc
  | lookup (parent : ℕ) (name : Bytes) (inode attr : Bool)
  | getAttr (inode : ℕ)
  | truncate (inode opened attrlength : ℕ) (attr : Bool)
  | access (inode modemask : ℕ)
  | openFile (inode flags : ℕ) (attr : Bool)
  | mknod (parent : ℕ) (name : Bytes) (type mode rdev : ℕ) (inode attr : Bool)
  | mkdir (parent : ℕ) (name : Bytes) (mode : ℕ) (inode attr : Bool)
  | rmdir (parent : ℕ) (name : Bytes)
  | unlink (parent : ℕ) (name : Bytes)
  | readChunk (inode indx : ℕ) (file_length chunk : Bool)
  | writeChunk (inode indx : ℕ) (file_length chunk : Bool)
  | writeChunkEnd (chunkid inode length : ℕ)

namespace Rpc

def run : Rpc → Master RpcResult
  | lookup parent name inode attr => MasterServer.lookup parent name inode attr
  | getAttr inode => MasterServer.getAttr inode
  | truncate inode opened attrlength attr => MasterServer.truncate inode opened attrlength attr
  | access inode modemask => MasterServer.access inode modemask
  | openFile inode flags attr => MasterServer.openFile inode flags attr
  | mknod parent name type mode rdev inode attr =>
      MasterServer.mknod parent name type mode rdev inode attr
  | mkdir parent name mode inode attr => MasterServer.mkdir parent name mode inode attr
  | rmdir parent name => MasterServer.rmdir parent name
  | unlink parent name => MasterServer.unlink parent name
  | readChunk inode indx file_length chunk => MasterServer.readChunk inode indx file_length chunk
  | writeChunk inode indx file_length chunk => MasterServer.writeChunk inode indx file_length chunk
  | writeChunkEnd chunkid inode length => MasterServer.writeChunkEnd chunkid inode length

/-- The lengths, behind the packet id, of the replies that carry what was asked
for; the protocol has none for a request that is answered with a status only. -/
def successLength : Rpc → ℤ → Bool
  | lookup .., length | mknod .., length | mkdir .., length => length == 39
  | getAttr .., length | truncate .., length | openFile .., length => length == 35
  | readChunk .., length | writeChunk .., length => 20 ≤ length && (length - 20) % 6 == 0
  | access .., _ | rmdir .., _ | unlink .., _ | writeChunkEnd .., _ => false

end Rpc

/-- A master that answers every exchange with one reply. -/
def replying (reply : Reply) : Prog.Handler MasterCall MasterCall.Answer (List Request)
  | .send request, sent => (some reply, sent ++ [request])
  | .disconnect, sent => ((), sent)

/-- What a request returns when its exchange brings the reply. -/
def Rpc.result (rpc : Rpc) (reply : Reply) : RpcResult :=
  (rpc.run.run (replying reply) []).1

/-- A status is passed on, success is the master's, and a reply of any other
length is an error that stores nothing. -/
structure FaithfulResult (success : ℤ → Bool) (reply : Reply) (result : RpcResult) : Prop where
  status : reply.length = 1 → result.1 = get8bit reply.rptr 0
  ok : result.1 = STATUS_OK →
    (reply.length = 1 ∧ (get8bit reply.rptr 0 : ℤ) = STATUS_OK) ∨ success reply.length = true
  other : reply.length ≠ 1 → success reply.length = false →
    result.1 ≠ STATUS_OK ∧ result.2 = {}

/-- The replies that the request decodes as the others would. -/
def Rpc.Decodes : Rpc → Reply → Prop
  | truncate .., reply => reply.length ≠ 1
  | readChunk .., reply =>
      reply.length = 1 ∨ (20 ≤ reply.length ∧ (reply.length - 20) % 6 = 0)
  | _, _ => True

/-- What the shared decoding returns. -/
theorem exchange_result (request : Request) (hangup : Bool) (full : ℤ → Bool)
    (outs : Reply → Outputs) (reply : Reply) (sent : List Request) :
    ((MasterServer.exchange request hangup full outs).run (replying reply) sent).1 =
      if reply.length = 1 then ((get8bit reply.rptr 0 : ℤ), {})
      else if full reply.length then (STATUS_OK, outs reply) else ( ERROR_IO, {}) := by
  unfold MasterServer.exchange
  simp only [Prog.op_bind, Prog.run_call, replying]
  by_cases hone : reply.length = 1
  · simp [hone]
  · by_cases hfull : full reply.length = true
    · simp [hone, hfull]
    · cases hangup <;> simp [hone, hfull]

/-- The shared decoding is faithful when it accepts no other length than the
protocol's. -/
theorem exchange_faithful {rpc : Rpc} {request : Request} {hangup : Bool} {full : ℤ → Bool}
    {outs : Reply → Outputs} (reply : Reply)
    (hrun : rpc.run = MasterServer.exchange request hangup full outs)
    (hfull : ∀ length, full length = true → rpc.successLength length = true) :
    FaithfulResult rpc.successLength reply (rpc.result reply) := by
  rw [Rpc.result, hrun, exchange_result]
  by_cases hone : reply.length = 1
  · rw [if_pos hone]
    exact ⟨fun _ => rfl, fun h => .inl ⟨hone, h⟩, fun h => absurd hone h⟩
  · rw [if_neg hone]
    by_cases haccept : full reply.length = true
    · have hsuccess := hfull _ haccept
      rw [if_pos haccept]
      refine ⟨fun h => absurd h hone, fun _ => .inr hsuccess, fun _ h => ?_⟩
      rw [hsuccess] at h
      cases h
    · rw [if_neg haccept]
      have herror : ERROR_IO ≠ STATUS_OK := by decide
      exact ⟨fun h => absurd h hone, fun h => absurd h herror, fun _ _ => ⟨herror, rfl⟩⟩

/-- `Truncate` turns success into failure and every failure into success. -/
theorem truncate_result (inode opened attrlength : ℕ) (attr : Bool) (reply : Reply) :
    (Rpc.truncate inode opened attrlength attr).result reply =
      if reply.length = 1 then
        (if (get8bit reply.rptr 0 : ℤ) = STATUS_OK then 1 else 0, {})
      else if reply.length == 35 && attr then (STATUS_OK, MasterServer.attrOutputs reply)
      else ( ERROR_IO, {}) := by
  unfold Rpc.result Rpc.run MasterServer.truncate
  simp only [Prog.op_bind, Prog.run_call, replying]
  by_cases hone : reply.length = 1
  · simp [hone]
  · by_cases hfull : (reply.length == 35 && attr) = true
    · simp only [hone, hfull, if_true, if_false]
      rfl
    · simp only [hone, hfull, if_false]
      rfl

/-- The result of `ReadChunk`, for a reply of any length.
SOURCE: moose.cc:856-893 -/
theorem readChunk_result (inode indx : ℕ) (file_length chunk : Bool) (reply : Reply) :
    (Rpc.readChunk inode indx file_length chunk).result reply =
      if reply.length = 1 then ((get8bit reply.rptr 0 : ℤ), {})
      else (STATUS_OK, MasterServer.chunkOutputs file_length chunk reply) := by
  unfold Rpc.result Rpc.run MasterServer.readChunk
  simp only [Prog.op_bind, Prog.run_call, replying]
  by_cases hone : reply.length = 1
  · simp [hone]
  · simp [hone]

/-- **The statuses of the master.** A request returns what the master answered,
except that `Truncate` never returns the status it is answered with, and that
`ReadChunk` takes a payload of every length for a chunk.
SOURCE: moose.cc:456-493, 533-764, 856-956 -/
theorem statuses_faithful_iff (rpc : Rpc) (reply : Reply) :
    FaithfulResult rpc.successLength reply (rpc.result reply) ↔ rpc.Decodes reply := by
  cases rpc with
  | truncate inode opened attrlength attr =>
      rw [truncate_result]
      change _ ↔ reply.length ≠ 1
      constructor
      · intro h hone
        have hstatus := h.status hone
        rw [if_pos hone] at hstatus
        by_cases hzero : (get8bit reply.rptr 0 : ℤ) = STATUS_OK
        · rw [if_pos hzero, hzero] at hstatus
          exact absurd hstatus (by decide)
        · rw [if_neg hzero] at hstatus
          exact hzero hstatus.symm
      · intro hone
        rw [if_neg hone]
        by_cases hfull : (reply.length == 35 && attr) = true
        · have hlength := (Bool.and_eq_true_iff.mp hfull).1
          rw [if_pos hfull]
          refine ⟨fun h => absurd h hone, fun _ => .inr hlength, fun _ h => ?_⟩
          exact absurd (hlength.symm.trans h) (by decide)
        · rw [if_neg hfull]
          have herror : ERROR_IO ≠ STATUS_OK := by decide
          exact ⟨fun h => absurd h hone, fun h => absurd h herror, fun _ _ => ⟨herror, rfl⟩⟩
  | readChunk inode indx file_length chunk =>
      rw [readChunk_result]
      change _ ↔ reply.length = 1 ∨ (20 ≤ reply.length ∧ (reply.length - 20) % 6 = 0)
      by_cases hone : reply.length = 1
      · rw [if_pos hone]
        refine iff_of_true ⟨fun _ => rfl, fun h => .inl ⟨hone, h⟩, ?_⟩ (.inl hone)
        exact fun h => absurd hone h
      · rw [if_neg hone]
        have hsuccess : (Rpc.readChunk inode indx file_length chunk).successLength reply.length =
            true ↔ 20 ≤ reply.length ∧ (reply.length - 20) % 6 = 0 := by
          simp [Rpc.successLength]
        constructor
        · intro h
          obtain ⟨hlength, -⟩ | hlength := h.ok rfl
          · exact absurd hlength hone
          · exact .inr (hsuccess.mp hlength)
        · intro h
          have hlength := hsuccess.mpr (h.resolve_left hone)
          refine ⟨fun h => absurd h hone, fun _ => .inr hlength, fun _ h => ?_⟩
          rw [hlength] at h
          cases h
  | openFile inode flags attr =>
      have hrun : (Rpc.openFile inode flags attr).run =
          MasterServer.exchange (.openFile inode flags) true
            (fun length => length == 35 && attr) MasterServer.attrOutputs := rfl
      refine iff_of_true (exchange_faithful reply hrun fun length h => ?_) trivial
      exact (Bool.and_eq_true_iff.mp h).1
  | writeChunk inode indx file_length chunk =>
      refine iff_of_true (exchange_faithful reply rfl fun length h => ?_) trivial
      simpa [MasterServer.chunkLength, Rpc.successLength] using h
  | lookup => exact iff_of_true (exchange_faithful reply rfl fun _ h => h) trivial
  | getAttr => exact iff_of_true (exchange_faithful reply rfl fun _ h => h) trivial
  | access => exact iff_of_true (exchange_faithful reply rfl fun _ h => h) trivial
  | mknod => exact iff_of_true (exchange_faithful reply rfl fun _ h => h) trivial
  | mkdir => exact iff_of_true (exchange_faithful reply rfl fun _ h => h) trivial
  | rmdir => exact iff_of_true (exchange_faithful reply rfl fun _ h => h) trivial
  | unlink => exact iff_of_true (exchange_faithful reply rfl fun _ h => h) trivial
  | writeChunkEnd => exact iff_of_true (exchange_faithful reply rfl fun _ h => h) trivial

/-- A `Truncate` that the master refuses with `ERROR_IO` is reported as done. -/
theorem not_statuses_faithful :
    ¬ FaithfulResult (Rpc.truncate 7 0 0 true).successLength ⟨1, fun _ => 22⟩
      ((Rpc.truncate 7 0 0 true).result ⟨1, fun _ => 22⟩) := by
  intro h
  have hstatus := h.status rfl
  rw [truncate_result] at hstatus
  exact absurd hstatus (by decide)

end Moose

end BundleStore
