import BundleStore.Analysis.ReadBlocks
import BundleStore.Model.Registration

set_option autoImplicit false

/-!
# Which registrations are assumed

`Connect` takes every reply for a grant: a refusal is one status byte, whose
memory starts the session id just as well.
-/

namespace BundleStore

namespace Moose

/-- The calls of a run of `Connect`. -/
abbrev RegisterTrace : Type := Prog.Trace RegisterCall RegisterCall.Answer

/-- The length of the reply that grants a new session: the version, the session id, the flags,
the ids that root has and the ids that everybody else is mapped to.
SOURCE: MFSCommunication.h:579-585 -/
def newSessionLength : ℕ := 4 + 4 + 1 + (4 + 4) + (4 + 4)

/-- A successful answer to the registration that goes with the session id: a reply of the
command, which carries a new session, or the status byte `STATUS_OK` for a session that is
taken up again. A new session that is refused has one status byte, too.
SOURCE: MFSCommunication.h:579-592 -/
def Granted (session_id : ℕ) (reply : RegisterReply) : Prop :=
  reply.cmd = MATOCU_FUSE_REGISTER ∧
    if session_id = 0 then reply.length = newSessionLength
    else reply.length = 1 ∧ (get8bit reply.payload 0 : ℤ) = STATUS_OK

/-- The run has read this reply. -/
def Replied (t : RegisterTrace) (reply : RegisterReply) : Prop :=
  ∃ fd, (⟨.readCommand fd, some reply⟩ : Σ o, RegisterCall.Answer o) ∈ t

/-- A connection is assumed only when it is granted; else the socket is closed
and the session stays as it was. -/
structure AssumesGranted (server : MasterServer) (t : RegisterTrace) (ret : Bool)
    (server' : MasterServer) : Prop where
  granted : ret = true ∨ server'.master_socket_ ≠ server.master_socket_ →
    ∃ reply, Replied t reply ∧ Granted server.session_id_ reply
  refused : (∀ reply, Replied t reply → ¬ Granted server.session_id_ reply) →
    ret = false ∧ server'.master_socket_ = server.master_socket_ ∧
      server'.session_id_ = server.session_id_ ∧
      ∀ fd : ℤ, 0 ≤ fd → (⟨.socket, fd⟩ : Σ o, RegisterCall.Answer o) ∈ t →
        (⟨.close fd, ()⟩ : Σ o, RegisterCall.Answer o) ∈ t

variable {self self' : MasterServer} {addr : Bytes} {remember_address : Bool}
variable {t : RegisterTrace} {ret : Bool}

/-- The runs of `Connect`: it fails before any reply and closes its socket, or it
has read a reply and succeeds. -/
theorem connect_runs (h : (self.connect addr remember_address).Runs t (ret, self')) :
    (ret = false ∧ self' = self ∧ (∀ reply, ¬ Replied t reply) ∧
      ∀ fd : ℤ, 0 ≤ fd → (⟨.socket, fd⟩ : Σ o, RegisterCall.Answer o) ∈ t →
        (⟨.close fd, ()⟩ : Σ o, RegisterCall.Answer o) ∈ t) ∨
    (ret = true ∧ ∃ reply, (∀ reply', Replied t reply' ↔ reply' = reply) ∧
      self'.session_id_ = (self.gotRegister reply.payload).session_id_) := by
  obtain ⟨sock, t₁, rfl, h₁⟩ := Prog.runs_op_bind.mp h
  by_cases hsock : sock < 0
  · rw [if_pos hsock] at h₁
    obtain ⟨rfl, heq⟩ := h₁
    cases heq
    refine .inl ⟨rfl, rfl, by simp [Replied], ?_⟩
    intro fd hfd hmem
    rw [List.mem_singleton] at hmem
    cases hmem
    exact absurd hfd (not_le.mpr hsock)
  rw [if_neg hsock] at h₁
  obtain ⟨connected, t₂, rfl, h₂⟩ := Prog.runs_op_bind.mp h₁
  by_cases hconnected : connected < 0
  · rw [if_pos hconnected] at h₂
    obtain ⟨⟨⟩, t₃, rfl, h₃⟩ := Prog.runs_op_bind.mp h₂
    obtain ⟨rfl, heq⟩ := h₃
    cases heq
    exact .inl ⟨rfl, rfl, by simp [Replied], by simp⟩
  rw [if_neg hconnected] at h₂
  obtain ⟨written, t₃, rfl, h₃⟩ := Prog.runs_op_bind.mp h₂
  by_cases hwritten : written = 0
  · rw [if_pos hwritten] at h₃
    obtain ⟨⟨⟩, t₄, rfl, h₄⟩ := Prog.runs_op_bind.mp h₃
    obtain ⟨rfl, heq⟩ := h₄
    cases heq
    exact .inl ⟨rfl, rfl, by simp [Replied], by simp⟩
  rw [if_neg hwritten] at h₃
  obtain ⟨answer, t₄, rfl, h₄⟩ := Prog.runs_op_bind.mp h₃
  cases answer with
  | none =>
      obtain ⟨⟨⟩, t₅, rfl, h₅⟩ := Prog.runs_op_bind.mp h₄
      obtain ⟨rfl, heq⟩ := h₅
      cases heq
      exact .inl ⟨rfl, rfl, by simp [Replied], by simp⟩
  | some reply =>
      obtain ⟨rfl, heq⟩ := h₄
      cases heq
      refine .inr ⟨rfl, reply, fun reply' => by simp [Replied], ?_⟩
      split <;> rfl

/-- Over replies, `Connect` assumes a connection that was granted exactly when no reply that it
reads is anything else than a grant. -/
theorem assumesGranted_iff_replies
    (h : (self.connect addr remember_address).Runs t (ret, self')) :
    AssumesGranted self t ret self' ↔
      ∀ reply, Replied t reply → Granted self.session_id_ reply := by
  obtain ⟨rfl, rfl, hnone, hclosed⟩ | ⟨rfl, reply, hreply, -⟩ := connect_runs h
  · refine iff_of_true ⟨?_, fun _ => ⟨rfl, rfl, rfl, hclosed⟩⟩ fun reply hr => ?_
    · rintro (hret | hsock)
      · cases hret
      · exact absurd rfl hsock
    · exact absurd hr (hnone reply)
  · constructor
    · intro hassumes reply' hr
      obtain ⟨granted, hr', hgranted⟩ := hassumes.granted (.inl rfl)
      rw [(hreply reply').mp hr, ← (hreply granted).mp hr']
      exact hgranted
    · intro hall
      have hr := (hreply reply).mpr rfl
      exact ⟨fun _ => ⟨reply, hr, hall reply hr⟩, fun hno => absurd (hall reply hr) (hno reply hr)⟩

/-- **Registration.** On the network, `Connect` is carried out by the calls of a run over
replies; and such a run assumes a connection that was granted exactly when no reply that it
reads is anything else than a grant.
SOURCE: moose.cc:276-338 -/
theorem assumes_granted_iff {rounds : ℕ} {buf buf' : Buffer}
    {net : Prog.Trace NetCall NetCall.Answer}
    (h : ((self.connect addr remember_address).lower (registerCalls rounds) buf).Runs net
      ((ret, self'), buf')) :
    (∃ t, (self.connect addr remember_address).Runs t (ret, self') ∧
      Prog.Carries (registerCalls rounds) buf t net buf') ∧
    ∀ t, (self.connect addr remember_address).Runs t (ret, self') →
      (AssumesGranted self t ret self' ↔
        ∀ reply, Replied t reply → Granted self.session_id_ reply) :=
  ⟨Prog.runs_lower.mp h, fun _ hrun => assumesGranted_iff_replies hrun⟩

/-! ## First registrations -/

/-- The buffer in which a first registration was sent, with what has been read into it. -/
def answeredBuffer (header payload : Bytes) : Buffer where
  mem := ByteSeq.overwrite 0 (ByteSeq.overwrite 0 (MasterServer.buildRegister {}) 0 header) 8
    payload
  used := 103

/-- A first registration on socket 5 with its reply. -/
def firstSession (reply : RegisterReply) : RegisterTrace :=
  [⟨.socket, (5 : ℤ)⟩, ⟨.connect 5 [], (0 : ℤ)⟩,
    ⟨.write 5 (MasterServer.buildRegister {}), (103 : ℤ)⟩, ⟨.readCommand 5, some reply⟩]

/-- The same on the network, with the bytes of the reply. -/
def firstSessionNet (header payload : Bytes) (hheader : header.length = 8) :
    Prog.Trace NetCall NetCall.Answer :=
  [⟨.socket, (5 : ℤ)⟩, ⟨.connect 5 [], (0 : ℤ)⟩,
    ⟨.alloc 103, ⟨List.replicate 103 0, List.length_replicate⟩⟩,
    ⟨.write 5 (MasterServer.buildRegister {}), (103 : ℤ)⟩,
    ⟨.read 5 0 8, ⟨8, header, hheader, hheader.le⟩⟩,
    ⟨.read 5 8 payload.length, Received.whole payload⟩]

/-- A first registration takes the first word of the reply for the session id.
SOURCE: moose.cc:432-440 -/
theorem runs_firstSession (reply : RegisterReply) :
    (MasterServer.connect {} [] true).Runs (firstSession reply)
      (true,
        { master_socket_ := 5, session_id_ := get32bit reply.payload 0, hostaddr_ := some [] }) :=
  ⟨_, _, rfl, _, _, rfl, _, _, rfl, _, _, rfl, rfl, rfl⟩

/-- The first registration has one reply. -/
theorem replied_firstSession {reply reply' : RegisterReply}
    (h : Replied (firstSession reply) reply') : reply' = reply := by
  obtain ⟨fd, hmem⟩ := h
  simp only [firstSession, List.mem_cons, List.not_mem_nil, or_false] at hmem
  obtain hmem | hmem | hmem | hmem := hmem <;> cases hmem
  rfl

/-- What the reply that grants session 9 carries; the master has version 1.6.16. -/
def grant : Bytes :=
  [0, 1, 6, 16, 0, 0, 0, 9, 0] ++ List.replicate 16 0

def granted : RegisterReply :=
  ⟨401, 25, (answeredBuffer [0, 0, 1, 145, 0, 0, 0, 25] grant).memAt 8⟩

/-- The status byte of a refusal, 22; what the buffer still holds of the registration lies
behind it. -/
def refusal : RegisterReply :=
  ⟨401, 1, (answeredBuffer [0, 0, 1, 145, 0, 0, 0, 1] [22]).memAt 8⟩

set_option maxRecDepth 20000 in
/-- The registration of the example with a full answer. -/
theorem runs_granted :
    ((MasterServer.connect {} [] true).lower (registerCalls 1) {}).Runs
      (firstSessionNet [0, 0, 1, 145, 0, 0, 0, 25] grant rfl)
      ((true, { master_socket_ := 5, session_id_ := 0x010610, hostaddr_ := some [] }),
        answeredBuffer [0, 0, 1, 145, 0, 0, 0, 25] grant) := by
  iterate 6 refine ⟨_, _, rfl, ?_⟩
  exact ⟨rfl, rfl⟩

/-- The master grants session 9; the version is taken for its id. -/
theorem assumes_granted_iff_first :
    AssumesGranted {} (firstSession granted) true
      { master_socket_ := 5, session_id_ := 0x010610, hostaddr_ := some [] } := by
  have hsession : get32bit granted.payload 0 = 0x010610 := by decide +kernel
  have hrun := runs_firstSession granted
  rw [hsession] at hrun
  refine ((assumes_granted_iff runs_granted).2 _ hrun).mpr fun reply hreply => ?_
  rw [replied_firstSession hreply]
  exact ⟨rfl, rfl⟩

set_option maxRecDepth 20000 in
/-- The registration of the example with a refusal. -/
theorem carries_refusal :
    Prog.Carries (registerCalls 1) {} (firstSession refusal)
      (firstSessionNet [0, 0, 1, 145, 0, 0, 0, 1] [22] rfl)
      (answeredBuffer [0, 0, 1, 145, 0, 0, 0, 1] [22]) := by
  have hsend : ((registerCalls 1) (.write 5 (MasterServer.buildRegister {})) {}).Runs
      [⟨.alloc 103, ⟨List.replicate 103 0, List.length_replicate⟩⟩,
        ⟨.write 5 (MasterServer.buildRegister {}), (103 : ℤ)⟩]
      ((103 : ℤ), ⟨MasterServer.buildRegister {}, 103⟩) :=
    ⟨_, _, rfl, _, _, rfl, rfl, rfl⟩
  have hread : ((registerCalls 1) (.readCommand 5) ⟨MasterServer.buildRegister {}, 103⟩).Runs
      [⟨.read 5 0 8, ⟨8, [0, 0, 1, 145, 0, 0, 0, 1], rfl, le_refl 8⟩⟩,
        ⟨.read 5 8 1, ⟨1, [22], rfl, le_refl 1⟩⟩]
      (some refusal, answeredBuffer [0, 0, 1, 145, 0, 0, 0, 1] [22]) :=
    ⟨_, _, rfl, _, _, rfl, rfl, rfl⟩
  have hsocket : (registerCalls 1 .socket {}).Runs [⟨.socket, (5 : ℤ)⟩] ((5 : ℤ), {}) :=
    ⟨_, _, rfl, rfl, rfl⟩
  have hconnect : (registerCalls 1 (.connect 5 []) {}).Runs [⟨.connect 5 [], (0 : ℤ)⟩]
      ((0 : ℤ), {}) :=
    ⟨_, _, rfl, rfl, rfl⟩
  exact .cons hsocket <| .cons hconnect <| .cons hsend <| .cons hread (.nil _)

/-- The status byte of a refusal and the three bytes behind it are taken for a session id. -/
theorem not_assumes_granted :
    ∃ t net buf, (MasterServer.connect {} [] true).Runs t
        (true, { master_socket_ := 5, session_id_ := 0x166A4931, hostaddr_ := some [] }) ∧
      Prog.Carries (registerCalls 1) {} t net buf ∧
      ¬ AssumesGranted {} t true
        { master_socket_ := 5, session_id_ := 0x166A4931, hostaddr_ := some [] } := by
  have hsession : get32bit refusal.payload 0 = 0x166A4931 := by decide +kernel
  have hrun := runs_firstSession refusal
  rw [hsession] at hrun
  refine ⟨_, _, _, hrun, carries_refusal, fun h => ?_⟩
  obtain ⟨reply, hreply, hgranted⟩ := h.granted (.inl rfl)
  rw [replied_firstSession hreply] at hgranted
  exact absurd hgranted.2 (by decide)

end Moose

end BundleStore
