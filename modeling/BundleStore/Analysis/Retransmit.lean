import BundleStore.Lib.Runs
import BundleStore.Model.MasterConnection

set_option autoImplicit false

/-!
# What a retransmission sends

The reply is read into the buffer that the request is written from, so what an
attempt sends is whatever the attempts before it have left there. A write that
fails with `-1`, or writes a part of the request, counts as done, and an attempt
is made even when no connection could be obtained.
-/

namespace BundleStore

namespace Moose

/-- The calls of a run on the network. -/
abbrev NetTrace : Type := Prog.Trace NetCall NetCall.Answer

/-- What the calls of a run have come to: the bytes in the buffer, the connection
that is there and registered, and whether anything has been written. -/
structure Wire where
  mem : Bytes
  sock : Option ℤ
  wrote : Bool := false

/-- What the answer to a call changes. -/
def Wire.step (s : Wire) : (o : NetCall) → o.Answer → Wire
  | .connectMaster, some (sock, _) => { s with sock := some sock }
  | .connectMaster, none => s
  | .write _ _, _ => { s with wrote := true }
  | .read _ pos _, received => { s with mem := ByteSeq.overwrite 0 s.mem pos received.data }
  | .alloc _, mem => { s with mem := mem.val }
  | .close fd, _ => { s with sock := if s.sock = some fd then none else s.sock }
  | .shutdown _, _ => s
  | .sleep, _ => s
  | .time, _ => s
  | .socket, _ => s
  | .connect _ _, _ => s

/-- A write sends the first bytes of the buffer, to the connection that is there
or else to descriptor zero. -/
def wire (used : ℕ) : Prog.Monitor NetCall NetCall.Answer Wire where
  step o a s := s.step o a
  Allows o s :=
    match o with
    | .write fd data => data = s.mem.take used ∧ fd = s.sock.getD 0
    | _ => True

/-- The start of a call: a `master_socket_` that is not zero is connected and
registered. -/
def Wire.start (self : MasterServer) (buf : Buffer) : Wire where
  mem := buf.mem
  sock := if self.master_socket_ = 0 then none else some self.master_socket_

/-- Each write sends the request, the whole of it or nothing, to a connection that
is there and registered. -/
def SendsRequest (self : MasterServer) (buf : Buffer) (t : NetTrace) : Prop :=
  ∀ t₁ fd data (k : ℤ) t₂, t = t₁ ++ ⟨.write fd data, k⟩ :: t₂ →
    data = buf.data ∧ (k = 0 ∨ k = buf.data.length) ∧
      ((wire buf.used).after (Wire.start self buf) t₁).sock = some fd

/-- No connection is there at the start, and none is obtained. -/
def NoConnection (self : MasterServer) (t : NetTrace) : Prop :=
  self.master_socket_ = 0 ∧ ∀ link, (⟨.connectMaster, some link⟩ : Σ o, NetCall.Answer o) ∉ t

/-- At each write a connection is there, the write is complete or writes nothing,
and what has been read since the first one has left the request as it was. -/
def BufferIntact (self : MasterServer) (buf : Buffer) (t : NetTrace) : Prop :=
  ∀ t₁ fd data (k : ℤ) t₂, t = t₁ ++ ⟨.write fd data, k⟩ :: t₂ →
    ((wire buf.used).after (Wire.start self buf) t₁).mem.take buf.used = buf.data ∧
      (k = 0 ∨ k = buf.data.length) ∧
      ((wire buf.used).after (Wire.start self buf) t₁).sock ≠ none

/-! ## What the code writes -/

/-- The buffer and the connection are as the calls have left them. -/
structure InStep (used : ℕ) (socket : ℤ) (wrote : Bool) (buf : Buffer) (s : Wire) : Prop where
  mem : buf.mem = s.mem
  used_eq : buf.used = used
  socket_eq : socket = s.sock.getD 0
  wrote_eq : s.wrote = wrote

section Steps

variable {used : ℕ} {socket : ℤ} {wrote : Bool} {buf : Buffer} {s : Wire}

/-- `Alloca` keeps what is written in step.
SOURCE: moose.cc:65-79 -/
theorem alloca_passes (h : InStep used socket wrote buf s) (len : ℕ) :
    (wire used).Passes (fun buf s => InStep used socket wrote buf s) (buf.alloca len) s := by
  unfold Buffer.alloca
  apply Prog.Monitor.Passes.ite
  · intro _
    exact ⟨trivial, fun mem => ⟨rfl, h.used_eq, h.socket_eq, h.wrote_eq⟩⟩
  · intro _
    exact h

/-- The loop of `tcptoread` keeps what is written in step. -/
theorem tcptoreadLoop_passes (fd : ℤ) (pos leng rounds rcvd : ℕ)
    (h : InStep used socket wrote buf s) :
    (wire used).Passes (fun r s => InStep used socket wrote r.2 s)
      (tcptoreadLoop fd pos leng rounds rcvd buf) s := by
  induction rounds generalizing rcvd buf s with
  | zero => exact h
  | succ rounds ih =>
      unfold tcptoreadLoop
      apply Prog.Monitor.Passes.ite
      · intro _
        refine ⟨trivial, fun i => ?_⟩
        apply Prog.Monitor.Passes.ite
        · intro hret
          have hdata : i.data = [] := by
            have hlength := i.length_eq
            rw [Int.toNat_of_nonpos hret] at hlength
            exact List.length_eq_zero_iff.mp hlength
          refine ⟨?_, h.used_eq, h.socket_eq, h.wrote_eq⟩
          simp [wire, Wire.step, hdata, h.mem]
        · intro _
          refine ih _ ⟨?_, h.used_eq, h.socket_eq, h.wrote_eq⟩
          simp [wire, Wire.step, Buffer.store, h.mem]
      · intro _
        exact h

/-- `tcptoread` keeps what is written in step. -/
theorem tcptoread_passes (fd : ℤ) (pos leng : ℕ) (h : InStep used socket wrote buf s) :
    (wire used).Passes (fun r s => InStep used socket wrote r.2 s)
      (tcptoread fd buf pos leng) s :=
  tcptoreadLoop_passes fd pos leng leng 0 h

/-- The reading of a header keeps what is written in step.
SOURCE: moose.cc:206-227 -/
theorem readHeader_passes (fd : ℤ) (rounds : ℕ) (h : InStep used socket wrote buf s) :
    (wire used).Passes (fun r s => InStep used socket wrote r.2 s)
      (readHeader fd rounds buf) s := by
  induction rounds generalizing buf s with
  | zero => exact ⟨trivial, fun x => x.elim⟩
  | succ rounds ih =>
      unfold readHeader
      apply Prog.Monitor.Passes.bind (tcptoread_passes fd 0 8 h)
      rintro ⟨ret, buf⟩ s h
      apply Prog.Monitor.Passes.ite
      · intro _
        exact h
      · intro _
        apply Prog.Monitor.Passes.ite
        · intro _
          apply Prog.Monitor.Passes.bind (tcptoread_passes fd 0 4 h)
          rintro ⟨ret, buf⟩ s h
          exact ih h
        · intro _
          exact h

/-- Reading a command only stores what has been read. -/
theorem readCommand_passes (rounds : ℕ) (fd : ℤ) (h : InStep used socket wrote buf s) :
    (wire used).Passes (fun r s => InStep used socket wrote r.2 s)
      (readCommand rounds fd buf) s := by
  unfold readCommand
  apply Prog.Monitor.Passes.bind (alloca_passes h 8)
  intro buf s h
  apply Prog.Monitor.Passes.bind (readHeader_passes fd rounds h)
  rintro ⟨header, buf⟩ s h
  cases header with
  | none => exact h
  | some header =>
      obtain ⟨cmd, length⟩ := header
      apply Prog.Monitor.Passes.ite
      · intro _
        exact h
      · intro _
        apply Prog.Monitor.Passes.bind (alloca_passes h (8 + length))
        intro buf s h
        apply Prog.Monitor.Passes.bind (tcptoread_passes fd 8 length h)
        rintro ⟨ret, buf⟩ s h
        exact h

end Steps

section Connection

variable {used : ℕ} {wrote : Bool} {self : MasterServer} {buf : Buffer} {s : Wire}

/-- The loop of connections keeps what is written in step, by induction on its rounds.
SOURCE: moose.cc:348-355 -/
theorem connectLoop_passes (retry : ℕ) (h : InStep used self.master_socket_ wrote buf s) :
    (wire used).Passes (fun self s => InStep used self.master_socket_ wrote buf s)
      (self.connectLoop retry) s := by
  induction retry generalizing s with
  | zero => exact h
  | succ retry ih =>
      refine ⟨trivial, fun answer => ?_⟩
      cases answer with
      | some link => exact ⟨h.mem, h.used_eq, rfl, h.wrote_eq⟩
      | none => exact ⟨trivial, fun _ => ih h⟩

/-- `EnsureConnect` keeps what is written in step.
SOURCE: moose.cc:340-359 -/
theorem ensureConnect_passes (h : InStep used self.master_socket_ wrote buf s) :
    (wire used).Passes (fun self s => InStep used self.master_socket_ wrote buf s)
      self.ensureConnect s := by
  unfold MasterServer.ensureConnect
  apply Prog.Monitor.Passes.ite
  · intro _
    exact h
  · intro _
    apply Prog.Monitor.Passes.ite
    · intro _
      exact h
    · intro _
      refine ⟨trivial, fun answer => ?_⟩
      cases answer with
      | some link => exact ⟨h.mem, h.used_eq, rfl, h.wrote_eq⟩
      | none =>
          refine ⟨trivial, fun _ => ?_⟩
          apply Prog.Monitor.Passes.bind (connectLoop_passes 10 h)
          intro self s h
          exact ⟨trivial, fun now => h⟩

/-- `Disconnect` keeps what is written in step.
SOURCE: moose.cc:361-373 -/
theorem disconnect_passes (h : InStep used self.master_socket_ wrote buf s) :
    (wire used).Passes (fun self s => InStep used self.master_socket_ wrote buf s)
      self.disconnect s := by
  unfold MasterServer.disconnect
  apply Prog.Monitor.Passes.ite
  · intro hsocket
    refine ⟨trivial, fun _ => ⟨trivial, fun _ => ⟨h.mem, h.used_eq, ?_, h.wrote_eq⟩⟩⟩
    have hsock : s.sock = some self.master_socket_ := by
      have heq := h.socket_eq
      cases hs : s.sock with
      | none =>
          rw [hs] at heq
          exact absurd heq hsocket
      | some sock =>
          rw [hs] at heq
          exact congrArg some heq.symm
    simp [wire, Wire.step, hsock]
  · intro _
    exact h

/-- An attempt writes, and hands on a buffer in step with what it has read. -/
theorem sendLoop_passes (rounds retry : ℕ) (h : InStep used self.master_socket_ wrote buf s)
    (hwrote : wrote = true ∨ retry ≠ 0) :
    (wire used).Passes (fun _ s => s.wrote = true)
      (MasterServer.sendLoop rounds retry self buf) s := by
  induction retry generalizing wrote self buf s with
  | zero =>
      obtain rfl | hretry := hwrote
      · exact h.wrote_eq
      · exact absurd rfl hretry
  | succ retry ih =>
      have hdata : buf.data = s.mem.take used := by rw [Buffer.data, h.mem, h.used_eq]
      have hagain : ∀ {self : MasterServer} {buf : Buffer} {s : Wire},
          InStep used self.master_socket_ true buf s →
          (wire used).Passes (fun _ s => s.wrote = true) (do
            let self ← self.disconnect
            let self ← self.ensureConnect
            MasterServer.sendLoop rounds retry self buf) s := by
        intro self buf s h
        apply Prog.Monitor.Passes.bind (disconnect_passes h)
        intro self s h
        apply Prog.Monitor.Passes.bind (ensureConnect_passes h)
        intro self s h
        exact ih h (.inl rfl)
      refine ⟨⟨hdata, h.socket_eq⟩, fun ret => ?_⟩
      have hnext : InStep used self.master_socket_ true buf
          ((wire used).step (.write self.master_socket_ buf.data) ret s) :=
        ⟨h.mem, h.used_eq, h.socket_eq, rfl⟩
      apply Prog.Monitor.Passes.ite
      · intro _
        exact hagain hnext
      · intro _
        apply Prog.Monitor.Passes.bind (readCommand_passes rounds _ hnext)
        rintro ⟨command, buf⟩ s h
        apply Prog.Monitor.Passes.ite
        · intro _
          exact h.wrote_eq
        · intro _
          exact hagain h

/-- Every write of `SendAndReceive` sends what is in the buffer, and there is one. -/
theorem sendAndReceive_passes (rounds : ℕ) (self : MasterServer) (buf : Buffer) (expect_cmd : ℕ) :
    (wire buf.used).Passes (fun _ s => s.wrote = true)
      (self.sendAndReceive rounds buf expect_cmd) (Wire.start self buf) := by
  have hstart : InStep buf.used self.master_socket_ false buf (Wire.start self buf) := by
    refine ⟨rfl, rfl, ?_, rfl⟩
    by_cases hsocket : self.master_socket_ = 0
    · simp [Wire.start, hsocket]
    · simp [Wire.start, hsocket]
  unfold MasterServer.sendAndReceive
  apply Prog.Monitor.Passes.bind (ensureConnect_passes hstart)
  intro self' s h
  apply Prog.Monitor.Passes.bind (sendLoop_passes rounds 4 h (.inr (by decide)))
  rintro ⟨command, self''⟩ s hwrote
  cases command with
  | none => exact hwrote
  | some command =>
      apply Prog.Monitor.Passes.ite
      · intro _
        exact hwrote
      · intro _
        exact hwrote

end Connection

/-! ## Requests across reconnects -/

/-- A run that has written has a write. -/
theorem exists_write {used : ℕ} {s : Wire} {t : NetTrace} (hs : s.wrote = false)
    (h : ((wire used).after s t).wrote = true) :
    ∃ t₁ fd data k t₂, t = t₁ ++ ⟨.write fd data, k⟩ :: t₂ := by
  induction t generalizing s with
  | nil => exact absurd (hs.symm.trans h) (by decide)
  | cons e t ih =>
      obtain ⟨o, a⟩ := e
      by_cases hwrite : (s.step o a).wrote = true
      · cases o with
        | write fd data => exact ⟨[], fd, data, a, t, rfl⟩
        | connectMaster => cases a <;> exact absurd (hs.symm.trans hwrite) (by decide)
        | read => exact absurd (hs.symm.trans hwrite) (by decide)
        | alloc => exact absurd (hs.symm.trans hwrite) (by decide)
        | shutdown => exact absurd (hs.symm.trans hwrite) (by decide)
        | close => exact absurd (hs.symm.trans hwrite) (by decide)
        | sleep => exact absurd (hs.symm.trans hwrite) (by decide)
        | time => exact absurd (hs.symm.trans hwrite) (by decide)
        | socket => exact absurd (hs.symm.trans hwrite) (by decide)
        | connect => exact absurd (hs.symm.trans hwrite) (by decide)
        | forever => exact a.elim
      · have hfalse : (s.step o a).wrote = false := eq_false_of_ne_true hwrite
        obtain ⟨t₁, fd, data, k, t₂, rfl⟩ := ih hfalse h
        exact ⟨⟨o, a⟩ :: t₁, fd, data, k, t₂, rfl⟩

/-- Without a connection there is no socket. -/
theorem sock_of_noConnection {used : ℕ} {s : Wire} {t : NetTrace} (hs : s.sock = none)
    (h : ∀ link, (⟨.connectMaster, some link⟩ : Σ o, NetCall.Answer o) ∉ t) :
    ((wire used).after s t).sock = none := by
  induction t generalizing s with
  | nil => exact hs
  | cons e t ih =>
      have hstep : (s.step e.1 e.2).sock = none := by
        obtain ⟨o, a⟩ := e
        cases o with
        | connectMaster =>
            cases a with
            | none => exact hs
            | some link => exact absurd List.mem_cons_self (h link)
        | close fd => simp [Wire.step, hs]
        | write => exact hs
        | read => exact hs
        | alloc => exact hs
        | shutdown => exact hs
        | sleep => exact hs
        | time => exact hs
        | socket => exact hs
        | connect => exact hs
        | forever => exact a.elim
      exact ih hstep fun link hmem => h link (List.mem_cons_of_mem e hmem)

/-- **Requests across reconnects.** However far the call has come, its writes are
the request exactly when the buffer has been left intact; and only then does it
give up without writing where there is no connection.
SOURCE: moose.cc:340-373, 812-850 -/
theorem sends_request_iff (rounds : ℕ) (self : MasterServer) (buf : Buffer) (expect_cmd : ℕ)
    {t : NetTrace} (h : (self.sendAndReceive rounds buf expect_cmd).Makes t) :
    (SendsRequest self buf t ∧
      ∀ r, (self.sendAndReceive rounds buf expect_cmd).Runs t r → NoConnection self t →
        r.1 = none ∧ ∀ fd data (k : ℤ), (⟨.write fd data, k⟩ : Σ o, NetCall.Answer o) ∉ t) ↔
      BufferIntact self buf t := by
  have hpasses := sendAndReceive_passes rounds self buf expect_cmd
  constructor
  · rintro ⟨hsends, -⟩ t₁ fd data k t₂ hsplit
    obtain ⟨hdata, hk, hsock⟩ := hsends t₁ fd data k t₂ hsplit
    obtain ⟨hsent, -⟩ := hpasses.allows h hsplit
    refine ⟨hsent.symm.trans hdata, hk, ?_⟩
    rw [hsock]
    exact Option.some_ne_none fd
  · intro hintact
    refine ⟨?_, ?_⟩
    · intro t₁ fd data k t₂ hsplit
      obtain ⟨hmem, hk, hsock⟩ := hintact t₁ fd data k t₂ hsplit
      obtain ⟨hsent, hfd⟩ := hpasses.allows h hsplit
      refine ⟨hsent.trans hmem, hk, ?_⟩
      obtain ⟨sock, hsock⟩ := Option.ne_none_iff_exists'.mp hsock
      change fd = _ at hfd
      rw [hsock] at hfd ⊢
      exact congrArg some hfd.symm
    · intro r hrun hno
      obtain ⟨t₁, fd, data, k, t₂, rfl⟩ := exists_write rfl (hpasses.result hrun)
      obtain ⟨-, -, hsock⟩ := hintact t₁ fd data k t₂ rfl
      have hnone : (Wire.start self buf).sock = none := by simp [Wire.start, hno.1]
      have hend : ((wire buf.used).after (Wire.start self buf) t₁).sock = none :=
        sock_of_noConnection hnone fun link hmem => hno.2 link (List.mem_append_left _ hmem)
      exact absurd hend hsock

/-- A request of twelve bytes, on connection 5. -/
def requestBuffer : Buffer := { mem := [1, 2, 3, 4, 5, 6, 7, 8, 9, 10, 11, 12], used := 12 }

def connectedMaster : MasterServer :=
  { master_socket_ := 5, session_id_ := 7, hostaddr_ := some [] }

/-- The connection is lost before anything is written, and another one is found. -/
def reconnected : NetTrace :=
  [⟨.write 5 requestBuffer.mem, (0 : ℤ)⟩, ⟨.shutdown 5, ()⟩, ⟨.close 5, ()⟩,
    ⟨.connectMaster, some (6, 7)⟩, ⟨.write 6 requestBuffer.mem, (12 : ℤ)⟩]

/-- A request is sent once more after a reconnect. -/
theorem sends_request_reconnected :
    SendsRequest connectedMaster requestBuffer reconnected := by
  have hmakes : (connectedMaster.sendAndReceive 1 requestBuffer 1).Makes reconnected :=
    .inr ⟨_, _, rfl, .inr ⟨_, _, rfl, .inr ⟨_, _, rfl, .inr ⟨_, _, rfl,
      .inr ⟨_, _, rfl, .inl rfl⟩⟩⟩⟩⟩
  refine ((sends_request_iff 1 connectedMaster requestBuffer 1 hmakes).mpr ?_).1
  intro t₁ fd data k t₂ hsplit
  obtain _ | ⟨e₁, t₁⟩ := t₁
  · cases hsplit
    exact ⟨rfl, .inl rfl, by decide⟩
  injection hsplit with h₁ hsplit
  obtain _ | ⟨e₂, t₁⟩ := t₁
  · cases hsplit
  injection hsplit with h₂ hsplit
  obtain _ | ⟨e₃, t₁⟩ := t₁
  · cases hsplit
  injection hsplit with h₃ hsplit
  obtain _ | ⟨e₄, t₁⟩ := t₁
  · cases hsplit
  injection hsplit with h₄ hsplit
  obtain _ | ⟨e₅, t₁⟩ := t₁
  · cases hsplit
    subst h₁ h₂ h₃ h₄
    exact ⟨rfl, .inr rfl, by decide⟩
  injection hsplit with h₅ hsplit
  cases t₁ <;> cases hsplit

/-- Half of the header of a reply arrives before the connection is lost, and the
request is sent again with these four bytes in front. -/
def overwritten : NetTrace :=
  [⟨.write 5 requestBuffer.mem, (12 : ℤ)⟩,
    ⟨.read 5 0 8, ⟨4, [0, 0, 1, 153], rfl, by decide⟩⟩, ⟨.read 5 4 4, ⟨0, [], rfl, by decide⟩⟩,
    ⟨.shutdown 5, ()⟩, ⟨.close 5, ()⟩, ⟨.connectMaster, some (6, 7)⟩,
    ⟨.write 6 [0, 0, 1, 153, 5, 6, 7, 8, 9, 10, 11, 12], (12 : ℤ)⟩]

/-- A request whose buffer holds part of a reply is sent with it.
SOURCE: moose.cc:820-838 -/
theorem not_sends_request :
    (connectedMaster.sendAndReceive 1 requestBuffer 1).Makes overwritten ∧
      ¬ SendsRequest connectedMaster requestBuffer overwritten := by
  refine ⟨.inr ⟨_, _, rfl, .inr ⟨_, _, rfl, .inr ⟨_, _, rfl, .inr ⟨_, _, rfl, .inr ⟨_, _, rfl,
    .inr ⟨_, _, rfl, .inr ⟨_, _, rfl, .inl rfl⟩⟩⟩⟩⟩⟩⟩, fun h => ?_⟩
  obtain ⟨hdata, -⟩ := h (overwritten.take 6) 6 _ 12 [] rfl
  exact absurd hdata (by decide)

end Moose

end BundleStore
