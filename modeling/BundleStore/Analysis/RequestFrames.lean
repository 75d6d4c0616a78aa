import BundleStore.Analysis.MasterReplies
import BundleStore.Analysis.Retransmit
import BundleStore.Lib.Fields
import BundleStore.Model.Registration

set_option autoImplicit false

/-!
# What a request looks like on the wire

The layouts are those of MFSCommunication.h. A name of 256 bytes or more does
not fit into its length, and is sent all the same; `Access` hands no byte of its
request to `write`.

SOURCE: src/moosefs/MFSCommunication.h:552-554, 630-785, 921-923
-/

namespace BundleStore

namespace Moose

open Fields

/-! ## The documented layouts -/

/-- The layout of `CUTOMA_FUSE_TRUNCATE` names `opened:8` twice, once in brackets:
the one that is there. -/
inductive OpenedField
  | bracketed
  | plain
  deriving DecidableEq

namespace Request

/-- What follows `msgid:32`. -/
def layout (place : OpenedField) : Request → List Field
  | .access .. => [.num 4, .num 4, .num 4, .num 1]
  | .lookup .. => [.num 4, .name, .num 4, .num 4]
  | .getAttr .. => [.num 4, .num 4, .num 4]
  | .mknod .. => [.num 4, .name, .num 1, .num 2, .num 4, .num 4, .num 4]
  | .mkdir .. => [.num 4, .name, .num 2, .num 4, .num 4]
  | .unlink .. => [.num 4, .name, .num 4, .num 4]
  | .rmdir .. => [.num 4, .name, .num 4, .num 4]
  | .openFile .. => [.num 4, .num 4, .num 4, .num 1]
  | .readChunk .. => [.num 4, .num 4]
  | .writeChunk .. => [.num 4, .num 4]
  | .writeChunkEnd .. => [.num 8, .num 4, .num 8]
  | .truncate .. =>
      match place with
      | .bracketed => [.num 4, .num 1, .num 4, .num 4, .num 8]
      | .plain => [.num 4, .num 4, .num 4, .num 1, .num 8]

/-- The arguments of the call, in the order of the layout. -/
def values (place : OpenedField) : Request → List Value
  | .access inode modemask => [.num inode, .num uid_, .num gid_, .num modemask]
  | .lookup parent name => [.num parent, .name name, .num uid_, .num gid_]
  | .getAttr inode => [.num inode, .num uid_, .num gid_]
  | .mknod parent name type mode rdev =>
      [.num parent, .name name, .num type, .num mode, .num uid_, .num gid_, .num rdev]
  | .mkdir parent name mode => [.num parent, .name name, .num mode, .num uid_, .num gid_]
  | .unlink parent name => [.num parent, .name name, .num uid_, .num gid_]
  | .rmdir parent name => [.num parent, .name name, .num uid_, .num gid_]
  | .openFile inode flags => [.num inode, .num uid_, .num gid_, .num flags]
  | .readChunk inode indx => [.num inode, .num indx]
  | .writeChunk inode indx => [.num inode, .num indx]
  | .writeChunkEnd chunkid inode length => [.num chunkid, .num inode, .num length]
  | .truncate inode opened attrlength =>
      match place with
      | .bracketed => [.num inode, .num opened, .num uid_, .num gid_, .num attrlength]
      | .plain => [.num inode, .num uid_, .num gid_, .num opened, .num attrlength]

/-- The numbers are of the types that the operations declare. -/
def InRange : Request → Prop
  | .access inode modemask => inode < 2 ^ 32 ∧ modemask < 2 ^ 8
  | .lookup parent _ => parent < 2 ^ 32
  | .getAttr inode => inode < 2 ^ 32
  | .mknod parent _ type mode rdev =>
      parent < 2 ^ 32 ∧ type < 2 ^ 8 ∧ mode < 2 ^ 16 ∧ rdev < 2 ^ 32
  | .mkdir parent _ mode => parent < 2 ^ 32 ∧ mode < 2 ^ 16
  | .unlink parent _ => parent < 2 ^ 32
  | .rmdir parent _ => parent < 2 ^ 32
  | .openFile inode flags => inode < 2 ^ 32 ∧ flags < 2 ^ 8
  | .readChunk inode indx => inode < 2 ^ 32 ∧ indx < 2 ^ 32
  | .writeChunk inode indx => inode < 2 ^ 32 ∧ indx < 2 ^ 32
  | .writeChunkEnd chunkid inode length => chunkid < 2 ^ 64 ∧ inode < 2 ^ 32 ∧ length < 2 ^ 64
  | .truncate inode opened attrlength => inode < 2 ^ 32 ∧ opened < 2 ^ 8 ∧ attrlength < 2 ^ 64

/-- What the length of a name is put for. -/
def name : Request → Bytes
  | .lookup _ name => name
  | .mknod _ name _ _ _ => name
  | .mkdir _ name _ => name
  | .unlink _ name => name
  | .rmdir _ name => name
  | _ => []

end Request

/-- What an operation asks the master for. -/
def Rpc.request : Rpc → Request
  | lookup parent name _ _ => .lookup parent name
  | getAttr inode => .getAttr inode
  | truncate inode opened attrlength _ => .truncate inode opened attrlength
  | access inode modemask => .access inode modemask
  | openFile inode flags _ => .openFile inode flags
  | mknod parent name type mode rdev _ _ => .mknod parent name type mode rdev
  | mkdir parent name mode _ _ => .mkdir parent name mode
  | rmdir parent name => .rmdir parent name
  | unlink parent name => .unlink parent name
  | readChunk inode indx _ _ => .readChunk inode indx
  | writeChunk inode indx _ _ => .writeChunk inode indx
  | writeChunkEnd chunkid inode length => .writeChunkEnd chunkid inode length

/-- A frame with these contents: the command, the number of the bytes that follow,
the session id and the arguments. -/
structure Frames (place : OpenedField) (session_id : ℕ) (request : Request) (data : Bytes) :
    Prop where
  header : readAll [.num 4, .num 4] (data.take 8) =
    some [.num request.command, .num (data.length - 8)]
  body : readAll (.num 4 :: request.layout place) (data.drop 8) =
    some (.num session_id :: request.values place)

/-- What has been handed to `write`. -/
def writes (t : NetTrace) : List Bytes :=
  t.filterMap fun
    | ⟨.write _ data, _⟩ => some data
    | _ => none

/-- What is written first is a frame of the request; where there is no such frame,
nothing is written. -/
def WellFormed (place : OpenedField) (session_id : ℕ) (request : Request) (t : NetTrace) : Prop :=
  ((∃ data, Frames place session_id request data) →
    ∀ data ∈ (writes t).head?, Frames place session_id request data) ∧
  ((¬ ∃ data, Frames place session_id request data) → writes t = [])

/-! ## The first write -/

/-- Follows whether anything has been written, and lets these bytes be first. -/
def firstWrite (first : Bytes) : Prog.Monitor NetCall NetCall.Answer Bool where
  step o _ wrote :=
    match o with
    | .write _ _ => true
    | _ => wrote
  Allows o wrote :=
    match o with
    | .write _ data => wrote = false → data = first
    | _ => True

section FirstWrite

variable {α : Type} {first : Bytes}

/-- Nothing is asked of a program behind the first write. -/
theorem passes_wrote (p : Net α) :
    (firstWrite first).Passes (fun _ wrote => wrote = true) p true := by
  induction p with
  | ret a => rfl
  | call o k ih =>
      cases o with
      | write fd data => exact ⟨fun h => absurd h (by decide), ih⟩
      | _ => exact ⟨trivial, ih⟩

/-- The loop of connections writes no request. -/
theorem connectLoop_silent (retry : ℕ) (self : MasterServer) :
    (firstWrite first).Passes (fun _ wrote => wrote = false) (self.connectLoop retry) false := by
  induction retry with
  | zero => rfl
  | succ retry ih =>
      refine ⟨trivial, fun answer => ?_⟩
      cases answer with
      | some link => rfl
      | none => exact ⟨trivial, fun _ => ih⟩

/-- `EnsureConnect` writes no request.
SOURCE: moose.cc:340-359 -/
theorem ensureConnect_silent (self : MasterServer) :
    (firstWrite first).Passes (fun _ wrote => wrote = false) self.ensureConnect false := by
  unfold MasterServer.ensureConnect
  apply Prog.Monitor.Passes.ite
  · intro _
    rfl
  · intro _
    apply Prog.Monitor.Passes.ite
    · intro _
      rfl
    · intro _
      refine ⟨trivial, fun answer => ?_⟩
      cases answer with
      | some link => rfl
      | none =>
          refine ⟨trivial, fun _ => ?_⟩
          apply Prog.Monitor.Passes.bind (connectLoop_silent 10 self)
          rintro self wrote rfl
          exact ⟨trivial, fun now => rfl⟩

/-- The buffer is what goes out first. -/
theorem sendAndReceive_writes_buffer (rounds : ℕ) (self : MasterServer) (buf : Buffer)
    (expect_cmd : ℕ) :
    (firstWrite buf.data).Passes (fun _ wrote => wrote = true)
      (self.sendAndReceive rounds buf expect_cmd) false := by
  unfold MasterServer.sendAndReceive
  apply Prog.Monitor.Passes.bind (ensureConnect_silent self)
  rintro self wrote rfl
  apply Prog.Monitor.Passes.bind (R := fun _ wrote => wrote = true)
  · exact ⟨fun _ => rfl, fun ret => passes_wrote _⟩
  · rintro ⟨command, self⟩ wrote rfl
    exact passes_wrote _

/-- Whatever has been written, these bytes were first. -/
theorem head_writes {p : Net α} {Q : α → Bool → Prop} {t : NetTrace}
    (h : (firstWrite first).Passes Q p false) (ht : p.Makes t) :
    ∀ data ∈ (writes t).head?, data = first := by
  induction p generalizing t with
  | ret a =>
      rw [show t = [] from ht]
      intro data hdata
      cases hdata
  | call o k ih =>
      obtain ⟨hallows, hnext⟩ := h
      obtain rfl | ⟨x, t', rfl, ht'⟩ := ht
      · intro data hdata
        cases hdata
      · cases o with
        | write fd data =>
            intro data' hdata'
            cases hdata'
            exact hallows rfl
        | _ =>
            have hrest := ih x (hnext x) ht'
            exact hrest

/-- A first write is one of the writes. -/
theorem writes_ne_nil {t : NetTrace} (h : (firstWrite first).after false t = true) :
    writes t ≠ [] := by
  induction t with
  | nil => cases h
  | cons e t ih =>
      obtain ⟨o, x⟩ := e
      cases o with
      | write fd data => exact List.cons_ne_nil _ _
      | _ =>
          have hrest := ih h
          exact hrest

end FirstWrite

/-- Every operation sends its request and looks at the reply. -/
theorem run_eq_send (rpc : Rpc) : ∃ k, rpc.run = Prog.call (MasterCall.send rpc.request) k := by
  cases rpc <;> exact ⟨_, rfl⟩

/-- An operation hands to `write` what `used` lets through of its request, before it
writes anything else or returns. -/
theorem rpc_passes (rounds : ℕ) (rpc : Rpc) (self : MasterServer) :
    (firstWrite
      ((rpc.request.encode self.session_id_).take (rpc.request.used self.session_id_))).Passes
      (fun _ wrote => wrote = true) (rpc.run.lower (masterCalls rounds) self) false := by
  obtain ⟨k, hk⟩ := run_eq_send rpc
  rw [hk, Prog.lower]
  let buf : Buffer :=
    { mem := rpc.request.encode self.session_id_, used := rpc.request.used self.session_id_ }
  have hsend := sendAndReceive_writes_buffer rounds self buf rpc.request.expect_cmd
  refine hsend.bind ?_
  rintro ⟨reply, self⟩ wrote rfl
  exact passes_wrote _

/-! ## The bytes of a request -/

/-- A byte that is put. -/
theorem put8bit_eq (n : ℕ) : put8bit n = putNum 1 n := by simp [put8bit, putNum]

/-- A 16-bit number that is put. -/
theorem put16bit_eq (n : ℕ) : put16bit n = putNum 2 n := by simp [put16bit, putNum]

/-- A 32-bit number that is put. -/
theorem put32bit_eq (n : ℕ) : put32bit n = putNum 4 n := by simp [put32bit, putNum]

/-- A 64-bit number that is put. -/
theorem put64bit_eq (n : ℕ) : put64bit n = putNum 8 n := by
  rw [put64bit, put32bit_eq, put32bit_eq, putNum_add 4 4 n]
  rfl

/-- A name that is put. -/
theorem putName_eq (name : Bytes) : Request.putName name = Field.name.put (.name name) := rfl

variable {place : OpenedField} {session_id : ℕ} {request : Request}

/-- The body is the arguments in their layout. -/
theorem body_eq (request : Request) :
    request.body = putAll (request.layout .bracketed) (request.values .bracketed) := by
  cases request <;>
    simp [Request.body, Request.layout, Request.values, putAll, Field.put, put8bit_eq, put16bit_eq,
      put32bit_eq, put64bit_eq, putName_eq]

/-- The length passed to `BuildCommand` is that of the body. -/
theorem messageLength_eq (request : Request) : request.messageLength = request.body.length := by
  cases request <;>
    simp [Request.body, Request.messageLength, put8bit_eq, put16bit_eq, put32bit_eq, put64bit_eq,
      putName_eq, Field.put] <;> omega

/-! ## Frames -/

/-- The one frame of a request. -/
def frame (place : OpenedField) (session_id : ℕ) (request : Request) : Bytes :=
  let body := putAll (.num 4 :: request.layout place) (.num session_id :: request.values place)
  putAll [.num 4, .num 4] [.num request.command, .num body.length] ++ body

/-- A request is encoded in its bracketed frame. -/
theorem encode_eq (request : Request) (session_id : ℕ) :
    request.encode session_id = frame .bracketed session_id request := by
  rw [Request.encode, buildCommand, messageLength_eq, body_eq, put32bit_eq, put32bit_eq,
    put32bit_eq]
  simp [frame, putAll, Field.put]

/-- Numbers of their types fit; what may not fit is a name. -/
theorem fits_iff (hrange : request.InRange) (hsession : session_id < 2 ^ 32) :
    List.Forall₂ Field.Fits (.num 4 :: request.layout place)
      (.num session_id :: request.values place) ↔ request.name.length < 256 := by
  cases request with
  | truncate inode opened attrlength =>
      cases place <;>
        simp_all [Request.InRange, Request.layout, Request.values, Request.name, Field.Fits,
          Request.uid_, Request.gid_]
  | _ =>
      simp_all [Request.InRange, Request.layout, Request.values, Request.name, Field.Fits,
        Request.uid_, Request.gid_]

/-- The body of a request is below 2^32 bytes long. -/
theorem length_body_lt (place : OpenedField) (session_id : ℕ) (h : request.name.length < 256) :
    (putAll (.num 4 :: request.layout place)
      (.num session_id :: request.values place)).length < 2 ^ 32 := by
  cases request with
  | truncate inode opened attrlength =>
      cases place <;> simp [Request.layout, Request.values, putAll, Field.put]
  | _ =>
      simp_all [Request.layout, Request.values, Request.name, putAll, Field.put]
      try omega

/-- A frame is the frame of its request, and its name is short. -/
theorem frames_iff (hrange : request.InRange) (hsession : session_id < 2 ^ 32) {data : Bytes} :
    Frames place session_id request data ↔
      data = frame place session_id request ∧ request.name.length < 256 := by
  constructor
  · rintro ⟨hheader, hbody⟩
    obtain ⟨-, htake⟩ := readAll_eq_some.mp hheader
    obtain ⟨hfits, hdrop⟩ := readAll_eq_some.mp hbody
    refine ⟨?_, (fits_iff hrange hsession).mp hfits⟩
    have hlength := congrArg List.length hdrop
    rw [List.length_drop] at hlength
    rw [← List.take_append_drop 8 data, htake, hdrop, hlength]
    rfl
  · rintro ⟨rfl, hname⟩
    have hcommand : request.command < 2 ^ 32 := by
      cases request <;> simp [Request.command]
    have hlength := length_body_lt place session_id hname
    generalize hbody : putAll (.num 4 :: request.layout place)
      (.num session_id :: request.values place) = body at hlength
    have hframe : frame place session_id request =
        putAll [.num 4, .num 4] [.num request.command, .num body.length] ++ body := by
      rw [frame, hbody]
    have hheader : (putAll [.num 4, .num 4]
        [.num request.command, .num body.length]).length = 8 := by
      simp [putAll, Field.put]
    rw [hframe]
    refine ⟨readAll_eq_some.mpr ⟨?_, ?_⟩, readAll_eq_some.mpr ⟨?_, ?_⟩⟩
    · rw [List.length_append, hheader, Nat.add_sub_cancel_left]
      exact .cons hcommand (.cons hlength .nil)
    · rw [List.take_left' hheader, List.length_append, hheader, Nat.add_sub_cancel_left]
    · exact (fits_iff hrange hsession).mpr hname
    · rw [List.drop_left' hheader, hbody]

/-- The request is one whose arguments come back from what the code sends. -/
def Request.Decodable (place : OpenedField) : Request → Prop
  | .access .. => False
  | .truncate _ opened _ => place = .plain → opened = 0
  | request => request.name.length < 256

/-- What is sent is the frame of the other layout of `CUTOMA_FUSE_TRUNCATE` only for
an `opened` of zero. -/
theorem frame_bracketed_eq (place : OpenedField) (session_id : ℕ) (hrange : request.InRange) :
    frame .bracketed session_id request = frame place session_id request ↔
      ∀ inode opened attrlength, request = .truncate inode opened attrlength →
        place = .plain → opened = 0 := by
  cases request with
  | truncate inode opened attrlength =>
      cases place with
      | bracketed => simp
      | plain =>
          obtain ⟨-, hopened, -⟩ := hrange
          constructor
          · rintro h _ _ _ ⟨rfl, rfl, rfl⟩ -
            simp [frame, putAll, Field.put, Request.layout, Request.values, putNum, Request.uid_,
              Request.gid_] at h
            have hzero := congrArg UInt8.toNat h.1
            rwa [UInt8.toNat_ofNat_of_lt' hopened] at hzero
          · intro h
            rw [h _ _ _ rfl rfl]
            rfl
  | _ => simp [frame, Request.layout, Request.values]

/-! ## Well-formed requests -/

/-- Every operation but `Access` has all of its request sent. -/
theorem take_used (request : Request) (session_id : ℕ) :
    (request.encode session_id).take (request.used session_id) =
      match request with
      | .access .. => []
      | request => request.encode session_id := by
  cases request <;> simp [Request.used]

/-- What is sent is a frame of the request exactly when the request is decodable. -/
theorem frames_sent_iff (hrange : request.InRange) (hsession : session_id < 2 ^ 32) :
    Frames place session_id request
        ((request.encode session_id).take (request.used session_id)) ↔
      request.Decodable place := by
  rw [frames_iff hrange hsession, take_used]
  have hframe := frame_bracketed_eq place session_id hrange
  rw [← encode_eq] at hframe
  cases request with
  | access inode modemask => simp [frame, putAll, Field.put, putNum, Request.Decodable]
  | truncate inode opened attrlength => simp_all [Request.Decodable, Request.name]
  | _ => simp_all [Request.Decodable, Request.name]

/-- **Well-formed requests.** Whatever the calls of an operation are answered, and
however far it has come, what it has written is a frame that gives back its
arguments exactly when it has not come to a write or the request is decodable; and
it does not return without a write.
SOURCE: moose.cc:250-259, 456-764, 856-956, MFSCommunication.h:552-554, 630-785, 921-923 -/
theorem well_formed_iff (rounds : ℕ) (rpc : Rpc) (self : MasterServer) {t : NetTrace}
    (hrange : rpc.request.InRange) (hsession : self.session_id_ < 2 ^ 32)
    (h : (rpc.run.lower (masterCalls rounds) self).Makes t) :
    (WellFormed place self.session_id_ rpc.request t ↔
        writes t = [] ∨ rpc.request.Decodable place) ∧
      ∀ r, (rpc.run.lower (masterCalls rounds) self).Runs t r → writes t ≠ [] := by
  have hpasses := rpc_passes rounds rpc self
  have hfirst := head_writes hpasses h
  refine ⟨⟨?_, ?_⟩, fun r hrun => writes_ne_nil (hpasses.result hrun)⟩
  · rintro ⟨hsent, hrefused⟩
    by_cases hframe : ∃ data, Frames place self.session_id_ rpc.request data
    · cases hwrites : writes t with
      | nil => exact .inl rfl
      | cons data rest =>
          have hhead : data ∈ (writes t).head? := by rw [hwrites]; rfl
          have hdata := hsent hframe data hhead
          rw [hfirst data hhead] at hdata
          exact .inr ((frames_sent_iff hrange hsession).mp hdata)
    · exact .inl (hrefused hframe)
  · rintro (hnil | hdecodable)
    · rw [WellFormed, hnil]
      exact ⟨fun _ data hdata => absurd hdata (by simp), fun _ => rfl⟩
    · have hframes := (frames_sent_iff hrange hsession).mpr hdecodable
      refine ⟨fun _ data hdata => ?_, fun hno => absurd ⟨_, hframes⟩ hno⟩
      rw [hfirst data hdata]
      exact hframes

/-- `Unlink` of a file `a`, on the connection 5 and in session 7. -/
theorem well_formed_unlink :
    WellFormed .plain 7 (.unlink 1 [97])
      [⟨.write 5 (Request.encode (.unlink 1 [97]) 7), (0 : ℤ)⟩] := by
  have hrange : (Rpc.unlink 1 [97]).request.InRange := by
    simp [Rpc.request, Request.InRange]
  have hmakes : ((Rpc.unlink 1 [97]).run.lower (masterCalls 1) connectedMaster).Makes
      [⟨.write 5 (Request.encode (.unlink 1 [97]) 7), (0 : ℤ)⟩] :=
    .inr ⟨_, _, rfl, .inl rfl⟩
  have hdecodable : (Rpc.unlink 1 [97]).request.Decodable .plain := by
    simp [Rpc.request, Request.Decodable, Request.name]
  exact (well_formed_iff 1 (.unlink 1 [97]) connectedMaster hrange (by decide) hmakes).1.mpr
    (.inr hdecodable)

/-- `Access` writes nothing of its request. -/
theorem not_well_formed :
    ¬ ∀ (place : OpenedField) (rounds : ℕ) (rpc : Rpc) (self : MasterServer) (t : NetTrace),
      rpc.request.InRange → self.session_id_ < 2 ^ 32 →
        (rpc.run.lower (masterCalls rounds) self).Makes t →
          WellFormed place self.session_id_ rpc.request t := by
  intro hall
  have hrange : (Request.access 1 1).InRange := by
    simp [Request.InRange]
  have hmakes : ((Rpc.access 1 1).run.lower (masterCalls 1) connectedMaster).Makes
      [⟨.write 5 [], (0 : ℤ)⟩] := .inr ⟨_, _, rfl, .inl rfl⟩
  obtain ⟨hsent, -⟩ := hall .plain 1 (.access 1 1) connectedMaster _ hrange (by decide) hmakes
  have hframe : Frames .plain 7 (.access 1 1) (frame .plain 7 (.access 1 1)) :=
    (frames_iff hrange (by decide)).mpr ⟨rfl, by decide⟩
  have hempty := (hsent ⟨_, hframe⟩ [] rfl).header
  cases hempty

end Moose

end BundleStore
