import BundleStore.Analysis.ReadBlocks

set_option autoImplicit false

/-!
# What a connection takes in

A monitor of the reads of a connection: where they store what they get, and how many bytes
have come. A loop that takes some bytes in each round does not come to the end of its
rounds before the stream does.
-/

namespace BundleStore

namespace Moose

open Prog

/-- How much memory was got last, and how much has been received. -/
structure Intake where
  capacity : ℕ
  count : ℕ

def Intake.step (fd : ℤ) : (o : NetCall) → o.Answer → Intake → Intake
  | .alloc len, _, s => { s with capacity := len }
  | o, answer, s => { s with count := s.count + (readBytes fd o answer).length }

/-- Allows the reads that there is room for, and the last call of a loop that has received
`bound` bytes. The room is a matter of the memory, the place and the length. -/
def intake (fd : ℤ) (room : ℕ → ℕ → ℕ → Prop) (bound : ℕ) :
    Monitor NetCall NetCall.Answer Intake where
  step := Intake.step fd
  Allows o s :=
    match o with
    | .read _ pos count => room s.capacity pos count
    | .forever => bound ≤ s.count
    | _ => True

/-- A call is no read without room for it. -/
def InRoom (room : ℕ → ℕ → ℕ → Prop) (o : NetCall) (s : Intake) : Prop :=
  match o with
  | .read _ pos count => room s.capacity pos count
  | _ => True

variable {room : ℕ → ℕ → ℕ → Prop} {bound : ℕ} {buf : Buffer} {fd : ℤ} {pos leng : ℕ}

/-- What a read has received. -/
theorem readBytes_read (pos count : ℕ) (i : Received count) :
    readBytes fd (.read fd pos count) i = i.data := if_pos rfl

/-- A store inside the memory keeps its length. -/
theorem Buffer.length_store {data : Bytes} (h : pos + data.length ≤ buf.mem.length) :
    (buf.store pos data).mem.length = buf.mem.length := by
  by_cases hdata : data = []
  · rw [hdata]
    rfl
  · rw [Buffer.store, ByteSeq.length_overwrite 0 buf.mem pos hdata]
    exact max_eq_left h

/-- What a read of `leng` bytes to `pos` leaves, of which `rcvd` were there before. -/
structure Taken (pos leng rcvd : ℕ) (buf : Buffer) (s : Intake) (r : ℤ × Buffer)
    (s' : Intake) : Prop where
  capacity : s'.capacity = s.capacity
  kept : pos + leng ≤ buf.mem.length → r.2.mem.length = buf.mem.length
  count : s.count ≤ s'.count
  all : r.1 = leng → s.count + leng ≤ s'.count + rcvd

/-- The loop of `tcptoread` reads inside its range, by induction on the rounds.
SOURCE: moose.cc:191-197 -/
theorem tcptoreadLoop_intake {rounds rcvd : ℕ} {s : Intake}
    (hroom : ∀ p n, pos ≤ p → p + n ≤ pos + leng → room s.capacity p n) (hrcvd : rcvd ≤ leng) :
    (intake fd room bound).Passes (Taken pos leng rcvd buf s)
      (tcptoreadLoop fd pos leng rounds rcvd buf) s := by
  induction rounds generalizing rcvd buf s with
  | zero =>
      refine ⟨rfl, fun _ => rfl, le_rfl, fun hall => ?_⟩
      have hall' : (rcvd : ℤ) = leng := hall
      omega
  | succ rounds ih =>
      unfold tcptoreadLoop
      apply Monitor.Passes.ite
      · intro hlt
        refine ⟨hroom _ _ (Nat.le_add_right _ _) (by omega), fun i => ?_⟩
        have hlength : i.data.length ≤ leng - rcvd := i.length_le
        apply Monitor.Passes.ite
        · intro hret
          refine ⟨rfl, fun _ => rfl, Nat.le_add_right _ _, fun hall => ?_⟩
          have hall' : i.ret = leng := hall
          omega
        · intro _
          have hstep : ((intake fd room bound).step (.read fd (pos + rcvd) (leng - rcvd)) i
              s).count = s.count + i.data.length := by
            rw [← readBytes_read (pos + rcvd) (leng - rcvd) i]
            rfl
          have hnext : rcvd + i.data.length ≤ leng := by omega
          have hroom' : ∀ p n, pos ≤ p → p + n ≤ pos + leng → room
              ((intake fd room bound).step (.read fd (pos + rcvd) (leng - rcvd)) i s).capacity
                p n := hroom
          refine (ih hroom' hnext).mono ?_
          rintro r s' ⟨hcapacity, hkept, hcount, hall⟩
          rw [hstep] at hcount hall
          refine ⟨hcapacity, fun hfits => ?_, by omega, fun hret => ?_⟩
          · have hstored : (buf.store (pos + rcvd) i.data).mem.length = buf.mem.length :=
              Buffer.length_store (by omega)
            rw [← hstored] at hfits ⊢
            exact hkept hfits
          · have hsum := hall hret
            omega
      · intro hge
        refine ⟨rfl, fun _ => rfl, le_rfl, fun _ => ?_⟩
        omega

/-- `Alloca` takes nothing off the stream and makes room.
SOURCE: moose.cc:65-79 -/
theorem alloca_intake {len : ℕ} {s : Intake} (hcapacity : s.capacity = buf.mem.length) :
    (intake fd room bound).Passes (fun buf' s' => s'.capacity = buf'.mem.length ∧
      len ≤ buf'.mem.length ∧ s'.count = s.count) (buf.alloca len) s := by
  unfold Buffer.alloca
  apply Monitor.Passes.ite
  · intro _
    exact ⟨trivial, fun mem => ⟨mem.property.symm, mem.property.ge, rfl⟩⟩
  · intro hge
    exact ⟨hcapacity, not_lt.mp hge, rfl⟩

/-! ## Runs under way -/

section Runs

variable {α : Type} {p : Net α} {Q : α → Intake → Prop} {s : Intake}
variable {t : Trace NetCall NetCall.Answer}

/-- What has been taken off the stream is what was received. -/
theorem intake_count :
    ((intake fd room bound).after s t).count = s.count + (received fd t).length := by
  induction t generalizing s with
  | nil => rfl
  | cons e t ih =>
      obtain ⟨o, answer⟩ := e
      rw [Monitor.after_cons, ih, received_cons, List.length_append, ← Nat.add_assoc]
      congr 1
      cases o <;> rfl

/-- Every read of a run is inside its range. -/
theorem inRoom_of_passes (hpasses : (intake fd room bound).Passes Q p s) (h : p.Makes t) :
    (intake fd room bound).Along (InRoom room) t s := by
  rw [Monitor.along_iff]
  intro t₁ e t₂ hsplit
  have hallows := hpasses.allows h hsplit
  obtain ⟨o, answer⟩ := e
  cases o with
  | read fd' pos count => exact hallows
  | _ => trivial

/-- Where fewer bytes have been received the loop has not come to its end. -/
theorem goes_on_of_passes (hpasses : (intake fd room bound).Passes Q p s) (h : p.Makes t)
    (hcount : s.count + (received fd t).length < bound) :
    (∃ a, p.Runs t a) ∨ ∃ o, p.Waits t o ∧ o ≠ .forever := by
  obtain hruns | ⟨o, hwaits⟩ := h.runs_or_waits
  · exact .inl hruns
  refine .inr ⟨o, hwaits, ?_⟩
  rintro rfl
  have hbound : bound ≤ ((intake fd room bound).after s t).count := hpasses.waits hwaits
  rw [intake_count] at hbound
  omega

end Runs

end Moose

end BundleStore
