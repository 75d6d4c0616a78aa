import BundleStore.Analysis.Intake

set_option autoImplicit false

/-!
# The frames that `ReadCommand` takes from a stream

A command comes behind any number of `NOP` frames. Where no read fails `ReadCommand`
takes exactly these frames; where one fails it reports a failure, except inside the body
of a `NOP` frame: what reading that body gives is only looked at in an assertion.
-/

namespace BundleStore

namespace Moose

open Prog

/-! ## The stream -/

/-- A `NOP` frame. -/
def nopFrame (body : Bytes) : Bytes := put32bit ANTOAN_NOP ++ put32bit 4 ++ body

/-- `NOP` frames with four bytes each. -/
def nopFrames (bodies : List Bytes) : Bytes := bodies.flatMap nopFrame

/-- The header of a command. -/
def header (cmd length : ℕ) : Bytes := put32bit cmd ++ put32bit length

/-- The place behind so many bytes is inside the body of one of `n` `NOP` frames. -/
def InNopBody (n place : ℕ) : Prop :=
  ∃ i < n, ∃ j < 4, place = 12 * i + 8 + j

/-- A read that gives nothing. -/
def ReadFails (e : Σ o : NetCall, o.Answer) : Prop :=
  match e with
  | ⟨.read _ _ _, i⟩ => i.ret ≤ 0
  | _ => False

/-- The call is the first read of the run that fails. -/
structure FirstFailure (t t₁ : Trace NetCall NetCall.Answer) (e : Σ o : NetCall, o.Answer)
    (t₂ : Trace NetCall NetCall.Answer) : Prop where
  split : t = t₁ ++ e :: t₂
  before : ∀ e' ∈ t₁, ¬ ReadFails e'
  fails : ReadFails e

/-- What goes wrong with the reads of a run: nothing; the stream ends behind so many
bytes; or a read fails there, and nothing is said about what comes after it. -/
inductive Trouble
  | none
  | ends (place : ℕ)
  | fails (place : ℕ)

def Trouble.At (fd : ℤ) (t : Trace NetCall NetCall.Answer) : Trouble → Prop
  | .none => ∀ e ∈ t, ¬ ReadFails e
  | .ends place => ∃ t₁ e t₂, FirstFailure t t₁ e t₂ ∧ (received fd t₁).length = place ∧
      received fd t₂ = []
  | .fails place => ∃ t₁ e t₂, FirstFailure t t₁ e t₂ ∧ (received fd t₁).length = place

/-! ## The memory that is read into -/

/-- The memory reaches behind what is read. -/
def InMemory (capacity pos count : ℕ) : Prop := pos + count ≤ capacity

section Bounds

variable {bound : ℕ} {buf : Buffer} {fd : ℤ}

/-- A read inside the buffer stays in its memory. -/
theorem inMemory {capacity pos leng : ℕ} (h : pos + leng ≤ capacity) :
    ∀ p n, pos ≤ p → p + n ≤ pos + leng → InMemory capacity p n :=
  fun _ _ _ hle => hle.trans h

/-- Each round of the loop over the commands takes a header. -/
theorem readHeader_intake {rounds : ℕ} {s : Intake} (hcapacity : s.capacity = buf.mem.length)
    (hroom : 8 ≤ buf.mem.length) (hbound : bound ≤ s.count + 8 * rounds) :
    (intake fd InMemory bound).Passes (fun r s' => s'.capacity = r.2.mem.length)
      (readHeader fd rounds buf) s := by
  induction rounds generalizing buf s with
  | zero =>
      have hreached : bound ≤ s.count := by omega
      exact ⟨hreached, fun answer => answer.elim⟩
  | succ rounds ih =>
      unfold readHeader
      refine Monitor.Passes.bind (tcptoreadLoop_intake (inMemory (by omega)) (Nat.zero_le _)) ?_
      rintro ⟨ret, buf₁⟩ s₁ ⟨hcapacity₁, hkept₁, -, hall⟩
      have hmem₁ : buf₁.mem.length = buf.mem.length := hkept₁ (by omega)
      rw [hcapacity, ← hmem₁] at hcapacity₁
      apply Monitor.Passes.ite
      · exact fun _ => hcapacity₁
      intro hret
      have hcount : s.count + 8 ≤ s₁.count + 0 := hall (by omega)
      apply Monitor.Passes.ite
      · intro _
        refine Monitor.Passes.bind (tcptoreadLoop_intake (inMemory (by omega)) (Nat.zero_le _)) ?_
        rintro ⟨ret₂, buf₂⟩ s₂ ⟨hcapacity₂, hkept₂, hcount₂, -⟩
        have hmem₂ : buf₂.mem.length = buf₁.mem.length := hkept₂ (by omega)
        exact ih (by omega) (by omega) (by omega)
      · exact fun _ => hcapacity₁

/-- `ReadCommand` takes no more than the stream and stays in its memory.
SOURCE: moose.cc:201-248 -/
theorem readCommand_intake {rounds : ℕ} {s : Intake} (hcapacity : s.capacity = buf.mem.length)
    (hbound : bound ≤ s.count + 8 * rounds) :
    (intake fd InMemory bound).Passes (fun _ _ => True) (readCommand rounds fd buf) s := by
  unfold readCommand
  refine Monitor.Passes.bind (alloca_intake hcapacity) ?_
  rintro buf₁ s₁ ⟨hcapacity₁, hroom, hcount⟩
  refine Monitor.Passes.bind (readHeader_intake hcapacity₁ hroom (by omega)) ?_
  rintro ⟨command, buf₂⟩ s₂ hcapacity₂
  cases command with
  | none => trivial
  | some command =>
      obtain ⟨cmd, length⟩ := command
      apply Monitor.Passes.ite
      · exact fun _ => trivial
      intro _
      refine Monitor.Passes.bind (alloca_intake hcapacity₂) ?_
      rintro buf₃ s₃ ⟨hcapacity₃, hroom₃, -⟩
      exact Monitor.Passes.bind
        (tcptoreadLoop_intake (inMemory (by omega)) (Nat.zero_le _)) fun _ _ _ => trivial

end Bounds

/-! ## Complete runs -/

section CompleteRuns

variable {fd ret : ℤ} {buf buf' : Buffer} {pos leng : ℕ}
variable {t t₀ t₁ t₂ u₁ u₂ : Trace NetCall NetCall.Answer} {e e' : Σ o : NetCall, o.Answer}

/-- The first failure behind reads that came through. -/
theorem FirstFailure.append_left (h : FirstFailure t t₁ e t₂) (h₀ : ∀ e' ∈ t₀, ¬ ReadFails e') :
    FirstFailure (t₀ ++ t) (t₀ ++ t₁) e t₂ where
  split := by rw [h.split, List.append_assoc]
  before e' he' := (List.mem_append.mp he').elim (h₀ e') (h.before e')
  fails := h.fails

/-- The first failure behind one read that came through. -/
theorem FirstFailure.cons (h : FirstFailure t t₁ e t₂) (he' : ¬ ReadFails e') :
    FirstFailure (e' :: t) (e' :: t₁) e t₂ :=
  h.append_left fun _ he => List.mem_singleton.mp he ▸ he'

/-- The first failure before other reads. -/
theorem FirstFailure.append_right (h : FirstFailure t t₁ e t₂) :
    FirstFailure (t ++ t₀) t₁ e (t₂ ++ t₀) where
  split := by rw [h.split, List.append_assoc, List.cons_append]
  before := h.before
  fails := h.fails

/-- There is one first failure. -/
theorem FirstFailure.unique (h : FirstFailure t t₁ e t₂) (h' : FirstFailure t u₁ e' u₂) :
    t₁ = u₁ ∧ t₂ = u₂ := by
  obtain ⟨rfl, hbefore, hfails⟩ := h
  obtain ⟨hsplit, hbefore', hfails'⟩ := h'
  induction t₁ generalizing u₁ with
  | nil =>
      cases u₁ with
      | nil =>
          injection hsplit with _ htail
          exact ⟨rfl, htail⟩
      | cons e₁ u₁ =>
          injection hsplit with hhead
          exact absurd (hhead ▸ hfails) (hbefore' e₁ List.mem_cons_self)
  | cons e₁ t₁ ih =>
      cases u₁ with
      | nil =>
          injection hsplit with hhead
          exact absurd (hhead ▸ hfails') (hbefore e₁ List.mem_cons_self)
      | cons e₂ u₁ =>
          injection hsplit with hhead htail
          obtain ⟨rfl, htail'⟩ := ih (fun e he => hbefore e (List.mem_cons_of_mem _ he)) htail
            fun e he => hbefore' e (List.mem_cons_of_mem _ he)
          exact ⟨by rw [hhead], htail'⟩

/-- A run with a first failure has a failure. -/
theorem FirstFailure.not_none (h : FirstFailure t t₁ e t₂) : ¬ ∀ e' ∈ t, ¬ ReadFails e' := by
  intro hno
  refine hno e ?_ h.fails
  rw [h.split]
  exact List.mem_append_right _ List.mem_cons_self

/-- A read that fails brings nothing. -/
theorem readBytes_of_fails (h : ReadFails e) : readBytes fd e.1 e.2 = [] := by
  obtain ⟨o, i⟩ := e
  cases o with
  | read fd' pos count =>
      have hret : i.ret ≤ 0 := h
      have hlength := i.length_eq
      rw [Int.toNat_of_nonpos hret] at hlength
      have hdata : i.data = [] := List.length_eq_zero_iff.mp hlength
      simp [readBytes, hdata]
  | _ => rfl

/-- `tcptoread` has received all, or its last read has failed. -/
theorem tcptoreadLoop_cases {rounds rcvd : ℕ} (hrcvd : rcvd ≤ leng) (hrounds : leng ≤ rcvd + rounds)
    (h : (tcptoreadLoop fd pos leng rounds rcvd buf).Runs t (ret, buf')) :
    (ret = leng ∧ rcvd + (received fd t).length = leng ∧ ∀ e ∈ t, ¬ ReadFails e) ∨
      (ret ≤ 0 ∧ rcvd + (received fd t).length < leng ∧
        ∃ t₁ e, FirstFailure t t₁ e [] ∧ received fd t₁ = received fd t) := by
  induction rounds generalizing rcvd buf t with
  | zero =>
      obtain ⟨rfl, heq⟩ := h
      cases heq
      refine .inl ⟨?_, ?_, fun e he => by cases he⟩
      · omega
      · rw [received_nil, List.length_nil]
        omega
  | succ rounds ih =>
      unfold tcptoreadLoop at h
      by_cases hlt : rcvd < leng
      swap
      · rw [if_neg hlt] at h
        obtain ⟨rfl, heq⟩ := h
        cases heq
        refine .inl ⟨?_, ?_, fun e he => by cases he⟩
        · omega
        · rw [received_nil, List.length_nil]
          omega
      rw [if_pos hlt] at h
      obtain ⟨i, t', rfl, hrest⟩ := runs_op_bind.mp h
      have hread : (received fd (⟨.read fd (pos + rcvd) (leng - rcvd), i⟩ :: t')) =
          i.data ++ received fd t' := by
        rw [received_cons, readBytes_read]
      by_cases hret : i.ret ≤ 0
      · rw [if_pos hret] at hrest
        obtain ⟨rfl, heq⟩ := hrest
        cases heq
        have hfails : ReadFails ⟨.read fd (pos + rcvd) (leng - rcvd), i⟩ := hret
        have hnothing : received fd [⟨.read fd (pos + rcvd) (leng - rcvd), i⟩] = [] := by
          rw [received_cons, readBytes_of_fails hfails]
          rfl
        refine .inr ⟨hret, ?_, [], _, ⟨rfl, fun e he => (by cases he), hfails⟩, hnothing.symm⟩
        rw [hnothing]
        exact hlt
      · rw [if_neg hret] at hrest
        have hlength : i.data.length ≤ leng - rcvd := i.length_le
        have hsome : 0 < i.data.length := by
          have heq := i.length_eq
          omega
        have hgives : ¬ ReadFails ⟨.read fd (pos + rcvd) (leng - rcvd), i⟩ := hret
        rw [hread, List.length_append, ← Nat.add_assoc]
        obtain ⟨hall, hsum, hno⟩ | ⟨hneg, hless, t₁, e, hfirst, hfront⟩ :=
          ih (by omega) (by omega) hrest
        · refine .inl ⟨hall, hsum, fun e he => ?_⟩
          obtain rfl | he := List.mem_cons.mp he
          · exact hgives
          · exact hno e he
        · refine .inr ⟨hneg, hless, _ :: t₁, e, hfirst.cons hgives, ?_⟩
          rw [received_cons, readBytes_read, hfront]

/-- `Alloca` reads nothing.
SOURCE: moose.cc:65-79 -/
theorem alloca_silent (fd : ℤ) {len : ℕ} (h : (buf.alloca len).Runs t buf') :
    received fd t = [] ∧ ∀ e ∈ t, ¬ ReadFails e := by
  refine ⟨alloca_runs h, ?_⟩
  unfold Buffer.alloca at h
  split at h
  · obtain ⟨mem, t', rfl, hrest⟩ := runs_op_bind.mp h
    obtain ⟨rfl, -⟩ := hrest
    intro e he
    rw [List.mem_singleton.mp he]
    exact not_false
  · obtain ⟨rfl, -⟩ := h
    intro e he
    cases he

/-- How a run ends that is to take these frames, `n` `NOP` frames and a command: all are
taken; or a read fails, and the command is refused; or one fails inside the body of a
`NOP` frame, and the command is refused where nothing comes after it. -/
inductive FrameRun (fd : ℤ) (n : ℕ) (frames : Bytes) (t : Trace NetCall NetCall.Answer)
    (taken refused : Prop) : Prop
  | whole (hreads : ∀ e ∈ t, ¬ ReadFails e) (hreceived : received fd t = frames)
      (htaken : taken)
  | lost {t₁ t₂ : Trace NetCall NetCall.Answer} {e : Σ o : NetCall, o.Answer}
      (hfirst : FirstFailure t t₁ e t₂) (hrefused : refused)
  | ignored {t₁ t₂ : Trace NetCall NetCall.Answer} {e : Σ o : NetCall, o.Answer}
      (hfirst : FirstFailure t t₁ e t₂) (hplace : InNopBody n (received fd t₁).length)
      (hrefused : received fd t₂ = [] → refused)

/-- A front of a stream is a front of its front, and then a front of the rest. -/
theorem prefix_split {a b c d : Bytes} (h : a ++ b <+: c ++ d) (hlength : a.length = c.length) :
    a = c ∧ b <+: d := by
  obtain ⟨rest, hrest⟩ := h
  rw [List.append_assoc] at hrest
  obtain ⟨rfl, htail⟩ := List.append_inj hrest hlength
  exact ⟨rfl, rest, htail⟩

/-- A header is eight bytes long. -/
@[simp] theorem length_header (cmd length : ℕ) : (header cmd length).length = 8 := rfl

/-- A header gives the command and the length back. -/
theorem get32bit_header {cmd length : ℕ} (hcmd : cmd < 2 ^ 32) (hlength : length < 2 ^ 32) :
    get32bit (memory (header cmd length)) 0 = cmd ∧
      get32bit (memory (header cmd length)) 4 = length := by
  simp [header, memory, get32bit, get8bit, put32bit]
  omega

/-- What has been stored is read back. -/
theorem get32bit_store {bytes : Bytes} {a : ℕ} (h : a + 4 ≤ bytes.length) :
    get32bit ((buf.store 0 bytes).memAt 0) a = get32bit (memory bytes) a :=
  get32bit_congr fun i hi => memAt_store_zero (by omega)

/-- A header that is stored gives the command and the length back.
SOURCE: moose.cc:216-219 -/
theorem get32bit_stored (buf : Buffer) {cmd length : ℕ} (hcmd : cmd < 2 ^ 32)
    (hlength : length < 2 ^ 32) :
    get32bit ((buf.store 0 (header cmd length)).memAt 0) 0 = cmd ∧
      get32bit ((buf.store 0 (header cmd length)).memAt 0) 4 = length := by
  rw [get32bit_store (by simp), get32bit_store (by simp)]
  exact get32bit_header hcmd hlength

/-- A `NOP` frame is twelve bytes long. -/
theorem length_nopFrames {bodies : List Bytes} (h : ∀ body ∈ bodies, body.length = 4) :
    (nopFrames bodies).length = 12 * bodies.length := by
  induction bodies with
  | nil => rfl
  | cons body bodies ih =>
      have hrest := ih fun b hb => h b (List.mem_cons_of_mem _ hb)
      have hframe : (nopFrame body).length = 12 := by
        rw [nopFrame, List.length_append, h body List.mem_cons_self]
        rfl
      rw [nopFrames, List.flatMap_cons, List.length_append, hframe, List.length_cons]
      rw [nopFrames] at hrest
      omega

/-- A place inside a body, one frame further. -/
theorem InNopBody.next {n place : ℕ} (h : InNopBody n place) : InNopBody (n + 1) (12 + place) := by
  obtain ⟨i, hi, j, hj, rfl⟩ := h
  exact ⟨i + 1, by omega, j, hj, by omega⟩

/-- A header of which nothing comes. -/
theorem readHeader_nothing {rounds : ℕ} {result : Option (ℕ × ℕ)}
    (h : (readHeader fd rounds buf).Runs t (result, buf')) (hnothing : received fd t = []) :
    result = none := by
  cases rounds with
  | zero =>
      obtain ⟨answer, -⟩ := h
      cases answer
  | succ rounds =>
      unfold readHeader at h
      obtain ⟨t₁, t₂, ⟨ret, buf₁⟩, rfl, hread, hrest⟩ := runs_bind.mp h
      dsimp only at hrest
      rw [received_append, List.append_eq_nil_iff] at hnothing
      obtain ⟨-, hsum, -⟩ | ⟨hneg, -, -⟩ := tcptoreadLoop_cases (Nat.zero_le _) (by omega) hread
      · rw [hnothing.1, List.length_nil] at hsum
        omega
      · rw [if_pos (.inl hneg)] at hrest
        obtain ⟨-, heq⟩ := hrest
        cases heq
        rfl

/-- The loop over the `NOP` frames, by the frames that are to come. -/
theorem readHeader_runs {rounds cmd length : ℕ} {bodies : List Bytes} {tail : Bytes}
    {result : Option (ℕ × ℕ)} (hbodies : ∀ body ∈ bodies, body.length = 4)
    (hnop : cmd ≠ ANTOAN_NOP) (hcmd : cmd < 2 ^ 32) (hlength : length < 2 ^ 32)
    (hstream : received fd t <+: nopFrames bodies ++ header cmd length ++ tail)
    (h : (readHeader fd rounds buf).Runs t (result, buf')) :
    FrameRun fd bodies.length (nopFrames bodies ++ header cmd length) t
      (result = some (cmd, length)) (result = none) := by
  induction rounds generalizing bodies buf t with
  | zero =>
      obtain ⟨answer, -⟩ := h
      cases answer
  | succ rounds ih =>
      unfold readHeader at h
      obtain ⟨t₁, t₂, ⟨ret, buf₁⟩, rfl, hread, hrest⟩ := runs_bind.mp h
      have hbuf := (tcptoread_runs hread).1
      dsimp only at hrest
      rw [received_append] at hstream
      obtain ⟨hall, hsum, hno⟩ | ⟨hneg, hless, t₃, e, hfirst, hfront⟩ :=
        tcptoreadLoop_cases (Nat.zero_le _) (by omega) hread
      swap
      · -- the header fails
        rw [if_pos (.inl hneg)] at hrest
        obtain ⟨-, heq⟩ := hrest
        cases heq
        exact .lost hfirst.append_right rfl
      rw [Nat.zero_add] at hsum
      rw [if_neg (by omega)] at hrest
      cases bodies with
      | nil =>
          rw [show nopFrames [] = [] from rfl, List.nil_append] at hstream
          obtain ⟨hheader, hrest'⟩ := prefix_split hstream hsum
          obtain ⟨hfirst, hsecond⟩ := get32bit_stored buf hcmd hlength
          rw [hbuf, hheader] at hrest
          rw [hfirst, hsecond, if_neg hnop] at hrest
          obtain ⟨rfl, heq⟩ := hrest
          cases heq
          refine .whole ?_ ?_ rfl
          · rwa [List.append_nil]
          · rw [received_append, hheader]
            rfl
      | cons body bodies =>
          have hframes : nopFrames (body :: bodies) ++ header cmd length ++ tail =
              header ANTOAN_NOP 4 ++ (body ++ (nopFrames bodies ++ header cmd length ++ tail)) := by
            simp [nopFrames, nopFrame, header]
          rw [hframes] at hstream
          obtain ⟨hheader, hstream₂⟩ := prefix_split hstream hsum
          have hbody : body.length = 4 := hbodies body List.mem_cons_self
          rw [hbuf, hheader, (get32bit_stored _ (by norm_num [ANTOAN_NOP]) (by norm_num)).1,
            if_pos rfl] at hrest
          obtain ⟨t₃, t₄, ⟨ret₂, buf₂⟩, rfl, hread₂, hrest₂⟩ := runs_bind.mp hrest
          dsimp only at hrest₂
          rw [received_append] at hstream₂
          obtain ⟨-, hsum₂, hno₂⟩ | ⟨-, hless, t₅, e, hfirst, hfront⟩ :=
            tcptoreadLoop_cases (Nat.zero_le _) (by omega) hread₂
          · -- the body is taken
            obtain ⟨hbody', hstream₃⟩ := prefix_split hstream₂ (by omega)
            have hnops : ∀ e ∈ t₁ ++ t₃, ¬ ReadFails e := fun e he =>
              (List.mem_append.mp he).elim (hno e) (hno₂ e)
            have hframe : received fd (t₁ ++ t₃) = nopFrame body := by
              rw [received_append, hheader, hbody']
              rfl
            have hlen : (received fd (t₁ ++ t₃)).length = 12 := by
              rw [hframe, nopFrame, List.length_append, hbody]
              rfl
            rw [← List.append_assoc]
            cases ih (fun b hb => hbodies b (List.mem_cons_of_mem _ hb)) hstream₃ hrest₂ with
            | whole hreads hreceived htaken =>
                refine .whole ?_ ?_ htaken
                · exact fun e he => (List.mem_append.mp he).elim (hnops e) (hreads e)
                · rw [received_append, hframe, hreceived]
                  simp [nopFrames]
            | lost hfirst hrefused => exact .lost (hfirst.append_left hnops) hrefused
            | ignored hfirst hplace hrefused =>
                refine .ignored (hfirst.append_left hnops) ?_ hrefused
                rw [received_append, List.length_append, hlen]
                exact hplace.next
          · -- a read of the body fails, and the loop goes on
            have hplace : InNopBody (bodies.length + 1) (received fd (t₁ ++ t₅)).length := by
              refine ⟨0, by omega, (received fd t₅).length, ?_, ?_⟩
              · rw [hfront]
                omega
              · rw [received_append, List.length_append, hsum]
            exact .ignored (hfirst.append_right.append_left hno) hplace
              fun hnothing => readHeader_nothing hrest₂ hnothing

/-- `ReadCommand`, by the frames that are to come. -/
theorem readCommand_runs {rounds cmd : ℕ} {bodies : List Bytes} {payload rest : Bytes}
    {out : CommandOut} (hbodies : ∀ body ∈ bodies, body.length = 4)
    (hnop : cmd ≠ ANTOAN_NOP) (hcmd : cmd < 2 ^ 32) (hlength : payload.length ≤ 64 * 1024 * 1024)
    (hstream : received fd t <+:
      nopFrames bodies ++ header cmd payload.length ++ (payload ++ rest))
    (h : (readCommand rounds fd buf).Runs t (out, buf')) :
    FrameRun fd bodies.length (nopFrames bodies ++ header cmd payload.length ++ payload) t
      (out = ⟨true, cmd, payload.length⟩ ∧ ByteSeq.slice buf'.mem 8 payload.length = payload)
      (out.ret = false) := by
  unfold readCommand at h
  obtain ⟨t₁, t₂, buf₁, rfl, halloca, h₂⟩ := runs_bind.mp h
  obtain ⟨hsilent, hno₁⟩ := alloca_silent fd halloca
  obtain ⟨t₃, t₄, ⟨result, buf₂⟩, rfl, hheader, h₄⟩ := runs_bind.mp h₂
  rw [received_append, hsilent, List.nil_append] at hstream
  have hfront : received fd t₃ <+:
      nopFrames bodies ++ header cmd payload.length ++ (payload ++ rest) :=
    (List.prefix_append _ _).trans (received_append fd t₃ t₄ ▸ hstream)
  have hlost : result = none → t₄ = [] ∧ out.ret = false := by
    rintro rfl
    obtain ⟨rfl, heq⟩ := h₄
    cases heq
    exact ⟨rfl, rfl⟩
  cases readHeader_runs hbodies hnop hcmd (by omega) hfront hheader with
  | whole hreads hreceived htaken =>
      rw [htaken] at h₄
      dsimp only at h₄
      rw [if_neg (not_lt.mpr hlength)] at h₄
      obtain ⟨t₅, t₆, buf₃, rfl, halloca₂, h₆⟩ := runs_bind.mp h₄
      obtain ⟨hsilent₂, hno₂⟩ := alloca_silent fd halloca₂
      obtain ⟨t₇, t₈, ⟨ret, buf₄⟩, rfl, hread, h₈⟩ := runs_bind.mp h₆
      obtain ⟨rfl, heq⟩ := h₈
      cases heq
      have hbuf := (tcptoread_runs hread).1
      have hno₄ : ∀ e ∈ t₁ ++ (t₃ ++ t₅), ¬ ReadFails e := by
        intro e he
        obtain he | he := List.mem_append.mp he
        · exact hno₁ e he
        · exact (List.mem_append.mp he).elim (hreads e) (hno₂ e)
      have htrace : t₁ ++ (t₃ ++ (t₅ ++ (t₇ ++ []))) = t₁ ++ (t₃ ++ t₅) ++ t₇ := by simp
      rw [received_append, received_append, received_append, hreceived, hsilent₂,
        List.nil_append, received_nil, List.append_nil] at hstream
      obtain ⟨-, hpayload⟩ := prefix_split hstream rfl
      rw [htrace]
      obtain ⟨hall, hsum, hno₅⟩ | ⟨hneg, hless, t₉, e, hfirst, -⟩ :=
        tcptoreadLoop_cases (Nat.zero_le _) (by omega) hread
      · have htake : received fd t₇ = payload := by
          rw [← List.append_nil (received fd t₇)] at hpayload
          exact (prefix_split hpayload (by omega)).1
        refine .whole ?_ ?_ ⟨?_, ?_⟩
        · exact fun e he => (List.mem_append.mp he).elim (hno₄ e) (hno₅ e)
        · simp only [received_append, hsilent, hreceived, hsilent₂, htake, List.nil_append,
            List.append_nil]
        · rw [hall]
          simp
        · rw [hbuf, htake]
          exact ByteSeq.slice_overwrite_self _ _ _ _
      · refine .lost (hfirst.append_left hno₄) ?_
        simp only [beq_eq_false_iff_ne]
        omega
  | lost hfirst hrefused =>
      obtain ⟨rfl, hout⟩ := hlost hrefused
      rw [List.append_nil]
      exact .lost (hfirst.append_left hno₁) hout
  | ignored hfirst hplace hrefused =>
      refine .ignored (hfirst.append_right.append_left hno₁) ?_ fun hnothing => ?_
      · rwa [received_append, hsilent, List.nil_append]
      · rw [received_append, List.append_eq_nil_iff] at hnothing
        exact (hlost (hrefused hnothing.1)).2

end CompleteRuns

/-! ## Streams of commands -/

/-- A stream with a command behind `NOP` frames. -/
structure CommandStream where
  bodies : List Bytes
  cmd : ℕ
  payload : Bytes
  rest : Bytes
  length_body : ∀ body ∈ bodies, body.length = 4
  cmd_ne : cmd ≠ ANTOAN_NOP
  cmd_lt : cmd < 2 ^ 32
  length_le : payload.length ≤ 64 * 1024 * 1024

namespace CommandStream

/-- The frames of the stream up to its command. -/
def frames (s : CommandStream) : Bytes :=
  nopFrames s.bodies ++ header s.cmd s.payload.length ++ s.payload

def bytes (s : CommandStream) : Bytes := s.frames ++ s.rest

end CommandStream

/-- What has to hold of a run of `ReadCommand`, under way or complete, on a stream. -/
structure TakesFrames (s : CommandStream) (trouble : Trouble) (fd : ℤ) (rounds : ℕ)
    (input : Buffer) (t : Trace NetCall NetCall.Answer) : Prop where
  in_buffer : (intake fd InMemory 0).Along (InRoom InMemory) t ⟨input.mem.length, 0⟩
  goes_on : (∃ r, (readCommand rounds fd input).Runs t r) ∨
    ∃ o, (readCommand rounds fd input).Waits t o ∧ o ≠ .forever
  taken : trouble = .none → ∀ out input', (readCommand rounds fd input).Runs t (out, input') →
    out = ⟨true, s.cmd, s.payload.length⟩ ∧
      ByteSeq.slice input'.mem 8 s.payload.length = s.payload ∧ received fd t = s.frames
  refused : trouble ≠ .none → ∀ out input', (readCommand rounds fd input).Runs t (out, input') →
    out.ret = false

/-- Every stream with so many `NOP` frames is read right, however the reads divide it, when
this goes wrong with them. -/
def Framed (n : ℕ) (trouble : Trouble) : Prop :=
  ∀ (s : CommandStream) (fd : ℤ) (rounds : ℕ) (input : Buffer)
    (t : Trace NetCall NetCall.Answer), s.bodies.length = n → s.bytes.length ≤ rounds →
      (readCommand rounds fd input).Makes t → received fd t <+: s.bytes → trouble.At fd t →
        TakesFrames s trouble fd rounds input t

section Streams

variable {s : CommandStream} {fd : ℤ} {rounds : ℕ} {input : Buffer}
variable {t : Trace NetCall NetCall.Answer}

/-- A stream is read right where no read fails inside the body of a `NOP` frame, or nothing
comes after it. -/
theorem framed_of_place {n : ℕ} {trouble : Trouble}
    (hplace : ∀ place, trouble = .fails place → ¬ InNopBody n place) : Framed n trouble := by
  intro s fd rounds input t hn hrounds hmakes hstream htrouble
  have hpos : 0 < rounds := by
    refine lt_of_lt_of_le ?_ hrounds
    simp only [CommandStream.bytes, CommandStream.frames, List.length_append, length_header]
    omega
  have hcases : ∀ out input', (readCommand rounds fd input).Runs t (out, input') →
      FrameRun fd n s.frames t (out = ⟨true, s.cmd, s.payload.length⟩ ∧
        ByteSeq.slice input'.mem 8 s.payload.length = s.payload) (out.ret = false) := by
    intro out input' hruns
    rw [CommandStream.bytes, CommandStream.frames, List.append_assoc] at hstream
    rw [← hn]
    exact readCommand_runs s.length_body s.cmd_ne s.cmd_lt s.length_le hstream hruns
  have hpasses : ∀ bound, bound ≤ 8 * rounds → (intake fd InMemory bound).Passes
      (fun _ _ => True) (readCommand rounds fd input) ⟨input.mem.length, 0⟩ :=
    fun bound hbound => readCommand_intake rfl (by simpa using hbound)
  have hreceived : (received fd t).length ≤ rounds := hstream.length_le.trans hrounds
  refine ⟨inRoom_of_passes (hpasses 0 (Nat.zero_le _)) hmakes,
    goes_on_of_passes (hpasses _ le_rfl) hmakes (by rw [Nat.zero_add]; omega), ?_, ?_⟩
  · rintro rfl out input' hruns
    cases hcases out input' hruns with
    | whole hreads hreceived htaken => exact ⟨htaken.1, htaken.2, hreceived⟩
    | lost hfirst hrefused => exact absurd htrouble hfirst.not_none
    | ignored hfirst hplace hrefused => exact absurd htrouble hfirst.not_none
  · intro hne out input' hruns
    cases hcases out input' hruns with
    | whole hreads hreceived htaken =>
        cases trouble with
        | none => exact absurd rfl hne
        | ends place =>
            obtain ⟨t₁, e, t₂, hfirst, -⟩ := htrouble
            exact absurd hreads hfirst.not_none
        | fails place =>
            obtain ⟨t₁, e, t₂, hfirst, -⟩ := htrouble
            exact absurd hreads hfirst.not_none
    | lost hfirst hrefused => exact hrefused
    | ignored hfirst hbody hrefused =>
        cases trouble with
        | none => exact absurd rfl hne
        | ends place =>
            obtain ⟨t₁, e, t₂, hfirst', -, hnothing⟩ := htrouble
            obtain ⟨-, rfl⟩ := hfirst.unique hfirst'
            exact hrefused hnothing
        | fails place =>
            obtain ⟨t₁, e, t₂, hfirst', rfl⟩ := htrouble
            obtain ⟨rfl, -⟩ := hfirst.unique hfirst'
            exact absurd hbody (hplace _ rfl)

end Streams

/-! ## A read that fails inside the body of a `NOP` frame -/

section Desync

variable {fd : ℤ} {buf : Buffer} {pos : ℕ}

/-- A program can run and receive these bytes, with no read that fails. -/
def Receives {α : Type} (fd : ℤ) (p : Net α) (data : Bytes) (result : α) : Prop :=
  ∃ t, p.Runs t result ∧ received fd t = data ∧ ∀ e ∈ t, ¬ ReadFails e

/-- What two programs receive is what the first receives and then the second. -/
theorem Receives.bind {α β : Type} {p : Net α} {f : α → Net β} {data data' : Bytes} {a : α} {b : β}
    (hp : Receives fd p data a) (hf : Receives fd (f a) data' b) :
    Receives fd (p >>= f) (data ++ data') b := by
  obtain ⟨t, hruns, hreceived, hno⟩ := hp
  obtain ⟨t', hruns', hreceived', hno'⟩ := hf
  refine ⟨t ++ t', runs_bind.mpr ⟨t, t', a, rfl, hruns, hruns'⟩, ?_, ?_⟩
  · rw [received_append, hreceived, hreceived']
  · exact fun e he => (List.mem_append.mp he).elim (hno e) (hno' e)

/-- A read may give any part of what is asked for. -/
theorem tcptoreadLoop_part {leng rounds rcvd : ℕ} {data : Bytes} {r : ℤ × Buffer}
    {t : Trace NetCall NetCall.Answer} (hdata : data ≠ []) (hle : rcvd + data.length ≤ leng)
    (h : (tcptoreadLoop fd pos leng rounds (rcvd + data.length)
      (buf.store (pos + rcvd) data)).Runs t r) :
    ∃ e, (tcptoreadLoop fd pos leng (rounds + 1) rcvd buf).Runs (e :: t) r ∧
      readBytes fd e.1 e.2 = data ∧ ¬ ReadFails e := by
  have hpos : 0 < data.length := List.length_pos_of_ne_nil hdata
  refine ⟨⟨.read fd (pos + rcvd) (leng - rcvd),
    ⟨data.length, data, (Int.toNat_natCast _).symm, by omega⟩⟩, ?_, readBytes_read _ _ _, ?_⟩
  · rw [tcptoreadLoop, if_pos (by omega)]
    refine runs_op_bind.mpr ⟨_, t, rfl, ?_⟩
    rw [if_neg (by simpa using hdata)]
    exact h
  · have hgives : ¬ (data.length : ℤ) ≤ 0 := by omega
    exact hgives

/-- `tcptoread` receives the bytes it was asked for, however they are cut.
SOURCE: moose.cc:187-199 -/
theorem tcptoread_receives (fd : ℤ) (buf : Buffer) (pos : ℕ) (data : Bytes) :
    Receives fd (tcptoread fd buf pos data.length) data (data.length, buf.store pos data) := by
  by_cases hdata : data = []
  · subst hdata
    exact ⟨[], ⟨rfl, rfl⟩, rfl, fun e he => by cases he⟩
  obtain ⟨rounds, hrounds⟩ := Nat.exists_eq_succ_of_ne_zero
    (mt List.length_eq_zero_iff.mp hdata)
  have hdone : (tcptoreadLoop fd pos data.length rounds (0 + data.length)
      (buf.store (pos + 0) data)).Runs [] (data.length, buf.store pos data) := by
    rw [Nat.zero_add, Nat.add_zero]
    cases rounds with
    | zero => exact ⟨rfl, rfl⟩
    | succ rounds =>
        rw [tcptoreadLoop, if_neg (lt_irrefl _)]
        exact ⟨rfl, rfl⟩
  obtain ⟨e, hruns, hread, hgives⟩ := tcptoreadLoop_part hdata (by omega) hdone
  refine ⟨[e], ?_, ?_, ?_⟩
  · rw [tcptoread]
    nth_rewrite 2 [hrounds]
    exact hruns
  · rw [received_cons, hread]
    exact List.append_nil _
  · exact fun e' he => List.mem_singleton.mp he ▸ hgives

/-- A read fails when so many bytes have come. -/
theorem tcptoread_fails {leng : ℕ} {data : Bytes} (h : data.length < leng) :
    ∃ t e buf', (tcptoread fd buf pos leng).Runs (t ++ [e]) (-1, buf') ∧
      received fd t = data ∧ (∀ e' ∈ t, ¬ ReadFails e') ∧ ReadFails e := by
  have hfail : ∀ (rounds rcvd : ℕ) (buf : Buffer), rcvd < leng → ∃ e,
      (tcptoreadLoop fd pos leng (rounds + 1) rcvd buf).Runs [e] (-1, buf) ∧ ReadFails e := by
    intro rounds rcvd buf hlt
    have hneg : (-1 : ℤ) ≤ 0 := by norm_num
    refine ⟨⟨.read fd (pos + rcvd) (leng - rcvd), ⟨-1, [], rfl, Nat.zero_le _⟩⟩, ?_, hneg⟩
    rw [tcptoreadLoop, if_pos hlt]
    refine runs_op_bind.mpr ⟨_, [], rfl, ?_⟩
    rw [if_pos hneg]
    exact ⟨rfl, rfl⟩
  by_cases hdata : data = []
  · subst hdata
    obtain ⟨rounds, rfl⟩ : ∃ rounds, leng = rounds + 1 :=
      Nat.exists_eq_succ_of_ne_zero (by simpa using h.ne')
    obtain ⟨e, hruns, hfails⟩ := hfail rounds 0 buf h
    exact ⟨[], e, buf, hruns, rfl, fun e' he => (by cases he), hfails⟩
  · have hpos : 0 < data.length := List.length_pos_of_ne_nil hdata
    obtain ⟨rounds, hrounds⟩ : ∃ rounds, leng = rounds + 1 + 1 := ⟨leng - 2, by omega⟩
    obtain ⟨e, hruns, hfails⟩ :=
      hfail rounds (0 + data.length) (buf.store (pos + 0) data) (by omega)
    obtain ⟨e₁, hruns₁, hread, hgives⟩ := tcptoreadLoop_part hdata (by omega) hruns
    refine ⟨[e₁], e, buf.store (pos + 0) data, ?_, ?_,
      fun e' he => List.mem_singleton.mp he ▸ hgives, hfails⟩
    · rw [tcptoread]
      nth_rewrite 2 [hrounds]
      exact hruns₁
    · rw [received_cons, hread]
      exact List.append_nil _

/-- `Alloca` receives nothing.
SOURCE: moose.cc:65-79 -/
theorem alloca_receives (fd : ℤ) (buf : Buffer) (len : ℕ) :
    ∃ buf', Receives fd (buf.alloca len) [] buf' := by
  obtain ⟨t, buf', hruns⟩ : ∃ t buf', (buf.alloca len).Runs t buf' := by
    unfold Buffer.alloca
    split
    · exact ⟨_, _, ⟨List.replicate len 0, by simp⟩, _, rfl, rfl, rfl⟩
    · exact ⟨_, _, rfl, rfl⟩
  exact ⟨buf', t, hruns, alloca_silent fd hruns⟩

/-- The loop takes the header of a `NOP` frame, and whatever its body gives. -/
theorem readHeader_round (fd : ℤ) (buf : Buffer) : ∃ t₁, received fd t₁ = header ANTOAN_NOP 4 ∧
    (∀ e ∈ t₁, ¬ ReadFails e) ∧
    ∀ {rounds : ℕ} {t₂ t₃ : Trace NetCall NetCall.Answer} {ret : ℤ} {buf' : Buffer}
      {r : Option (ℕ × ℕ) × Buffer},
      (tcptoread fd (buf.store 0 (header ANTOAN_NOP 4)) 0 4).Runs t₂ (ret, buf') →
        (readHeader fd rounds buf').Runs t₃ r →
          (readHeader fd (rounds + 1) buf).Runs (t₁ ++ (t₂ ++ t₃)) r := by
  obtain ⟨t₁, hruns, hreceived, hno⟩ := tcptoread_receives fd buf 0 (header ANTOAN_NOP 4)
  refine ⟨t₁, hreceived, hno, fun {rounds t₂ t₃ ret buf' r} hbody hrest => ?_⟩
  unfold readHeader
  refine runs_bind.mpr ⟨t₁, t₂ ++ t₃, _, rfl, hruns, ?_⟩
  dsimp only
  rw [(get32bit_stored _ (by norm_num [ANTOAN_NOP]) (by norm_num)).1, if_neg (by simp), if_pos rfl]
  exact runs_bind.mpr ⟨t₂, t₃, _, rfl, hbody, hrest⟩

/-- The loop takes `NOP` frames. -/
theorem readHeader_nops (fd : ℤ) (buf : Buffer) {bodies : List Bytes}
    (hbodies : ∀ body ∈ bodies, body.length = 4) :
    ∃ t₁ buf', received fd t₁ = nopFrames bodies ∧ (∀ e ∈ t₁, ¬ ReadFails e) ∧
      ∀ {rounds : ℕ} {t₂ : Trace NetCall NetCall.Answer} {r : Option (ℕ × ℕ) × Buffer},
        (readHeader fd rounds buf').Runs t₂ r →
          (readHeader fd (rounds + bodies.length) buf).Runs (t₁ ++ t₂) r := by
  induction bodies generalizing buf with
  | nil => exact ⟨[], buf, rfl, fun e he => (by cases he), fun hruns => hruns⟩
  | cons body bodies ih =>
      obtain ⟨t₁, hheader, hno₁, hround⟩ := readHeader_round fd buf
      obtain ⟨t₂, hbody, hreceived, hno₂⟩ := tcptoread_receives fd
        (buf.store 0 (header ANTOAN_NOP 4)) 0 body
      rw [hbodies body List.mem_cons_self] at hbody
      obtain ⟨t₃, buf', hreceived₃, hno₃, hnops⟩ :=
        ih ((buf.store 0 (header ANTOAN_NOP 4)).store 0 body)
          fun b hb => hbodies b (List.mem_cons_of_mem _ hb)
      refine ⟨t₁ ++ (t₂ ++ t₃), buf', ?_, ?_, fun {rounds t₄ r} hruns => ?_⟩
      · rw [received_append, received_append, hheader, hreceived, hreceived₃]
        simp [nopFrames, nopFrame, header]
      · intro e he
        obtain he | he := List.mem_append.mp he
        · exact hno₁ e he
        · exact (List.mem_append.mp he).elim (hno₂ e) (hno₃ e)
      · rw [List.append_assoc, List.append_assoc]
        exact hround hbody (hnops hruns)

/-- Any eight bytes are a header. -/
theorem readHeader_receives (rounds : ℕ) {bytes : Bytes} (hlength : bytes.length = 8)
    (hcmd : get32bit (memory bytes) 0 ≠ ANTOAN_NOP) :
    Receives fd (readHeader fd (rounds + 1) buf) bytes
      (some (get32bit (memory bytes) 0, get32bit (memory bytes) 4), buf.store 0 bytes) := by
  have hread := tcptoread_receives fd buf 0 bytes
  rw [hlength] at hread
  have hend : Receives fd (pure (some (get32bit (memory bytes) 0, get32bit (memory bytes) 4),
      buf.store 0 bytes) : Net (Option (ℕ × ℕ) × Buffer)) []
      (some (get32bit (memory bytes) 0, get32bit (memory bytes) 4), buf.store 0 bytes) :=
    ⟨[], ⟨rfl, rfl⟩, rfl, fun e he => by cases he⟩
  have hruns : Receives fd (readHeader fd (rounds + 1) buf) (bytes ++ [])
      (some (get32bit (memory bytes) 0, get32bit (memory bytes) 4), buf.store 0 bytes) := by
    unfold readHeader
    refine hread.bind ?_
    dsimp only
    rw [if_neg (by simp), get32bit_store (by omega), get32bit_store (by omega), if_neg hcmd]
    exact hend
  rwa [List.append_nil] at hruns

/-- Behind `j` bytes of a body of ones what comes next is taken for a header: its length
is at most `2 ^ 24`. -/
theorem get32bit_desync {j : ℕ} (hj : j < 4) {next : Bytes}
    (hnext : next = header ANTOAN_NOP 4 ∨ next = header (2 ^ 24) 0) :
    get32bit (memory (List.replicate (4 - j) 1 ++ next.take (4 + j))) 0 ≠ ANTOAN_NOP ∧
      get32bit (memory (List.replicate (4 - j) 1 ++ next.take (4 + j))) 4 ≤ 2 ^ 24 := by
  have hcases : j = 0 ∨ j = 1 ∨ j = 2 ∨ j = 3 := by omega
  obtain rfl | rfl := hnext
  · obtain rfl | rfl | rfl | rfl := hcases <;> decide
  · obtain rfl | rfl | rfl | rfl := hcases <;> decide

/-- What `ReadCommand` makes of a header and what it asks for. -/
theorem readCommand_accepts {rounds cmd : ℕ} {input buf₁ buf₂ : Buffer}
    {t₁ t₂ : Trace NetCall NetCall.Answer} {payload : Bytes}
    (halloca : (input.alloca 8).Runs t₁ buf₁)
    (hheader : (readHeader fd rounds buf₁).Runs t₂ (some (cmd, payload.length), buf₂))
    (hlength : payload.length ≤ 64 * 1024 * 1024) :
    ∃ t₃ buf', received fd t₃ = payload ∧
      (readCommand rounds fd input).Runs (t₁ ++ (t₂ ++ t₃))
        (⟨true, cmd, payload.length⟩, buf') := by
  obtain ⟨buf₃, t₃, halloca₃, hsilent, -⟩ := alloca_receives fd buf₂ (8 + payload.length)
  obtain ⟨t₄, hread, hreceived, -⟩ := tcptoread_receives fd buf₃ 8 payload
  refine ⟨t₃ ++ t₄, buf₃.store 8 payload, ?_, ?_⟩
  · rw [received_append, hsilent, hreceived, List.nil_append]
  · unfold readCommand
    refine runs_bind.mpr ⟨t₁, t₂ ++ (t₃ ++ t₄), buf₁, rfl, halloca, ?_⟩
    refine runs_bind.mpr ⟨t₂, t₃ ++ t₄, _, rfl, hheader, ?_⟩
    dsimp only
    rw [if_neg (not_lt.mpr hlength)]
    refine runs_bind.mpr ⟨t₃, t₄, buf₃, rfl, halloca₃, ?_⟩
    refine runs_bind.mpr ⟨t₄, [], _, (List.append_nil t₄).symm, hread, rfl, ?_⟩
    simp

/-- The stream whose `NOP` frames have ones in their bodies. -/
def onesStream (n : ℕ) (rest : Bytes) : CommandStream where
  bodies := List.replicate n (List.replicate 4 1)
  cmd := 2 ^ 24
  payload := []
  rest := rest
  length_body body hbody := by
    rw [List.eq_of_mem_replicate hbody]
    rfl
  cmd_ne := by norm_num [ANTOAN_NOP]
  cmd_lt := by norm_num
  length_le := Nat.zero_le _

/-- What comes behind the body of a `NOP` frame of that stream begins with a header. -/
theorem onesStream_bytes (i m : ℕ) (rest : Bytes) : ∃ next tail : Bytes,
    (next = header ANTOAN_NOP 4 ∨ next = header (2 ^ 24) 0) ∧
      (onesStream (i + (m + 1)) rest).bytes = nopFrames (onesStream i rest).bodies ++
        (header ANTOAN_NOP 4 ++ List.replicate 4 1 ++ (next ++ (tail ++ rest))) := by
  obtain ⟨next, tail, hnext, hrest⟩ : ∃ next tail : Bytes,
      (next = header ANTOAN_NOP 4 ∨ next = header (2 ^ 24) 0) ∧
        nopFrames (List.replicate m (List.replicate 4 1)) ++ header (2 ^ 24) 0 =
          next ++ tail := by
    cases m with
    | zero => exact ⟨header (2 ^ 24) 0, [], .inr rfl, rfl⟩
    | succ m =>
        refine ⟨header ANTOAN_NOP 4, List.replicate 4 1 ++
          (nopFrames (List.replicate m (List.replicate 4 1)) ++ header (2 ^ 24) 0), .inl rfl, ?_⟩
        simp [nopFrames, nopFrame, header, List.replicate_succ]
  have hframes : nopFrames (List.replicate (i + (m + 1)) (List.replicate 4 1)) =
      nopFrames (List.replicate i (List.replicate 4 1)) ++ (header ANTOAN_NOP 4 ++
        List.replicate 4 1 ++ nopFrames (List.replicate m (List.replicate 4 1))) := by
    have hsucc : List.replicate (m + 1) (List.replicate 4 (1 : UInt8)) =
        List.replicate 4 1 :: List.replicate m (List.replicate 4 1) := List.replicate_succ
    rw [← List.replicate_append_replicate, hsucc]
    simp only [nopFrames, List.flatMap_append, List.flatMap_cons, nopFrame, header]
  refine ⟨next, tail, hnext, ?_⟩
  have hlength : (onesStream (i + (m + 1)) rest).payload.length = 0 := rfl
  rw [CommandStream.bytes, CommandStream.frames, hlength]
  change nopFrames (List.replicate _ _) ++ header (2 ^ 24) 0 ++ [] ++ rest =
    nopFrames (List.replicate _ _) ++ _
  rw [hframes, List.append_nil, ← List.append_assoc next, ← hrest]
  simp only [List.append_assoc]

/-- A read that fails inside the body of a `NOP` frame may be followed by a command that the
stream does not have. -/
theorem not_framed_of_inNopBody {n place : ℕ} (h : InNopBody n place) :
    ¬ Framed n (.fails place) := by
  intro hframed
  obtain ⟨i, hi, j, hj, rfl⟩ := h
  obtain ⟨m, rfl⟩ : ∃ m, n = i + (m + 1) := ⟨n - i - 1, by omega⟩
  obtain ⟨zeros, hzeros⟩ : ∃ zeros : Bytes, zeros.length = 2 ^ 24 :=
    ⟨List.replicate (2 ^ 24) 0, List.length_replicate ..⟩
  obtain ⟨next, tail, hnext, hstream⟩ := onesStream_bytes i m zeros
  obtain ⟨hcmd, hlength⟩ := get32bit_desync hj hnext
  have hnextlen : next.length = 8 := by obtain rfl | rfl := hnext <;> rfl
  have hbytes : (List.replicate (4 - j) 1 ++ next.take (4 + j)).length = 8 := by
    rw [List.length_append, List.length_replicate, List.length_take, hnextlen]
    omega
  have hfour : List.replicate 4 (1 : UInt8) = List.replicate j 1 ++ List.replicate (4 - j) 1 := by
    rw [List.replicate_append_replicate]
    congr 1
    omega
  have hbehind : (onesStream (i + (m + 1)) zeros).bytes = nopFrames (onesStream i zeros).bodies ++
      (header ANTOAN_NOP 4 ++ (List.replicate j 1 ++ ((List.replicate (4 - j) 1 ++
        next.take (4 + j)) ++ (next.drop (4 + j) ++ (tail ++ zeros))))) := by
    rw [hstream, hfour]
    simp only [List.append_assoc, List.append_cancel_left_eq]
    rw [← List.append_assoc (next.take _), List.take_append_drop]
  generalize List.replicate (4 - j) 1 ++ next.take (4 + j) = bytes at hcmd hlength hbytes hbehind
  have hrest : 2 ^ 24 ≤ (next.drop (4 + j) ++ (tail ++ zeros)).length := by
    rw [List.length_append, List.length_append, hzeros]
    omega
  generalize next.drop (4 + j) ++ (tail ++ zeros) = rest at hrest hbehind
  have hpayload : (rest.take (get32bit (memory bytes) 4)).length = get32bit (memory bytes) 4 :=
    List.length_take_of_le (hlength.trans hrest)
  -- the run: the frames before, the header, the part of the body, and the wrong command
  obtain ⟨buf₁, t₁, halloca, hsilent, hno₁⟩ := alloca_receives 0 {} 8
  obtain ⟨t₂, buf₂, hreceived₂, hno₂, hnops⟩ :=
    readHeader_nops 0 buf₁ (onesStream i zeros).length_body
  obtain ⟨t₃, hreceived₃, hno₃, hround⟩ := readHeader_round 0 buf₂
  have hpart : (List.replicate j (1 : UInt8)).length < 4 := by rwa [List.length_replicate]
  obtain ⟨t₄, e, buf₃, hfail, hreceived₄, hno₄, hfails⟩ := tcptoread_fails hpart
  obtain ⟨t₅, hheader, hreceived₅, -⟩ := readHeader_receives
    (onesStream (i + (m + 1)) zeros).bytes.length hbytes hcmd
  have hloop := hnops (hround hfail hheader)
  rw [← hpayload] at hloop
  have hmax : (rest.take (get32bit (memory bytes) 4)).length ≤ 64 * 1024 * 1024 := by
    rw [hpayload]
    omega
  obtain ⟨t₆, buf', hreceived₆, hruns⟩ := readCommand_accepts halloca hloop hmax
  have hfirst : FirstFailure (t₁ ++ (t₂ ++ (t₃ ++ (t₄ ++ [e] ++ t₅)) ++ t₆))
      (t₁ ++ (t₂ ++ (t₃ ++ t₄))) e (t₅ ++ t₆) := by
    refine ⟨by simp, ?_, hfails⟩
    intro e' he'
    simp only [List.mem_append] at he'
    obtain he' | he' | he' | he' := he'
    · exact hno₁ e' he'
    · exact hno₂ e' he'
    · exact hno₃ e' he'
    · exact hno₄ e' he'
  have hfront : received 0 (t₁ ++ (t₂ ++ (t₃ ++ t₄))) =
      nopFrames (onesStream i zeros).bodies ++ (header ANTOAN_NOP 4 ++ List.replicate j 1) := by
    simp only [received_append, hsilent, hreceived₂, hreceived₃, hreceived₄, List.nil_append]
  have htrouble : (Trouble.fails (12 * i + 8 + j)).At 0
      (t₁ ++ (t₂ ++ (t₃ ++ (t₄ ++ [e] ++ t₅)) ++ t₆)) := by
    refine ⟨_, e, _, hfirst, ?_⟩
    rw [hfront, List.length_append, length_nopFrames (onesStream i zeros).length_body]
    simp [onesStream]
    omega
  have hprefix : received 0 (t₁ ++ (t₂ ++ (t₃ ++ (t₄ ++ [e] ++ t₅)) ++ t₆)) <+:
      (onesStream (i + (m + 1)) zeros).bytes := by
    refine ⟨rest.drop (get32bit (memory bytes) 4), ?_⟩
    rw [hbehind]
    simp only [received_append, received_cons, received_nil, readBytes_of_fails hfails, hsilent,
      hreceived₂, hreceived₃, hreceived₄, hreceived₅, hreceived₆, List.nil_append,
      List.append_nil, List.append_assoc, List.take_append_drop]
  have hrefused := (hframed (onesStream (i + (m + 1)) zeros) 0 _ {} _ (List.length_replicate ..)
    (by omega) hruns.makes hprefix htrouble).refused (by simp) _ _ hruns
  cases hrefused

/-- **Frames of the master.** Whatever the stream and however the reads divide it,
`ReadCommand` takes the frames up to the first command, and refuses it when a read fails
before its end, exactly when none fails inside the body of a `NOP` frame and is followed by
more.
SOURCE: moose.cc:187-248 -/
theorem framed_iff {n : ℕ} {trouble : Trouble} :
    Framed n trouble ↔ ∀ place, trouble = .fails place → ¬ InNopBody n place := by
  refine ⟨?_, framed_of_place⟩
  rintro hframed place rfl hplace
  exact not_framed_of_inNopBody hplace hframed

/-- A read that fails inside the body of a `NOP` frame is not noticed. -/
theorem not_framed : ¬ ∀ (n : ℕ) (trouble : Trouble), Framed n trouble :=
  fun hall => not_framed_of_inNopBody ⟨0, by decide, 0, by decide, rfl⟩ (hall 1 (.fails 8))

end Desync

end Moose

end BundleStore
