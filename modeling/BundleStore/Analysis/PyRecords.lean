import BundleStore.Analysis.PyBundle

set_option autoImplicit false

/-!
# Which records of concurrent Python processes stay

As long as no bundle with records is created anew, a record stays where it was
written. Two processes that both have seen no bundle show that one may be.
-/

namespace BundleStore

namespace PyBundle

open Machine Posix Relation

/-! ## Processes -/

namespace Process

/-- The locks that are not those of a live writer. -/
def locks (process : Process) : List FileLock :=
  (process.pending.bind (·.flock)).toList ++ process.unwound

end Process

section Processes

variable {ι : Type} [DecidableEq ι] {L : Places} {i : ι} {process : Process} {w : World ι ι}

/-- What an idle process knows. -/
def ProcessOk (L : Places) (i : ι) (process : Process) (w : World ι ι) : Prop :=
  Knows L i process.locks process.live process.history w

omit [DecidableEq ι] in
/-- What a process knows of its writers is kept by the others. -/
theorem kept_process (i : ι) (process : Process) : Kept L i (ProcessOk L i process) :=
  kept_knows

/-- The triple of what a process may run next. -/
def RunKept (L : Places) (i : ι) (process : Process) (op : ProcessOp) : Prop :=
  (discipline L).Triple (keptSystem L ι).sem i
    (fun w => process.canRun op = true ∧ ProcessOk L i process w) (process.run L op)
    (ProcessOk L i)

omit [DecidableEq ι] in
/-- A round leaves its lock where the process keeps it. -/
theorem afterRound_ok (pending : Pending) {result : ℕ × Round}
    (h : RoundKept L i process.unwound process.live process.history result.2 w) :
    ProcessOk L i (process.afterRound pending result) w := by
  obtain ⟨last_id, round⟩ := result
  cases round with
  | again flock => exact h
  | raised flock => exact h
  | returned writer => exact h

/-- `allocate` begins with nothing held. -/
theorem allocate_kept (length : ℕ) (tm : Day) :
    RunKept L i process (.allocate length tm) := by
  have hsame : ∀ {last_id : Option ℕ} (w : World ι ι), (discipline L).Inv w →
      process.canRun (.allocate length tm) = true ∧ ProcessOk L i process w →
      ProcessOk L i { process with last_id, pending := some { length, tm } } w := by
    rintro last_id w - ⟨hidle, h⟩
    have hpending : process.pending = none := by simpa [Process.canRun] using hidle
    unfold ProcessOk Process.locks at h ⊢
    rw [hpending] at h
    exact h
  simp only [RunKept, Process.run]
  split
  · exact Discipline.Triple.ret hsame
  · refine quiet_call ?_ (show Quiet .getpid from trivial) fun pid => Discipline.Triple.ret hsame
    intro w w' hframe h
    exact ⟨h.1, kept_process i process w w' hframe h.2⟩

/-- A round of `allocate` keeps the records.
SOURCE: bundle.py:167-220 -/
theorem nextRound_kept (hapart : L.Apart) : RunKept L i process .nextRound := by
  simp only [RunKept, Process.run]
  split
  · exact Discipline.Triple.ret fun _ _ h => h.2
  · rename_i pending hpending
    apply Discipline.Triple.bind (R := fun result =>
      RoundKept L i process.unwound process.live process.history result.2)
    · apply (round_triple hapart { pending with loop_count := pending.loop_count + 1 }
        (process.last_id.getD 0)).pre
      rintro w - ⟨-, h⟩
      unfold ProcessOk Process.locks at h
      rw [hpending] at h
      exact h
    · intro result
      exact Discipline.Triple.ret fun _ _ h => afterRound_ok _ h

/-- `ensure_url` keeps the records.
SOURCE: bundle.py:67-70 -/
theorem ensureUrl_kept (k : ℕ) (url : Bytes) : RunKept L i process (.ensureUrl k url) := by
  simp only [RunKept, Process.run]
  split
  · exact Discipline.Triple.ret fun _ _ h => h.2
  · rename_i lw hlw
    obtain ⟨before, after, hlive, rfl⟩ := ByteSeq.split_at hlw
    apply Discipline.Triple.ret
    rintro w - ⟨-, h⟩
    unfold ProcessOk at h ⊢
    rw [hlive, ByteSeq.set_middle]
    rw [hlive] at h
    obtain ⟨hformed, hbelow⟩ := h.live lw (List.mem_append_right _ List.mem_cons_self)
    exact h.replace rfl ⟨⟨hformed.bid, hformed.locked, hformed.lockfile, hformed.filename⟩, hbelow⟩

/-- `write` keeps the records of the others.
SOURCE: bundle.py:72-122 -/
theorem write_kept (hapart : L.Apart) (k : ℕ) (content : Bytes) :
    RunKept L i process (.write k content) := by
  simp only [RunKept, Process.run]
  split
  · exact Discipline.Triple.ret fun _ _ h => h.2
  · rename_i lw hlw
    apply Discipline.Triple.intro
    intro hrun
    have hfresh : lw.written = false := by
      unfold Process.canRun at hrun
      simp only [hlw, Option.any_some, Bool.and_eq_true, Bool.not_eq_true'] at hrun
      exact hrun.2
    obtain ⟨before, after, hlive, rfl⟩ := ByteSeq.split_at hlw
    unfold ProcessOk
    rw [hlive]
    apply Discipline.Triple.bind (write_triple hapart hfresh content)
    intro result
    apply Discipline.Triple.ret
    intro w _ h
    unfold Process.afterWrite
    rw [hlive, ByteSeq.set_middle]
    exact h

/-- A writer that goes takes its lock along. -/
theorem release_kept (hapart : L.Apart) (k : ℕ) : RunKept L i process (.release k) := by
  simp only [RunKept, Process.run]
  split
  · exact Discipline.Triple.ret fun _ _ h => h.2
  · rename_i lw hlw
    obtain ⟨before, after, hlive, rfl⟩ := ByteSeq.split_at hlw
    apply Discipline.Triple.pre (P := Knows L i (lw.writer.flock :: process.locks)
      (before ++ after) process.history)
    · apply Discipline.Triple.bind
      · apply Discipline.Triple.bind (release_triple hapart)
        intro flock
        exact release_triple hapart
      · intro flock
        apply Discipline.Triple.ret
        intro w _ h
        unfold ProcessOk
        rw [hlive, ByteSeq.eraseIdx_middle]
        exact h.of_cons
    · rintro w - ⟨-, h⟩
      unfold ProcessOk at h
      rw [hlive] at h
      refine h.subperm ⟨_, locksOf_middle, List.Sublist.refl _⟩ fun a ha => ?_
      simp only [List.mem_append, List.mem_cons] at ha ⊢
      tauto

/-- A writer that is collected gives up its lock.
SOURCE: bundle.py:64-65 -/
theorem collect_kept (hapart : L.Apart) (k : ℕ) : RunKept L i process (.collect k) := by
  simp only [RunKept, Process.run]
  split
  · exact Discipline.Triple.ret fun _ _ h => h.2
  · rename_i flock hflock
    obtain ⟨before, after, hunwound, rfl⟩ := ByteSeq.split_at hflock
    let rest : List FileLock := (process.pending.bind (·.flock)).toList ++ (before ++ after)
    apply Discipline.Triple.pre (P := Knows L i (flock :: rest) process.live process.history)
    · apply Discipline.Triple.bind (release_triple hapart)
      intro flock
      apply Discipline.Triple.ret
      intro w _ h
      unfold ProcessOk Process.locks
      rw [hunwound, ByteSeq.eraseIdx_middle]
      exact h.of_cons
    · rintro w - ⟨-, h⟩
      refine h.subperm ⟨_, ?_, List.Sublist.refl _⟩ fun a ha => ha
      unfold locksOf Process.locks
      rw [hunwound, ← List.cons_append]
      refine List.Perm.append_right _ ?_
      rw [← List.append_assoc]
      refine List.perm_middle.trans ?_
      rw [List.append_assoc]
      exact List.Perm.refl _

/-- Every operation of a process keeps the records. -/
theorem run_kept (hapart : L.Apart) (process : Process) (op : ProcessOp) :
    RunKept L i process op := by
  cases op with
  | allocate length tm => exact allocate_kept length tm
  | nextRound => exact nextRound_kept hapart
  | ensureUrl k url => exact ensureUrl_kept k url
  | write k content => exact write_kept hapart k content
  | release k => exact release_kept hapart k
  | collect k => exact collect_kept hapart k

/-! ## Runs -/

/-- Before any process has done anything, on any disk. -/
structure Starts (base : Tree) (c : Config SysCall SysCall.Answer ι (World ι ι) Process) :
    Prop where
  shared : c.shared = World.start base
  idle : ∀ i, c.thread i = .ret {}

omit [DecidableEq ι] in
/-- Nothing is written at the start. -/
theorem inv_start (base : Tree) : Inv L (World.start base : World ι ι) := by
  constructor
  · intro i bid _ hheld
    cases hheld
  · intro i j bid _ hheld
    cases hheld
  · intro bid _ entry hentry
    cases hentry

omit [DecidableEq ι] in
/-- A process begins without writers. -/
theorem processOk_start (i : ι) (w : World ι ι) : ProcessOk L i {} w := by
  constructor
  · intro flock hmem
    cases hmem
  · exact List.Pairwise.nil
  · intro lw hlw
    cases hlw
  · intro e he
    cases he

/-- The records are kept in every reachable state. -/
theorem reachable_kept (hapart : L.Apart) {base : Tree}
    {c : Config SysCall SysCall.Answer ι (World ι ι) Process}
    (hc : (keptSystem L ι).Reachable (Starts base) c) :
    Inv L c.shared ∧ ∀ process, c.thread i = .ret process → ProcessOk L i process c.shared := by
  have hbody : ∀ i process op, (discipline L).Triple (keptSystem L ι).sem i
      (fun w => (keptSystem L ι).enabled i process op w = true ∧ ProcessOk L i process w)
      ((keptSystem L ι).body i process op) (ProcessOk L i) := by
    intro i process op
    apply (run_kept hapart process op).pre
    rintro w - ⟨hen, h⟩
    exact ⟨(Bool.and_eq_true_iff.mp hen).1, h⟩
  have hinit : ∀ c : Config SysCall SysCall.Answer ι (World ι ι) Process, Starts base c →
      (discipline L).Inv c.shared ∧
        ∀ i, (discipline L).Safe (keptSystem L ι).sem i (ProcessOk L i) (c.thread i) c.shared := by
    intro c h
    rw [h.shared]
    refine ⟨inv_start base, fun i => ?_⟩
    rw [h.idle]
    exact processOk_start i _
  refine ⟨(Discipline.reachable_safe (fun i process => (kept_process i process).stable) hbody
    hinit hc).1, fun process hidle => ?_⟩
  exact Discipline.reachable_idle (fun i process => (kept_process i process).stable) hbody hinit hc
    hidle

/-- Nothing goes from a log. -/
theorem log_steps {c c' : Config SysCall SysCall.Answer ι (World ι ι) Process}
    (h : ReflTransGen (keptSystem L ι).Step c c') (l : Loc) :
    c.shared.accepted l <+: c'.shared.accepted l := by
  induction h with
  | refl => exact List.prefix_refl _
  | tail _ hstep ih =>
      cases hstep with
      | start _ _ _ => exact ih
      | act _ hsem => exact ih.trans (hsem.1.accepted_grows l)

/-- **In runs that create no bundle with records anew, a record whose length `write`
has returned stays in its bundle.**
SOURCE: bundle.py:54-222 -/
theorem records_stay (hapart : L.Apart) {base : Tree}
    {c c' : Config SysCall SysCall.Answer ι (World ι ι) Process}
    (hc : (keptSystem L ι).Reachable (Starts base) c)
    (hlater : ReflTransGen (keptSystem L ι).Step c c')
    (hidle : c.thread i = .ret process) {e : Written} (he : e ∈ process.history) :
    Stored L e.bid (e.offset, e.huge) c'.shared := by
  obtain ⟨hbid, entry, hlog, hoffset, hhuge⟩ :=
    ((reachable_kept hapart hc).2 process hidle).history e he
  obtain ⟨c₀, h₀, hrun⟩ := hc
  have hc' : (keptSystem L ι).Reachable (Starts base) c' := ⟨c₀, h₀, hrun.trans hlater⟩
  rw [← hoffset, ← hhuge]
  exact (reachable_kept (i := i) hapart hc').1.stored e.bid hbid _
    ((log_steps hlater _).subset hlog)

end Processes

/-! ## Two processes -/

section TwoProcesses

/-- Bundles and locks of two processes in the root directory. -/
def twoPlaces : Places :=
  ⟨[], Text.ascii "bundles", Text.ascii "locks"⟩

/-- The two places of the example are apart. -/
theorem twoPlaces_apart : twoPlaces.Apart := by
  unfold Places.Apart
  decide +kernel

def may14 : Day where
  text := Text.ascii "20120514"
  ne_nil := by decide
  digits := by
    have hall : (Text.ascii "20120514").all (fun b => decide (Text.IsDigit b)) = true := by decide
    exact fun b hb => of_decide_eq_true (List.all_eq_true.mp hall b hb)

abbrev Moves : Type := List (System.Move SysCall SysCall.Answer Bool (World Bool Bool) ProcessOp)

/-- The ids of both processes end in the same digit. -/
def surroundings (i : Bool) : World.Surroundings :=
  { World.Surroundings.plain with pid := if i then 20 else 10 }

/-- The faultless environment. -/
def faultless (i : Bool) : Prog.Handler SysCall SysCall.Answer (World Bool Bool) :=
  World.serve [] id (surroundings i) i

/-- The surroundings of the example are sound. -/
theorem surroundings_sound (i : Bool) : (surroundings i).Sound := by
  have hplain := World.Surroundings.plain_sound
  refine ⟨hplain.heap, hplain.rand, ?_, hplain.now⟩
  cases i with
  | false => decide
  | true => decide

/-- The answers of the example are answers that may be given. -/
theorem faultless_sem (i : Bool) (o : SysCall) (w : World Bool Bool) :
    World.Sem [] id i o w (faultless i o w).1 (faultless i o w).2 :=
  World.serve_sem [] id (surroundings_sound i) i o w

/-- A process of an empty disk on which nothing has been done. -/
def emptyDisk : Config SysCall SysCall.Answer Bool (World Bool Bool) Process :=
  ⟨World.start Tree.bare, fun _ => .ret {}⟩

/-- The empty disk is a start. -/
theorem emptyDisk_starts : Starts Tree.bare emptyDisk :=
  ⟨rfl, fun _ => rfl⟩

/-- Of `nextRound` the process has run so many calls. -/
def allocateMoves (i : Bool) (calls : ℕ) : Moves :=
  System.runMoves i (.allocate 3 may14) 1 faultless ++
    System.runMoves i .nextRound calls faultless

/-- The rest of an upload. -/
def recordMoves (i : Bool) : Moves :=
  System.runMoves i (.ensureUrl 0 (Text.ascii "u")) 0 faultless ++
    System.runMoves i (.write 0 [1, 2, 3]) 4 faultless ++
    System.runMoves i (.release 0) 2 faultless

def uploadMoves (i : Bool) : Moves :=
  allocateMoves i 30 ++ recordMoves i

/-- The moves of an allocation are made by whole operations. -/
theorem allocateMoves_fair {i : Bool} {calls : ℕ} {m : System.Move SysCall SysCall.Answer Bool
    (World Bool Bool) ProcessOp} (hm : m ∈ allocateMoves i calls) :
    m.Fair (system twoPlaces) := by
  obtain hm | hm := List.mem_append.mp hm
  · exact System.fair_of_mem_runMoves faultless_sem hm
  · exact System.fair_of_mem_runMoves faultless_sem hm

/-- The moves of an upload are made by whole operations. -/
theorem uploadMoves_fair {i : Bool} {m : System.Move SysCall SysCall.Answer Bool
    (World Bool Bool) ProcessOp} (hm : m ∈ uploadMoves i) : m.Fair (system twoPlaces) := by
  simp only [uploadMoves, recordMoves, List.mem_append] at hm
  rcases hm with hm | (hm | hm) | hm
  · exact allocateMoves_fair hm
  · exact System.fair_of_mem_runMoves faultless_sem hm
  · exact System.fair_of_mem_runMoves faultless_sem hm
  · exact System.fair_of_mem_runMoves faultless_sem hm

/-- `KeptCall` as a test. -/
def keptCall (_ : Bool) : (o : SysCall) → World Bool Bool → o.Answer → World Bool Bool → Bool
  | .openTrunc path, w, _, _ => (w.accepted (canon [] path)).isEmpty
  | .write _ _ data, _, count, _ => count == data.length
  | _, _, _, _ => true

/-- The test of a kept call finds only kept calls. -/
theorem keptCall_sound (i : Bool) (o : SysCall) (w : World Bool Bool) (a : o.Answer)
    (w' : World Bool Bool) (h : keptCall i o w a w' = true) : KeptCall twoPlaces i o w a w' := by
  cases o with
  | openTrunc path => exact List.isEmpty_iff.mp h
  | write fd site data => exact beq_iff_eq.mp h
  | _ => trivial

/-- Every `write` takes everything. -/
def WritesComplete {ι : Type} (_ : ι) :
    (o : SysCall) → World ι ι → o.Answer → World ι ι → Prop
  | .write _ _ data, _, count, _ => count = data.length
  | _, _, _, _ => True

def writesComplete (_ : Bool) : (o : SysCall) → World Bool Bool → o.Answer → World Bool Bool → Bool
  | .write _ _ data, _, count, _ => count == data.length
  | _, _, _, _ => true

/-- The test of a complete write finds only complete writes. -/
theorem writesComplete_sound (i : Bool) (o : SysCall) (w : World Bool Bool) (a : o.Answer)
    (w' : World Bool Bool) (h : writesComplete i o w a w' = true) : WritesComplete i o w a w' := by
  cases o with
  | write fd site data => exact beq_iff_eq.mp h
  | _ => trivial

/-- The first record of a process is that of the bundle with id 0. -/
def hasRecord (thread : Sys Process) : Bool :=
  thread.result?.any fun process => process.history.any fun e =>
    decide (e.bid = newBid 0 may14 ∧ e.offset = 1024 ∧ e.huge.length = 1024)

/-- The test of a record finds one. -/
theorem of_hasRecord {thread : Sys Process} (h : hasRecord thread = true) :
    ∃ process e, thread = .ret process ∧ e ∈ process.history ∧ e.bid = newBid 0 may14 ∧
      e.offset = 1024 ∧ e.huge.length = 1024 := by
  obtain ⟨process, hresult, hhistory⟩ := (Option.any_eq_true _ _).mp h
  obtain ⟨e, he, heq⟩ := List.any_eq_true.mp hhistory
  exact ⟨process, e, Prog.eq_ret_of_result? hresult, he, of_decide_eq_true heq⟩

/-- A second upload to the same bundle leaves the record of the first. -/
theorem records_stay_upload :
    let c := (keptSystem twoPlaces Bool).play emptyDisk (uploadMoves false)
    let c' := (keptSystem twoPlaces Bool).play c (uploadMoves true)
    ∃ process e, c.thread false = .ret process ∧ e ∈ process.history ∧
      e.bid = newBid 0 may14 ∧ Stored twoPlaces e.bid (e.offset, e.huge) c'.shared := by
  intro c c'
  have hc : (keptSystem twoPlaces Bool).Reachable (Starts Tree.bare) c := by
    apply System.play_reachable_restrict emptyDisk_starts (uploadMoves false)
      (fun _ => uploadMoves_fair) keptCall keptCall_sound
    decide +kernel
  have hlater : ReflTransGen (keptSystem twoPlaces Bool).Step c c' := by
    apply System.play_steps_restrict (uploadMoves true) (fun _ => uploadMoves_fair) keptCall
      keptCall_sound
    decide +kernel
  have hrecord : hasRecord (c.thread false) = true := by decide +kernel
  obtain ⟨process, e, hidle, he, hbid, -⟩ := of_hasRecord hrecord
  exact ⟨process, e, hidle, he, hbid, records_stay twoPlaces_apart hc hlater hidle he⟩

/-- The records of two processes stay. -/
def RecordsStay : Prop :=
  ∀ (L : Places) (base : Tree)
    (c c' : Config SysCall SysCall.Answer Bool (World Bool Bool) Process),
    ((system L).restrict WritesComplete fun _ _ _ _ => true).Reachable (Starts base) c →
      ReflTransGen ((system L).restrict WritesComplete fun _ _ _ _ => true).Step c c' →
        ∀ i process, c.thread i = .ret process → ∀ e ∈ process.history,
          Stored L e.bid (e.offset, e.huge) c'.shared

/-- The first process asks whether there is a bundle; then the second one uploads. -/
def askedFirst : Moves :=
  allocateMoves false 2 ++ uploadMoves true

/-- The first process goes on, and creates the bundle anew. -/
theorem not_records_stay : ¬ RecordsStay := by
  intro h
  let S := (system (ι := Bool) twoPlaces).restrict WritesComplete fun _ _ _ _ => true
  let c := S.play emptyDisk askedFirst
  let rest : Moves := List.replicate 28 (.act false faultless)
  have hc : S.Reachable (Starts Tree.bare) c := by
    apply System.play_reachable_restrict emptyDisk_starts askedFirst ?_ writesComplete
      writesComplete_sound
    · decide +kernel
    · intro m hm
      obtain hm | hm := List.mem_append.mp hm
      · exact allocateMoves_fair hm
      · exact uploadMoves_fair hm
  have hlater : ReflTransGen S.Step c (S.play c rest) := by
    apply System.play_steps_restrict rest ?_ writesComplete writesComplete_sound
    · decide +kernel
    · intro m hm
      rw [List.eq_of_mem_replicate hm]
      exact faultless_sem false
  have hrecord : hasRecord (c.thread true) = true := by decide +kernel
  obtain ⟨process, e, hidle, he, hbid, hoffset, hlength⟩ := of_hasRecord hrecord
  obtain ⟨content, hcontent, hle, -⟩ :=
    h twoPlaces Tree.bare c (S.play c rest) hc hlater true process hidle e he
  have htruncated : ((S.play c rest).shared.tree.content
      (twoPlaces.bundleLoc (newBid 0 may14))).map List.length = some 1024 := by
    decide +kernel
  rw [hbid] at hcontent
  rw [hcontent] at htruncated
  have hsize := Option.some.inj htruncated
  dsimp only at hle
  omega

end TwoProcesses

end PyBundle

end BundleStore
