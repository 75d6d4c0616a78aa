import BundleStore.Analysis.Alignment

set_option autoImplicit false

/-!
# Bundles are append-only logs

A bundle that nobody has locked is its header and the records of the `Write`s that have
returned 0, in the order in which they did, back to back. A path through `..` can be
taken for a missing bundle and lets the bundle be made anew; a `write` that takes
nothing without an error makes `Write` return 0 for a record that is not there.
-/

namespace BundleStore

open Machine Posix

/-- From a position on, the bytes are the records of these calls of `Write`, back to
back, each at the offset that its call had. -/
def BackToBack : ℕ → List (ℕ × WriteCall) → Bytes → Prop
  | _, [], bytes => bytes = []
  | pos, (offset, call) :: rest, bytes =>
      offset = pos ∧ ∃ record tail, IsRecord call record ∧ bytes = record ++ tail ∧
        BackToBack (pos + record.length) rest tail

/-- The content is a header and the records of these calls behind it. -/
def IsLog (content : Option Bytes) (calls : List (ℕ × WriteCall)) : Prop :=
  (content = none ∧ calls = []) ∨
    ∃ header records, header.length = kBundleHeaderSize ∧ content = some (header ++ records) ∧
      BackToBack kBundleHeaderSize calls records

/-- A record appended to a file of records stands back to back with the one before. -/
theorem backToBack_concat {call : WriteCall} {record : Bytes} (hrecord : IsRecord call record)
    {calls : List (ℕ × WriteCall)} {pos : ℕ} {bytes : Bytes} (h : BackToBack pos calls bytes) :
    BackToBack pos (calls ++ [(pos + bytes.length, call)]) (bytes ++ record) := by
  induction calls generalizing pos bytes with
  | nil =>
      obtain rfl : bytes = [] := h
      exact ⟨rfl, record, [], hrecord, by simp, rfl⟩
  | cons entry rest ih =>
      obtain ⟨hat, first, tail, hfirst, rfl, hrest⟩ := h
      refine ⟨hat, first, tail ++ record, hfirst, List.append_assoc _ _ _, ?_⟩
      have hnext := ih hrest
      rw [Nat.add_assoc, ← List.length_append] at hnext
      exact hnext

/-- How many bytes the records take. -/
theorem BackToBack.length {calls : List (ℕ × WriteCall)} {pos : ℕ} {bytes : Bytes}
    (h : BackToBack pos calls bytes) :
    bytes.length = (calls.map fun entry => fullSize entry.2.buf).sum := by
  induction calls generalizing pos bytes with
  | nil =>
      obtain rfl : bytes = [] := h
      rfl
  | cons entry rest ih =>
      obtain ⟨-, record, tail, hrecord, rfl, hrest⟩ := h
      rw [List.length_append, ih hrest, hrecord.length]
      rfl

/-- A record behind the last one. -/
theorem IsLog.concat {c : Bytes} {calls : List (ℕ × WriteCall)} (h : IsLog (some c) calls)
    {call : WriteCall} {record : Bytes} (hrecord : IsRecord call record) :
    IsLog (some (c ++ record)) (calls ++ [(c.length, call)]) := by
  rcases h with ⟨hnone, -⟩ | ⟨header, records, hheader, hcontent, hrecords⟩
  · cases hnone
  · obtain rfl := Option.some.inj hcontent
    refine .inr ⟨header, records ++ record, hheader, by rw [List.append_assoc], ?_⟩
    rw [List.length_append, hheader]
    exact backToBack_concat hrecord hrecords

/-- How long a bundle is. -/
theorem IsLog.length {content : Option Bytes} {calls : List (ℕ × WriteCall)}
    (h : IsLog content calls) {n : ℕ} (hn : content.map List.length = some n) :
    n = kBundleHeaderSize + (calls.map fun entry => fullSize entry.2.buf).sum := by
  rcases h with ⟨rfl, -⟩ | ⟨header, records, hheader, rfl, hrecords⟩
  · cases hn
  · rw [Option.map_some, Option.some.injEq] at hn
    rw [← hn, List.length_append, hheader, hrecords.length]

/-- What is kept: a bundle is a log, and the offset of a writer is its end until
`Write` has been called. -/
def logUpkeep (L : Layout) (base : Tree) (allowed : Bytes → Bool)
    (outside : ∀ p, allowed p = true → L.Outside p)
    (plain : ∀ p, allowed p = true → ∀ c ∈ components p, c ≠ dotdot)
    (storage : base.Direct L.cwd L.storage) : Upkeep L where
  base := base
  allowed := allowed
  outside := outside
  sizes _ := True
  Good content log := IsLog content log.completed
  Seen _ _ := True
  seen_of_good _ _ _ := trivial
  seen_emptied _ _ := trivial
  Header header n := n = header.length
  good_created header n log hlength hwhole hnone := by
    rcases hnone with ⟨-, hcalls⟩ | ⟨_, _, _, heq, _⟩
    · rw [hwhole, List.take_length, hcalls]
      exact .inr ⟨header, [], hlength, by rw [List.append_nil], rfl⟩
    · cases heq
  good_missing t p id log hgrows hp hmissing hgood := by
    rw [L.content_of_missing storage hgrows (plain p hp) hmissing] at hgood
    exact hgood
  Fits use offset _ c _ := use.written = false → c.length = offset
  fits_found c log size _ _ _ _ _ := rfl
  fits_created header log size hlength _ _ := hlength
  dirs := True

/-- A record `write` takes everything, or nothing and leaves an `errno` to be seen. -/
def logRecording : Recording where
  Writes use _ _ _ := use.written = false
  Accepts _ _ a := a.count = a.record.length ∨ a.count = 0 ∧ a.errno ≠ 0

/-- `Write` returns 0 exactly when its record was taken whole. -/
theorem succeeds_iff_whole {c : Bytes} {offset : ℕ} {a : Accepted} {buf : Bytes}
    {result : WriteResult} (haccepts : logRecording.Accepts c offset a)
    (hshown : a.Shown buf offset result) : result.Succeeds ↔ a.count = a.record.length := by
  constructor
  · intro hsucceeds
    rcases (hshown.zero hsucceeds).1 with hall | hzero
    · exact hall
    · exact haccepts.resolve_right fun hnothing => hnothing.2 hzero
  · exact hshown.succeeds

/-- The log of a bundle is kept by every record that is written. -/
theorem log_recorded {L : Layout} {base : Tree} {allowed : Bytes → Bool}
    {outside : ∀ p, allowed p = true → L.Outside p}
    {plain : ∀ p, allowed p = true → ∀ c ∈ components p, c ≠ dotdot}
    {storage : base.Direct L.cwd L.storage} :
    (logUpkeep L base allowed outside plain storage).Recorded logRecording := by
  -- a record that was accepted whole is appended
  have happended : ∀ {use offset size c log call a},
      (logUpkeep L base allowed outside plain storage).Stored logRecording use offset size c log
          call a →
        a.count = a.record.length → c.length = offset ∧ a.content c offset = c ++ a.record := by
    intro use offset size c log call a hstored hall
    have hend : c.length = offset := hstored.fits hstored.writes
    refine ⟨hend, ?_⟩
    unfold Accepted.content
    rw [hall, List.take_length, ← hend]
    exact ByteSeq.overwrite_length 0 c a.record
  refine ⟨fun _ _ _ _ herrno => .inr ⟨rfl, herrno⟩, fun h => h, fun _ h => h, fun _ => trivial,
    ?_, ?_, ?_, ?_⟩
  · intro use offset size c log call a result hstored hshown
    change IsLog _ (a.log call log offset result).completed
    have hgood : IsLog (some c) log.completed := hstored.good
    rw [Accepted.log_completed]
    by_cases hall : a.count = a.record.length
    · obtain ⟨hend, hcontent⟩ := happended hstored hall
      rw [if_pos (hshown.succeeds hall), hcontent, ← hend]
      exact hgood.concat hstored.record
    · have hzero : a.count = 0 := (hstored.accepts.resolve_left hall).1
      have hfails : ¬ result.Succeeds := fun hsucceeds =>
        hall ((succeeds_iff_whole hstored.accepts hshown).mp hsucceeds)
      rw [Accepted.content_of_count_eq_zero hzero, if_neg hfails]
      exact hgood
  · intro use offset size c log call a result _ _ hwritten
    cases hwritten
  · intro use first announced offset size c log call a result hstored hshown hfails _
    have hpart : a.count ≠ a.record.length := fun hall => hfails (hshown.succeeds hall)
    have hzero : a.count = 0 := (hstored.accepts.resolve_left hpart).1
    rw [Accepted.content_of_count_eq_zero hzero]
    exact hstored.fits hstored.writes
  · intro use first announced offset size c log call a result hstored hshown hsucceeds _
    have hall := (succeeds_iff_whole hstored.accepts hshown).mp hsucceeds
    obtain ⟨hend, hcontent⟩ := happended hstored hall
    rw [hcontent, List.length_append, hend]

/-! ## Runs -/

section Runs

variable {ι : Type} [DecidableEq ι]

/-- A bundle header is accepted whole; a record is accepted whole or not at all,
and in that case an `errno` is to be seen. -/
def LogCall (i : ι) : (o : SysCall) → World ι ι → o.Answer → World ι ι → Prop
  | .write _ .bundleHeader data, _, count, _ => count = data.length
  | .write _ (.record _) data, w, count, _ =>
      count = data.length ∨ count = -1 ∨ count = 0 ∧ w.errno i ≠ 0
  | _, _, _, _ => True

/-- Every `Allocate` is for the common storage. A writer is used for one `Write`
or for any number of `BatchWrite`s, of records below two gigabytes. -/
def startsLog (L : Layout) (allowed : Bytes → Bool) (_ : ι) (caller : Caller) :
    CallerOp → World ι ι → Bool
  | .allocate call, _ => callIn L allowed call
  | .write k _ buf _, _ =>
      caller.live[k]?.all fun lw => decide (fullSize buf < 2 ^ 31 ∧ lw.use = .fresh)
  | .batchWrite k buf _, _ =>
      caller.live[k]?.all fun lw => decide (fullSize buf < 2 ^ 31 ∧ lw.use.written = false)
  | _, _ => true

/-- Every bundle whose lock file is absent is a log of the `Write`s to it that have
returned 0. -/
def BundlesAreLogs (L : Layout) (allowed : Bytes → Bool) (w : World ι ι) : Prop :=
  ∀ p id, allowed p = true → IsId id → w.tree.content (L.lockLoc id) = none →
    IsLog (w.tree.content (L.bundleLoc p id)) (w.log (L.bundleLoc p id)).completed

/-- **Bundles are append-only logs** in every run of the processes.
SOURCE: bundle.cc:329-405,456-577, filelock.h:25-95 -/
theorem bundles_append_only {L : Layout} {allowed : Bytes → Bool}
    (outside : ∀ p, allowed p = true → L.Outside p)
    (plain : ∀ p, allowed p = true → ∀ c ∈ components p, c ≠ dotdot) {base : Tree}
    (storage : base.Direct L.cwd L.storage)
    (hbase : ∀ p id, allowed p = true → IsId id → base.content (L.bundleLoc p id) = none)
    {c : Config SysCall SysCall.Answer ι (World ι ι) Caller}
    (hc : ((storeSystem L.cwd id L.setting).restrict LogCall (startsLog L allowed)).Reachable
      (StartsFrom base) c) : BundlesAreLogs L allowed c.shared := by
  let U := logUpkeep L base allowed outside plain storage
  have hsem : U.KeptWrites logRecording
      (Upkeep.keptSystem L ι LogCall (startsLog L allowed)).sem := by
    refine ⟨⟨fun h => h.1, fun h => header_whole h.2, fun _ _ => trivial⟩, ?_⟩
    intro i fd call data w count w' c k h _ hcount
    rcases h.2 with hall | hneg | ⟨hzero, herrno⟩
    · left
      have hlen : (data.length : ℤ) = k := hall.symm.trans hcount
      exact_mod_cast hlen.symm
    · have hminus : (-1 : ℤ) = k := hneg.symm.trans hcount
      omega
    · right
      have hnone : (0 : ℤ) = k := hzero.symm.trans hcount
      exact ⟨by exact_mod_cast hnone.symm, herrno⟩
  have hstart : Upkeep.Permits U logRecording (startsLog (ι := ι) L allowed) := by
    refine ⟨fun h => callOk_of_callIn h trivial, ?_, ?_⟩
    · intro i caller k url buf user_data w lw h hk
      have hfresh := (of_decide_eq_true (Caller.of_all_live h hk)).2
      change lw.use.written = false
      rw [hfresh, Use.fresh_written]
    · intro i caller k buf user_data w lw h hk
      exact (of_decide_eq_true (Caller.of_all_live h hk)).2
  have hinit : ∀ c, StartsFrom (ι := ι) base c → Upkeep.Init U c := by
    intro c h
    refine ⟨h.shared, h.idle, ?_⟩
    rintro n l ⟨hid, p, hp, rfl⟩
    exact .inl ⟨hbase p n hp hid, rfl⟩
  obtain ⟨c₀, h₀, hrun⟩ := hc
  have hinv := (Upkeep.reachable_kept hsem log_recorded hstart ⟨c₀, hinit c₀ h₀, hrun⟩).1
  intro p n hp hid hfree
  refine hinv.good n _ ?_ ⟨hid, p, hp, rfl⟩
  intro i
  by_contra hheld
  have hfile := hinv.file_of_holds i n (by simpa using hheld)
  rw [hfree] at hfile
  cases hfile

end Runs

/-! ## Two processes on an empty disk -/

section TwoProcesses

/-- `LogCall` as a test. -/
def logCall (i : Bool) : (o : SysCall) → World Bool Bool → o.Answer → World Bool Bool → Bool
  | .write _ .bundleHeader data, _, count, _ => count == data.length
  | .write _ (.record _) data, w, count, _ =>
      count == data.length || count == -1 || (count == 0 && w.errno i != 0)
  | _, _, _, _ => true

/-- The test of a logged call finds only logged calls. -/
theorem logCall_sound (i : Bool) (o : SysCall) (w : World Bool Bool) (a : o.Answer)
    (w' : World Bool Bool) (h : logCall i o w a w' = true) : LogCall i o w a w' := by
  cases o with
  | write fd site data =>
      cases site with
      | bundleHeader => exact beq_iff_eq.mp h
      | record call =>
          unfold logCall at h
          simp only [Bool.or_eq_true, Bool.and_eq_true, beq_iff_eq, bne_iff_ne] at h
          exact or_assoc.mp h
  | _ => trivial

/-- What a condition on `write` alone would allow: a record is accepted whole or not
at all. -/
def AllOrNone (_ : Bool) : (o : SysCall) → World Bool Bool → o.Answer → World Bool Bool → Prop
  | .write _ .bundleHeader data, _, count, _ => count = data.length
  | .write _ (.record _) data, _, count, _ => count = data.length ∨ count = 0 ∨ count = -1
  | _, _, _, _ => True

def allOrNone (_ : Bool) :
    (o : SysCall) → World Bool Bool → o.Answer → World Bool Bool → Bool
  | .write _ .bundleHeader data, _, count, _ => count == data.length
  | .write _ (.record _) data, _, count, _ => count == data.length || count == 0 || count == -1
  | _, _, _, _ => true

/-- The test of a whole write finds only whole writes. -/
theorem allOrNone_sound (i : Bool) (o : SysCall) (w : World Bool Bool) (a : o.Answer)
    (w' : World Bool Bool) (h : allOrNone i o w a w' = true) : AllOrNone i o w a w' := by
  cases o with
  | write fd site data =>
      cases site with
      | bundleHeader => exact beq_iff_eq.mp h
      | record call =>
          unfold allOrNone at h
          simp only [Bool.or_eq_true, beq_iff_eq] at h
          exact or_assoc.mp h
  | _ => trivial

abbrev Moves : Type := List (System.Move SysCall SysCall.Answer Bool (World Bool Bool) CallerOp)

/-- The faultless environment. -/
abbrev faultless : Bool → Prog.Handler SysCall SysCall.Answer (World Bool Bool) :=
  World.serve [] id World.Surroundings.plain

/-- The answers of the example are answers that may be given. -/
theorem faultless_sem (i : Bool) (o : SysCall) (w : World Bool Bool) :
    World.Sem [] id i o w (faultless i o w).1 (faultless i o w).2 :=
  World.serve_sem [] id World.Surroundings.plain_sound i o w

/-- The faultless environment, but a `write` of a record takes nothing, and does
not say why. -/
def noRecord (i : Bool) : Prog.Handler SysCall SysCall.Answer (World Bool Bool)
  | .write fd (.record call) data, w =>
      if fd.pos < 2 ^ 63 then ((0 : ℤ), w.wrote fd (.record call) data 0)
      else ((-1 : ℤ), w.setErrno i EFBIG)
  | o, w => faultless i o w

/-- The answers of a disk that takes no record are answers that may be given. -/
theorem noRecord_sem (i : Bool) (o : SysCall) (w : World Bool Bool) :
    World.Sem [] id i o w (noRecord i o w).1 (noRecord i o w).2 := by
  cases o with
  | write fd site data =>
      cases site with
      | bundleHeader => exact faultless_sem i (.write fd .bundleHeader data) w
      | record call =>
          simp only [noRecord]
          by_cases h : fd.pos < 2 ^ 63
          · rw [if_pos h]
            exact .inl ⟨0, rfl, Nat.zero_le _, h, rfl⟩
          · rw [if_neg h]
            exact .inr ⟨rfl, EFBIG, by decide, rfl⟩
  | _ => exact faultless_sem i _ w

/-- A process allocates a writer under `p`, writes a record and releases it. -/
def upload (i : Bool) (buf : Bytes) : Moves :=
  allocateMoves i callUnderP faultless ++ System.runMoves i (.write 0 none buf none) 7 faultless ++
    System.runMoves i (.release 0) 1 faultless

/-- The moves of two processes in turn. -/
def inTurn (left right : Moves) : Moves :=
  (List.zipWith (fun m m' => [m, m']) left right).flatten

/-- After an upload by the first process the second one takes the bundle. The first one
finds it locked and goes on to the next; then both write in turn, and release. -/
def twoProcesses : Moves :=
  upload false [1, 2, 3] ++ allocateMoves true callUnderP faultless ++
    allocateMoves false callUnderP faultless ++ System.runMoves false .nextPass 30 faultless ++
    inTurn (System.runMoves true (.write 0 none [4, 5] none) 7 faultless)
      (System.runMoves false (.write 0 none [6] none) 7 faultless) ++
    inTurn (System.runMoves true (.release 0) 1 faultless)
      (System.runMoves false (.release 0) 1 faultless)

abbrev FairMove (m : System.Move SysCall SysCall.Answer Bool (World Bool Bool) CallerOp) : Prop :=
  m.Fair (storeSystem storageLayout.cwd id storageLayout.setting)

/-- Fair moves after fair moves are fair. -/
theorem fair_append {moves moves' : Moves} (h : ∀ m ∈ moves, FairMove m)
    (h' : ∀ m ∈ moves', FairMove m) : ∀ m ∈ moves ++ moves', FairMove m := by
  intro m hm
  exact (List.mem_append.mp hm).elim (h m) (h' m)

/-- Fair moves in turn are fair. -/
theorem fair_inTurn {left right : Moves} (hleft : ∀ m ∈ left, FairMove m)
    (hright : ∀ m ∈ right, FairMove m) : ∀ m ∈ inTurn left right, FairMove m := by
  intro m hm
  obtain ⟨pair, hpair, hm⟩ := List.mem_flatten.mp hm
  rw [← List.map_uncurry_zip_eq_zipWith] at hpair
  obtain ⟨⟨m₁, m₂⟩, hzip, rfl⟩ := List.mem_map.mp hpair
  obtain ⟨hm₁, hm₂⟩ := List.of_mem_zip hzip
  rcases List.mem_cons.mp hm with rfl | hm
  · exact hleft _ hm₁
  · rw [List.mem_singleton] at hm
    subst hm
    exact hright _ hm₂

/-- The moves of an operation are fair. -/
theorem fair_run (i : Bool) (op : CallerOp) (n : ℕ) :
    ∀ m ∈ System.runMoves i op n faultless, FairMove m :=
  fun _ hm => System.fair_of_mem_runMoves faultless_sem hm

/-- The moves of an allocation are fair. -/
theorem fair_allocate (i : Bool) (call : AllocateCall) :
    ∀ m ∈ allocateMoves i call faultless, FairMove m :=
  fun _ hm => allocateMoves_fair faultless_sem hm

/-- The moves of an upload are fair. -/
theorem upload_fair (i : Bool) (buf : Bytes) : ∀ m ∈ upload i buf, FairMove m :=
  fair_append (fair_append (fair_allocate _ _) (fair_run _ _ _)) (fair_run _ _ _)

/-- The moves of the two processes are fair. -/
theorem twoProcesses_fair : ∀ m ∈ twoProcesses, FairMove m := by
  refine fair_append (fair_append ?_ ?_) ?_
  · refine fair_append (fair_append (fair_append (upload_fair _ _) (fair_allocate _ _)) ?_) ?_
    · exact fair_allocate _ _
    · exact fair_run _ _ _
  · exact fair_inTurn (fair_run _ _ _) (fair_run _ _ _)
  · exact fair_inTurn (fair_run _ _ _) (fair_run _ _ _)

/-- The bundle of an id under `p`: how long it is, the offsets and contents of the `Write`s
that have returned 0, and whether its lock is free. -/
def bundleState (w : World Bool Bool) (id : ℤ) : Option ℕ × List (ℕ × Bytes) × Bool :=
  ((w.tree.content (storageLayout.bundleLoc (Text.ascii "p") id)).map List.length,
    (w.log (storageLayout.bundleLoc (Text.ascii "p") id)).completed.map
      fun entry => (entry.1, entry.2.buf),
    (w.tree.content (storageLayout.lockLoc id)).isNone)

/-- The prefix of the example is no way up. -/
theorem onlyP_plain (p : Bytes) (hp : onlyP p = true) : ∀ c ∈ components p, c ≠ dotdot := by
  obtain rfl := beq_iff_eq.mp hp
  decide +kernel

/-- Two processes have put two records into one bundle and one into the next. -/
theorem bundles_append_only_two :
    let w := (((storeSystem storageLayout.cwd id storageLayout.setting).restrict LogCall
      (startsLog storageLayout onlyP)).play (emptyDisk Bool) twoProcesses).shared
    bundleState w 0 = (some 3072, [(1024, [1, 2, 3]), (2048, [4, 5])], true) ∧
      bundleState w 1 = (some 2048, [(1024, [6])], true) ∧
      BundlesAreLogs storageLayout onlyP w := by
  refine ⟨by decide +kernel, by decide +kernel, ?_⟩
  have hreach : ((storeSystem storageLayout.cwd id storageLayout.setting).restrict LogCall
      (startsLog storageLayout onlyP)).Reachable (StartsFrom Tree.bare)
      (((storeSystem storageLayout.cwd id storageLayout.setting).restrict LogCall
        (startsLog storageLayout onlyP)).play (emptyDisk Bool) twoProcesses) := by
    apply System.play_reachable_restrict (emptyDisk_starts Bool) twoProcesses twoProcesses_fair
      logCall logCall_sound
    decide +kernel
  refine bundles_append_only onlyP_outside onlyP_plain ?_ (fun p n _ _ => content_bare _) hreach
  apply Tree.direct_of_plain
  decide +kernel

/-- The bundles of two processes are logs, when the prefixes meet a condition. -/
def AppendOnly (okPrefix : Bytes → Prop) : Prop :=
  ∀ (L : Layout) (allowed : Bytes → Bool),
    (∀ p, allowed p = true → L.Outside p ∧ okPrefix p) →
    ∀ base : Tree, (∀ l, base.content l = none) →
      ∀ c : Config SysCall SysCall.Answer Bool (World Bool Bool) Caller,
        ((storeSystem L.cwd id L.setting).restrict AllOrNone (startsLog L allowed)).Reachable
          (StartsFrom base) c → BundlesAreLogs L allowed c.shared

/-- A schedule that leaves the free bundle of id 0 at another length than the records
have of the `Write`s that returned 0. -/
theorem not_appendOnly {okPrefix : Bytes → Prop} (allowed : Bytes → Bool)
    (hallowed : ∀ p, allowed p = true → storageLayout.Outside p ∧ okPrefix p)
    (hp : allowed (Text.ascii "p") = true) (moves : Moves) (hfair : ∀ m ∈ moves, FairMove m)
    (hpass : ((storeSystem storageLayout.cwd id storageLayout.setting).restrict AllOrNone
      (startsLog storageLayout allowed)).passes allOrNone (emptyDisk Bool) moves = true)
    (n : ℕ) (calls : List (ℕ × Bytes)) (hstate : bundleState (((storeSystem storageLayout.cwd id
      storageLayout.setting).restrict AllOrNone (startsLog storageLayout allowed)).play
        (emptyDisk Bool) moves).shared 0 = (some n, calls, true))
    (hne : n ≠ kBundleHeaderSize + (calls.map fun entry => fullSize entry.2).sum) :
    ¬ AppendOnly okPrefix := by
  intro h
  have hreach := System.play_reachable_restrict (emptyDisk_starts Bool) moves hfair allOrNone
    allOrNone_sound hpass
  obtain ⟨hcontent, hrest⟩ := Prod.mk.inj hstate
  obtain ⟨hcalls, hfree⟩ := Prod.mk.inj hrest
  have hlog := h storageLayout allowed hallowed Tree.bare content_bare _ hreach (Text.ascii "p") 0
    hp (by unfold IsId; norm_num) (Option.isNone_iff_eq_none.mp hfree)
  have hlength := hlog.length hcontent
  rw [← hcalls, List.map_map] at hne
  exact hne hlength

/-- The same prefix, but on a way through a directory that does not exist. -/
def callThroughDots : AllocateCall :=
  { callUnderP with prefix_ := Text.ascii "missing/../p" }

def pOrDots (p : Bytes) : Bool :=
  onlyP p || p == Text.ascii "missing/../p"

/-- A second `Allocate` takes the way through `..`. -/
def throughDots : Moves :=
  upload false [1, 2, 3] ++ allocateMoves false callThroughDots faultless ++
    System.runMoves false (.release 0) 1 faultless

/-- The second process writes to a bundle that is there; its record is not accepted, and
`errno` is still zero. -/
def silentBatch : Moves :=
  allocateMoves false callUnderP faultless ++ System.runMoves false (.release 0) 1 faultless ++
    allocateMoves true callUnderP faultless ++
    System.runMoves true (.batchWrite 0 [1, 2, 3] none) 7 noRecord ++
    System.runMoves true (.release 0) 1 faultless

/-- The prefix that leads up stays outside of the locks. -/
theorem pOrDots_outside (p : Bytes) (hp : pOrDots p = true) : storageLayout.Outside p := by
  rcases Bool.or_eq_true_iff.mp hp with hp | hp
  · exact onlyP_outside p hp
  · obtain rfl := beq_iff_eq.mp hp
    apply storageLayout_outside
    decide +kernel

/-- The moves through a prefix that leads up are fair. -/
theorem throughDots_fair : ∀ m ∈ throughDots, FairMove m :=
  fair_append (fair_append (upload_fair _ _) (fair_allocate _ _)) (fair_run _ _ _)

/-- The moves of the batch whose failure is not reported are fair. -/
theorem silentBatch_fair : ∀ m ∈ silentBatch, FairMove m := by
  refine fair_append (fair_append ?_ ?_) (fair_run _ _ _)
  · exact fair_append (fair_append (fair_allocate _ _) (fair_run _ _ _)) (fair_allocate _ _)
  · exact fun m hm => System.fair_of_mem_runMoves noRecord_sem hm

/-- The bundle is made anew through `..`, and a `BatchWrite` returns 0 for a record that
was not accepted. -/
theorem not_bundles_append_only :
    ¬ AppendOnly (fun _ => True) ∧ ¬ AppendOnly (fun p => ∀ c ∈ components p, c ≠ dotdot) := by
  constructor
  · exact not_appendOnly pOrDots (fun p hp => ⟨pOrDots_outside p hp, trivial⟩)
      (by decide +kernel) throughDots throughDots_fair (by decide +kernel) 1024 [(1024, [1, 2, 3])]
      (by decide +kernel) (by decide)
  · exact not_appendOnly onlyP (fun p hp => ⟨onlyP_outside p hp, onlyP_plain p hp⟩)
      (by decide +kernel) silentBatch silentBatch_fair (by decide +kernel) 1024
      [(1024, [1, 2, 3])] (by decide +kernel) (by decide)

end TwoProcesses

end BundleStore
