import BundleStore.Analysis.StoreWrite

set_option autoImplicit false

/-!
# Callers of a kept storage

What a caller knows of its writers is kept by every program it may start, so the
invariant of the storage holds in every run.
-/

namespace BundleStore

open Machine Posix

namespace Upkeep

variable {L : Layout} {U : Upkeep L} {R : Recording} {ι : Type} [DecidableEq ι]
variable {sem : ι → (o : SysCall) → World ι ι → o.Answer → World ι ι → Prop}
variable {i : ι} {w : World ι ι} {before after : List LiveWriter} {lw : LiveWriter}

/-! ## One writer among the live ones -/

omit [DecidableEq ι] in
/-- A live writer and the others. -/
theorem liveOk_middle :
    U.LiveOk i (before ++ lw :: after) w ↔
      U.LiveOk i (before ++ after) w ∧
        (∀ other ∈ before ++ after, other.writer.info_.id ≠ lw.writer.info_.id) ∧
        U.WriterOk i lw w := by
  have hmiddle : (before ++ lw :: after).Pairwise
        (fun a b => a.writer.info_.id ≠ b.writer.info_.id) ↔
      (lw :: (before ++ after)).Pairwise fun a b => a.writer.info_.id ≠ b.writer.info_.id :=
    List.pairwise_middle fun h => h.symm
  rw [List.pairwise_cons] at hmiddle
  constructor
  · intro h
    obtain ⟨hfresh, hapart⟩ := hmiddle.mp h.apart
    refine ⟨⟨hapart, fun a ha => h.each a ?_⟩, fun a ha => (hfresh a ha).symm, h.each lw ?_⟩
    · rw [List.mem_append, List.mem_cons]
      rcases List.mem_append.mp ha with ha | ha
      · exact .inl ha
      · exact .inr (.inr ha)
    · exact List.mem_append_right _ List.mem_cons_self
  · rintro ⟨hrest, hfresh, hlw⟩
    refine ⟨hmiddle.mpr ⟨fun a ha => (hfresh a ha).symm, hrest.apart⟩, ?_⟩
    intro a ha
    rcases List.mem_append.mp ha with ha | ha
    · exact hrest.each a (List.mem_append_left _ ha)
    · rcases List.mem_cons.mp ha with rfl | ha
      · exact hlw
      · exact hrest.each a (List.mem_append_right _ ha)

/-- The writer, its lock and its file, apart from the other writers. -/
def Apart (U : Upkeep L) (i : ι) (rest : List LiveWriter) (lw : LiveWriter) (p : Bytes)
    (filelock : FileLock) (w : World ι ι) : Prop :=
  Tried U i rest lw.writer.info_.id filelock w ∧
    U.AtFile lw (L.bundleLoc p lw.writer.info_.id) w

omit [DecidableEq ι] in
/-- A writer among the live ones, apart from the others. -/
theorem liveOk_apart :
    U.LiveOk i (before ++ lw :: after) w ↔
      ∃ p filelock, (U.Formed lw.writer p filelock ∧ IsId lw.writer.info_.id) ∧
        Apart U i (before ++ after) lw p filelock w := by
  rw [liveOk_middle]
  constructor
  · rintro ⟨hrest, hfresh, p, filelock, hformed, hown, hfile⟩
    exact ⟨p, filelock, ⟨hformed, hown.isId⟩,
      ⟨hrest, hformed.lockfile, fun _ => hfresh, fun _ => hown⟩, hfile⟩
  · rintro ⟨p, filelock, ⟨hformed, -⟩, htried, hfile⟩
    exact ⟨htried.liveOk, htried.fresh hformed.locked, p, filelock, hformed,
      htried.own hformed.locked, hfile⟩

/-! ## `Write` and `BatchWrite` -/

/-- What a `Write` with a live writer leaves, and what it returns. -/
def WroteFile (U : Upkeep L) (R : Recording) (i : ι) (rest : List LiveWriter) (lw : LiveWriter)
    (p : Bytes) (filelock : FileLock) (call : WriteCall) (result : WriteResult) (w : World ι ι) :
    Prop :=
  Tried U i rest lw.writer.info_.id filelock w ∧
    ((U.dirs ∧ w.tree.node (L.bundleLoc p lw.writer.info_.id) = some .dir ∧
        ¬ result.Succeeds) ∨
      ∃ c log a, U.Stored R lw.use lw.writer.info_.offset lw.writer.info_.size c log call a ∧
        a.Shown call.buf lw.writer.info_.offset result ∧
        w.tree.content (L.bundleLoc p lw.writer.info_.id) =
            some (a.content c lw.writer.info_.offset) ∧
          w.log (L.bundleLoc p lw.writer.info_.id) =
            a.log call log lw.writer.info_.offset result)

/-- A `Write` under a URL keeps the writers and the bundle.
SOURCE: bundle.cc:329-390 -/
theorem writeUrl_kept (hsem : U.KeptWrites R sem) (hR : U.Recorded R) {rest : List LiveWriter}
    {p : Bytes} {filelock : FileLock} (hformed : U.Formed lw.writer p filelock)
    (hid : IsId lw.writer.info_.id) {url buf : Bytes} {user_data : Option Bytes}
    (hwrites : R.Writes lw.use lw.writer.info_.offset lw.writer.info_.size buf) :
    U.discipline.Triple sem i (Apart U i rest lw p filelock)
      (lw.writer.writeUrl url buf user_data)
      (WroteFile U R i rest lw p filelock ⟨url, buf, user_data⟩) := by
  have hl : U.Bundle lw.writer.info_.id (L.bundleLoc p lw.writer.info_.id) :=
    ⟨hid, p, hformed.allowed, rfl⟩
  have hfile : canon L.cwd lw.writer.filename_ = L.bundleLoc p lw.writer.info_.id := by
    rw [hformed.filename]
    rfl
  unfold Writer.writeUrl
  intro w hinv h
  obtain ⟨htried, ⟨hdirs, hdir⟩ | ⟨c, hc, hfits⟩⟩ := h
  · refine Discipline.Triple.bind (writeRecord_dir hsem.toKeptCalls hfile _ ⟨url, buf, user_data⟩)
      ?_ w hinv ⟨htried, hdir⟩
    intro result
    apply Discipline.Triple.intro
    intro hfails
    unfold Writer.note
    rw [if_neg hfails]
    apply Discipline.Triple.ret
    intro w' _ h'
    exact ⟨h'.1, .inl ⟨hdirs, h'.2, hfails⟩⟩
  · have hgood := (htried.own hformed.locked).good _ hl
    rw [hc] at hgood
    refine Discipline.Triple.bind
      (writeRecord_kept ⟨url, buf, user_data⟩ hsem hR hfile hl hwrites hfits hgood) ?_
      w hinv (htried.atLog hformed.locked hc)
    intro result
    apply Discipline.Triple.bind (note_kept hsem.toKeptCalls hR hl hfile result)
    intro _
    apply Discipline.Triple.ret
    rintro w' _ ⟨a, hstored, hshown, hat⟩
    exact ⟨hat.tried (hR.good hstored hshown),
      .inr ⟨c, _, a, hstored, hshown, hat.content, hat.log⟩⟩

omit [DecidableEq ι] in
/-- The writer after `Write`. -/
theorem wroteFile_written (hR : U.Recorded R) {rest : List LiveWriter} {p : Bytes}
    {filelock : FileLock} {call : WriteCall} {result : WriteResult}
    (h : WroteFile U R i rest lw p filelock call result w) :
    Apart U i rest { lw with use := lw.use.wrote } p filelock w := by
  refine ⟨h.1, ?_⟩
  rcases h.2 with ⟨hdirs, hdir, -⟩ | ⟨c, log, a, hstored, hshown, hcontent, hlog⟩
  · exact .inl ⟨hdirs, hdir⟩
  · exact .inr ⟨_, hcontent, hlog ▸ hR.written hstored hshown⟩

/-- `Write` with one of the live writers. -/
theorem write_kept (hsem : U.KeptWrites R sem) (hR : U.Recorded R) {buf : Bytes}
    (hwrites : R.Writes lw.use lw.writer.info_.offset lw.writer.info_.size buf) (url : Bytes)
    (user_data : Option Bytes) :
    U.discipline.Triple sem i (U.LiveOk i (before ++ lw :: after))
      (lw.writer.writeUrl url buf user_data) fun _ w =>
        U.LiveOk i (before ++ { lw with use := lw.use.wrote } :: after) w := by
  apply Discipline.Triple.pre (P := fun w => ∃ p filelock,
    (U.Formed lw.writer p filelock ∧ IsId lw.writer.info_.id) ∧
      Apart U i (before ++ after) lw p filelock w) ?_ fun _ _ h => liveOk_apart.mp h
  apply Discipline.Triple.exists_pre
  intro p
  apply Discipline.Triple.exists_pre
  intro filelock
  apply Discipline.Triple.intro
  rintro ⟨hformed, hid⟩
  apply (writeUrl_kept hsem hR hformed hid hwrites).post
  intro result w _ h
  exact liveOk_apart.mpr ⟨p, filelock, ⟨hformed, hid⟩, wroteFile_written hR h⟩

/-- The record of a `BatchWrite`, and the writer's offset behind it. -/
theorem batch_offset {call : WriteCall} {a : Accepted} {offset : ℕ} {result : WriteResult}
    (hshown : a.Shown call.buf offset result) (hresult : result.Succeeds)
    (hrecord : IsRecord call a.record) :
    uint64 (offset + recordSize call.buf.length) = offset + a.record.length := by
  obtain ⟨-, hoffset, hsize⟩ := hshown.zero hresult
  rw [hrecord.length, (recordTotal_of_fullSize hsize).1, ← Nat.cast_add,
    uint64_natCast (by omega)]

/-- `BatchWrite` with one of the live writers. -/
theorem batchWrite_kept (hsem : U.KeptWrites R sem) (hR : U.Recorded R) {buf : Bytes}
    (hwrites : R.Writes lw.use lw.writer.info_.offset lw.writer.info_.size buf)
    (user_data : Option Bytes) :
    U.discipline.Triple sem i (U.LiveOk i (before ++ lw :: after))
      (lw.writer.batchWrite buf user_data) fun result w =>
        U.LiveOk i (before ++ { writer := result.1, use := lw.batched } :: after) w := by
  obtain ⟨writer, use⟩ := lw
  let used : Use := use.batched writer.info_.offset writer.info_.size
  -- `info_.size` is set first, to the size of this record
  let sized : LiveWriter :=
    ⟨{ writer with info_ := { writer.info_ with size := buf.length } }, used⟩
  apply Discipline.Triple.pre (P := fun w => ∃ p filelock,
    (U.Formed writer p filelock ∧ IsId writer.info_.id) ∧
      Apart U i (before ++ after) ⟨writer, use⟩ p filelock w) ?_ fun _ _ h => liveOk_apart.mp h
  apply Discipline.Triple.exists_pre
  intro p
  apply Discipline.Triple.exists_pre
  intro filelock
  apply Discipline.Triple.intro
  rintro ⟨hformed, hid⟩
  have hsized : U.Formed sized.writer p filelock :=
    ⟨hformed.allowed, hformed.lock, hformed.locked, hformed.lockfile, hformed.filename⟩
  let call : WriteCall := ⟨sized.writer.ensureUrl, buf, user_data⟩
  unfold Writer.batchWrite
  apply Discipline.Triple.bind
  · intro w hinv h
    have hapart : Apart U i (before ++ after) sized p filelock w ∧
        R.Writes sized.use sized.writer.info_.offset sized.writer.info_.size buf := by
      rcases h.2 with hdir | ⟨c, hc, hfits⟩
      · exact ⟨⟨h.1, .inl hdir⟩, hR.writes_sized hwrites⟩
      · exact ⟨⟨h.1, .inr ⟨c, hc, hR.fits_sized hwrites hfits⟩⟩, hR.writes_sized hwrites⟩
    exact writeUrl_kept hsem hR hsized hid hapart.2 w hinv hapart.1
  intro result
  have hfailed : ¬ result.Succeeds →
      U.discipline.Triple sem i (WroteFile U R i (before ++ after) sized p filelock call result)
        (pure (sized.writer, result, none) : Sys (Writer × WriteResult × Option Bytes))
        fun result w =>
          U.LiveOk i (before ++ { writer := result.1, use := used } :: after) w := by
    intro hresult
    apply Discipline.Triple.ret
    intro w _ h
    refine liveOk_apart.mpr ⟨p, filelock, ⟨hsized, hid⟩, h.1, ?_⟩
    rcases h.2 with ⟨hdirs, hdir, -⟩ | ⟨c, log, a, hstored, hshown, hcontent, hlog⟩
    · exact .inl ⟨hdirs, hdir⟩
    · exact .inr ⟨_, hcontent, hlog ▸ hR.failed hstored hshown hresult⟩
  match result with
  | .threw => exact hfailed id
  | .overran => exact hfailed id
  | .returned ret written =>
      by_cases hret : ret = 0
      · subst hret
        apply Discipline.Triple.ret
        intro w _ h
        refine liveOk_apart.mpr ⟨p, filelock, ⟨?_, hid⟩, h.1, ?_⟩
        · exact ⟨hformed.allowed, hformed.lock, hformed.locked, hformed.lockfile,
            hformed.filename⟩
        · rcases h.2 with ⟨-, -, hresult⟩ | ⟨c, log, a, hstored, hshown, hcontent, hlog⟩
          · exact absurd rfl hresult
          · refine .inr ⟨_, hcontent, ?_⟩
            have hoffset := batch_offset hshown rfl hstored.record
            change U.Fits used (uint64 (writer.info_.offset + recordSize buf.length))
              buf.length _ (w.log (L.bundleLoc p writer.info_.id))
            rw [hoffset, hlog]
            exact hR.batched hstored hshown rfl
      · refine Eq.mp ?_ (hfailed hret)
        congr 1
        split
        · rename_i heq
          exact absurd (WriteResult.returned.inj heq).1 hret
        · rfl

/-- A live writer is released. -/
theorem release_kept (hsem : U.KeptCalls sem) :
    U.discipline.Triple sem i (U.LiveOk i (before ++ lw :: after)) lw.writer.release
      fun _ w => U.LiveOk i (before ++ after) w := by
  apply Discipline.Triple.pre (P := fun w => ∃ p filelock,
    (U.Formed lw.writer p filelock ∧ IsId lw.writer.info_.id) ∧
      Apart U i (before ++ after) lw p filelock w) ?_ fun _ _ h => liveOk_apart.mp h
  apply Discipline.Triple.exists_pre
  intro p
  apply Discipline.Triple.exists_pre
  intro filelock
  apply Discipline.Triple.intro
  rintro ⟨hformed, -⟩
  unfold Writer.release
  rw [hformed.lock]
  apply Discipline.Triple.bind ((destroy_kept hsem).pre fun _ _ h => h.1)
  intro _
  exact Discipline.Triple.ret fun _ _ h => h

/-! ## The callers -/

/-- The call is for the storage and the lock directory that all have in common. -/
structure CallOk (U : Upkeep L) (call : AllocateCall) : Prop where
  storage : call.storage = L.storage
  lockDir : call.lockDir = L.lock_dir
  allowed : U.allowed call.bundlePrefix = true
  size : U.sizes call.size

/-- What a caller knows between its programs. -/
structure CallerOk (U : Upkeep L) (i : ι) (caller : Caller) (w : World ι ι) : Prop where
  pending : ∀ call count, caller.pending = some (call, count) → U.CallOk call
  allocated : ∀ entry ∈ caller.allocated, U.dirs ∨
    ∃ c log, U.Fits .fresh entry.2.info_.offset entry.2.info_.size c log
  live : U.LiveOk i caller.live w

omit [DecidableEq ι] in
/-- What is known of a caller is stable. -/
theorem callerOk_stable (i : ι) (caller : Caller) : U.discipline.Stable i (U.CallerOk i caller) :=
  fun w w' hinv hinv' hframe h =>
    ⟨h.pending, h.allocated, liveOk_stable i caller.live w w' hinv hinv' hframe h.live⟩

/-- What a caller may start: an `Allocate` in the common storage, and a `Write`
with a writer whose use so far allows it. -/
structure Permits (U : Upkeep L) (R : Recording)
    (okStart : ι → Caller → CallerOp → World ι ι → Bool) : Prop where
  allocate : ∀ {i caller call w}, okStart i caller (.allocate call) w = true → U.CallOk call
  write : ∀ {i caller k url buf user_data w lw},
    okStart i caller (.write k url buf user_data) w = true → caller.live[k]? = some lw →
      R.Writes lw.use lw.writer.info_.offset lw.writer.info_.size buf
  batchWrite : ∀ {i caller k buf user_data w lw},
    okStart i caller (.batchWrite k buf user_data) w = true → caller.live[k]? = some lw →
      R.Writes lw.use lw.writer.info_.offset lw.writer.info_.size buf

omit [DecidableEq ι] in
/-- Something is done with one of the live writers. -/
theorem onLive_kept {caller : Caller} {k : ℕ} {f : LiveWriter → Sys Caller}
    (hf : ∀ before lw after, caller.live = before ++ lw :: after → before.length = k →
      U.discipline.Triple sem i (U.CallerOk i caller) (f lw) (U.CallerOk i)) :
    U.discipline.Triple sem i (U.CallerOk i caller) (caller.onLive k f) (U.CallerOk i) := by
  unfold Caller.onLive
  cases hk : caller.live[k]? with
  | none => exact Discipline.Triple.ret fun _ _ h => h
  | some lw =>
      obtain ⟨before, after, hsplit, hlength⟩ := ByteSeq.split_at hk
      exact hf before lw after hsplit hlength

omit [DecidableEq ι] in
/-- The live writers of a caller are others now. -/
theorem CallerOk.setLive {caller : Caller} {live : List LiveWriter} {w' : World ι ι}
    (h : U.CallerOk i caller w) (hlive : U.LiveOk i live w') :
    U.CallerOk i { caller with live := live } w' :=
  ⟨h.pending, h.allocated, hlive⟩

omit [DecidableEq ι] in
/-- A program for the live writers, and the caller that comes out of it. -/
theorem live_bind_kept {caller : Caller} {α : Type} {p : Sys α} {live : α → List LiveWriter}
    (hp : U.discipline.Triple sem i (U.LiveOk i caller.live) p fun a w => U.LiveOk i (live a) w) :
    U.discipline.Triple sem i (U.CallerOk i caller)
      (p >>= fun a => pure { caller with live := live a }) (U.CallerOk i) := by
  intro w hinv h
  refine Discipline.Triple.bind hp ?_ w hinv h.live
  intro a
  exact Discipline.Triple.ret fun _ _ hlive => h.setLive hlive

omit [DecidableEq ι] in
/-- A pass may add a writer to the caller's. -/
theorem afterPass_kept {caller : Caller} {call : AllocateCall} {loop_count : ℤ} {pass : Pass}
    (h : U.CallerOk i caller w) (hcall : U.CallOk call) {w' : World ι ι}
    (hpass : PassKept U i caller.live pass w') :
    U.CallerOk i (caller.afterPass call loop_count pass) w' := by
  cases pass with
  | null =>
      refine ⟨?_, h.allocated, hpass⟩
      intro call count hpending
      cases hpending
  | again =>
      refine ⟨?_, h.allocated, hpass⟩
      intro call' count hpending
      obtain ⟨rfl, -⟩ := Prod.mk.inj (Option.some.inj hpending)
      exact hcall
  | writer writer =>
      refine ⟨?_, ?_, hpass⟩
      · intro call count hpending
        cases hpending
      · intro entry hentry
        rcases List.mem_append.mp hentry with hentry | hentry
        · exact h.allocated entry hentry
        · rw [List.mem_singleton] at hentry
          subst hentry
          obtain ⟨p, filelock, -, -, hfile⟩ :=
            hpass.each ⟨writer, .fresh⟩ (List.mem_append_right _ (List.mem_singleton_self _))
          rcases hfile with ⟨hdirs, -⟩ | ⟨c, -, hfits⟩
          · exact .inl hdirs
          · exact .inr ⟨c, _, hfits⟩

/-- Every operation of a caller keeps the bundles. -/
theorem caller_kept (hsem : U.KeptWrites R sem) (hR : U.Recorded R)
    {okStart : ι → Caller → CallerOp → World ι ι → Bool} (hstart : Permits U R okStart)
    (i : ι) (caller : Caller) (op : CallerOp) :
    U.discipline.Triple sem i (fun w => okStart i caller op w = true ∧ U.CallerOk i caller w)
      (caller.run L.setting op) (U.CallerOk i) := by
  intro w hinv ⟨hok, h⟩
  cases op with
  | allocate call =>
      refine Discipline.Triple.bind (P := U.LiveOk i caller.live) (R := fun _ w =>
        U.LiveOk i caller.live w) ?_ ?_ w hinv h.live
      · exact quiet_triple hsem.toKeptCalls (held_liveOk i caller.live)
          (enterAllocate_calls.mono quiet_of_idCall)
      · intro _
        apply Discipline.Triple.ret
        intro w' _ hlive
        refine ⟨?_, h.allocated, hlive⟩
        intro call' count hpending
        obtain ⟨rfl, -⟩ := Prod.mk.inj (Option.some.inj hpending)
        exact hstart.allocate hok
  | nextPass =>
      unfold Caller.run Caller.nextPass
      cases hpending : caller.pending with
      | none => exact h
      | some pending =>
          obtain ⟨call, count⟩ := pending
          have hcall := h.pending call count hpending
          refine Discipline.Triple.bind (allocatePass_kept hsem.toKeptCalls _ hcall.storage
            hcall.lockDir hcall.allowed hcall.size) ?_ w hinv h.live
          intro pass
          exact Discipline.Triple.ret fun _ _ hpass => afterPass_kept h hcall hpass
  | write k url buf user_data =>
      refine onLive_kept (fun before lw after hsplit hlength => ?_) w hinv h
      apply live_bind_kept
      rw [hsplit]
      have hlw : caller.live[k]? = some lw := by
        rw [hsplit, ← hlength]
        simp
      have hwrites := hstart.write hok hlw
      rw [← hlength, ByteSeq.set_middle]
      exact write_kept hsem hR hwrites _ user_data
  | batchWrite k buf user_data =>
      refine onLive_kept (fun before lw after hsplit hlength => ?_) w hinv h
      apply live_bind_kept
      rw [hsplit]
      have hlw : caller.live[k]? = some lw := by
        rw [hsplit, ← hlength]
        simp
      have hwrites := hstart.batchWrite hok hlw
      simp only [← hlength, ByteSeq.set_middle]
      exact batchWrite_kept hsem hR hwrites user_data
  | release k =>
      refine onLive_kept (fun before lw after hsplit hlength => ?_) w hinv h
      apply live_bind_kept
      rw [hsplit]
      rw [← hlength, ByteSeq.eraseIdx_middle]
      exact release_kept hsem.toKeptCalls

/-! ## Every run -/

/-- At first nobody has allocated anything, and the bundles are as they should be. -/
structure Init (U : Upkeep L) (c : Config SysCall SysCall.Answer ι (World ι ι) Caller) : Prop where
  shared : c.shared = World.start U.base
  idle : ∀ i, c.thread i = .ret {}
  good : ∀ n l, U.Bundle n l → U.Good (U.base.content l) {}

omit [DecidableEq ι] in
/-- The bundles are in order at the start. -/
theorem init_inv {c : Config SysCall SysCall.Answer ι (World ι ι) Caller} (h : Init U c) :
    U.Inv c.shared := by
  rw [h.shared]
  constructor
  · exact Tree.Grows.refl _
  · intro p
    show IsId (-1)
    unfold IsId
    norm_num
  · intro i n hheld
    cases hheld
  · intro i j n hheld
    cases hheld
  · intro n l _ hl
    exact h.good n l hl
  · intro n l hl
    exact U.seen_of_good _ _ (h.good n l hl)

omit [DecidableEq ι] in
/-- A caller begins without writers. -/
theorem init_callerOk (i : ι) (w : World ι ι) : U.CallerOk i {} w where
  pending call count h := by cases h
  allocated entry h := absurd h List.not_mem_nil
  live := ⟨List.Pairwise.nil, fun lw h => absurd h List.not_mem_nil⟩

/-- The callers, when calls and starts meet conditions. -/
abbrev keptSystem (L : Layout) (ι : Type) [DecidableEq ι]
    (okCall : ι → (o : SysCall) → World ι ι → o.Answer → World ι ι → Prop)
    (okStart : ι → Caller → CallerOp → World ι ι → Bool) :
    System SysCall SysCall.Answer ι (World ι ι) Caller CallerOp :=
  (storeSystem L.cwd id L.setting).restrict okCall okStart

/-- **In every run** the storage is kept, and every idle caller knows its writers. -/
theorem reachable_kept {okCall : ι → (o : SysCall) → World ι ι → o.Answer → World ι ι → Prop}
    {okStart : ι → Caller → CallerOp → World ι ι → Bool}
    (hsem : U.KeptWrites R (keptSystem L ι okCall okStart).sem) (hR : U.Recorded R)
    (hstart : Permits U R okStart) {c : Config SysCall SysCall.Answer ι (World ι ι) Caller}
    (hc : (keptSystem L ι okCall okStart).Reachable (Init U) c) :
    U.Inv c.shared ∧ ∀ i caller, c.thread i = .ret caller → U.CallerOk i caller c.shared := by
  have hbody : ∀ i caller op, U.discipline.Triple (keptSystem L ι okCall okStart).sem i
      (fun w => (keptSystem L ι okCall okStart).enabled i caller op w = true ∧
        U.CallerOk i caller w) (caller.run L.setting op) (U.CallerOk i) := by
    intro i caller op
    apply (caller_kept hsem hR hstart i caller op).pre
    rintro w _ ⟨hen, h⟩
    exact ⟨(Bool.and_eq_true_iff.mp hen).2, h⟩
  have hinit : ∀ c, Init U c → U.discipline.Inv c.shared ∧
      ∀ i, U.discipline.Safe (keptSystem L ι okCall okStart).sem i (U.CallerOk i) (c.thread i)
        c.shared := by
    intro c h
    refine ⟨init_inv h, fun i => ?_⟩
    rw [h.idle i]
    exact init_callerOk i _
  refine ⟨(Discipline.reachable_safe callerOk_stable hbody hinit hc).1, ?_⟩
  intro i caller hidle
  exact Discipline.reachable_idle callerOk_stable hbody hinit hc hidle

end Upkeep

end BundleStore
