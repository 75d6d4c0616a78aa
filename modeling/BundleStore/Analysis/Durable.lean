import BundleStore.Analysis.SizeLimit

set_option autoImplicit false

/-!
# Accepted records stay

A writer never writes before the end of a record that was accepted whole, whatever
fails and however much of a record `write` accepts. So the records of a bundle lie one
behind the other, each where it was accepted, at any time, also while the bundle is
locked. The store is a shelf of records that are only ever added at the end.
-/

namespace BundleStore

open Machine Posix Relation

/-! ## Shelves of records -/

/-- The records of every bundle, with their places. -/
abbrev Shelf (κ : Type) : Type := κ → List LogEntry

/-- All the records end before a place. -/
def EndBy (log : List LogEntry) (offset : ℕ) : Prop :=
  ∀ entry ∈ log, entry.offset + entry.record.length ≤ offset

/-- The records lie one behind the other. -/
def OneBehindOther (log : List LogEntry) : Prop :=
  log.Pairwise fun a b => a.offset + a.record.length ≤ b.offset

namespace Shelf

variable {κ : Type} [DecidableEq κ]

/-- A record is added to a bundle, behind the others. -/
inductive Adds : Shelf κ → Shelf κ → Prop
  | add (shelf : Shelf κ) (k : κ) (entry : LogEntry)
      (hend : EndBy (shelf k) entry.offset) :
      Adds shelf (Function.update shelf k (shelf k ++ [entry]))

/-- Nothing is taken away or moved. -/
theorem Adds.isPrefix {s s' : Shelf κ} (h : ReflTransGen Adds s s') (k : κ) : s k <+: s' k := by
  induction h with
  | refl => exact List.prefix_refl _
  | tail _ hadd ih =>
      cases hadd with
      | add j entry hend =>
          by_cases hj : k = j
          · subst hj
            rw [Function.update_self]
            exact ih.trans (List.prefix_append _ _)
          · rwa [Function.update_of_ne hj]

end Shelf

/-- Records one behind the other, with one more at the end. -/
theorem OneBehindOther.concat {log : List LogEntry} {entry : LogEntry} :
    OneBehindOther (log ++ [entry]) ↔ OneBehindOther log ∧ EndBy log entry.offset := by
  unfold OneBehindOther EndBy
  simp [List.pairwise_append]

/-! ## The records in their file -/

/-- A record lies in the content, at its place. -/
def Stands (content : Bytes) (entry : LogEntry) : Prop :=
  entry.offset + entry.record.length ≤ content.length ∧
    ByteSeq.slice content entry.offset entry.record.length = entry.record

/-- The records lie in the content, one behind the other, each a record of what its `Write`
was called with. -/
structure Laid (content : Bytes) (log : List LogEntry) : Prop where
  apart : OneBehindOther log
  stand : ∀ entry ∈ log, Stands content entry
  records : ∀ entry ∈ log, fullSize entry.call.buf < 2 ^ 31 ∧ IsRecord entry.call entry.record

/-- A bundle and its records at any time. -/
def KeptBundle (content : Option Bytes) (log : List LogEntry) : Prop :=
  (content = none → log = []) ∧ ∀ c, content = some c → Laid c log

/-- No record is laid in any file. -/
theorem laid_nil (content : Bytes) : Laid content [] where
  apart := List.Pairwise.nil
  stand _ h := absurd h List.not_mem_nil
  records _ h := absurd h List.not_mem_nil

/-- A bundle without records is kept. -/
theorem keptBundle_nil (content : Option Bytes) : KeptBundle content [] :=
  ⟨fun _ => rfl, fun c _ => laid_nil c⟩

/-- Records that are laid end inside the file. -/
theorem Laid.endBy {content : Bytes} {log : List LogEntry} (h : Laid content log) :
    EndBy log content.length :=
  fun entry hentry => (h.stand entry hentry).1

/-- A record that ends before the place of a `write` stays. -/
theorem Stands.wrote {content : Bytes} {entry : LogEntry} (h : Stands content entry)
    {a : Accepted} {offset : ℕ} (hbefore : entry.offset + entry.record.length ≤ offset)
    (hle : a.count ≤ a.record.length) : Stands (a.content content offset) entry := by
  obtain ⟨hin, hslice⟩ := h
  by_cases hzero : a.count = 0
  · rw [Accepted.content_of_count_eq_zero hzero]
    exact ⟨hin, hslice⟩
  · constructor
    · rw [Accepted.length_content hle hzero]
      exact le_max_of_le_left hin
    · unfold Accepted.content
      rw [ByteSeq.slice_overwrite_below _ _ _ _ hbefore hin]
      exact hslice

/-- What `write` accepts of a record behind the others leaves the bundle so. -/
theorem Laid.wrote {content : Bytes} {log : History} (h : Laid content log.accepted)
    {a : Accepted} {offset : ℕ} (hend : EndBy log.accepted offset)
    (hle : a.count ≤ a.record.length) {call : WriteCall} (hsize : fullSize call.buf < 2 ^ 31)
    (hrecord : IsRecord call a.record) :
    Laid (a.content content offset) (a.accept call log offset).accepted := by
  have hold : ∀ entry ∈ log.accepted, Stands (a.content content offset) entry := fun entry hentry =>
    (h.stand entry hentry).wrote (hend entry hentry) hle
  unfold Accepted.accept
  by_cases hall : a.count = a.record.length
  · rw [if_pos hall]
    have hnew : Stands (a.content content offset) ⟨offset, call, a.record⟩ := by
      have hpos : a.count ≠ 0 := by
        rw [hall, hrecord.length]
        exact (fullSize_pos call.buf).ne'
      constructor
      · rw [Accepted.length_content hle hpos, hall]
        exact le_max_right _ _
      · unfold Accepted.content
        rw [hall, List.take_length]
        exact ByteSeq.slice_overwrite_self _ _ _ _
    constructor
    · exact OneBehindOther.concat.mpr ⟨h.apart, hend⟩
    · intro entry hentry
      rcases List.mem_append.mp hentry with hentry | hentry
      · exact hold entry hentry
      · rw [List.mem_singleton.mp hentry]
        exact hnew
    · intro entry hentry
      rcases List.mem_append.mp hentry with hentry | hentry
      · exact h.records entry hentry
      · rw [List.mem_singleton.mp hentry]
        exact ⟨hsize, hrecord⟩
  · rw [if_neg hall]
    exact ⟨h.apart, hold, h.records⟩

/-! ## What is kept -/

/-- What is kept: the records of a bundle lie in it one behind the other, and a writer
stands behind them until `Write` has been called. Where the announced sizes are limited,
a new writer stands within the limit. -/
def durableUpkeep (L : Layout) (base : Tree) (allowed : Bytes → Bool)
    (outside : ∀ p, allowed p = true → L.Outside p)
    (plain : ∀ p, allowed p = true → ∀ c ∈ components p, c ≠ dotdot)
    (storage : base.Direct L.cwd L.storage) (limited : Prop) : Upkeep L where
  base := base
  allowed := allowed
  outside := outside
  sizes size := limited → size < 2 ^ 62
  Good content log := KeptBundle content log.accepted
  Seen content log := KeptBundle content log.accepted
  seen_of_good _ _ h := h
  seen_emptied log h := by
    rw [h.1 rfl]
    exact keptBundle_nil _
  Header _ _ := True
  good_created header n log _ _ h := by
    rw [h.1 rfl]
    exact keptBundle_nil _
  good_missing t p id log hgrows hp hmissing hgood := by
    rw [L.content_of_missing storage hgrows (plain p hp) hmissing] at hgood
    exact hgood
  Fits use offset _ _ log := (use.written = false → EndBy log.accepted offset) ∧
    (limited → use = .fresh → offset ≤ max L.setting.max_bundle_size kBundleHeaderSize)
  fits_found c log size hsize hlt hroom h := by
    refine ⟨fun _ => (h.2 c rfl).endBy, fun hlimited _ => le_max_of_le_left ?_⟩
    rw [exceeds_iff (hsize hlimited) hlt, Nat.not_lt] at hroom
    exact le_trans (Nat.le_add_right _ _) hroom
  fits_created header log size _ h := by
    rw [h.1 rfl]
    exact ⟨fun _ entry hentry => absurd hentry List.not_mem_nil, fun _ _ => le_max_right _ _⟩
  dirs := True

/-- A writer is not used after a `Write`. A `write` may accept any part of a record; where
failures are signalled, not without an `errno`. -/
def durableRecording (signalled : Prop) : Recording where
  Writes use _ _ buf := use.written = false ∧ fullSize buf < 2 ^ 31
  Accepts _ _ a := signalled → a.count = a.record.length ∨ a.errno ≠ 0

/-- The records of a bundle are kept by every record that is written. -/
theorem durable_recorded {L : Layout} {base : Tree} {allowed : Bytes → Bool}
    {outside : ∀ p, allowed p = true → L.Outside p}
    {plain : ∀ p, allowed p = true → ∀ c ∈ components p, c ≠ dotdot}
    {storage : base.Direct L.cwd L.storage} {limited signalled : Prop} :
    (durableUpkeep L base allowed outside plain storage limited).Recorded
      (durableRecording signalled) where
  nothing _ _ _ _ herrno _ := .inr herrno
  writes_sized h := h
  fits_sized _ h := ⟨h.1, fun _ hfresh => absurd hfresh (Use.batched_ne_fresh _ _ _)⟩
  seen hstored := by
    refine ⟨fun heq => (Option.some_ne_none _ heq).elim, fun c heq => ?_⟩
    obtain rfl := Option.some.inj heq
    exact (hstored.good.2 _ rfl).wrote (hstored.fits.1 hstored.writes.1) hstored.count_le
      hstored.writes.2 hstored.record
  good hstored _ := by
    refine ⟨fun heq => (Option.some_ne_none _ heq).elim, fun c heq => ?_⟩
    obtain rfl := Option.some.inj heq
    rw [Accepted.log_accepted]
    exact (hstored.good.2 _ rfl).wrote (hstored.fits.1 hstored.writes.1) hstored.count_le
      hstored.writes.2 hstored.record
  written _ _ := by
    refine ⟨fun hwritten => ?_, fun _ hfresh => absurd hfresh (Use.wrote_ne_fresh _)⟩
    rw [Use.wrote_written] at hwritten
    cases hwritten
  failed hstored hshown hfails := by
    refine ⟨fun _ => ?_, fun _ hfresh => absurd hfresh (Use.batched_ne_fresh _ _ _)⟩
    rw [Accepted.log_accepted, Accepted.accept_of_ne fun hall => hfails (hshown.succeeds hall)]
    exact hstored.fits.1 hstored.writes.1
  batched hstored _ _ := by
    refine ⟨fun _ => ?_, fun _ hfresh => absurd hfresh (Use.batched_ne_fresh _ _ _)⟩
    have hend := hstored.fits.1 hstored.writes.1
    rw [Accepted.log_accepted]
    intro entry hentry
    unfold Accepted.accept at hentry
    split at hentry
    · rcases List.mem_append.mp hentry with hentry | hentry
      · exact (hend entry hentry).trans (Nat.le_add_right _ _)
      · rw [List.mem_singleton.mp hentry]
    · exact (hend entry hentry).trans (Nat.le_add_right _ _)

/-! ## Runs -/

section Runs

variable {ι : Type} [DecidableEq ι]

/-- Every `Allocate` is for the common storage. A writer is used for any number of
`BatchWrite`s and then for one `Write` at most, of records below two gigabytes. -/
def startsOnce (L : Layout) (allowed : Bytes → Bool) (_ : ι) (caller : Caller) :
    CallerOp → World ι ι → Bool
  | .allocate call, _ => callIn L allowed call
  | .write k _ buf _, _ | .batchWrite k buf _, _ =>
      caller.live[k]?.all fun lw => decide (lw.use.written = false ∧ fullSize buf < 2 ^ 31)
  | _, _ => true

/-- The processes, when writers are used so; calls may fail or fall short in any way. -/
abbrev durableSystem (L : Layout) (ι : Type) [DecidableEq ι] (allowed : Bytes → Bool) :
    System SysCall SysCall.Answer ι (World ι ι) Caller CallerOp :=
  (storeSystem L.cwd id L.setting).restrict AnyCall (startsOnce L allowed)

variable {L : Layout} {allowed : Bytes → Bool} {base : Tree}
variable {c c' : Config SysCall SysCall.Answer ι (World ι ι) Caller}

/-- In every run every bundle has its records in it. -/
theorem keptBundle_of_reachable (outside : ∀ p, allowed p = true → L.Outside p)
    (plain : ∀ p, allowed p = true → ∀ c ∈ components p, c ≠ dotdot)
    (storage : base.Direct L.cwd L.storage)
    (hc : (durableSystem L ι allowed).Reachable (StartsFrom base) c) :
    base.Grows c.shared.tree ∧ ∀ p id, allowed p = true → IsId id →
      KeptBundle (c.shared.tree.content (L.bundleLoc p id))
        (c.shared.accepted (L.bundleLoc p id)) := by
  let U := durableUpkeep L base allowed outside plain storage False
  have hsem : U.KeptWrites (durableRecording False) (durableSystem L ι allowed).sem :=
    ⟨⟨fun h => h.1, fun _ => trivial, fun _ _ => trivial⟩, fun _ _ _ hno => hno.elim⟩
  have hwrites : ∀ {buf : Bytes} {lw : LiveWriter},
      decide (lw.use.written = false ∧ fullSize buf < 2 ^ 31) = true →
        (durableRecording False).Writes lw.use lw.writer.info_.offset lw.writer.info_.size buf := by
    intro buf lw h
    have hok := of_decide_eq_true h
    exact hok
  have hstart : Upkeep.Permits U (durableRecording False) (startsOnce (ι := ι) L allowed) :=
    ⟨fun h => callOk_of_callIn h False.elim, fun h hk => hwrites (Caller.of_all_live h hk),
      fun h hk => hwrites (Caller.of_all_live h hk)⟩
  have hinit : ∀ c, StartsFrom (ι := ι) base c → Upkeep.Init U c := fun c h =>
    ⟨h.shared, h.idle, fun n l _ => keptBundle_nil _⟩
  obtain ⟨c₀, h₀, hrun⟩ := hc
  have hinv := (Upkeep.reachable_kept hsem durable_recorded hstart ⟨c₀, hinit c₀ h₀, hrun⟩).1
  exact ⟨hinv.grown, fun p n hp hid => hinv.seen n _ ⟨hid, p, hp, rfl⟩⟩

/-- A step adds no record, or one. -/
theorem accepted_of_step (h : (durableSystem L ι allowed).Step c c') :
    c'.shared.accepted = c.shared.accepted ∨ ∃ l, ∃ entry : LogEntry,
      entry.offset + entry.record.length < 2 ^ 63 ∧ c'.shared.accepted =
        Function.update c.shared.accepted l (c.shared.accepted l ++ [entry]) := by
  cases h with
  | start => exact .inl rfl
  | act _ hsem => exact hsem.1.accepted_cases

/-- The bundles under the prefixes in use. -/
abbrev BundleAt (L : Layout) (allowed : Bytes → Bool) : Type :=
  { l : Loc // ∃ p id, allowed p = true ∧ IsId id ∧ l = L.bundleLoc p id }

/-- The records that have been accepted whole. -/
def shelfOf (L : Layout) (allowed : Bytes → Bool) (w : World ι ι) : Shelf (BundleAt L allowed) :=
  fun l => w.accepted l.1

/-- A step of the store is none of the shelf, or it adds a record. -/
theorem shelf_of_step (outside : ∀ p, allowed p = true → L.Outside p)
    (plain : ∀ p, allowed p = true → ∀ c ∈ components p, c ≠ dotdot)
    (storage : base.Direct L.cwd L.storage)
    (hc : (durableSystem L ι allowed).Reachable (StartsFrom base) c)
    (hstep : (durableSystem L ι allowed).Step c c') :
    shelfOf L allowed c'.shared = shelfOf L allowed c.shared ∨
      Shelf.Adds (shelfOf L allowed c.shared) (shelfOf L allowed c'.shared) := by
  rcases accepted_of_step hstep with heq | ⟨loc, entry, -, heq⟩
  · left
    unfold shelfOf
    rw [heq]
  · by_cases hbundle : ∃ p id, allowed p = true ∧ IsId id ∧ loc = L.bundleLoc p id
    · right
      -- the record lies behind the others, since it does so afterwards
      have hend : EndBy (c.shared.accepted loc) entry.offset := by
        obtain ⟨p, id, hp, hid, hloc⟩ := hbundle
        obtain ⟨c₀, h₀, hrun⟩ := hc
        obtain ⟨hnone, hsome⟩ := (keptBundle_of_reachable outside plain storage
          ⟨c₀, h₀, hrun.tail hstep⟩).2 p id hp hid
        have hlog : c'.shared.accepted (L.bundleLoc p id) = c.shared.accepted loc ++ [entry] := by
          rw [heq, ← hloc, Function.update_self]
        rw [hlog] at hnone hsome
        cases hcontent : c'.shared.tree.content (L.bundleLoc p id) with
        | none => exact absurd (hnone hcontent) (by simp)
        | some content => exact (OneBehindOther.concat.mp (hsome content hcontent).apart).2
      have hshelf : shelfOf L allowed c'.shared = Function.update (shelfOf L allowed c.shared)
          ⟨loc, hbundle⟩ (c.shared.accepted loc ++ [entry]) := by
        funext l
        unfold shelfOf
        rw [heq]
        by_cases hl : l.1 = loc
        · have hsub : l = ⟨loc, hbundle⟩ := Subtype.ext hl
          rw [hsub, Function.update_self, Function.update_self]
        · have hsub : l ≠ ⟨loc, hbundle⟩ := fun h => hl (congrArg Subtype.val h)
          rw [Function.update_of_ne hl, Function.update_of_ne hsub]
      rw [hshelf]
      exact .add _ _ entry hend
    · left
      funext l
      unfold shelfOf
      rw [heq, Function.update_of_ne]
      intro hl
      apply hbundle
      obtain ⟨p, id, hp, hid, hloc⟩ := l.2
      exact ⟨p, id, hp, hid, hl.symm.trans hloc⟩

/-- A run of the store is a run of the shelf. -/
theorem shelf_of_run (outside : ∀ p, allowed p = true → L.Outside p)
    (plain : ∀ p, allowed p = true → ∀ c ∈ components p, c ≠ dotdot)
    (storage : base.Direct L.cwd L.storage)
    (hc : (durableSystem L ι allowed).Reachable (StartsFrom base) c)
    (hrun : ReflTransGen (durableSystem L ι allowed).Step c c') :
    ReflTransGen Shelf.Adds (shelfOf L allowed c.shared) (shelfOf L allowed c'.shared) := by
  obtain ⟨c₀, h₀, hbefore⟩ := hc
  induction hrun with
  | refl => exact .refl
  | tail hrun hstep ih =>
      rcases shelf_of_step outside plain storage ⟨c₀, h₀, hbefore.trans hrun⟩ hstep with heq | hadd
      · rw [heq]
        exact ih
      · exact ih.tail hadd

/-- **The store is a shelf of records.** In every run, whatever fails, the records that
were accepted whole lie in their bundles one behind the other, and the store only ever
adds a record behind the others of its bundle.
SOURCE: bundle.cc:309-405, 456-577 -/
theorem store_is_shelf (outside : ∀ p, allowed p = true → L.Outside p)
    (plain : ∀ p, allowed p = true → ∀ c ∈ components p, c ≠ dotdot)
    (storage : base.Direct L.cwd L.storage)
    (hc : (durableSystem L ι allowed).Reachable (StartsFrom base) c) :
    (∀ l : BundleAt L allowed,
      KeptBundle (c.shared.tree.content l.1) (shelfOf L allowed c.shared l)) ∧
    ReflTransGen Shelf.Adds (fun _ => []) (shelfOf L allowed c.shared) ∧
    ∀ c', ReflTransGen (durableSystem L ι allowed).Step c c' →
      ReflTransGen Shelf.Adds (shelfOf L allowed c.shared) (shelfOf L allowed c'.shared) := by
  refine ⟨?_, ?_, fun c' hrun => shelf_of_run outside plain storage hc hrun⟩
  · rintro ⟨l, p, id, hp, hid, rfl⟩
    exact (keptBundle_of_reachable outside plain storage hc).2 p id hp hid
  · obtain ⟨c₀, h₀, hrun⟩ := hc
    have hshelf := shelf_of_run outside plain storage ⟨c₀, h₀, .refl⟩ hrun
    rw [h₀.shared] at hshelf
    exact hshelf

/-- The first process fails to write a record, and then writes one. -/
def failsThenWrites : Moves :=
  allocateMoves false callUnderP faultless ++
    System.runMoves false (.batchWrite 0 [1] none) 7 noRecord ++
    System.runMoves false (.batchWrite 0 [1, 2, 3] none) 7 faultless

/-- The moves of the example are made by whole operations. -/
theorem failsThenWrites_fair
    (m : System.Move SysCall SysCall.Answer Bool (World Bool Bool) CallerOp)
    (hm : m ∈ failsThenWrites) :
    m.Fair (storeSystem storageLayout.cwd id storageLayout.setting) := by
  unfold failsThenWrites at hm
  simp only [List.mem_append] at hm
  rcases hm with (hm | hm) | hm
  · exact allocateMoves_fair faultless_sem hm
  · exact System.fair_of_mem_runMoves noRecord_sem hm
  · exact System.fair_of_mem_runMoves faultless_sem hm

/-- The bundle is still locked. -/
theorem store_is_shelf_failsThenWrites :
    let w := ((durableSystem storageLayout Bool onlyP).play (emptyDisk Bool) failsThenWrites).shared
    bundleState w 0 = (some 2048, [(1024, [1, 2, 3])], false) ∧
      ReflTransGen Shelf.Adds (fun _ => []) (shelfOf storageLayout onlyP w) := by
  have storage : Tree.bare.Direct storageLayout.cwd storageLayout.storage := by
    apply Tree.direct_of_plain
    decide +kernel
  have hreach : (durableSystem storageLayout Bool onlyP).Reachable (StartsFrom Tree.bare)
      ((durableSystem storageLayout Bool onlyP).play (emptyDisk Bool) failsThenWrites) :=
    System.play_reachable_restrict (emptyDisk_starts Bool) failsThenWrites failsThenWrites_fair
      (fun _ _ _ _ _ => true) (fun _ _ _ _ _ _ => trivial) (System.passes_true _ _)
  exact ⟨by decide +kernel, (store_is_shelf onlyP_outside onlyP_plain storage hreach).2.1⟩

end Runs

end BundleStore
