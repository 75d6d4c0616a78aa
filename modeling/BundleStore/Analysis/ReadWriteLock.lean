import BundleStore.Model.ReadWriteLock

set_option autoImplicit false

/-!
# What holds of the read-write lock at any time

The counters are the numbers of threads in each situation, as long as these numbers
are numbers of an `unsigned int`. A writer that sleeps is woken before the lock is
free; the readers that sleep do so only as long as a writer holds the lock or waits
for it.
-/

namespace BundleStore

namespace ReadWriteLock

open CondVar Machine

variable {ι : Type} [Fintype ι] [DecidableEq ι]

/-- The counters count the threads. -/
structure Counts (lock : ReadWriteLock) (place : ι → Place Role Cond) : Prop where
  readers : lock.readers_ = count (.inl .reading) place
  writers : lock.writers_ = count (.inl .writing) place
  read_waiters : lock.read_waiters_ = count (.inr .read) place
  write_waiters : lock.write_waiters_ = count (.inr .write) place

/-- One writer holds the lock, or readers do; and while nobody holds it although
threads wait, one of them is awake and gets it when it runs. -/
structure Sound (s : CondVar.Config ι ReadWriteLock Role Cond) : Prop where
  one_writer : count (.inl .writing) s.place ≤ 1
  exclusive : count (.inl .writing) s.place ≠ 0 → count (.inl .reading) s.place = 0
  counts : Counts s.state s.place
  woken : count (.inl .reading) s.place = 0 → count (.inl .writing) s.place = 0 →
    ∀ i c, (s.place i).situation = .inr c →
      ∃ j c' r, s.place j = .awake c' ∧ (object.resume c' s.state).next = .returns r

/-- The number of threads that hold the lock or wait for it. -/
def busy (place : ι → Place Role Cond) : ℕ :=
  (Finset.univ.filter fun i => place i ≠ .out .idle).card

/-- What every step keeps. -/
structure LockInv (lock : ReadWriteLock) (place : ι → Place Role Cond) : Prop where
  fits : busy place < 2 ^ 32
  counts : Counts lock place
  one_writer : lock.writers_ ≤ 1
  exclusive : lock.writers_ ≠ 0 → lock.readers_ = 0
  writer_woken : lock.readers_ = 0 → lock.writers_ = 0 → lock.write_waiters_ ≠ 0 →
    ∃ j, place j = .awake .write
  readers_woken : lock.writers_ = 0 → lock.write_waiters_ = 0 → ∀ j, place j ≠ .asleep .read

/-! ## Counters -/

/-- A counter that goes up is not wrapped. -/
theorem uint32_succ {n : ℕ} (h : n + 1 < 2 ^ 32) : uint32 ((n : ℤ) + 1) = n + 1 :=
  uint32_natCast h

/-- A counter that goes down is not wrapped. -/
theorem uint32_pred {n : ℕ} (hpos : 0 < n) (h : n < 2 ^ 32) : uint32 ((n : ℤ) - 1) = n - 1 := by
  unfold uint32
  omega

omit [DecidableEq ι] in
/-- Whoever is in a situation other than outside is busy. -/
theorem count_le_busy (place : ι → Place Role Cond) {x : Role ⊕ Cond} (hx : x ≠ .inl .idle) :
    count x place ≤ busy place := by
  refine Finset.card_le_card fun i hi => ?_
  rw [Finset.mem_filter] at hi ⊢
  refine ⟨hi.1, fun hidle => hx ?_⟩
  rw [← hi.2, hidle]
  rfl

variable {lock lock' : ReadWriteLock} {place f : ι → Place Role Cond} {i : ι} {n : Notify Cond}
variable {p : Place Role Cond} {x : Role ⊕ Cond}

/-- The numbers of threads after a segment of a thread that was in the situation `x`. -/
theorem count_segment (hnotify : Notified n place f) (hi : (place i).situation = x)
    (z : Role ⊕ Cond) :
    count z (Function.update f i p) + (if x = z then 1 else 0) =
      count z place + if p.situation = z then 1 else 0 := by
  have hupdate := count_update f i p z
  rwa [hnotify.situation i, count_congr hnotify.situation, hi] at hupdate

/-- The counters after a segment. -/
theorem counts_segment (h : Counts lock place) (hnotify : Notified n place f)
    (hi : (place i).situation = x)
    (hreaders : lock'.readers_ + (if x = .inl .reading then 1 else 0) =
      lock.readers_ + if p.situation = .inl .reading then 1 else 0)
    (hwriters : lock'.writers_ + (if x = .inl .writing then 1 else 0) =
      lock.writers_ + if p.situation = .inl .writing then 1 else 0)
    (hread : lock'.read_waiters_ + (if x = .inr .read then 1 else 0) =
      lock.read_waiters_ + if p.situation = .inr .read then 1 else 0)
    (hwrite : lock'.write_waiters_ + (if x = .inr .write then 1 else 0) =
      lock.write_waiters_ + if p.situation = .inr .write then 1 else 0) :
    Counts lock' (Function.update f i p) := by
  obtain ⟨h₁, h₂, h₃, h₄⟩ := h
  have hcount := fun z => count_segment (p := p) hnotify hi z
  constructor
  · have hz := hcount (.inl .reading)
    omega
  · have hz := hcount (.inl .writing)
    omega
  · have hz := hcount (.inr .read)
    omega
  · have hz := hcount (.inr .write)
    omega

/-- A situation that a thread comes to has room for one more. -/
theorem succ_fits (hnotify : Notified n place f) (hi : (place i).situation = x)
    (z : Role ⊕ Cond) (hxz : x ≠ z) (hp : p.situation = z) (hz : z ≠ .inl .idle)
    (hfits : busy (Function.update f i p) < 2 ^ 32) : count z place + 1 < 2 ^ 32 := by
  have hcount := count_segment (p := p) hnotify hi z
  rw [if_neg hxz, if_pos hp] at hcount
  have hle := count_le_busy (Function.update f i p) hz
  omega

omit [DecidableEq ι] in
/-- A situation that a thread leaves has somebody in it. -/
theorem pred_fits (hfits : busy place < 2 ^ 32) (hi : (place i).situation = x)
    (hx : x ≠ .inl .idle) : 0 < count x place ∧ count x place < 2 ^ 32 := by
  have hle := count_le_busy place hx
  exact ⟨Nat.pos_of_ne_zero (count_ne_zero.mpr ⟨i, hi⟩), by omega⟩

/-! ## The segments -/

/-- A segment without a notification keeps the invariant when it does not take away
the writer that is awake, and puts no reader to sleep that nobody will wake. -/
theorem LockInv.silent (h : LockInv lock place) (hfits : busy (Function.update place i p) < 2 ^ 32)
    (hcounts : Counts lock' (Function.update place i p)) (hone : lock'.writers_ ≤ 1)
    (hexclusive : lock'.writers_ ≠ 0 → lock'.readers_ = 0)
    (hwriter : lock'.readers_ = 0 → lock'.writers_ = 0 → lock'.write_waiters_ ≠ 0 →
      (lock.readers_ = 0 ∧ lock.writers_ = 0 ∧ lock.write_waiters_ ≠ 0) ∧ place i ≠ .awake .write)
    (hreaders : lock'.writers_ = 0 → lock'.write_waiters_ = 0 →
      (lock.writers_ = 0 ∧ lock.write_waiters_ = 0) ∧ p ≠ .asleep .read) :
    LockInv lock' (Function.update place i p) := by
  refine ⟨hfits, hcounts, hone, hexclusive, ?_, ?_⟩
  · intro h₁ h₂ h₃
    obtain ⟨⟨h₁, h₂, h₃⟩, hne⟩ := hwriter h₁ h₂ h₃
    obtain ⟨j, hj⟩ := h.writer_woken h₁ h₂ h₃
    exact ⟨j, (Notified.none place).awake_kept hj hne⟩
  · intro h₁ h₂ j hj
    obtain ⟨⟨h₁, h₂⟩, hne⟩ := hreaders h₁ h₂
    exact h.readers_woken h₁ h₂ j ((Notified.none place).asleep_before hne hj).2

/-- `ReadLock` keeps the counters right.
SOURCE: rwlock.h:20-31 -/
theorem readLock_inv (h : LockInv lock place) (hi : place i = .out .idle)
    (hfits : busy (Function.update place i lock.readLock.next.place) < 2 ^ 32) :
    LockInv lock.readLock.state (Function.update place i lock.readLock.next.place) := by
  have hx : (place i).situation = .inl .idle := by rw [hi]; rfl
  unfold readLock at hfits ⊢
  split at hfits
  case isTrue hwait =>
    rw [if_pos hwait]
    have hroom := succ_fits (.none place) hx (.inr .read) (by decide) rfl (by decide) hfits
    rw [← h.counts.read_waiters] at hroom
    rw [uint32_succ hroom]
    refine h.silent hfits (counts_segment h.counts (.none place) hx rfl rfl rfl rfl)
      h.one_writer h.exclusive ?_ ?_
    · intro h₁ h₂ h₃
      exact ⟨⟨h₁, h₂, h₃⟩, by simp [hi]⟩
    · intro h₁ h₂
      obtain hne | hne := hwait
      · exact absurd h₁ hne
      · exact absurd h₂ hne
  case isFalse hfree =>
    rw [if_neg hfree]
    have hroom := succ_fits (.none place) hx (.inl .reading) (by decide) rfl (by decide) hfits
    rw [← h.counts.readers] at hroom
    rw [uint32_succ hroom]
    rw [not_or, not_not, not_not] at hfree
    refine h.silent hfits (counts_segment h.counts (.none place) hx rfl rfl rfl rfl)
      h.one_writer (fun hne => absurd hfree.1 hne) ?_ ?_
    · intro h₁
      exact absurd h₁ (Nat.succ_ne_zero _)
    · intro h₁ h₂
      exact ⟨⟨h₁, h₂⟩, by simp [Next.place]⟩

/-- A reader that wakes keeps the counters right.
SOURCE: rwlock.h:24-30 -/
theorem readWoken_inv (h : LockInv lock place) (hi : place i = .awake .read)
    (hfits : busy (Function.update place i lock.readWoken.next.place) < 2 ^ 32) :
    LockInv lock.readWoken.state (Function.update place i lock.readWoken.next.place) := by
  have hx : (place i).situation = .inr .read := by rw [hi]; rfl
  unfold readWoken at hfits ⊢
  split at hfits
  case isTrue hwait =>
    rw [if_pos hwait]
    refine h.silent hfits (counts_segment h.counts (.none place) hx rfl rfl rfl rfl)
      h.one_writer h.exclusive ?_ ?_
    · intro h₁ h₂ h₃
      exact ⟨⟨h₁, h₂, h₃⟩, by simp [hi]⟩
    · intro h₁ h₂
      obtain hne | hne := hwait
      · exact absurd h₁ hne
      · exact absurd h₂ hne
  case isFalse hfree =>
    rw [if_neg hfree]
    have hroom := succ_fits (.none place) hx (.inl .reading) (by decide) rfl (by decide) hfits
    obtain ⟨hpos, hlt⟩ := pred_fits h.fits hx (by decide)
    rw [← h.counts.readers] at hroom
    rw [← h.counts.read_waiters] at hpos hlt
    rw [uint32_succ hroom, uint32_pred hpos hlt]
    rw [not_or, not_not, not_not] at hfree
    refine h.silent hfits
      (counts_segment h.counts (.none place) hx rfl rfl (Nat.sub_add_cancel hpos) rfl)
      h.one_writer (fun hne => absurd hfree.1 hne) ?_ ?_
    · intro h₁
      exact absurd h₁ (Nat.succ_ne_zero _)
    · intro h₁ h₂
      exact ⟨⟨h₁, h₂⟩, by simp [Next.place]⟩

/-- `WriteLock` keeps the counters right.
SOURCE: rwlock.h:41-53 -/
theorem writeLock_inv (h : LockInv lock place) (hi : place i = .out .idle)
    (hfits : busy (Function.update place i lock.writeLock.next.place) < 2 ^ 32) :
    LockInv lock.writeLock.state (Function.update place i lock.writeLock.next.place) := by
  have hx : (place i).situation = .inl .idle := by rw [hi]; rfl
  unfold writeLock at hfits ⊢
  split at hfits
  case isTrue hwait =>
    rw [if_pos hwait]
    have hroom := succ_fits (.none place) hx (.inr .write) (by decide) rfl (by decide) hfits
    rw [← h.counts.write_waiters] at hroom
    rw [uint32_succ hroom]
    refine h.silent hfits (counts_segment h.counts (.none place) hx rfl rfl rfl rfl)
      h.one_writer h.exclusive ?_ ?_
    · intro h₁ h₂
      obtain hne | hne := hwait
      · exact absurd h₁ hne
      · exact absurd h₂ hne
    · intro _ h₂
      exact absurd h₂ (Nat.succ_ne_zero _)
  case isFalse hfree =>
    rw [if_neg hfree]
    rw [not_or, not_not, not_not] at hfree
    have hcounts : Counts { lock with writers_ := 1 }
        (Function.update place i (.out .writing)) :=
      counts_segment h.counts (.none place) hx rfl (by simp [hfree.2, Place.situation]) rfl rfl
    refine h.silent hfits hcounts le_rfl (fun _ => hfree.1) ?_ ?_
    · intro _ h₂
      exact absurd h₂ Nat.one_ne_zero
    · intro h₁
      exact absurd h₁ Nat.one_ne_zero

/-- A writer that wakes keeps the counters right.
SOURCE: rwlock.h:45-52 -/
theorem writeWoken_inv (h : LockInv lock place) (hi : place i = .awake .write)
    (hfits : busy (Function.update place i lock.writeWoken.next.place) < 2 ^ 32) :
    LockInv lock.writeWoken.state (Function.update place i lock.writeWoken.next.place) := by
  have hx : (place i).situation = .inr .write := by rw [hi]; rfl
  obtain ⟨hpos, hlt⟩ := pred_fits h.fits hx (by decide)
  rw [← h.counts.write_waiters] at hpos hlt
  unfold writeWoken at hfits ⊢
  split at hfits
  case isTrue hwait =>
    rw [if_pos hwait]
    refine h.silent hfits (counts_segment h.counts (.none place) hx rfl rfl rfl rfl)
      h.one_writer h.exclusive ?_ ?_
    · intro h₁ h₂
      obtain hne | hne := hwait
      · exact absurd h₁ hne
      · exact absurd h₂ hne
    · intro _ h₂
      exact absurd h₂ hpos.ne'
  case isFalse hfree =>
    rw [if_neg hfree]
    rw [uint32_pred hpos hlt]
    rw [not_or, not_not, not_not] at hfree
    have hcounts : Counts { lock with write_waiters_ := lock.write_waiters_ - 1, writers_ := 1 }
        (Function.update place i (.out .writing)) :=
      counts_segment h.counts (.none place) hx rfl (by simp [hfree.2, Place.situation]) rfl
        (Nat.sub_add_cancel hpos)
    refine h.silent hfits hcounts le_rfl (fun _ => hfree.1) ?_ ?_
    · intro _ h₂
      exact absurd h₂ Nat.one_ne_zero
    · intro h₁
      exact absurd h₁ Nat.one_ne_zero

omit [DecidableEq ι] in
/-- Whoever is counted as waiting to write can be found. -/
theorem exists_write_waiter (h : Counts lock place) (hwaiters : lock.write_waiters_ ≠ 0) :
    ∃ j, (place j).situation = .inr .write := by
  rw [h.write_waiters] at hwaiters
  exact count_ne_zero.mp hwaiters

/-- Whoever waits to write is woken by the last reader. -/
theorem readUnlock_inv (h : LockInv lock place) (hi : place i = .out .reading)
    (hnotify : Notified lock.readUnlock.notify place f)
    (hfits : busy (Function.update f i lock.readUnlock.next.place) < 2 ^ 32) :
    LockInv lock.readUnlock.state (Function.update f i lock.readUnlock.next.place) := by
  have hx : (place i).situation = .inl .reading := by rw [hi]; rfl
  obtain ⟨hpos, hlt⟩ := pred_fits h.fits hx (by decide)
  rw [← h.counts.readers] at hpos hlt
  have hwriters : lock.writers_ = 0 := by
    by_contra hne
    exact hpos.ne' (h.exclusive hne)
  have hstate : lock.readUnlock.state = { lock with readers_ := lock.readers_ - 1 } := by
    rw [readUnlock, uint32_pred hpos hlt]
  rw [hstate]
  refine ⟨hfits, counts_segment h.counts hnotify hx (Nat.sub_add_cancel hpos) rfl rfl rfl,
    h.one_writer, fun hne => absurd hwriters hne, ?_, ?_⟩
  · intro _ _ hwaiters
    have hone : lock.readUnlock.notify = .one .write := if_pos hwaiters
    rw [hone] at hnotify
    obtain ⟨j, hj⟩ := exists_write_waiter h.counts hwaiters
    exact hnotify.wakes hj (by simp [hx])
  · intro _ hwaiters j hj
    exact h.readers_woken hwriters hwaiters j
      (hnotify.asleep_before (by simp [readUnlock, Next.place]) hj).2

/-- A writer wakes another one, or else all readers. -/
theorem writeUnlock_inv (h : LockInv lock place) (hi : place i = .out .writing)
    (hnotify : Notified lock.writeUnlock.notify place f)
    (hfits : busy (Function.update f i lock.writeUnlock.next.place) < 2 ^ 32) :
    LockInv lock.writeUnlock.state (Function.update f i lock.writeUnlock.next.place) := by
  have hx : (place i).situation = .inl .writing := by rw [hi]; rfl
  obtain ⟨hpos, -⟩ := pred_fits h.fits hx (by decide)
  rw [← h.counts.writers] at hpos
  have hwriters : lock.writers_ = 1 := le_antisymm h.one_writer hpos
  have hcounts : Counts lock.writeUnlock.state
      (Function.update f i lock.writeUnlock.next.place) :=
    counts_segment h.counts hnotify hx rfl hwriters.symm rfl rfl
  refine ⟨hfits, hcounts, Nat.zero_le 1, fun hne => absurd rfl hne, ?_, ?_⟩
  · intro _ _ hwaiters
    have hone : lock.writeUnlock.notify = .one .write := if_pos hwaiters
    rw [hone] at hnotify
    obtain ⟨j, hj⟩ := exists_write_waiter h.counts hwaiters
    exact hnotify.wakes hj (by simp [hx])
  · intro _ hwaiters j hj
    have hbefore := hnotify.asleep_before (by simp [writeUnlock, Next.place]) hj
    have hread : lock.read_waiters_ ≠ 0 := by
      rw [h.counts.read_waiters]
      exact count_ne_zero.mpr ⟨j, by rw [hbefore.2]; rfl⟩
    have hall : lock.writeUnlock.notify = .all .read :=
      (if_neg (not_not.mpr hwaiters)).trans (if_pos hread)
    rw [hall] at hnotify
    exact hnotify.none_asleep j hbefore.1

/-- A sleeper that wakes by itself is one more that is awake. -/
theorem spurious_inv {c : Cond} (h : LockInv lock place) (hi : place i = .asleep c) :
    LockInv lock (Function.update place i (.awake c)) := by
  have hx : (place i).situation = .inr c := by rw [hi]; rfl
  have hfits : busy (Function.update place i (.awake c)) < 2 ^ 32 := by
    refine lt_of_le_of_lt (Finset.card_le_card fun j hj => ?_) h.fits
    rw [Finset.mem_filter] at hj ⊢
    refine ⟨hj.1, ?_⟩
    by_cases hji : j = i
    · rw [hji, hi]
      simp
    · rw [Function.update_of_ne hji] at hj
      exact hj.2
  refine h.silent hfits (counts_segment h.counts (.none place) hx rfl rfl rfl rfl)
    h.one_writer h.exclusive ?_ ?_
  · intro h₁ h₂ h₃
    exact ⟨⟨h₁, h₂, h₃⟩, by simp [hi]⟩
  · intro h₁ h₂
    exact ⟨⟨h₁, h₂⟩, by simp⟩

/-! ## Whole runs -/

/-- Every step keeps the invariant, as long as the threads can be counted. -/
theorem step_inv {s s' : CondVar.Config ι ReadWriteLock Role Cond} (h : LockInv s.state s.place)
    (hstep : Step object s s') (hfits : busy s'.place < 2 ^ 32) : LockInv s'.state s'.place := by
  cases hstep with
  | spurious hi => exact spurious_inv h hi
  | @segment i seg f hrun hnotify =>
      cases hrun with
      | @resume c hi =>
          cases c with
          | read =>
              have hquiet : s.state.readWoken.notify = .none := by
                unfold readWoken
                split <;> rfl
              obtain rfl := notified_none (hquiet ▸ hnotify)
              exact readWoken_inv h hi hfits
          | write =>
              have hquiet : s.state.writeWoken.notify = .none := by
                unfold writeWoken
                split <;> rfl
              obtain rfl := notified_none (hquiet ▸ hnotify)
              exact writeWoken_inv h hi hfits
      | @start r o hi ho =>
          cases o with
          | readLock =>
              have hquiet : s.state.readLock.notify = .none := by
                unfold readLock
                split <;> rfl
              obtain rfl := notified_none (hquiet ▸ hnotify)
              cases r with
              | idle => exact readLock_inv h hi hfits
              | _ => cases ho
          | writeLock =>
              have hquiet : s.state.writeLock.notify = .none := by
                unfold writeLock
                split <;> rfl
              obtain rfl := notified_none (hquiet ▸ hnotify)
              cases r with
              | idle => exact writeLock_inv h hi hfits
              | _ => cases ho
          | readUnlock =>
              cases r with
              | reading => exact readUnlock_inv h hi hnotify hfits
              | _ => cases ho
          | writeUnlock =>
              cases r with
              | writing => exact writeUnlock_inv h hi hnotify hfits
              | _ => cases ho

omit [DecidableEq ι] in
/-- The counters are right at the start. -/
theorem initial_inv : LockInv (initial ι).state (initial ι).place := by
  have hcount : ∀ x : Role ⊕ Cond, x ≠ .inl .idle → count x (initial ι).place = 0 := by
    intro x hx
    by_contra hne
    obtain ⟨j, hj⟩ := count_ne_zero.mp hne
    exact hx hj.symm
  refine ⟨?_, ⟨?_, ?_, ?_, ?_⟩, Nat.zero_le 1, fun hne => absurd rfl hne,
    fun _ _ hne => absurd rfl hne, fun _ _ j hj => by cases hj⟩
  · simp [busy, initial]
  · exact (hcount _ (by decide)).symm
  · exact (hcount _ (by decide)).symm
  · exact (hcount _ (by decide)).symm
  · exact (hcount _ (by decide)).symm

omit [DecidableEq ι] in
/-- What every step keeps says what the lock is for. -/
theorem LockInv.sound {s : CondVar.Config ι ReadWriteLock Role Cond} (h : LockInv s.state s.place) :
    Sound s := by
  have hcounts := h.counts
  refine ⟨?_, ?_, hcounts, ?_⟩
  · rw [← hcounts.writers]
    exact h.one_writer
  · rw [← hcounts.writers, ← hcounts.readers]
    exact h.exclusive
  · rw [← hcounts.writers, ← hcounts.readers]
    intro hreaders hwriters i c hi
    by_cases hwaiters : s.state.write_waiters_ = 0
    · have hread : c = .read := by
        cases c with
        | read => rfl
        | write =>
            rw [hcounts.write_waiters] at hwaiters
            exact absurd hwaiters (count_ne_zero.mpr ⟨i, hi⟩)
      subst hread
      have hasleep := h.readers_woken hwriters hwaiters i
      cases hplace : s.place i with
      | out r =>
          rw [hplace] at hi
          cases hi
      | asleep c =>
          rw [hplace] at hi
          cases hi
          exact absurd hplace hasleep
      | awake c =>
          rw [hplace] at hi
          cases hi
          exact ⟨i, .read, .reading, hplace, by simp [object, readWoken, hwriters, hwaiters]⟩
    · obtain ⟨j, hj⟩ := h.writer_woken hreaders hwriters hwaiters
      exact ⟨j, .write, .writing, hj, by simp [object, writeWoken, hreaders, hwriters]⟩

/-- **The read-write lock.** In every run in which fewer than `2 ^ 32` threads hold the
lock or wait for it at a time, the lock is held by one writer or by readers, its
counters count the threads, and no wake-up is lost.
SOURCE: rwlock.h:20-63 -/
theorem sound_of_reachable {s : CondVar.Config ι ReadWriteLock Role Cond}
    (h : Relation.ReflTransGen (fun s s' => Step object s s' ∧ busy s'.place < 2 ^ 32)
      (initial ι) s) : Sound s := by
  suffices hinv : LockInv s.state s.place from hinv.sound
  induction h with
  | refl => exact initial_inv
  | tail _ hstep ih => exact step_inv ih hstep.1 hstep.2

/-- One thread reads, the other one waits to write. -/
def readerAndWriter : CondVar.Config Bool ReadWriteLock Role Cond where
  state := { readers_ := 1, write_waiters_ := 1 }
  place b := if b then .out .reading else .asleep .write

/-- A lock with a reader and a waiting writer is sound. -/
theorem sound_readerAndWriter : Sound readerAndWriter := by
  have hbusy : ∀ place : Bool → Place Role Cond, busy place < 2 ^ 32 := by
    intro place
    have hle : busy place ≤ 2 := Finset.card_le_univ _
    omega
  have hread : Step object (initial Bool)
      ⟨{ readers_ := 1 }, Function.update (fun _ => .out .idle) true (.out .reading)⟩ :=
    .segment (.start (o := Op.readLock) rfl rfl) (.none _)
  have hwrite : Step object
      ⟨{ readers_ := 1 }, Function.update (fun _ => .out .idle) true (.out .reading)⟩
      readerAndWriter := by
    have hplace : readerAndWriter.place = Function.update
        (Function.update (fun _ => .out .idle) true (.out .reading)) false (.asleep .write) := by
      funext b
      cases b <;> rfl
    rw [show readerAndWriter = ⟨{ readers_ := 1, write_waiters_ := 1 }, _⟩ from
      congrArg (CondVar.Config.mk _) hplace]
    exact .segment (i := false) (.start (o := Op.writeLock) rfl rfl) (.none _)
  exact sound_of_reachable (.tail (.tail .refl ⟨hread, hbusy _⟩) ⟨hwrite, hbusy _⟩)

/-! ## Too many readers -/

/-- The first `k` threads read. -/
def reading (n k : ℕ) : CondVar.Config (Fin n) ReadWriteLock Role Cond where
  state := { readers_ := k % 2 ^ 32 }
  place i := if i.val < k then .out .reading else .out .idle

/-- Any number of threads can read. -/
theorem reading_reachable {n k : ℕ} (hk : k ≤ n) :
    Relation.ReflTransGen (Step object) (initial (Fin n)) (reading n k) := by
  induction k with
  | zero => exact .refl
  | succ k ih =>
      refine .tail (ih (by omega)) ?_
      have hstate : (reading n (k + 1)).state = (reading n k).state.readLock.state := by
        simp only [reading, readLock, ne_eq, not_true_eq_false, or_self, if_false,
          ReadWriteLock.mk.injEq, and_true]
        unfold uint32
        omega
      have hnext : (reading n k).state.readLock.next = .returns .reading := rfl
      have hplace : (reading n (k + 1)).place = Function.update (reading n k).place
          ⟨k, hk⟩ (reading n k).state.readLock.next.place := by
        funext i
        rw [hnext]
        by_cases hi : i = ⟨k, hk⟩
        · rw [hi, Function.update_self]
          simp [reading, Next.place]
        · have hne : i.val ≠ k := fun heq => hi (Fin.ext heq)
          have hlt : i.val < k + 1 ↔ i.val < k := by omega
          rw [Function.update_of_ne hi]
          simp only [reading, hlt]
      rw [show reading n (k + 1) = ⟨_, _⟩ from congr (congrArg CondVar.Config.mk hstate) hplace]
      have hidle : (reading n k).place ⟨k, hk⟩ = .out .idle := if_neg (lt_irrefl k)
      exact .segment (.start (o := Op.readLock) hidle rfl) (.none _)

/-- Where the readers are counted as none, a writer gets the lock as well. -/
theorem writer_among_readers {n : ℕ} (hpos : 0 < n) (hn : n % 2 ^ 32 = 0) :
    ∃ (s : CondVar.Config (Fin (n + 1)) ReadWriteLock Role Cond) (i j : Fin (n + 1)),
      Relation.ReflTransGen (Step object) (initial (Fin (n + 1))) s ∧
        s.place i = .out .reading ∧ s.place j = .out .writing := by
  have hreaders := reading_reachable (Nat.le_succ n)
  have hfree : (reading (n + 1) n).state = {} := by
    rw [reading, hn]
  have hidle : (reading (n + 1) n).place (Fin.last n) = .out .idle := if_neg (lt_irrefl n)
  have hnext : (reading (n + 1) n).state.writeLock.next = .returns .writing := by
    rw [hfree]
    rfl
  have hnotify : Notified (reading (n + 1) n).state.writeLock.notify (reading (n + 1) n).place
      (reading (n + 1) n).place := by
    rw [hfree]
    exact .none _
  refine ⟨_, 0, Fin.last n, hreaders.tail (.segment
    (.start (o := Op.writeLock) hidle rfl) hnotify), ?_, ?_⟩
  · have hne : (0 : Fin (n + 1)) ≠ Fin.last n := by
      intro heq
      exact hpos.ne (congrArg Fin.val heq)
    exact (Function.update_of_ne hne ..).trans (if_pos hpos)
  · exact (Function.update_self ..).trans (congrArg Next.place hnext)

/-- With as many readers as an `unsigned int` has values, the lock is not what it
should be. -/
theorem not_sound_of_reachable :
    ¬ ∀ (ι : Type) [Fintype ι] [DecidableEq ι] (s : CondVar.Config ι ReadWriteLock Role Cond),
      Relation.ReflTransGen (Step object) (initial ι) s → Sound s := by
  intro hall
  obtain ⟨s, i, j, hreachable, hi, hj⟩ :=
    writer_among_readers (by norm_num : 0 < 2 ^ 32) (Nat.mod_self _)
  have hsound := hall _ s hreachable
  have hwriting : count (.inl .writing) s.place ≠ 0 := count_ne_zero.mpr ⟨j, by rw [hj]; rfl⟩
  have hreading : count (.inl .reading) s.place ≠ 0 := count_ne_zero.mpr ⟨i, by rw [hi]; rfl⟩
  exact hreading (hsound.exclusive hwriting)

end ReadWriteLock

end BundleStore
