import BundleStore.Model.ThreadPool
import Mathlib.Data.List.Count
import Mathlib.Data.List.Perm.Basic

set_option autoImplicit false

/-!
# The size of the thread pool

`Shrunk` counts its argument down with every worker that it dismisses, so it dismisses as many
idle workers as are to remain, and not as many as are too many.
-/

namespace BundleStore.ThreadPool

open Machine

/-! ## What `Shrunk` dismisses -/

/-- One worker less, without wrap. -/
theorem uint64_pred {size : ℕ} (hpos : 1 ≤ size) (hlt : size < 2 ^ 64) :
    uint64 ((size : ℤ) - 1) = size - 1 := by
  unfold uint64
  omega

/-- The loop dismisses idle workers, as many as it has been told or as there are, and keeps all
others. -/
theorem shrunkLoop_dismisses {size : ℕ} (hpos : 1 ≤ size) (hlt : size < 2 ^ 64)
    (ws : List Worker) :
    ∃ removed : List Worker, (shrunkLoop size ws).2 = removed.flatMap Worker.dismiss ∧
      ws.Perm (removed ++ (shrunkLoop size ws).1) ∧
      removed.length = min size (ws.countP Worker.idle) := by
  induction ws generalizing size with
  | nil => exact ⟨[], rfl, .nil, by simp⟩
  | cons w rest ih =>
      unfold shrunkLoop
      by_cases hw : w.queue_size_ = 0
      · have hidle : Worker.idle w = true := by simp [Worker.idle, hw]
        rw [if_pos hw, uint64_pred hpos hlt, List.countP_cons_of_pos hidle]
        by_cases hlast : size - 1 = 0
        · rw [if_pos hlast]
          exact ⟨[w], by simp, by simp, by rw [List.length_singleton]; omega⟩
        · rw [if_neg hlast]
          obtain ⟨removed, hlog, hperm, hlen⟩ := ih (show 1 ≤ size - 1 by omega) (by omega)
          refine ⟨w :: removed, ?_, hperm.cons w, ?_⟩
          · rw [List.flatMap_cons, ← hlog]
          · rw [List.length_cons, hlen]
            omega
      · have hbusy : ¬ Worker.idle w = true := by simp [Worker.idle, hw]
        rw [if_neg hw, List.countP_cons_of_neg hbusy]
        obtain ⟨removed, hlog, hperm, hlen⟩ := ih hpos hlt
        exact ⟨removed, hlog, (hperm.cons w).trans List.perm_middle.symm, hlen⟩

/-- How many workers `Shrunk` leaves. -/
theorem length_shrunk (self : ThreadPool) {size : ℕ} (hpos : 1 ≤ size) (hlt : size < 2 ^ 64) :
    (self.shrunk size).pool.workers_.length + min size (self.workers_.countP Worker.idle) =
      self.workers_.length := by
  obtain ⟨removed, -, hperm, hlen⟩ := shrunkLoop_dismisses hpos hlt self.workers_
  have hall := hperm.length_eq
  rw [List.length_append, hlen] at hall
  change (shrunkLoop size self.workers_).1.length + _ = _
  omega

/-- A worker that is gone has been closed once and deleted once, the others have not. -/
def DismissedOnce (before : List Worker) (r : Resized) : Prop :=
  ∀ w ∈ before,
    r.log.count (.closed w.made) = (if w ∈ r.pool.workers_ then 0 else 1) ∧
    r.log.count (.deleted w.made) = if w ∈ r.pool.workers_ then 0 else 1

/-- The workers that are dismissed are closed and deleted once each. -/
theorem count_dismiss (removed : List Worker) (made : ℕ) :
    (removed.flatMap Worker.dismiss).count (.closed made) =
        (removed.map Worker.made).count made ∧
      (removed.flatMap Worker.dismiss).count (.deleted made) =
        (removed.map Worker.made).count made := by
  induction removed with
  | nil => exact ⟨rfl, rfl⟩
  | cons w rest ih =>
      rw [List.flatMap_cons, List.count_append, List.count_append, List.map_cons,
        List.count_cons, ih.1, ih.2]
      constructor <;> simp [Worker.dismiss, List.count_cons] <;> omega

/-- A pool that shrinks dismisses each worker once.
SOURCE: threadpool.cc:171-186 -/
theorem shrunk_dismissedOnce (self : ThreadPool) {size : ℕ} (hpos : 1 ≤ size)
    (hlt : size < 2 ^ 64) : DismissedOnce self.workers_ (self.shrunk size) := by
  intro w hw
  obtain ⟨removed, hlog, hperm, -⟩ := shrunkLoop_dismisses hpos hlt self.workers_
  have hnodup := (hperm.map Worker.made).nodup_iff.mp self.nodup
  rw [List.map_append, List.nodup_append] at hnodup
  obtain ⟨hremoved, -, hapart⟩ := hnodup
  have hcount : (removed.map Worker.made).count w.made =
      if w ∈ (shrunkLoop size self.workers_).1 then 0 else 1 := by
    split
    · rename_i hkept
      refine List.count_eq_zero_of_not_mem fun hmem => ?_
      exact hapart _ hmem _ (List.mem_map_of_mem hkept) rfl
    · rename_i hgone
      rw [List.count_eq_one_of_mem hremoved]
      exact List.mem_map_of_mem
        ((List.mem_append.mp (hperm.mem_iff.mp hw)).resolve_right hgone)
  change (shrunkLoop size self.workers_).2.count _ = _ ∧
    (shrunkLoop size self.workers_).2.count _ = _
  rw [hlog, (count_dismiss removed w.made).1, (count_dismiss removed w.made).2]
  exact ⟨hcount, hcount⟩

/-! ## What `Create` adds -/

/-- A pool that grows keeps its workers and adds the threads that start.
SOURCE: threadpool.cc:96-120 -/
theorem inflate_workers (self : ThreadPool) (starts : ℕ → Bool) (count : ℕ) :
    ∃ added : List Worker, (self.inflate starts count).pool.workers_ = self.workers_ ++ added ∧
      ((∀ i < count, starts i = true) → added.length = count) := by
  induction count with
  | zero => exact ⟨[], by simp [inflate], by simp⟩
  | succ count ih =>
      obtain ⟨added, hworkers, hlen⟩ := ih
      unfold inflate create
      cases hstarts : starts count with
      | true =>
          refine ⟨added ++ [⟨(self.inflate starts count).pool.made, 0⟩], ?_, fun hall => ?_⟩
          · simp [hworkers]
          · rw [List.length_append, hlen fun i hi => hall i (by omega)]
            rfl
      | false =>
          refine ⟨added, by simp [hworkers], fun hall => ?_⟩
          rw [hall count (by omega)] at hstarts
          cases hstarts

/-- A pool that grows makes workers. -/
theorem inflate_made_le (self : ThreadPool) (starts : ℕ → Bool) (count : ℕ) :
    self.made ≤ (self.inflate starts count).pool.made := by
  induction count with
  | zero => exact le_refl _
  | succ count ih =>
      unfold inflate create
      cases starts count <;> exact Nat.le_succ_of_le ih

/-- What is logged about new workers is about no worker that the pool has had. -/
theorem inflate_log (self : ThreadPool) (starts : ℕ → Bool) (count : ℕ) {made : ℕ}
    (hmade : made < self.made) :
    .closed made ∉ (self.inflate starts count).log ∧
      .deleted made ∉ (self.inflate starts count).log := by
  induction count with
  | zero => simp [inflate]
  | succ count ih =>
      have hne : made ≠ (self.inflate starts count).pool.made :=
        (lt_of_lt_of_le hmade (inflate_made_le self starts count)).ne
      unfold inflate create
      cases starts count <;> simp [ih, hne]

/-- A pool that grows dismisses nobody. -/
theorem inflate_dismissedOnce (self : ThreadPool) (starts : ℕ → Bool) (count : ℕ) :
    DismissedOnce self.workers_ (self.inflate starts count) := by
  intro w hw
  obtain ⟨added, hworkers, -⟩ := inflate_workers self starts count
  have hlog := inflate_log self starts count (self.made_lt w hw)
  have hkept : w ∈ (self.inflate starts count).pool.workers_ := by
    rw [hworkers]
    exact List.mem_append_left _ hw
  rw [if_pos hkept, List.count_eq_zero_of_not_mem hlog.1, List.count_eq_zero_of_not_mem hlog.2]
  exact ⟨rfl, rfl⟩

/-! ## What `set_size` reaches -/

/-- The threads that `set_size` wants to start do start. -/
def Starts (self : ThreadPool) (size : ℕ) (starts : ℕ → Bool) : Prop :=
  ∀ i < size - self.workers_.length, starts i = true

/-- What a caller of `set_size` expects of it. -/
structure Reaches (pool : ThreadPool) (size : ℕ) (starts : ℕ → Bool) (r : Resized) : Prop where
  all_idle : (∀ w ∈ pool.workers_, w.queue_size_ = 0) → pool.Starts size starts →
    r.pool.workers_.length = size
  some_busy : (∃ w ∈ pool.workers_, w.queue_size_ ≠ 0) → pool.Starts size starts →
    size ≤ r.pool.workers_.length
  dismissed : DismissedOnce pool.workers_ r

/-- Which of the two loops runs; the second makes no round when the size is right. -/
def resized (self : ThreadPool) (size : ℕ) (starts : ℕ → Bool) : Resized :=
  if self.workers_.length > size then self.shrunk size
  else self.inflate starts (size - self.workers_.length)

/-- `set_size` resizes the pool.
SOURCE: threadpool.cc:90-104 -/
theorem setSize_resized (self : ThreadPool) (size max_size : ℕ) (starts : ℕ → Bool) :
    (self.setSize size max_size starts).log = (self.resized size starts).log ∧
      (self.setSize size max_size starts).pool.workers_ =
        (self.resized size starts).pool.workers_ := by
  have hrest : (if self.workers_.length < size then
      self.inflate starts (size - self.workers_.length) else ⟨self, []⟩) =
        self.inflate starts (size - self.workers_.length) := by
    split
    · rfl
    · rename_i hle
      rw [show size - self.workers_.length = 0 by omega]
      rfl
  unfold setSize resized
  dsimp only
  rw [hrest]
  split <;> split <;> exact ⟨rfl, rfl⟩

/-- `set_size` dismisses each worker once at most.
SOURCE: threadpool.cc:90-104 -/
theorem setSize_dismissedOnce (self : ThreadPool) {size : ℕ} (hpos : 1 ≤ size)
    (hlt : size < 2 ^ 64) (max_size : ℕ) (starts : ℕ → Bool) :
    DismissedOnce self.workers_ (self.setSize size max_size starts) := by
  obtain ⟨hlog, hworkers⟩ := self.setSize_resized size max_size starts
  have h : DismissedOnce self.workers_ (self.resized size starts) := by
    unfold resized
    split
    · exact self.shrunk_dismissedOnce hpos hlt
    · exact self.inflate_dismissedOnce starts _
  unfold DismissedOnce
  rw [hlog, hworkers]
  exact h

/-- A pool that is too large loses as many idle workers as it is to have. -/
theorem length_setSize_of_gt (self : ThreadPool) {size : ℕ} (hpos : 1 ≤ size)
    (hlt : size < 2 ^ 64) (max_size : ℕ) (starts : ℕ → Bool) (h : size < self.workers_.length) :
    (self.setSize size max_size starts).pool.workers_.length +
      min size (self.workers_.countP Worker.idle) = self.workers_.length := by
  rw [(self.setSize_resized size max_size starts).2, resized, if_pos h]
  exact self.length_shrunk hpos hlt

/-- A pool that is too small grows to the size.
SOURCE: threadpool.cc:90-120 -/
theorem length_setSize_of_le (self : ThreadPool) {size : ℕ} (max_size : ℕ) {starts : ℕ → Bool}
    (h : self.workers_.length ≤ size) (hstarts : self.Starts size starts) :
    (self.setSize size max_size starts).pool.workers_.length = size := by
  obtain ⟨added, hworkers, hlen⟩ :=
    self.inflate_workers starts (size - self.workers_.length)
  rw [(self.setSize_resized size max_size starts).2, resized, if_neg (by omega), hworkers,
    List.length_append, hlen hstarts]
  omega

/-- In a pool without work every worker is idle. -/
theorem countP_idle_eq_length (self : ThreadPool) (h : ∀ w ∈ self.workers_, w.queue_size_ = 0) :
    self.workers_.countP Worker.idle = self.workers_.length := by
  rw [List.countP_eq_length]
  intro w hw
  simp [Worker.idle, h w hw]

/-- `set_size` does what is expected of it when the pool is not to shrink, when it is to shrink
to half its size and all are idle, or when some are busy and few enough are idle.
SOURCE: threadpool.cc:90-120, 171-186 -/
theorem setSize_reaches_iff (self : ThreadPool) {size : ℕ} (hpos : 1 ≤ size)
    (hlt : size < 2 ^ 64) (max_size : ℕ) (starts : ℕ → Bool) :
    Reaches self size starts (self.setSize size max_size starts) ↔
      self.workers_.length ≤ size ∨
      ((∀ w ∈ self.workers_, w.queue_size_ = 0) ∧ self.workers_.length = 2 * size) ∨
      ((∃ w ∈ self.workers_, w.queue_size_ ≠ 0) ∧
        size + min size (self.workers_.countP Worker.idle) ≤ self.workers_.length) := by
  have hdismissed := self.setSize_dismissedOnce hpos hlt max_size starts
  by_cases hle : self.workers_.length ≤ size
  · refine iff_of_true ⟨fun _ hstarts => ?_, fun _ hstarts => ?_, hdismissed⟩ (.inl hle)
    · exact self.length_setSize_of_le max_size hle hstarts
    · exact (self.length_setSize_of_le max_size hle hstarts).ge
  have hlen := self.length_setSize_of_gt hpos hlt max_size starts (by omega)
  have hstarts : self.Starts size starts := by
    intro i hi
    omega
  by_cases hidle : ∀ w ∈ self.workers_, w.queue_size_ = 0
  · rw [self.countP_idle_eq_length hidle] at hlen
    have hnobusy : ¬ ∃ w ∈ self.workers_, w.queue_size_ ≠ 0 := by
      rintro ⟨w, hw, hbusy⟩
      exact hbusy (hidle w hw)
    constructor
    · intro h
      have hreach := h.all_idle hidle hstarts
      exact .inr (.inl ⟨hidle, by omega⟩)
    · rintro (h | ⟨-, h⟩ | ⟨h, -⟩)
      · exact absurd h hle
      · exact ⟨fun _ _ => by omega, fun hbusy => absurd hbusy hnobusy, hdismissed⟩
      · exact absurd h hnobusy
  · have hbusy : ∃ w ∈ self.workers_, w.queue_size_ ≠ 0 := by
      push Not at hidle
      exact hidle
    constructor
    · intro h
      have hreach := h.some_busy hbusy hstarts
      exact .inr (.inr ⟨hbusy, by omega⟩)
    · rintro (h | ⟨h, -⟩ | ⟨-, h⟩)
      · exact absurd h hle
      · exact absurd h hidle
      · exact ⟨fun h => absurd h hidle, fun _ _ => by omega, hdismissed⟩

/-- Twenty idle workers become ten. -/
theorem setSize_reaches_iff_half :
    Reaches (init 20 100 fun _ => true).pool 10 (fun _ => true)
      ((init 20 100 fun _ => true).pool.setSize 10 0 fun _ => true) :=
  (setSize_reaches_iff _ (by decide) (by decide) 0 _).mpr (.inr (.inl (by decide)))

/-- Ten idle workers that are to become one become nine. -/
theorem not_setSize_reaches :
    ¬ ∀ (self : ThreadPool) (size max_size : ℕ) (starts : ℕ → Bool), 1 ≤ size → size < 2 ^ 64 →
      Reaches self size starts (self.setSize size max_size starts) := by
  intro h
  have hten := (h (init 10 100 fun _ => true).pool 1 0 (fun _ => true) (by decide)
    (by decide)).all_idle (by decide) (fun _ _ => rfl)
  exact absurd hten (by decide)

end BundleStore.ThreadPool
