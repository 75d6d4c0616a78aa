import BundleStore.Lib.Machine
import Mathlib.Data.List.Nodup

set_option autoImplicit false

/-!
# The thread pool

SOURCE: src/base3/threadpool.cc:15-36,90-120,171-186, src/base3/threadpool.h:15-69

A worker is named by how many have been made before it. What has been done to the workers is
logged; deleting one joins its thread.
-/

namespace BundleStore

open Machine

/-- A worker, and the messages that are queued when its `size()` is read. -/
structure Worker where
  made : ℕ
  queue_size_ : ℕ
  deriving DecidableEq

namespace Worker

inductive Event
  | started (made : ℕ)
  | closed (made : ℕ)
  | deleted (made : ℕ)
  deriving DecidableEq

def idle (w : Worker) : Bool :=
  w.queue_size_ == 0

/-- `w->Close(); delete w;` -/
def dismiss (w : Worker) : List Event :=
  [.closed w.made, .deleted w.made]

end Worker

/-- The list of the workers, none of which stands in it twice. -/
structure ThreadPool where
  max_size_ : ℕ
  workers_ : List Worker
  made : ℕ
  nodup : (workers_.map Worker.made).Nodup
  made_lt : ∀ w ∈ workers_, w.made < made

namespace ThreadPool

/-- What a call leaves, and what it has done to the workers. -/
structure Resized where
  pool : ThreadPool
  log : List Worker.Event

/-- `Create`; the thread of the new worker starts or does not. -/
def create (self : ThreadPool) (starts : Bool) : Resized :=
  if starts then
    { pool :=
        { max_size_ := self.max_size_
          workers_ := self.workers_ ++ [⟨self.made, 0⟩]
          made := self.made + 1
          nodup := by
            rw [List.map_append]
            refine self.nodup.append (List.nodup_singleton _) ?_
            rw [List.map_singleton, List.disjoint_singleton, List.mem_map]
            rintro ⟨w, hw, heq⟩
            exact absurd heq (self.made_lt w hw).ne
          made_lt := by
            intro w hw
            rcases List.mem_append.mp hw with hold | hnew
            · exact Nat.lt_succ_of_lt (self.made_lt w hold)
            · rw [List.mem_singleton] at hnew
              rw [hnew]
              exact Nat.lt_succ_self _ }
      log := [.started self.made] }
  else
    { pool :=
        { self with
          made := self.made + 1
          made_lt := fun w hw => Nat.lt_succ_of_lt (self.made_lt w hw) }
      log := [.deleted self.made] }

/-- The loop of `Shrunk`, with `size` as its counter. -/
def shrunkLoop : ℕ → List Worker → List Worker × List Worker.Event
  | _, [] => ([], [])
  | size, w :: rest =>
      if w.queue_size_ = 0 then
        if uint64 (size - 1) = 0 then (rest, w.dismiss)
        else
          let r := shrunkLoop (uint64 (size - 1)) rest
          (r.1, w.dismiss ++ r.2)
      else
        let r := shrunkLoop size rest
        (w :: r.1, r.2)

/-- The workers that are left were there before. -/
theorem shrunkLoop_sublist (size : ℕ) (ws : List Worker) :
    (shrunkLoop size ws).1.Sublist ws := by
  induction ws generalizing size with
  | nil => exact .slnil
  | cons w rest ih =>
      unfold shrunkLoop
      split
      · split
        · exact List.sublist_cons_self w rest
        · exact (ih _).cons w
      · exact (ih _).cons_cons w

def shrunk (self : ThreadPool) (size : ℕ) : Resized where
  pool :=
    { self with
      workers_ := (shrunkLoop size self.workers_).1
      nodup := self.nodup.sublist ((shrunkLoop_sublist _ _).map _)
      made_lt := fun w hw => self.made_lt w ((shrunkLoop_sublist _ _).mem hw) }
  log := (shrunkLoop size self.workers_).2

/-- `for (size_t i=0; i<count; ++i) Create();` -/
def inflate (self : ThreadPool) (starts : ℕ → Bool) : ℕ → Resized
  | 0 => ⟨self, []⟩
  | i + 1 =>
      let r := inflate self starts i
      let c := r.pool.create (starts i)
      ⟨c.pool, r.log ++ c.log⟩

def setSize (self : ThreadPool) (size max_size : ℕ) (starts : ℕ → Bool) : Resized :=
  let current := self.workers_.length
  let r : Resized :=
    if current > size then self.shrunk size
    else if current < size then self.inflate starts (size - current)
    else ⟨self, []⟩
  if max_size ≠ 0 then { r with pool := { r.pool with max_size_ := max_size } } else r

/-- The constructor. -/
def init (init_size max_size : ℕ) (starts : ℕ → Bool) : Resized :=
  setSize ⟨max_size, [], 0, List.nodup_nil, by simp⟩ init_size 0 starts

end ThreadPool

end BundleStore
