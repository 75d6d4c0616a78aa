import Mathlib.Algebra.BigOperators.Group.Finset.Piecewise
import Mathlib.Algebra.Order.BigOperators.Group.Finset
import Mathlib.Data.Fintype.Card
import Mathlib.Logic.Relation

set_option autoImplicit false

/-!
# Objects with a mutex and condition variables

An operation is a sequence of segments that hold the mutex. A segment returns, or
goes to sleep on a condition variable; a sleeper that has been woken takes the
mutex again and runs the next segment. Any thread that can run may be the next one,
a notification may wake any sleeper, and a sleeper may also wake without one.

The threads are counted by their situations: outside the operations in a role, or
waiting on a condition variable, asleep or not.
-/

namespace CondVar

variable {ι σ ρ γ ω : Type}

inductive Notify (γ : Type)
  | none
  | one (c : γ)
  | all (c : γ)

/-- How a segment ends: the operation returns in a role, or the thread sleeps. -/
inductive Next (ρ γ : Type)
  | returns (r : ρ)
  | waits (c : γ)
  deriving DecidableEq

/-- What a segment leaves behind, whom it notifies, and how it ends. -/
structure Segment (σ ρ γ : Type) where
  state : σ
  notify : Notify γ := .none
  next : Next ρ γ

/-- An object: the first segment of each operation, the segment behind each wait, and
the operations that a thread calls in a role. -/
structure Object (σ ρ γ ω : Type) where
  start : ω → σ → Segment σ ρ γ
  resume : γ → σ → Segment σ ρ γ
  Calls : ρ → ω → Prop

/-- Where a thread is. -/
inductive Place (ρ γ : Type)
  | out (r : ρ)
  | asleep (c : γ)
  | awake (c : γ)
  deriving DecidableEq

structure Config (ι σ ρ γ : Type) where
  state : σ
  place : ι → Place ρ γ

def Next.place : Next ρ γ → Place ρ γ
  | returns r => .out r
  | waits c => .asleep c

/-- A role outside, or a condition variable that the thread waits on. -/
def Place.situation : Place ρ γ → ρ ⊕ γ
  | .out r => .inl r
  | .asleep c => .inr c
  | .awake c => .inr c

def Next.situation : Next ρ γ → ρ ⊕ γ
  | returns r => .inl r
  | waits c => .inr c

/-- A place shows the situation it was made of. -/
@[simp] theorem situation_place (n : Next ρ γ) : n.place.situation = n.situation := by
  cases n <;> rfl

variable [DecidableEq ι]

/-- What a notification does to the threads. -/
inductive Notified : Notify γ → (ι → Place ρ γ) → (ι → Place ρ γ) → Prop
  | none (f : ι → Place ρ γ) : Notified .none f f
  | one {c : γ} {f : ι → Place ρ γ} {j : ι} (hj : f j = .asleep c) :
      Notified (.one c) f (Function.update f j (.awake c))
  | lost {c : γ} {f : ι → Place ρ γ} (h : ∀ j, f j ≠ .asleep c) : Notified (.one c) f f
  | all {c : γ} {f f' : ι → Place ρ γ} (hwoken : ∀ j, f j = .asleep c → f' j = .awake c)
      (hother : ∀ j, f j ≠ .asleep c → f' j = f j) : Notified (.all c) f f'

/-- A segment that a thread can run. -/
inductive Runs (O : Object σ ρ γ ω) (s : Config ι σ ρ γ) (i : ι) : Segment σ ρ γ → Prop
  | start {r : ρ} {o : ω} (hi : s.place i = .out r) (ho : O.Calls r o) :
      Runs O s i (O.start o s.state)
  | resume {c : γ} (hi : s.place i = .awake c) : Runs O s i (O.resume c s.state)

inductive Step (O : Object σ ρ γ ω) : Config ι σ ρ γ → Config ι σ ρ γ → Prop
  | segment {s : Config ι σ ρ γ} {i : ι} {seg : Segment σ ρ γ} {f : ι → Place ρ γ}
      (hrun : Runs O s i seg) (hnotify : Notified seg.notify s.place f) :
      Step O s ⟨seg.state, Function.update f i seg.next.place⟩
  | spurious {s : Config ι σ ρ γ} {i : ι} {c : γ} (hi : s.place i = .asleep c) :
      Step O s ⟨s.state, Function.update s.place i (.awake c)⟩

/-! ## What a notification leaves behind -/

/-- A notification leaves every thread in its situation. -/
theorem Notified.situation {n : Notify γ} {f f' : ι → Place ρ γ} (h : Notified n f f') (j : ι) :
    (f' j).situation = (f j).situation := by
  cases h with
  | none => rfl
  | lost => rfl
  | @one c f i hi =>
      by_cases hj : j = i
      · subst hj
        rw [Function.update_self, hi]
        rfl
      · rw [Function.update_of_ne hj]
  | @all c f f' hwoken hother =>
      by_cases hj : f j = .asleep c
      · rw [hwoken j hj, hj]
        rfl
      · rw [hother j hj]

/-- Where nobody is notified nothing changes. -/
theorem notified_none {f f' : ι → Place ρ γ} (h : Notified .none f f') : f' = f := by
  cases h
  rfl

/-- A notification only wakes. -/
theorem Notified.place {n : Notify γ} {f f' : ι → Place ρ γ} (h : Notified n f f') (j : ι) :
    f' j = f j ∨ ∃ c, f j = .asleep c ∧ f' j = .awake c := by
  cases h with
  | none => exact .inl rfl
  | lost => exact .inl rfl
  | @one c f i hi =>
      by_cases hj : j = i
      · subst hj
        exact .inr ⟨c, hi, Function.update_self ..⟩
      · exact .inl (Function.update_of_ne hj ..)
  | @all c f f' hwoken hother =>
      by_cases hj : f j = .asleep c
      · exact .inr ⟨c, hj, hwoken j hj⟩
      · exact .inl (hother j hj)

/-- Where a thread waits, `notify_one` leaves one awake. -/
theorem Notified.exists_awake {c : γ} {f f' : ι → Place ρ γ} (h : Notified (.one c) f f') {j : ι}
    (hj : (f j).situation = .inr c) : ∃ k, f' k = .awake c := by
  cases h with
  | one hi => exact ⟨_, Function.update_self ..⟩
  | lost hnone =>
      cases hplace : f j with
      | out r =>
          rw [hplace] at hj
          cases hj
      | asleep c' =>
          rw [hplace] at hj
          cases hj
          exact absurd hplace (hnone j)
      | awake c' =>
          rw [hplace] at hj
          cases hj
          exact ⟨j, hplace⟩

/-- `notify_all` leaves nobody asleep. -/
theorem Notified.none_asleep {c : γ} {f f' : ι → Place ρ γ} (h : Notified (.all c) f f') (j : ι) :
    f' j ≠ .asleep c := by
  cases h with
  | all hwoken hother =>
      by_cases hj : f j = .asleep c
      · rw [hwoken j hj]
        simp
      · rwa [hother j hj]

section Updates

variable {n : Notify γ} {f f' : ι → Place ρ γ} {i j : ι} {p : Place ρ γ} {c : γ}

/-- Whoever is awake stays so while others run. -/
theorem Notified.awake_kept (h : Notified n f f') (hj : f j = .awake c) (hi : f i ≠ .awake c) :
    Function.update f' i p j = .awake c := by
  have hne : j ≠ i := by
    rintro rfl
    exact hi hj
  rw [Function.update_of_ne hne]
  obtain hsame | ⟨c', hasleep, -⟩ := h.place j
  · rw [hsame, hj]
  · rw [hj] at hasleep
    cases hasleep

/-- Where a thread waits that is not the one that notifies, `notify_one` leaves one
awake. -/
theorem Notified.wakes (h : Notified (.one c) f f') (hj : (f j).situation = .inr c)
    (hi : (f i).situation ≠ .inr c) : ∃ k, Function.update f' i p k = .awake c := by
  obtain ⟨k, hk⟩ := h.exists_awake hj
  have hne : k ≠ i := by
    rintro rfl
    rw [← h.situation k, hk] at hi
    exact hi rfl
  exact ⟨k, by rw [Function.update_of_ne hne, hk]⟩

/-- Whoever sleeps has slept before, or has just gone to sleep. -/
theorem Notified.asleep_before (h : Notified n f f') (hp : p ≠ .asleep c)
    (hj : Function.update f' i p j = .asleep c) : f' j = .asleep c ∧ f j = .asleep c := by
  have hne : j ≠ i := by
    rintro rfl
    rw [Function.update_self] at hj
    exact hp hj
  rw [Function.update_of_ne hne] at hj
  obtain hsame | ⟨c', -, hawake⟩ := h.place j
  · exact ⟨hj, hsame ▸ hj⟩
  · rw [hj] at hawake
    cases hawake

end Updates

section Counting

variable [Fintype ι] [DecidableEq ρ] [DecidableEq γ] {f f' : ι → Place ρ γ} {x : ρ ⊕ γ}

/-- The number of threads in a situation. -/
def count (x : ρ ⊕ γ) (f : ι → Place ρ γ) : ℕ :=
  (Finset.univ.filter fun j => (f j).situation = x).card

omit [DecidableEq ι] in
/-- A count is of the situations alone. -/
theorem count_congr (h : ∀ j, (f' j).situation = (f j).situation) : count x f' = count x f := by
  simp only [count, h]

omit [DecidableEq ι] in
/-- A count is not zero when there is one. -/
theorem count_ne_zero : count x f ≠ 0 ↔ ∃ j, (f j).situation = x := by
  simp [count, Finset.filter_eq_empty_iff]

/-- A thread that changes its situation is counted there and no longer where it was. -/
theorem count_update (f : ι → Place ρ γ) (i : ι) (p : Place ρ γ) (x : ρ ⊕ γ) :
    count x (Function.update f i p) + (if (f i).situation = x then 1 else 0) =
      count x f + if p.situation = x then 1 else 0 := by
  have hsum : ∀ g : ι → Place ρ γ,
      count x g = (if (g i).situation = x then 1 else 0) +
        ∑ j ∈ Finset.univ.erase i, if (g j).situation = x then 1 else 0 := by
    intro g
    rw [count, Finset.card_filter]
    exact (Finset.add_sum_erase _ _ (Finset.mem_univ i)).symm
  have hrest : (∑ j ∈ Finset.univ.erase i,
        if (Function.update f i p j).situation = x then 1 else 0) =
      ∑ j ∈ Finset.univ.erase i, if (f j).situation = x then 1 else 0 := by
    refine Finset.sum_congr rfl fun j hj => ?_
    rw [Function.update_of_ne (Finset.ne_of_mem_erase hj)]
  rw [hsum (Function.update f i p), hsum f, hrest, Function.update_self]
  omega

end Counting

end CondVar
