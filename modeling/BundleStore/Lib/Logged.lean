import Mathlib.Data.List.Basic
import Mathlib.Tactic.Common

set_option autoImplicit false

/-!
# Computations that keep a log

A computation logs events on its way, and ends in a value or halts early. Some events
are places on a line; a computation spans a stretch when it logs only admissible events
and its places go up through the stretch. Stretches that meet can be put together.
-/

/-- The log of a computation and how it has ended. -/
structure Logged (ε σ α : Type) where
  log : List ε
  result : Except σ α

namespace Logged

variable {ε σ α β : Type}

protected def pure (a : α) : Logged ε σ α :=
  ⟨[], .ok a⟩

/-- Go on with the value. -/
protected def bind (m : Logged ε σ α) (f : α → Logged ε σ β) : Logged ε σ β :=
  match m.result with
  | .ok a => ⟨m.log ++ (f a).log, (f a).result⟩
  | .error s => ⟨m.log, .error s⟩

instance : Monad (Logged ε σ) where
  pure := Logged.pure
  bind := Logged.bind

/-- Log one event. -/
def emit (e : ε) : Logged ε σ Unit :=
  ⟨[e], .ok ()⟩

/-- End without a value. -/
def halt (s : σ) : Logged ε σ α :=
  ⟨[], .error s⟩

variable {place : ε → Option ℕ} {admissible : ε → Prop} {lo mid hi : ℕ}
variable {m : Logged ε σ α} {f : α → Logged ε σ β} {a : α} {b : β} {e : ε}

/-- The computation ends in `a`, logs admissible events only, and the places of its log go up
from `lo` on and stay below `hi`. -/
structure Spans (place : ε → Option ℕ) (admissible : ε → Prop) (lo hi : ℕ) (m : Logged ε σ α)
    (a : α) : Prop where
  result : m.result = .ok a
  admissible : ∀ e ∈ m.log, admissible e
  increasing : (m.log.filterMap place).Pairwise (· < ·)
  within : ∀ k ∈ m.log.filterMap place, lo ≤ k ∧ k < hi
  le : lo ≤ hi

namespace Spans

/-- To return reads nothing. -/
theorem pure (h : lo ≤ hi) (a : α) :
    Spans place admissible lo hi (Pure.pure a : Logged ε σ α) a where
  result := rfl
  admissible _ he := absurd he List.not_mem_nil
  increasing := List.Pairwise.nil
  within _ hk := absurd hk List.not_mem_nil
  le := h

/-- An admissible event that is no place. -/
theorem emit (hplace : place e = none) (he : admissible e) (h : lo ≤ hi) :
    Spans place admissible lo hi (Logged.emit e : Logged ε σ Unit) () where
  result := rfl
  admissible e' he' := by
    obtain rfl := List.mem_singleton.mp he'
    exact he
  increasing := by simp [Logged.emit, hplace]
  within := by simp [Logged.emit, hplace]
  le := h

/-- An admissible event at a place. -/
theorem visit (hplace : place e = some lo) (he : admissible e) :
    Spans place admissible lo (lo + 1) (Logged.emit e : Logged ε σ Unit) () where
  result := rfl
  admissible e' he' := by
    obtain rfl := List.mem_singleton.mp he'
    exact he
  increasing := by simp [Logged.emit, hplace]
  within := by simp [Logged.emit, hplace]
  le := Nat.le_succ lo

/-- What a sequence reads lies where its parts read. -/
theorem bind (hm : Spans place admissible lo mid m a)
    (hf : Spans place admissible mid hi (f a) b) : Spans place admissible lo hi (m >>= f) b := by
  have hbind : (m >>= f) = ⟨m.log ++ (f a).log, (f a).result⟩ := by
    show Logged.bind m f = _
    rw [Logged.bind, hm.result]
  rw [hbind]
  refine ⟨hf.result, fun e he => ?_, ?_, fun k hk => ?_, Nat.le_trans hm.le hf.le⟩
  · rcases List.mem_append.mp he with he | he
    · exact hm.admissible e he
    · exact hf.admissible e he
  · rw [List.filterMap_append]
    refine List.pairwise_append.mpr ⟨hm.increasing, hf.increasing, fun k hk l hl => ?_⟩
    exact Nat.lt_of_lt_of_le (hm.within k hk).2 (hf.within l hl).1
  · rw [List.filterMap_append] at hk
    rcases List.mem_append.mp hk with hk | hk
    · exact ⟨(hm.within k hk).1, Nat.lt_of_lt_of_le (hm.within k hk).2 hf.le⟩
    · exact ⟨Nat.le_trans hm.le (hf.within k hk).1, (hf.within k hk).2⟩

/-- What spans a stretch spans a longer one. -/
theorem mono {lo' hi' : ℕ} (h : Spans place admissible lo hi m a) (hlo : lo' ≤ lo)
    (hhi : hi ≤ hi') : Spans place admissible lo' hi' m a where
  result := h.result
  admissible := h.admissible
  increasing := h.increasing
  within k hk := ⟨Nat.le_trans hlo (h.within k hk).1, Nat.lt_of_lt_of_le (h.within k hk).2 hhi⟩
  le := Nat.le_trans (Nat.le_trans hlo h.le) hhi

end Spans

end Logged
