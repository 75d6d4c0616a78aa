import BundleStore.Lib.Prog

set_option autoImplicit false

/-!
# Loops that end when their body says so

A loop without a bound of its own is a program for every number of rounds. What
holds of all of them holds of the loop: a property of the result from what every
round keeps, an end from what every round uses up.
-/

namespace Prog

variable {Op : Type} {Ans : Op → Type} {κ α σ : Type} {sem : (o : Op) → σ → Ans o → σ → Prop}

/-- At most `n` rounds of a loop: a round ends in what the next one starts from,
or in the result. `none` means that the rounds are used up. -/
def attempts (body : κ → Prog Op Ans (κ ⊕ α)) : ℕ → κ → Prog Op Ans (Option α)
  | 0, _ => ret none
  | n + 1, k => body k >>= Sum.elim (attempts body n) fun a => ret (some a)

variable {body : κ → Prog Op Ans (κ ⊕ α)} {n : ℕ} {k : κ} {s s' : σ}

/-- The first attempt goes on to the next ones, or gives the result. -/
theorem executes_attempts_succ {r : Option α} :
    (attempts body (n + 1) k).Executes sem s r s' ↔
      (∃ k' s₁, (body k).Executes sem s (.inl k') s₁ ∧
        (attempts body n k').Executes sem s₁ r s') ∨
      ∃ a, (body k).Executes sem s (.inr a) s' ∧ r = some a := by
  rw [attempts, executes_bind]
  constructor
  · rintro ⟨step | a, s₁, hbody, hrest⟩
    · exact .inl ⟨step, s₁, hbody, hrest⟩
    · obtain ⟨rfl, rfl⟩ := hrest
      exact .inr ⟨a, hbody, rfl⟩
  · rintro (⟨k', s₁, hbody, hrest⟩ | ⟨a, hbody, rfl⟩)
    · exact ⟨.inl k', s₁, hbody, hrest⟩
    · exact ⟨.inr a, s', hbody, rfl, rfl⟩

/-- What every round keeps until it gives a result holds of the result. -/
theorem Executes.attempts {I : κ → σ → Prop} {Q : α → σ → Prop} {a : α}
    (h : (attempts body n k).Executes sem s (some a) s')
    (hnext : ∀ k s k' s', I k s → (body k).Executes sem s (.inl k') s' → I k' s')
    (hdone : ∀ k s a s', I k s → (body k).Executes sem s (.inr a) s' → Q a s')
    (hI : I k s) : Q a s' := by
  induction n generalizing k s with
  | zero => exact absurd h.1 (by simp)
  | succ n ih =>
      rcases executes_attempts_succ.mp h with ⟨k', s₁, hbody, hrest⟩ | ⟨b, hbody, hb⟩
      · exact ih hrest (hnext k s k' s₁ hI hbody)
      · cases hb
        exact hdone k s a s' hI hbody

/-- A loop whose rounds never give a result from where they get to uses up every number
of rounds. -/
theorem Executes.attempts_endless {I : κ → σ → Prop} {r : Option α}
    (h : (Prog.attempts body n k).Executes sem s r s')
    (hnext : ∀ k s step s', I k s → (body k).Executes sem s step s' →
      ∃ k', step = .inl k' ∧ I k' s') (hI : I k s) : r = none := by
  induction n generalizing k s with
  | zero => exact h.1
  | succ n ih =>
      rcases executes_attempts_succ.mp h with ⟨k', s₁, hbody, hrest⟩ | ⟨a, hbody, -⟩
      · obtain ⟨k'', heq, hI'⟩ := hnext k s _ s₁ hI hbody
        cases heq
        exact ih hrest hI'
      · obtain ⟨k', heq, -⟩ := hnext k s _ s' hI hbody
        cases heq

/-! ## In a deterministic environment -/

section Handler

variable {h : Handler Op Ans σ}

/-- An attempt without a result is followed by the others. -/
theorem run_attempts_succ_inl {k' : κ} (hbody : (body k).run h s = (.inl k', s')) :
    (attempts body (n + 1) k).run h s = (attempts body n k').run h s' := by
  rw [attempts, run_bind, hbody]
  rfl

/-- An attempt with a result is the last. -/
theorem run_attempts_succ_inr {a : α} (hbody : (body k).run h s = (.inr a, s')) :
    (attempts body (n + 1) k).run h s = (some a, s') := by
  rw [attempts, run_bind, hbody]
  rfl

/-- The state a loop is in after some rounds; once it has a result, it stays where it is. -/
def roundsFrom (h : Handler Op Ans σ) (body : κ → Prog Op Ans (κ ⊕ α)) (start : κ × σ) :
    ℕ → κ × σ
  | 0 => start
  | n + 1 =>
      match (body (roundsFrom h body start n).1).run h (roundsFrom h body start n).2 with
      | (.inl k, s) => (k, s)
      | (.inr _, _) => roundsFrom h body start n

/-- A loop has no end exactly when its rounds can go on for ever. -/
theorem attempts_endless_iff :
    (∀ n, ((attempts body n k).run h s).1 = none) ↔
      ∃ seq : ℕ → κ × σ, seq 0 = (k, s) ∧
        ∀ n, (body (seq n).1).run h (seq n).2 = (.inl (seq (n + 1)).1, (seq (n + 1)).2) := by
  constructor
  · intro hendless
    have hfrom (n : ℕ) : (∀ m, ((attempts body m (roundsFrom h body (k, s) n).1).run h
        (roundsFrom h body (k, s) n).2).1 = none) := by
      induction n with
      | zero => exact hendless
      | succ n ih =>
          intro m
          have hround := ih (m + 1)
          rw [roundsFrom]
          generalize hbody : (body (roundsFrom h body (k, s) n).1).run h
            (roundsFrom h body (k, s) n).2 = r
          obtain ⟨k' | a, s'⟩ := r
          · rwa [run_attempts_succ_inl hbody] at hround
          · rw [run_attempts_succ_inr hbody] at hround
            cases hround
    refine ⟨roundsFrom h body (k, s), rfl, fun n => ?_⟩
    have hround := hfrom n 1
    rw [roundsFrom]
    generalize hbody : (body (roundsFrom h body (k, s) n).1).run h
      (roundsFrom h body (k, s) n).2 = r
    obtain ⟨k' | a, s'⟩ := r
    · rfl
    · rw [run_attempts_succ_inr hbody] at hround
      cases hround
  · rintro ⟨seq, hstart, hnext⟩ n
    have hall (n : ℕ) : ∀ m, ((attempts body n (seq m).1).run h (seq m).2).1 = none := by
      induction n with
      | zero => exact fun m => rfl
      | succ n ih =>
          intro m
          rw [run_attempts_succ_inl (hnext m)]
          exact ih (m + 1)
    have hfirst := hall n 0
    rwa [hstart] at hfirst

end Handler

end Prog
