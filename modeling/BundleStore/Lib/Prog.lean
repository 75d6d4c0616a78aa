import Mathlib.Logic.Function.Basic
import Mathlib.Tactic.Common

set_option autoImplicit false

/-!
# Programs that call their environment

A program over a signature of calls either returns a value or makes one call
and goes on with the answer. Loops that the environment may keep running for
ever are not part of a program: a program is one pass of such a loop, and the
party that runs it (`BundleStore.Lib.Parties`) starts the next pass.

A program fixes no meaning for its calls. A `Handler` gives them one, by
answering each call from a state; `Prog.run` runs a program against it.
-/

/-- A program over the calls `Op`, answered in `Ans`, that returns an `α`. -/
inductive Prog (Op : Type) (Ans : Op → Type) (α : Type) : Type
  | ret (a : α)
  | call (o : Op) (k : Ans o → Prog Op Ans α)

namespace Prog

variable {Op : Type} {Ans : Op → Type} {α β γ σ : Type} {sem : (o : Op) → σ → Ans o → σ → Prop}

/-- Run the first program, then the one its result selects. -/
def bind : Prog Op Ans α → (α → Prog Op Ans β) → Prog Op Ans β
  | ret a, f => f a
  | call o k, f => call o fun x => bind (k x) f

instance : Monad (Prog Op Ans) where
  pure := ret
  bind := bind

/-- The program that makes one call and returns its answer. -/
def op (o : Op) : Prog Op Ans (Ans o) :=
  call o ret

/-- `pure` returns. -/
@[simp] theorem pure_eq_ret (a : α) : (pure a : Prog Op Ans α) = ret a := rfl

/-- Behind a result comes the rest. -/
@[simp] theorem ret_bind (a : α) (f : α → Prog Op Ans β) : (ret a >>= f) = f a := rfl

/-- The rest comes behind a call as it comes behind its answers. -/
@[simp] theorem call_bind (o : Op) (k : Ans o → Prog Op Ans α) (f : α → Prog Op Ans β) :
    (call o k >>= f) = call o fun x => k x >>= f := rfl

/-- A single call hands its answer on. -/
@[simp] theorem op_bind (o : Op) (f : Ans o → Prog Op Ans β) :
    (op o >>= f) = call o f := rfl

/-- To return what was returned does nothing. -/
theorem bind_ret (p : Prog Op Ans α) : (p >>= ret) = p := by
  induction p with
  | ret a => rfl
  | call o k ih => exact congrArg (call o) (funext ih)

/-- Sequences may be grouped either way. -/
theorem bind_assoc (p : Prog Op Ans α) (f : α → Prog Op Ans β) (g : β → Prog Op Ans γ) :
    (p >>= f >>= g) = (p >>= fun x => f x >>= g) := by
  induction p with
  | ret a => rfl
  | call o k ih => exact congrArg (call o) (funext ih)

instance : LawfulMonad (Prog Op Ans) :=
  LawfulMonad.mk' _ bind_ret (fun _ _ => rfl) bind_assoc

/-- The value that a finished program has returned. -/
def result? : Prog Op Ans α → Option α
  | ret a => some a
  | call _ _ => none

/-- A program that has a result has returned it. -/
theorem eq_ret_of_result? {p : Prog Op Ans α} {a : α} (h : p.result? = some a) : p = ret a := by
  cases p with
  | ret b => exact congrArg ret (Option.some.inj h)
  | call o k => cases h

/-- Every call that the program may make is one of `φ`, whatever the answers. -/
def Calls (φ : Op → Prop) : Prog Op Ans α → Prop
  | ret _ => True
  | call o k => φ o ∧ ∀ x, Calls φ (k x)

/-- Every result that the program may return is one of `ψ`, whatever the answers. -/
def Returns (ψ : α → Prop) : Prog Op Ans α → Prop
  | ret a => ψ a
  | call _ k => ∀ x, Returns ψ (k x)

/-- To return makes no call. -/
theorem Calls.pure {φ : Op → Prop} (a : α) : (pure a : Prog Op Ans α).Calls φ := trivial

/-- A sequence makes the calls of its parts. -/
theorem Calls.bind {φ : Op → Prop} {p : Prog Op Ans α} {f : α → Prog Op Ans β}
    (hp : p.Calls φ) (hf : ∀ a, (f a).Calls φ) : (p >>= f).Calls φ := by
  induction p with
  | ret a => exact hf a
  | call o k ih => exact ⟨hp.1, fun x => ih x (hp.2 x)⟩

/-- A choice makes the calls of its branches. -/
theorem Calls.ite {φ : Op → Prop} {c : Prop} [Decidable c] {p q : Prog Op Ans α}
    (hp : p.Calls φ) (hq : q.Calls φ) : (if c then p else q).Calls φ := by
  split
  · exact hp
  · exact hq

/-- Calls of one kind are calls of a wider one. -/
theorem Calls.mono {φ φ' : Op → Prop} (h : ∀ o, φ o → φ' o) {p : Prog Op Ans α}
    (hp : p.Calls φ) : p.Calls φ' := by
  induction p with
  | ret a => trivial
  | call o k ih => exact ⟨h o hp.1, fun x => ih x (hp.2 x)⟩

/-- Every program makes some calls. -/
theorem calls_true (p : Prog Op Ans α) : p.Calls fun _ => True := by
  induction p with
  | ret a => trivial
  | call o k ih => exact ⟨trivial, ih⟩

/-- A sequence returns what its last part returns. -/
theorem Returns.bind {ψ : α → Prop} {ψ' : β → Prop} {p : Prog Op Ans α} {f : α → Prog Op Ans β}
    (hp : p.Returns ψ) (hf : ∀ a, ψ a → (f a).Returns ψ') : (p >>= f).Returns ψ' := by
  induction p with
  | ret a => exact hf a hp
  | call o k ih => exact fun x => ih x (hp x)

/-- What comes behind a program matters at the results that it may return. -/
theorem Returns.bind_congr {ψ : α → Prop} {p : Prog Op Ans α} {f g : α → Prog Op Ans β}
    (hp : p.Returns ψ) (h : ∀ a, ψ a → f a = g a) : p >>= f = p >>= g := by
  induction p with
  | ret a => exact h a hp
  | call o k ih => exact congrArg (call o) (funext fun x => ih x (hp x))

/-- A weaker condition on the results. -/
theorem Returns.mono {ψ ψ' : α → Prop} (h : ∀ a, ψ a → ψ' a) {p : Prog Op Ans α}
    (hp : p.Returns ψ) : p.Returns ψ' := by
  induction p with
  | ret a => exact h a hp
  | call o k ih => exact fun x => ih x (hp x)

/-- Every result is a result. -/
theorem returns_true (p : Prog Op Ans α) : p.Returns fun _ => True := by
  induction p with
  | ret a => trivial
  | call o k ih => exact fun x => ih x

/-- A choice returns what the branch that is taken returns. -/
theorem Returns.ite {ψ : α → Prop} {c : Prop} [Decidable c] {p q : Prog Op Ans α}
    (hp : c → p.Returns ψ) (hq : ¬c → q.Returns ψ) : (if c then p else q).Returns ψ := by
  split
  · exact hp ‹_›
  · exact hq ‹_›

/-- The program makes at most `n` more calls, whatever the answers. -/
def AtMost : Prog Op Ans α → ℕ → Prop
  | ret _, _ => True
  | call _ _, 0 => False
  | call _ k, n + 1 => ∀ x, AtMost (k x) n

/-- A larger bound on the calls. -/
theorem AtMost.mono {n m : ℕ} (hnm : n ≤ m) {p : Prog Op Ans α} (h : p.AtMost n) : p.AtMost m := by
  induction p generalizing n m with
  | ret a => trivial
  | call o k ih =>
      cases n with
      | zero => exact h.elim
      | succ n =>
          cases m with
          | zero => omega
          | succ m => exact fun x => ih x (Nat.le_of_succ_le_succ hnm) (h x)

/-- A deterministic environment: it answers every call from its state. -/
abbrev Handler (Op : Type) (Ans : Op → Type) (σ : Type) : Type :=
  (o : Op) → σ → Ans o × σ

/-- The result of a program and the state its calls leave behind. -/
def run (h : Handler Op Ans σ) : Prog Op Ans α → σ → α × σ
  | ret a, s => (a, s)
  | call o k, s => run h (k (h o s).1) (h o s).2

/-- To return leaves the state. -/
@[simp] theorem run_ret (h : Handler Op Ans σ) (a : α) (s : σ) :
    run h (ret a : Prog Op Ans α) s = (a, s) := rfl

/-- A call is answered by the handler, which goes on with its state. -/
@[simp] theorem run_call (h : Handler Op Ans σ) (o : Op) (k : Ans o → Prog Op Ans α) (s : σ) :
    run h (call o k) s = run h (k (h o s).1) (h o s).2 := rfl

/-- Running a sequence runs its parts one after the other. -/
@[simp] theorem run_bind (h : Handler Op Ans σ) (p : Prog Op Ans α)
    (f : α → Prog Op Ans β) (s : σ) :
    run h (p >>= f) s = run h (f (run h p s).1) (run h p s).2 := by
  induction p generalizing s with
  | ret a => rfl
  | call o k ih => exact ih (h o s).1 (h o s).2

/-- What every result satisfies, the result of a run satisfies. -/
theorem Returns.run {ψ : α → Prop} {p : Prog Op Ans α} (hp : p.Returns ψ)
    (h : Handler Op Ans σ) (s : σ) : ψ (p.run h s).1 := by
  induction p generalizing s with
  | ret a => exact hp
  | call o k ih => exact ih (h o s).1 (hp (h o s).1) (h o s).2

/-- The program may run from one state to another and return a value, with nobody else
in between. -/
def Executes (sem : (o : Op) → σ → Ans o → σ → Prop) : Prog Op Ans α → σ → α → σ → Prop
  | ret a, s, b, s' => b = a ∧ s' = s
  | call o k, s, b, s' => ∃ x s₁, sem o s x s₁ ∧ Executes sem (k x) s₁ b s'

/-- To return leaves the state. -/
@[simp] theorem executes_ret {a b : α} {s s' : σ} :
    (ret a : Prog Op Ans α).Executes sem s b s' ↔ b = a ∧ s' = s :=
  Iff.rfl

/-- A call is answered, and the rest goes on from the state behind it. -/
@[simp] theorem executes_call {o : Op} {k : Ans o → Prog Op Ans α} {b : α} {s s' : σ} :
    (call o k).Executes sem s b s' ↔ ∃ x s₁, sem o s x s₁ ∧ (k x).Executes sem s₁ b s' :=
  Iff.rfl

/-- An execution of a sequence is one of each part. -/
@[simp] theorem executes_bind {p : Prog Op Ans α} {f : α → Prog Op Ans β} {b : β} {s s' : σ} :
    (p >>= f).Executes sem s b s' ↔
      ∃ a s₁, p.Executes sem s a s₁ ∧ (f a).Executes sem s₁ b s' := by
  induction p generalizing s with
  | ret a => simp
  | call o k ih =>
      simp only [call_bind, executes_call, ih]
      constructor
      · rintro ⟨x, s₂, hsem, a, s₁, hk, hf⟩
        exact ⟨a, s₁, ⟨x, s₂, hsem, hk⟩, hf⟩
      · rintro ⟨a, s₁, ⟨x, s₂, hsem, hk⟩, hf⟩
        exact ⟨x, s₂, hsem, a, s₁, hk, hf⟩

/-- An execution with the calls that it makes, each with its answer. -/
def ExecutesBy (sem : (o : Op) → σ → Ans o → σ → Prop) :
    Prog Op Ans α → σ → List ((o : Op) × Ans o) → α → σ → Prop
  | ret a, s, calls, b, s' => calls = [] ∧ b = a ∧ s' = s
  | call o k, s, calls, b, s' => ∃ x s₁ rest, sem o s x s₁ ∧ calls = ⟨o, x⟩ :: rest ∧
      ExecutesBy sem (k x) s₁ rest b s'

/-- The calls may be left out. -/
theorem executes_iff_executesBy {p : Prog Op Ans α} {b : α} {s s' : σ} :
    p.Executes sem s b s' ↔ ∃ calls, p.ExecutesBy sem s calls b s' := by
  induction p generalizing s with
  | ret a =>
      constructor
      · intro h
        exact ⟨[], rfl, h⟩
      · rintro ⟨calls, -, h⟩
        exact h
  | call o k ih =>
      constructor
      · rintro ⟨x, s₁, hsem, hrest⟩
        obtain ⟨calls, hrest⟩ := (ih x).mp hrest
        exact ⟨_, x, s₁, calls, hsem, rfl, hrest⟩
      · rintro ⟨_, x, s₁, calls, hsem, -, hrest⟩
        exact ⟨x, s₁, hsem, (ih x).mpr ⟨calls, hrest⟩⟩

/-- What all calls of a program keep, an execution keeps. -/
theorem Executes.kept {φ : Op → Prop} {I : σ → Prop} {p : Prog Op Ans α} {s s' : σ} {a : α}
    (h : p.Executes sem s a s') (hcalls : p.Calls φ)
    (hstep : ∀ o s x s', φ o → I s → sem o s x s' → I s') (hs : I s) : I s' := by
  induction p generalizing s with
  | ret b => exact h.2 ▸ hs
  | call o k ih =>
      obtain ⟨x, s₁, hsem, hk⟩ := h
      exact ih x hk (hcalls.2 x) (hstep o s x s₁ hcalls.1 hs hsem)

/-- What every result satisfies, the result of an execution satisfies. -/
theorem Executes.returns {ψ : α → Prop} {p : Prog Op Ans α} {s s' : σ} {a : α}
    (h : p.Executes sem s a s') (hreturns : p.Returns ψ) : ψ a := by
  induction p generalizing s with
  | ret b => exact h.1 ▸ hreturns
  | call o k ih =>
      obtain ⟨x, s₁, -, hk⟩ := h
      exact ih x hk (hreturns x)

/-- All calls of a run pass a test. -/
def runsWith (h : Handler Op Ans σ) (ok : Op → σ → Bool) : Prog Op Ans α → σ → Bool
  | ret _, _ => true
  | call o k, s => ok o s && runsWith h ok (k (h o s).1) (h o s).2

/-- A run against answers that are possible is an execution. -/
theorem executes_run {h : Handler Op Ans σ} {ok : Op → σ → Bool} {p : Prog Op Ans α} {s : σ}
    (hsound : ∀ o s, ok o s = true → sem o s (h o s).1 (h o s).2)
    (hok : p.runsWith h ok s = true) : p.Executes sem s (p.run h s).1 (p.run h s).2 := by
  induction p generalizing s with
  | ret a => exact ⟨rfl, rfl⟩
  | call o k ih =>
      simp only [runsWith, Bool.and_eq_true] at hok
      exact ⟨_, _, hsound o s hok.1, ih _ hok.2⟩

/-- Where every call is answered, every program has an execution. -/
theorem exists_executes (htotal : ∀ o s, ∃ x s', sem o s x s') (p : Prog Op Ans α) (s : σ) :
    ∃ a s', p.Executes sem s a s' := by
  induction p generalizing s with
  | ret a => exact ⟨a, s, rfl, rfl⟩
  | call o k ih =>
      obtain ⟨x, s₁, hsem⟩ := htotal o s
      obtain ⟨a, s', hk⟩ := ih x s₁
      exact ⟨a, s', x, s₁, hsem, hk⟩

/-- What a handler answers, where it answers as the calls may, is an execution. -/
theorem executes_run_of_sem {h : Handler Op Ans σ}
    (hsound : ∀ o s, sem o s (h o s).1 (h o s).2) (p : Prog Op Ans α) (s : σ) :
    p.Executes sem s (p.run h s).1 (p.run h s).2 := by
  induction p generalizing s with
  | ret a => exact ⟨rfl, rfl⟩
  | call o k ih => exact ⟨_, _, hsound o s, ih _ _⟩

end Prog
