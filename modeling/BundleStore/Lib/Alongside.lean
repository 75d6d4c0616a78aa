import BundleStore.Lib.Parties

set_option autoImplicit false

/-!
# A program beside a system

An observer runs a program of its own while the parties of a system go on. Its
calls read the shared state and change only what the observer keeps for itself;
between two of them the system takes any number of steps. What an observer keeps
may take note of every state that the system passes through (`watch`).

`Triple` is the Hoare triple of an observer that relies on a fact about all these
states.
-/

open Relation

/-- What an observer's calls answer, from the shared state and what it keeps, and
what it notes of a state that the system has come to. -/
structure Observer (Op : Type) (Ans : Op → Type) (σ ρ : Type) where
  sem : σ → (o : Op) → ρ → Ans o → ρ → Prop
  watch : σ → ρ → ρ

namespace Observer

variable {Op Call : Type} {Ans : Op → Type} {Reply : Call → Type} {ι σ L C ρ α β : Type}
variable [DecidableEq ι]

/-- `Alongside S B c p r a`: beside a run of `S` from `c`, the observer's program, who
keeps `r`, may return `a`. -/
inductive Alongside (S : System Op Ans ι σ L C) (B : Observer Call Reply σ ρ) :
    Config Op Ans ι σ L → Prog Call Reply α → ρ → α → Prop
  | ret {c : Config Op Ans ι σ L} {r : ρ} (a : α) : Alongside S B c (.ret a) r a
  | step {c c' : Config Op Ans ι σ L} {p : Prog Call Reply α} {r : ρ} {a : α}
      (hstep : S.Step c c') (h : Alongside S B c' p (B.watch c'.shared r) a) :
      Alongside S B c p r a
  | call {c : Config Op Ans ι σ L} {o : Call} {k : Reply o → Prog Call Reply α} {x : Reply o}
      {r r' : ρ} {a : α} (hsem : B.sem c.shared o r x r') (h : Alongside S B c (k x) r' a) :
      Alongside S B c (.call o k) r a

/-- What an observer may do alone, it may do while nothing else happens. -/
theorem Alongside.of_executes {S : System Op Ans ι σ L C} {B : Observer Call Reply σ ρ}
    {c : Config Op Ans ι σ L} {p : Prog Call Reply α} {r r' : ρ} {a : α}
    (h : p.Executes (B.sem c.shared) r a r') : Alongside S B c p r a := by
  induction p generalizing r with
  | ret b =>
      rw [h.1]
      exact .ret b
  | call o k ih =>
      obtain ⟨x, r₁, hsem, hk⟩ := h
      exact .call hsem (ih x hk)

variable (B : Observer Call Reply σ ρ) (G : σ → Prop)

/-- What is kept stays in `P`, whatever states with `G` come. -/
def Stable (P : ρ → Prop) : Prop :=
  ∀ s r, G s → P r → P (B.watch s r)

/-- What the observer still has to run can only return results in `Q`. -/
def Safe (Q : α → Prop) : Prog Call Reply α → ρ → Prop
  | .ret a, _ => Q a
  | .call o k, r => ∀ r', ReflTransGen (fun r r' => ∃ s, G s ∧ r' = B.watch s r) r r' →
      ∀ s, G s → ∀ x r'', B.sem s o r' x r'' → Safe Q (k x) r''

/-- From what is kept in `P`, the program returns results in `Q`. -/
def Triple (P : ρ → Prop) (p : Prog Call Reply α) (Q : α → Prop) : Prop :=
  ∀ r, P r → B.Safe G Q p r

variable {B G} {P : ρ → Prop} {Q : α → Prop}

/-- What is safe is safe when others have gone on. -/
theorem Safe.watched {p : Prog Call Reply α} {r : ρ} (h : B.Safe G Q p r) {s : σ} (hs : G s) :
    B.Safe G Q p (B.watch s r) := by
  cases p with
  | ret a => exact h
  | call o k => exact fun r' hr' => h r' (.head ⟨s, hs, rfl⟩ hr')

/-- **Soundness.** When every state that the system comes to has `G`, a safe program
returns what it should. -/
theorem Safe.sound {S : System Op Ans ι σ L C} {c : Config Op Ans ι σ L}
    {p : Prog Call Reply α} {r : ρ} {a : α} (h : Alongside S B c p r a)
    (hG : ∀ c', ReflTransGen S.Step c c' → G c'.shared) (hsafe : B.Safe G Q p r) : Q a := by
  induction h with
  | ret a => exact hsafe
  | step hstep _ ih =>
      exact ih (fun c' hrun => hG c' (.head hstep hrun)) (hsafe.watched (hG _ (.single hstep)))
  | call hsem _ ih => exact ih hG (hsafe _ .refl _ (hG _ .refl) _ _ hsem)

namespace Triple

/-- To return is safe. -/
theorem ret {a : α} (h : ∀ r, P r → Q a) : B.Triple G P (.ret a) Q :=
  fun r hp => h r hp

/-- A call, from a stable assertion. -/
theorem call {o : Call} {k : Reply o → Prog Call Reply α} {R : Reply o → ρ → Prop}
    (hP : B.Stable G P) (hcall : ∀ s r x r', G s → P r → B.sem s o r x r' → R x r')
    (hk : ∀ x, B.Triple G (R x) (k x) Q) : B.Triple G P (.call o k) Q := by
  intro r hp r' hwatched
  have hp' : P r' := by
    induction hwatched with
    | refl => exact hp
    | tail _ hnote ih =>
        obtain ⟨s', hs', rfl⟩ := hnote
        exact hP s' _ hs' ih
  intro s hs x r'' hsem
  exact hk x r'' (hcall s r' x r'' hs hp' hsem)

/-- A choice, by the branch that is taken. -/
theorem ite {c : Prop} [Decidable c] {p q : Prog Call Reply α} (hthen : c → B.Triple G P p Q)
    (helse : ¬c → B.Triple G P q Q) : B.Triple G P (if c then p else q) Q := by
  split
  · exact hthen ‹_›
  · exact helse ‹_›

/-- What is done with the result. -/
theorem bind {p : Prog Call Reply α} {f : α → Prog Call Reply β} {R : β → Prop}
    (h : B.Triple G P p Q) (hf : ∀ a, Q a → B.Triple G (fun _ => True) (f a) R) :
    B.Triple G P (p >>= f) R := by
  intro r hp
  have hsafe := h r hp
  clear hp h
  induction p generalizing r with
  | ret a => exact hf a hsafe r trivial
  | call o k ih => exact fun r' hr' s hs x r'' hsem => ih x r'' (hsafe r' hr' s hs x r'' hsem)

end Triple

end Observer
