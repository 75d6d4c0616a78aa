import BundleStore.Lib.Parties
import Mathlib.Logic.Equiv.Defs

set_option autoImplicit false

/-!
# Complete runs of a program

A complete run is the list of the calls a program made, each with the answer it
got, together with the result it ended in. A run of a sequence of programs
splits into a run of each.

A run that has not finished is a list of calls that the program can have made so
far. A `Monitor` follows a run from call to call: it says which calls are allowed
in its state, and how an answer changes the state. A program that passes a
monitor makes none but allowed calls, in every run.

A program may be implemented by another one that answers each of its calls with
a program over other calls, carrying a state along (`Prog.lower`). Every run of
the implementation carries out a run of the program it implements.
-/

namespace Prog

variable {Op Op' : Type} {Ans : Op → Type} {Ans' : Op' → Type} {α β σ : Type}

/-- The calls of a run, each with its answer. -/
abbrev Trace (Op : Type) (Ans : Op → Type) : Type :=
  List (Σ o : Op, Ans o)

/-- The program can make exactly these calls, get these answers and return `b`. -/
def Runs : Prog Op Ans α → Trace Op Ans → α → Prop
  | ret a, t, b => t = [] ∧ b = a
  | call o k, t, b => ∃ x t', t = ⟨o, x⟩ :: t' ∧ Runs (k x) t' b

/-- A program that has returned makes no call. -/
@[simp] theorem runs_ret {a b : α} {t : Trace Op Ans} :
    (ret a : Prog Op Ans α).Runs t b ↔ t = [] ∧ b = a := Iff.rfl

/-- A run of a call starts with the call and an answer to it. -/
theorem runs_call {o : Op} {k : Ans o → Prog Op Ans α} {t : Trace Op Ans} {b : α} :
    (call o k).Runs t b ↔ ∃ x t', t = ⟨o, x⟩ :: t' ∧ (k x).Runs t' b := Iff.rfl

/-- The answer to the first call selects the rest of the run. -/
@[simp] theorem runs_call_cons {o : Op} {k : Ans o → Prog Op Ans α} {x : Ans o}
    {t : Trace Op Ans} {b : α} : (call o k).Runs (⟨o, x⟩ :: t) b ↔ (k x).Runs t b := by
  rw [runs_call]
  constructor
  · rintro ⟨x', t', h, hk⟩
    cases h
    exact hk
  · intro hk
    exact ⟨x, t, rfl, hk⟩

/-- A program that starts with a call does not return without it. -/
@[simp] theorem runs_call_nil {o : Op} {k : Ans o → Prog Op Ans α} {b : α} :
    ¬ (call o k).Runs [] b := by
  rintro ⟨x, t', h, -⟩
  cases h

/-- A run of a sequence is a run of its first part and then one of the rest. -/
theorem runs_bind {p : Prog Op Ans α} {f : α → Prog Op Ans β} {t : Trace Op Ans} {b : β} :
    (p >>= f).Runs t b ↔ ∃ t₁ t₂ a, t = t₁ ++ t₂ ∧ p.Runs t₁ a ∧ (f a).Runs t₂ b := by
  induction p generalizing t with
  | ret a =>
      constructor
      · intro h
        exact ⟨[], t, a, rfl, ⟨rfl, rfl⟩, h⟩
      · rintro ⟨t₁, t₂, a', rfl, ⟨rfl, rfl⟩, h⟩
        exact h
  | call o k ih =>
      constructor
      · rintro ⟨x, t', rfl, h⟩
        obtain ⟨t₁, t₂, a, rfl, hp, hf⟩ := (ih x).mp h
        exact ⟨⟨o, x⟩ :: t₁, t₂, a, rfl, ⟨x, t₁, rfl, hp⟩, hf⟩
      · rintro ⟨t₁, t₂, a, rfl, ⟨x, t', rfl, hp⟩, hf⟩
        exact ⟨x, t' ++ t₂, rfl, (ih x).mpr ⟨t', t₂, a, rfl, hp, hf⟩⟩

/-- A run of a call and the rest starts with the call. -/
theorem runs_op_bind {o : Op} {f : Ans o → Prog Op Ans β} {t : Trace Op Ans} {b : β} :
    (op o >>= f).Runs t b ↔ ∃ x t', t = ⟨o, x⟩ :: t' ∧ (f x).Runs t' b := Iff.rfl

/-- No run goes on after a complete one. -/
theorem Runs.append_unique {p : Prog Op Ans α} {t u t' u' : Trace Op Ans} {a b : α}
    (ha : p.Runs t a) (hb : p.Runs t' b) (h : t ++ u = t' ++ u') : t = t' ∧ u = u' ∧ a = b := by
  induction p generalizing t t' with
  | ret c =>
      obtain ⟨rfl, rfl⟩ := ha
      obtain ⟨rfl, rfl⟩ := hb
      exact ⟨rfl, h, rfl⟩
  | call o k ih =>
      obtain ⟨x, t₁, rfl, ha⟩ := ha
      obtain ⟨x', t₂, rfl, hb⟩ := hb
      injection h with hhead htail
      cases hhead
      obtain ⟨rfl, hu, hab⟩ := ih x ha hb htail
      exact ⟨rfl, hu, hab⟩

/-- A run makes no other calls than the program may make. -/
theorem Runs.calls {φ : Op → Prop} {p : Prog Op Ans α} {t : Trace Op Ans} {a : α}
    (h : p.Runs t a) (hp : p.Calls φ) : ∀ e ∈ t, φ e.1 := by
  induction p generalizing t with
  | ret b =>
      obtain ⟨rfl, rfl⟩ := h
      intro e he
      cases he
  | call o k ih =>
      obtain ⟨x, t', rfl, h⟩ := h
      intro e he
      obtain rfl | he := List.mem_cons.mp he
      · exact hp.1
      · exact ih x h (hp.2 x) e he

/-- What every result satisfies, the result of a run satisfies. -/
theorem Runs.returns {ψ : α → Prop} {p : Prog Op Ans α} {t : Trace Op Ans} {a : α}
    (h : p.Runs t a) (hp : p.Returns ψ) : ψ a := by
  induction p generalizing t with
  | ret b => exact h.2 ▸ hp
  | call o k ih =>
      obtain ⟨x, t', rfl, h⟩ := h
      exact ih x h (hp x)

/-- The program with each call carried out by a program over other calls. -/
def lower (h : (o : Op) → σ → Prog Op' Ans' (Ans o × σ)) :
    Prog Op Ans α → σ → Prog Op' Ans' (α × σ)
  | ret a, s => ret (a, s)
  | call o k, s => h o s >>= fun r => lower h (k r.1) r.2

/-- Calls that are carried out without a state. -/
def stateless (h : (o : Op) → Prog Op' Ans' (Ans o)) (o : Op) (_ : Unit) :
    Prog Op' Ans' (Ans o × Unit) :=
  h o >>= fun x => ret (x, ())

/-- A call is carried out by its handler, and the rest by the rest. -/
theorem lower_call_stateless {h : (o : Op) → Prog Op' Ans' (Ans o)} {o : Op}
    {k : Ans o → Prog Op Ans α} :
    (call o k).lower (stateless h) () = h o >>= fun x => (k x).lower (stateless h) () := by
  rw [lower, stateless, bind_assoc]
  rfl

/-- A sequence is carried out part by part. -/
theorem lower_bind {h : (o : Op) → σ → Prog Op' Ans' (Ans o × σ)} {p : Prog Op Ans α}
    {f : α → Prog Op Ans β} {s : σ} :
    (p >>= f).lower h s = p.lower h s >>= fun r => (f r.1).lower h r.2 := by
  induction p generalizing s with
  | ret a => rfl
  | call o k ih =>
      rw [call_bind, lower, lower, bind_assoc]
      exact congrArg (h o s >>= ·) (funext fun r => ih r.1)

/-- The second list of calls carries out the first one, call by call, and takes the
state along. -/
inductive Carries (h : (o : Op) → σ → Prog Op' Ans' (Ans o × σ)) :
    σ → Trace Op Ans → Trace Op' Ans' → σ → Prop
  | nil (s : σ) : Carries h s [] [] s
  | cons {s s₁ s₂ : σ} {o : Op} {x : Ans o} {t : Trace Op Ans} {t₁ t₂ : Trace Op' Ans'}
      (hcall : (h o s).Runs t₁ (x, s₁)) (hrest : Carries h s₁ t t₂ s₂) :
      Carries h s (⟨o, x⟩ :: t) (t₁ ++ t₂) s₂

/-- The runs of an implementation are those that carry out a run of the program. -/
theorem runs_lower {h : (o : Op) → σ → Prog Op' Ans' (Ans o × σ)} {p : Prog Op Ans α}
    {s s' : σ} {t' : Trace Op' Ans'} {a : α} :
    (p.lower h s).Runs t' (a, s') ↔ ∃ t, p.Runs t a ∧ Carries h s t t' s' := by
  induction p generalizing s t' with
  | ret b =>
      constructor
      · rintro ⟨rfl, heq⟩
        cases heq
        exact ⟨[], ⟨rfl, rfl⟩, .nil _⟩
      · rintro ⟨t, ⟨rfl, rfl⟩, hcarries⟩
        cases hcarries
        exact ⟨rfl, rfl⟩
  | call o k ih =>
      constructor
      · intro hrun
        obtain ⟨t₁, t₂, ⟨x, s₁⟩, rfl, hcall, hk⟩ := runs_bind.mp hrun
        obtain ⟨t, ht, hcarries⟩ := (ih x).mp hk
        exact ⟨⟨o, x⟩ :: t, ⟨x, t, rfl, ht⟩, .cons hcall hcarries⟩
      · rintro ⟨t, ⟨x, t₀, rfl, ht⟩, hcarries⟩
        cases hcarries with
        | cons hcall hrest =>
            exact runs_bind.mpr ⟨_, _, _, rfl, hcall, (ih x).mpr ⟨t₀, ht, hrest⟩⟩

/-- The program over a larger signature, whose calls `f o` are answered alike. -/
def embed (f : Op → Op') (e : (o : Op) → Ans' (f o) ≃ Ans o) : Prog Op Ans α → Prog Op' Ans' α
  | ret a => ret a
  | call o k => call (f o) fun x => embed f e (k (e o x))

/-- The runs of an embedded program are those of the program, with its calls renamed. -/
theorem runs_embed {f : Op → Op'} {e : (o : Op) → Ans' (f o) ≃ Ans o} {p : Prog Op Ans α}
    {t' : Trace Op' Ans'} {a : α} :
    (p.embed f e).Runs t' a ↔
      ∃ t, p.Runs t a ∧ t' = t.map fun x => ⟨f x.1, (e x.1).symm x.2⟩ := by
  induction p generalizing t' with
  | ret b =>
      constructor
      · rintro ⟨rfl, rfl⟩
        exact ⟨[], ⟨rfl, rfl⟩, rfl⟩
      · rintro ⟨t, ⟨rfl, rfl⟩, rfl⟩
        exact ⟨rfl, rfl⟩
  | call o k ih =>
      constructor
      · rintro ⟨y, t₁, rfl, hk⟩
        obtain ⟨t, ht, rfl⟩ := (ih (e o y)).mp hk
        exact ⟨⟨o, e o y⟩ :: t, ⟨e o y, t, rfl, ht⟩, by simp⟩
      · rintro ⟨t, ⟨x, t₁, rfl, ht⟩, rfl⟩
        refine ⟨(e o).symm x, _, rfl, (ih _).mpr ⟨t₁, ?_, rfl⟩⟩
        rwa [Equiv.apply_symm_apply]

/-- The calls of an embedded program are embedded calls. -/
theorem calls_embed {φ : Op' → Prop} {f : Op → Op'} {e : (o : Op) → Ans' (f o) ≃ Ans o}
    {p : Prog Op Ans α} (h : p.Calls fun o => φ (f o)) : (p.embed f e).Calls φ := by
  induction p with
  | ret a => trivial
  | call o k ih => exact ⟨h.1, fun x => ih (e o x) (h.2 (e o x))⟩

/-! ## Runs under way -/

/-- The program can have made exactly these calls so far. -/
def Makes : Prog Op Ans α → Trace Op Ans → Prop
  | ret _, t => t = []
  | call o k, t => t = [] ∨ ∃ x t', t = ⟨o, x⟩ :: t' ∧ Makes (k x) t'

/-- A complete run is a run under way. -/
theorem Runs.makes {p : Prog Op Ans α} {t : Trace Op Ans} {a : α} (h : p.Runs t a) :
    p.Makes t := by
  induction p generalizing t with
  | ret b => exact h.1
  | call o k ih =>
      obtain ⟨x, t', rfl, h⟩ := h
      exact .inr ⟨x, t', rfl, ih x h⟩

/-- After exactly these calls the program waits for the answer to a call. -/
def Waits : Prog Op Ans α → Trace Op Ans → Op → Prop
  | ret _, _, _ => False
  | call o k, t, o' => (t = [] ∧ o' = o) ∨ ∃ x t', t = ⟨o, x⟩ :: t' ∧ Waits (k x) t' o'

/-- A run has come to its end, or waits for an answer. -/
theorem Makes.runs_or_waits {p : Prog Op Ans α} {t : Trace Op Ans} (h : p.Makes t) :
    (∃ a, p.Runs t a) ∨ ∃ o, p.Waits t o := by
  induction p generalizing t with
  | ret a => exact .inl ⟨a, h, rfl⟩
  | call o k ih =>
      obtain rfl | ⟨x, t', rfl, h⟩ := h
      · exact .inr ⟨o, .inl ⟨rfl, rfl⟩⟩
      · obtain ⟨a, hruns⟩ | ⟨o', hwaits⟩ := ih x h
        · exact .inl ⟨a, x, t', rfl, hruns⟩
        · exact .inr ⟨o', .inr ⟨x, t', rfl, hwaits⟩⟩

/-- A call and the rest wait for the call, or behind it for a call of the rest. -/
theorem waits_op_bind {o o' : Op} {f : Ans o → Prog Op Ans β} {t : Trace Op Ans} :
    (op o >>= f).Waits t o' ↔
      (t = [] ∧ o' = o) ∨ ∃ x t', t = ⟨o, x⟩ :: t' ∧ (f x).Waits t' o' := Iff.rfl

/-- A sequence waits for a call of its first part, or for one of the rest. -/
theorem waits_bind {p : Prog Op Ans α} {f : α → Prog Op Ans β} {t : Trace Op Ans} {o : Op} :
    (p >>= f).Waits t o ↔
      p.Waits t o ∨ ∃ t₁ t₂ a, t = t₁ ++ t₂ ∧ p.Runs t₁ a ∧ (f a).Waits t₂ o := by
  induction p generalizing t with
  | ret a =>
      constructor
      · exact fun hwaits => .inr ⟨[], t, a, rfl, ⟨rfl, rfl⟩, hwaits⟩
      · rintro (hno | ⟨t₁, t₂, a', rfl, ⟨rfl, rfl⟩, hwaits⟩)
        · exact hno.elim
        · exact hwaits
  | call o' k ih =>
      constructor
      · rintro (hhere | ⟨x, t', rfl, hwaits⟩)
        · exact .inl (.inl hhere)
        · obtain hp | ⟨t₁, t₂, a, rfl, hp, hf⟩ := (ih x).mp hwaits
          · exact .inl (.inr ⟨x, t', rfl, hp⟩)
          · exact .inr ⟨⟨o', x⟩ :: t₁, t₂, a, rfl, ⟨x, t₁, rfl, hp⟩, hf⟩
      · rintro ((hhere | ⟨x, t', rfl, hp⟩) | ⟨t₁, t₂, a, rfl, ⟨x, t', rfl, hp⟩, hf⟩)
        · exact .inl hhere
        · exact .inr ⟨x, t', rfl, (ih x).mpr (.inl hp)⟩
        · exact .inr ⟨x, t' ++ t₂, rfl, (ih x).mpr (.inr ⟨t', t₂, a, rfl, hp, hf⟩)⟩

/-- A call that an implementation waits for belongs to a call that the program waits
for. -/
theorem waits_lower {h : (o : Op) → σ → Prog Op' Ans' (Ans o × σ)} {p : Prog Op Ans α}
    {s : σ} {t' : Trace Op' Ans'} {o' : Op'} (hwaits : (p.lower h s).Waits t' o') :
    ∃ t t₁ t₂ s₁ o, t' = t₁ ++ t₂ ∧ Carries h s t t₁ s₁ ∧ p.Waits t o ∧
      (h o s₁).Waits t₂ o' := by
  induction p generalizing s t' with
  | ret a => exact hwaits.elim
  | call o k ih =>
      obtain hhere | ⟨t₁, t₂, ⟨x, s₁⟩, rfl, hcall, hrest⟩ := waits_bind.mp hwaits
      · exact ⟨[], [], t', s, o, rfl, .nil s, .inl ⟨rfl, rfl⟩, hhere⟩
      · obtain ⟨t, t₃, t₄, s₂, o₂, rfl, hcarries, hp, hh⟩ := ih x hrest
        exact ⟨⟨o, x⟩ :: t, t₁ ++ t₃, t₄, s₂, o₂, (List.append_assoc ..).symm,
          .cons hcall hcarries, .inr ⟨x, t, rfl, hp⟩, hh⟩

/-- A program waits for calls that it makes. -/
theorem Waits.calls {φ : Op → Prop} {p : Prog Op Ans α} {t : Trace Op Ans} {o : Op}
    (h : p.Waits t o) (hp : p.Calls φ) : φ o := by
  induction p generalizing t with
  | ret a => exact h.elim
  | call o' k ih =>
      obtain ⟨-, rfl⟩ | ⟨x, t', rfl, h⟩ := h
      · exact hp.1
      · exact ih x h (hp.2 x)

/-- A state that follows the calls of a run, and the calls it allows. -/
structure Monitor (Op : Type) (Ans : Op → Type) (σ : Type) where
  step : (o : Op) → Ans o → σ → σ
  Allows : Op → σ → Prop

namespace Monitor

variable (M : Monitor Op Ans σ)

/-- The state after the calls of a run. -/
def after (s : σ) (t : Trace Op Ans) : σ :=
  t.foldl (fun s e => M.step e.1 e.2 s) s

/-- From the state on, the program makes allowed calls only and ends in `Q`. -/
def Passes (Q : α → σ → Prop) : Prog Op Ans α → σ → Prop
  | ret a, s => Q a s
  | call o k, s => M.Allows o s ∧ ∀ x, Passes Q (k x) (M.step o x s)

variable {M} {Q Q' : α → σ → Prop} {p : Prog Op Ans α} {s : σ} {t : Trace Op Ans}

/-- Nothing changes the state before the first call. -/
@[simp] theorem after_nil : M.after s [] = s := rfl

/-- The first call changes the state, and the others go on from there. -/
@[simp] theorem after_cons (e : Σ o : Op, Ans o) :
    M.after s (e :: t) = M.after (M.step e.1 e.2 s) t := rfl

/-- A program that has returned passes when its result does. -/
@[simp] theorem passes_ret {a : α} : M.Passes Q (ret a) s ↔ Q a s := Iff.rfl

/-- A weaker condition on the result. -/
theorem Passes.mono (hQ : ∀ a s, Q a s → Q' a s) (h : M.Passes Q p s) : M.Passes Q' p s := by
  induction p generalizing s with
  | ret a => exact hQ a s h
  | call o k ih => exact ⟨h.1, fun x => ih x (h.2 x)⟩

/-- A sequence passes when its parts do. -/
theorem Passes.bind {R : α → σ → Prop} {Q : β → σ → Prop} {f : α → Prog Op Ans β}
    (hp : M.Passes R p s) (hf : ∀ a s, R a s → M.Passes Q (f a) s) :
    M.Passes Q (p >>= f) s := by
  induction p generalizing s with
  | ret a => exact hf a s hp
  | call o k ih => exact ⟨hp.1, fun x => ih x (hp.2 x)⟩

/-- What every result satisfies may be added to the condition on it. -/
theorem Passes.and_returns {ψ : α → Prop} (h : M.Passes Q p s) (hp : p.Returns ψ) :
    M.Passes (fun a s => Q a s ∧ ψ a) p s := by
  induction p generalizing s with
  | ret a => exact ⟨h, hp⟩
  | call o k ih => exact ⟨h.1, fun x => ih x (h.2 x) (hp x)⟩

/-- A monitor that follows the embedded calls alike. -/
theorem Passes.embed {M' : Monitor Op' Ans' σ} {f : Op → Op'} {e : (o : Op) → Ans' (f o) ≃ Ans o}
    (hallows : ∀ o s, M.Allows o s → M'.Allows (f o) s)
    (hstep : ∀ o x s, M'.step (f o) x s = M.step o (e o x) s) (h : M.Passes Q p s) :
    M'.Passes Q (p.embed f e) s := by
  induction p generalizing s with
  | ret a => exact h
  | call o k ih =>
      refine ⟨hallows o s h.1, fun x => ?_⟩
      rw [hstep]
      exact ih (e o x) (h.2 (e o x))

/-- A choice passes when the branch that is taken does. -/
theorem Passes.ite {q : Prog Op Ans α} {c : Prop} [Decidable c] (hthen : c → M.Passes Q p s)
    (helse : ¬ c → M.Passes Q q s) : M.Passes Q (if c then p else q) s := by
  split
  · exact hthen ‹_›
  · exact helse ‹_›

/-- Every call of a run is allowed in the state that the run before it leads to. -/
theorem Passes.allows (h : M.Passes Q p s) (ht : p.Makes t) {t₁ t₂ : Trace Op Ans}
    {e : Σ o : Op, Ans o} (hsplit : t = t₁ ++ e :: t₂) : M.Allows e.1 (M.after s t₁) := by
  induction p generalizing s t t₁ with
  | ret a =>
      rw [show t = [] from ht] at hsplit
      cases t₁ <;> cases hsplit
  | call o k ih =>
      obtain rfl | ⟨x, t', rfl, ht'⟩ := ht
      · cases t₁ <;> cases hsplit
      · cases t₁ with
        | nil =>
            cases hsplit
            exact h.1
        | cons e' t₁ =>
            injection hsplit with hhead htail
            subst hhead
            exact ih x (h.2 x) ht' htail

/-- The call that a run waits for is allowed. -/
theorem Passes.waits (h : M.Passes Q p s) {o : Op} (ht : p.Waits t o) :
    M.Allows o (M.after s t) := by
  induction p generalizing s t with
  | ret a => exact ht.elim
  | call o' k ih =>
      obtain ⟨rfl, rfl⟩ | ⟨x, t', rfl, ht'⟩ := ht
      · exact h.1
      · have hrest := ih x (h.2 x) ht'
        exact hrest

/-- A complete run ends in the assertion. -/
theorem Passes.result (h : M.Passes Q p s) {a : α} (ht : p.Runs t a) : Q a (M.after s t) := by
  induction p generalizing s t with
  | ret b =>
      obtain ⟨rfl, rfl⟩ := ht
      exact h
  | call o k ih =>
      obtain ⟨x, t', rfl, ht'⟩ := ht
      have hrest := ih x (h.2 x) ht'
      exact hrest

/-! ## Two tests of the calls

A call that is not allowed may not be the end of a run. Another test of the calls
agrees with the monitor when it does so at each call up to the first one that is not
allowed; then a run passes both tests or neither. -/

/-- From the state on, as long as the calls are allowed, `B` says which ones are; and
where all are, the program ends in `Q`. -/
def Agrees (M : Monitor Op Ans σ) (B : Op → σ → Prop) (Q : α → σ → Prop) :
    Prog Op Ans α → σ → Prop
  | ret a, s => Q a s
  | call o k, s => (M.Allows o s ↔ B o s) ∧ (M.Allows o s → ∀ x, Agrees M B Q (k x) (M.step o x s))

variable {B : Op → σ → Prop}

/-- A program that has returned agrees when its result does. -/
@[simp] theorem agrees_ret {a : α} : M.Agrees B Q (ret a) s ↔ Q a s := Iff.rfl

/-- A weaker condition on the result. -/
theorem Agrees.mono (hQ : ∀ a s, Q a s → Q' a s) (h : M.Agrees B Q p s) : M.Agrees B Q' p s := by
  induction p generalizing s with
  | ret a => exact hQ a s h
  | call o k ih => exact ⟨h.1, fun hallows x => ih x (h.2 hallows x)⟩

/-- A sequence agrees when its parts do. -/
theorem Agrees.bind {R : α → σ → Prop} {Q : β → σ → Prop} {f : α → Prog Op Ans β}
    (hp : M.Agrees B R p s) (hf : ∀ a s, R a s → M.Agrees B Q (f a) s) :
    M.Agrees B Q (p >>= f) s := by
  induction p generalizing s with
  | ret a => exact hf a s hp
  | call o k ih => exact ⟨hp.1, fun hallows x => ih x (hp.2 hallows x)⟩

/-- A choice agrees when the branch that is taken does. -/
theorem Agrees.ite {q : Prog Op Ans α} {c : Prop} [Decidable c] (hthen : c → M.Agrees B Q p s)
    (helse : ¬ c → M.Agrees B Q q s) : M.Agrees B Q (if c then p else q) s := by
  split
  · exact hthen ‹_›
  · exact helse ‹_›

/-- Calls that pass both tests and change nothing. -/
theorem Agrees.of_calls {φ : Op → Prop} (h : p.Calls φ) (hallows : ∀ o, φ o → M.Allows o s)
    (hB : ∀ o, φ o → B o s) (hstep : ∀ o x, φ o → M.step o x s = s) :
    M.Agrees B (fun _ s' => s' = s) p s := by
  induction p with
  | ret a => rfl
  | call o k ih =>
      refine ⟨iff_of_true (hallows o h.1) (hB o h.1), fun _ x => ?_⟩
      rw [hstep o x h.1]
      exact ih x (h.2 x)

/-- The test holds of each call of a run, in the state that the run before it leads
to. -/
def Along (M : Monitor Op Ans σ) (C : Op → σ → Prop) : Trace Op Ans → σ → Prop
  | [], _ => True
  | e :: t, s => C e.1 s ∧ Along M C t (M.step e.1 e.2 s)

/-- A condition along a run is one on each call with the state before it. -/
theorem along_iff {C : Op → σ → Prop} :
    M.Along C t s ↔ ∀ t₁ e t₂, t = t₁ ++ e :: t₂ → C e.1 (M.after s t₁) := by
  induction t generalizing s with
  | nil => simp [Along]
  | cons e t ih =>
      rw [Along, ih]
      constructor
      · rintro ⟨hhead, htail⟩ t₁ e' t₂ hsplit
        cases t₁ with
        | nil =>
            cases hsplit
            exact hhead
        | cons e₁ t₁ =>
            injection hsplit with hhead' htail'
            subst hhead'
            exact htail t₁ e' t₂ htail'
      · intro hall
        refine ⟨hall [] e t rfl, ?_⟩
        rintro t₁ e' t₂ rfl
        have hcall := hall (e :: t₁) e' t₂ rfl
        exact hcall

/-- A run passes both tests or neither. -/
theorem Agrees.along_iff (h : M.Agrees B Q p s) (ht : p.Makes t) :
    M.Along M.Allows t s ↔ M.Along B t s := by
  induction p generalizing s t with
  | ret a =>
      rw [show t = [] from ht]
      exact Iff.rfl
  | call o k ih =>
      obtain rfl | ⟨x, t', rfl, ht'⟩ := ht
      · exact Iff.rfl
      · rw [Along, Along, ← h.1]
        exact and_congr_right fun hallows => ih x (h.2 hallows x) ht'

end Monitor

end Prog

/-! ## Implementations among other parties -/

namespace Discipline

variable {Op Op' : Type} {Ans : Op → Type} {Ans' : Op' → Type} {ι σ τ α : Type}
variable {D : Discipline ι σ} {sem : ι → (o : Op') → σ → Ans' o → σ → Prop} {i : ι}

/-- What the implementation of each call adds to an assertion about the calls so
far, the implementation of a program adds for a whole run. -/
theorem Triple.lower {h : (o : Op) → τ → Prog Op' Ans' (Ans o × τ)}
    {P : Prog.Trace Op Ans → τ → σ → Prop}
    (hcall : ∀ t x o, D.Triple sem i (P t x) (h o x) fun r => P (t ++ [⟨o, r.1⟩]) r.2)
    (p : Prog Op Ans α) (t : Prog.Trace Op Ans) (x : τ) :
    D.Triple sem i (P t x) (p.lower h x) fun r s => ∃ t', p.Runs t' r.1 ∧ P (t ++ t') r.2 s := by
  induction p generalizing t x with
  | ret a =>
      refine Triple.ret fun s _ hP => ⟨[], ⟨rfl, rfl⟩, ?_⟩
      rwa [List.append_nil]
  | call o k ih =>
      refine Triple.bind (hcall t x o) fun r => (ih r.1 _ r.2).post ?_
      rintro q s - ⟨t', hruns, hP⟩
      refine ⟨⟨o, r.1⟩ :: t', ⟨r.1, t', rfl, hruns⟩, ?_⟩
      rwa [List.append_assoc] at hP

end Discipline
