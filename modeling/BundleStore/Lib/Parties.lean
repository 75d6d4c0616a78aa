import BundleStore.Lib.Prog
import Mathlib.Logic.Relation

set_option autoImplicit false

/-!
# Parties that run programs over a shared state

Any number of parties share a state. A party is idle with a local state, or it
is inside a program; an idle party may start a program that ends in its next
local state. Calls are atomic: one step answers one call of one party, so a run
is an arbitrary interleaving, and a party that is never stepped again has
stopped for ever.

Safety of such a system is proved party by party. A `Discipline` names an
invariant of the shared state and, for each party, what the steps of the others
leave alone (`Frame`). `Triple` is the Hoare triple of one party's program
under that interference, with one rule for each construct of a program, and
`System.reachable_safe` turns triples for the program bodies into a fact about
every reachable configuration.
-/

open Relation

/-- Parties `ι` with local states `L` that start the programs `body` chosen by
a `C` where `enabled` lets them, over a shared state `σ` on which `sem` says
what a call of a party may answer and leave behind. -/
structure System (Op : Type) (Ans : Op → Type) (ι σ L C : Type) where
  sem : ι → (o : Op) → σ → Ans o → σ → Prop
  enabled : ι → L → C → σ → Bool
  body : ι → L → C → Prog Op Ans L

/-- The shared state, and for each party the program it still has to run. -/
structure Config (Op : Type) (Ans : Op → Type) (ι σ L : Type) where
  shared : σ
  thread : ι → Prog Op Ans L

namespace System

variable {Op : Type} {Ans : Op → Type} {ι σ L C : Type} [DecidableEq ι]
variable (S : System Op Ans ι σ L C)

/-- One step: an idle party starts a program, or one call of one party is
answered. -/
inductive Step : Config Op Ans ι σ L → Config Op Ans ι σ L → Prop
  | start {c : Config Op Ans ι σ L} {i : ι} {l : L} (ch : C)
      (hidle : c.thread i = .ret l) (hen : S.enabled i l ch c.shared = true) :
      Step c ⟨c.shared, Function.update c.thread i (S.body i l ch)⟩
  | act {c : Config Op Ans ι σ L} {i : ι} {o : Op} {k : Ans o → Prog Op Ans L}
      {a : Ans o} {s' : σ} (hcall : c.thread i = .call o k) (hsem : S.sem i o c.shared a s') :
      Step c ⟨s', Function.update c.thread i (k a)⟩

/-- The configurations some run reaches from an initial one. -/
def Reachable (init : Config Op Ans ι σ L → Prop) (c : Config Op Ans ι σ L) : Prop :=
  ∃ c₀, init c₀ ∧ ReflTransGen S.Step c₀ c

/-- The same parties, when every call and every start of a program meets a
condition on the state before it, the call and its answer. -/
def restrict (okCall : ι → (o : Op) → σ → Ans o → σ → Prop)
    (okStart : ι → L → C → σ → Bool) : System Op Ans ι σ L C where
  sem i o s a s' := S.sem i o s a s' ∧ okCall i o s a s'
  enabled i l ch s := S.enabled i l ch s && okStart i l ch s
  body := S.body

variable {S}

/-- A run goes on when an idle party starts a program. -/
theorem Reachable.start {init : Config Op Ans ι σ L → Prop} {c : Config Op Ans ι σ L} {i : ι}
    {l : L} (h : S.Reachable init c) (ch : C) (hidle : c.thread i = .ret l)
    (hen : S.enabled i l ch c.shared = true) :
    S.Reachable init ⟨c.shared, Function.update c.thread i (S.body i l ch)⟩ := by
  obtain ⟨c₀, h₀, hrun⟩ := h
  exact ⟨c₀, h₀, hrun.tail (.start ch hidle hen)⟩

/-- A run goes on when a call is answered. -/
theorem Reachable.act {init : Config Op Ans ι σ L → Prop} {c : Config Op Ans ι σ L} {i : ι}
    {o : Op} {k : Ans o → Prog Op Ans L} (h : S.Reachable init c) (a : Ans o) (s' : σ)
    (hcall : c.thread i = .call o k) (hsem : S.sem i o c.shared a s') :
    S.Reachable init ⟨s', Function.update c.thread i (k a)⟩ := by
  obtain ⟨c₀, h₀, hrun⟩ := h
  exact ⟨c₀, h₀, hrun.tail (.act hcall hsem)⟩

/-! ## The calls of one party -/

section Calls

/-- A run in which `n` calls of party `i` are answered. -/
inductive Run (S : System Op Ans ι σ L C) (i : ι) (c₀ : Config Op Ans ι σ L) :
    ℕ → Config Op Ans ι σ L → Prop
  | nil : Run S i c₀ 0 c₀
  | own {n : ℕ} {c : Config Op Ans ι σ L} {o : Op} {k : Ans o → Prog Op Ans L} {a : Ans o} {s' : σ}
      (h : Run S i c₀ n c) (hcall : c.thread i = .call o k) (hsem : S.sem i o c.shared a s') :
      Run S i c₀ (n + 1) ⟨s', Function.update c.thread i (k a)⟩
  | other {n : ℕ} {c c' : Config Op Ans ι σ L} (h : Run S i c₀ n c) (hstep : S.Step c c')
      (hwaits : ∀ o k, c.thread i = .call o k → c'.thread i = .call o k) : Run S i c₀ n c'

variable {i : ι} {c₀ c : Config Op Ans ι σ L} {n : ℕ}

/-- The steps of one party are steps of the system. -/
theorem Run.steps (h : S.Run i c₀ n c) : ReflTransGen S.Step c₀ c := by
  induction h with
  | nil => exact .refl
  | own _ hcall hsem ih => exact ih.tail (.act hcall hsem)
  | other _ hstep _ ih => exact ih.tail hstep

/-- In every run some number of calls of a party is answered. -/
theorem exists_run (h : ReflTransGen S.Step c₀ c) (i : ι) : ∃ n, S.Run i c₀ n c := by
  induction h with
  | refl => exact ⟨0, .nil⟩
  | tail _ hstep ih =>
      obtain ⟨n, hrun⟩ := ih
      cases hstep with
      | @start j l ch hidle hen =>
          refine ⟨n, hrun.other (.start ch hidle hen) fun o k hcall => ?_⟩
          have hne : i ≠ j := by
            rintro rfl
            rw [hidle] at hcall
            cases hcall
          exact (Function.update_of_ne hne ..).trans hcall
      | @act j o k a s' hcall hsem =>
          by_cases hij : i = j
          · subst hij
            exact ⟨n + 1, hrun.own hcall hsem⟩
          · refine ⟨n, hrun.other (.act hcall hsem) fun o' k' hcall' => ?_⟩
            exact (Function.update_of_ne hij ..).trans hcall'

/-- What every answer keeps of the program that a party still has to run, a run keeps, when no
party starts another program. -/
theorem Run.kept {I : ℕ → Prog Op Ans L → Prop} (h : S.Run i c₀ n c)
    (hnever : ∀ l ch s, S.enabled i l ch s = false)
    (hcall : ∀ n o k a, I n (.call o k) → I (n + 1) (k a)) (h₀ : I 0 (c₀.thread i)) :
    I n (c.thread i) := by
  induction h with
  | nil => exact h₀
  | @own n c o k a s' _ hat _ ih =>
      rw [hat] at ih
      dsimp only
      rw [Function.update_self]
      exact hcall n o k a ih
  | @other n c c' _ hstep hwaits ih =>
      have hsame : c'.thread i = c.thread i := by
        cases hthread : c.thread i with
        | call o k => exact hwaits o k hthread
        | ret l =>
            cases hstep with
            | @start j l' ch hidle hen =>
                have hne : i ≠ j := by
                  rintro rfl
                  rw [hnever] at hen
                  cases hen
                exact (Function.update_of_ne hne ..).trans hthread
            | @act j o k a s' hat _ =>
                have hne : i ≠ j := by
                  rintro rfl
                  rw [hthread] at hat
                  cases hat
                exact (Function.update_of_ne hne ..).trans hthread
      rw [hsame]
      exact ih

/-- The calls that are answered and those that are left. -/
theorem Run.atMost {m : ℕ} (h : S.Run i c₀ m c) (hnever : ∀ l ch s, S.enabled i l ch s = false)
    (h₀ : (c₀.thread i).AtMost n) : m ≤ n ∧ (c.thread i).AtMost (n - m) := by
  refine h.kept (I := fun m p => m ≤ n ∧ p.AtMost (n - m)) hnever ?_ ⟨Nat.zero_le n, h₀⟩
  rintro m o k a ⟨hle, hleft⟩
  obtain ⟨rest, hrest⟩ := Nat.exists_eq_add_of_le hle
  cases rest with
  | zero =>
      rw [hrest, Nat.add_zero, Nat.sub_self] at hleft
      exact hleft.elim
  | succ rest =>
      rw [hrest, Nat.add_sub_cancel_left] at hleft
      refine ⟨by omega, ?_⟩
      rw [show n - (m + 1) = rest by omega]
      exact hleft a

/-- A party that starts nothing new makes the calls of its program only. -/
theorem Run.calls {φ : Op → Prop} (h : S.Run i c₀ n c)
    (hnever : ∀ l ch s, S.enabled i l ch s = false) (h₀ : (c₀.thread i).Calls φ) :
    (c.thread i).Calls φ :=
  h.kept (I := fun _ p => p.Calls φ) hnever (fun _ _ _ a hcalls => hcalls.2 a) h₀

end Calls

/-! ## Schedules

A schedule picks the party of each step and how its call is answered. Playing
one computes the configuration it reaches. -/

/-- One entry of a schedule. -/
inductive Move (Op : Type) (Ans : Op → Type) (ι σ C : Type)
  | start (i : ι) (ch : C)
  | act (i : ι) (answer : ι → Prog.Handler Op Ans σ)

/-- The configuration after one entry; an entry that does not apply is skipped. -/
def playMove (S : System Op Ans ι σ L C) (c : Config Op Ans ι σ L) :
    Move Op Ans ι σ C → Config Op Ans ι σ L
  | .start i ch =>
      match c.thread i with
      | .ret l =>
          if S.enabled i l ch c.shared = true then
            ⟨c.shared, Function.update c.thread i (S.body i l ch)⟩
          else c
      | .call _ _ => c
  | .act i answer =>
      match c.thread i with
      | .ret _ => c
      | .call o k =>
          ⟨(answer i o c.shared).2, Function.update c.thread i (k (answer i o c.shared).1)⟩

/-- The configuration after a whole schedule. -/
def play (S : System Op Ans ι σ L C) (c : Config Op Ans ι σ L)
    (moves : List (Move Op Ans ι σ C)) : Config Op Ans ι σ L :=
  moves.foldl S.playMove c

/-- The answers of a schedule entry are ones that the calls may give. -/
def Move.Fair (S : System Op Ans ι σ L C) : Move Op Ans ι σ C → Prop
  | .start _ _ => True
  | .act i answer => ∀ o s, S.sem i o s (answer i o s).1 (answer i o s).2

/-- A test on the state before a call, the call and its answer, taken at every
call of a schedule. -/
def passes (S : System Op Ans ι σ L C) (test : ι → (o : Op) → σ → Ans o → σ → Bool) :
    Config Op Ans ι σ L → List (Move Op Ans ι σ C) → Bool
  | _, [] => true
  | c, m :: moves =>
      (match m with
        | .start _ _ => true
        | .act i answer =>
            match c.thread i with
            | .ret _ => true
            | .call o _ => test i o c.shared (answer i o c.shared).1 (answer i o c.shared).2) &&
        S.passes test (S.playMove c m) moves

/-- Without a test every schedule passes. -/
theorem passes_true (c : Config Op Ans ι σ L) (moves : List (Move Op Ans ι σ C)) :
    S.passes (fun _ _ _ _ _ => true) c moves = true := by
  induction moves generalizing c with
  | nil => rfl
  | cons m moves ih =>
      unfold passes
      rw [ih, Bool.and_true]
      cases m with
      | start i ch => rfl
      | act i answer =>
          dsimp only
          split <;> rfl

/-- A party starts a program, and its next `n` calls are answered alike. -/
def runMoves (i : ι) (ch : C) (n : ℕ) (answer : ι → Prog.Handler Op Ans σ) :
    List (Move Op Ans ι σ C) :=
  .start i ch :: List.replicate n (.act i answer)

omit [DecidableEq ι] in
/-- The moves that run one party to its end are answered as its handler answers. -/
theorem fair_of_mem_runMoves {i : ι} {ch : C} {n : ℕ} {answer : ι → Prog.Handler Op Ans σ}
    (hanswer : ∀ j o s, S.sem j o s (answer j o s).1 (answer j o s).2)
    {m : Move Op Ans ι σ C} (hm : m ∈ runMoves i ch n answer) : m.Fair S := by
  rcases List.mem_cons.mp hm with rfl | hm
  · trivial
  · rw [List.eq_of_mem_replicate hm]
    exact hanswer i

/-- A move that is played is a step, or none. -/
theorem playMove_steps (c : Config Op Ans ι σ L) (m : Move Op Ans ι σ C)
    (hm : ∀ i answer, m = .act i answer → ∀ o k, c.thread i = .call o k →
      S.sem i o c.shared (answer i o c.shared).1 (answer i o c.shared).2) :
    ReflTransGen S.Step c (S.playMove c m) := by
  cases m with
  | start i ch =>
      simp only [playMove]
      cases hl : c.thread i with
      | ret l =>
          by_cases hen : S.enabled i l ch c.shared = true
          · simpa only [hen, if_true] using .single (.start ch hl hen)
          · simpa only [hen] using .refl
      | call o k => exact .refl
  | act i answer =>
      simp only [playMove]
      cases hk : c.thread i with
      | ret l => exact .refl
      | call o k => exact .single (.act hk (hm i answer rfl o k hk))

/-- A schedule whose answers are possible ones is a run. -/
theorem play_reachable {init : Config Op Ans ι σ L → Prop} {c : Config Op Ans ι σ L}
    (hc : init c) (moves : List (Move Op Ans ι σ C)) (hfair : ∀ m ∈ moves, m.Fair S) :
    S.Reachable init (S.play c moves) := by
  refine ⟨c, hc, ?_⟩
  clear hc
  induction moves generalizing c with
  | nil => exact .refl
  | cons m moves ih =>
      have hhead := playMove_steps (S := S) c m fun i answer hm o k _ => by
        have hact := hfair m List.mem_cons_self
        rw [hm] at hact
        exact hact o c.shared
      have htail := ih (c := S.playMove c m) fun m' hm' => hfair m' (List.mem_cons_of_mem m hm')
      exact hhead.trans htail

/-- A schedule that also passes the test of a restriction is a restricted run. -/
theorem play_steps_restrict {okCall : ι → (o : Op) → σ → Ans o → σ → Prop}
    {okStart : ι → L → C → σ → Bool} {c : Config Op Ans ι σ L}
    (moves : List (Move Op Ans ι σ C)) (hfair : ∀ m ∈ moves, m.Fair S)
    (test : ι → (o : Op) → σ → Ans o → σ → Bool)
    (htest : ∀ i o s a s', test i o s a s' = true → okCall i o s a s')
    (hpass : (S.restrict okCall okStart).passes test c moves = true) :
    ReflTransGen (S.restrict okCall okStart).Step c
      ((S.restrict okCall okStart).play c moves) := by
  induction moves generalizing c with
  | nil => exact .refl
  | cons m moves ih =>
      simp only [passes, Bool.and_eq_true] at hpass
      have hhead := playMove_steps (S := S.restrict okCall okStart) c m fun i answer hm o k hk => by
        have hact := hfair m List.mem_cons_self
        rw [hm] at hact
        refine ⟨hact o c.shared, htest _ _ _ _ _ ?_⟩
        have hat := hpass.1
        rw [hm] at hat
        simpa only [hk] using hat
      have htail := ih (c := (S.restrict okCall okStart).playMove c m)
        (fun m' hm' => hfair m' (List.mem_cons_of_mem m hm')) hpass.2
      exact hhead.trans htail

/-- What a schedule plays is reached, when each of its calls passes the test. -/
theorem play_reachable_restrict {okCall : ι → (o : Op) → σ → Ans o → σ → Prop}
    {okStart : ι → L → C → σ → Bool} {init : Config Op Ans ι σ L → Prop}
    {c : Config Op Ans ι σ L} (hc : init c) (moves : List (Move Op Ans ι σ C))
    (hfair : ∀ m ∈ moves, m.Fair S) (test : ι → (o : Op) → σ → Ans o → σ → Bool)
    (htest : ∀ i o s a s', test i o s a s' = true → okCall i o s a s')
    (hpass : (S.restrict okCall okStart).passes test c moves = true) :
    (S.restrict okCall okStart).Reachable init ((S.restrict okCall okStart).play c moves) :=
  ⟨c, hc, play_steps_restrict moves hfair test htest hpass⟩

end System

/-- An invariant of the shared state, and for each party a relation that every
step of any other party stays in. -/
structure Discipline (ι σ : Type) where
  Inv : σ → Prop
  Frame : ι → σ → σ → Prop
  frame_refl : ∀ i s, Frame i s s
  frame_trans : ∀ i s₁ s₂ s₃, Frame i s₁ s₂ → Frame i s₂ s₃ → Frame i s₁ s₃

namespace Discipline

variable {Op : Type} {Ans : Op → Type} {ι σ L C α β : Type}
variable (D : Discipline ι σ) (sem : ι → (o : Op) → σ → Ans o → σ → Prop)

/-- An assertion that the other parties' steps cannot falsify. -/
def Stable (i : ι) (P : σ → Prop) : Prop :=
  ∀ s s', D.Inv s → D.Inv s' → D.Frame i s s' → P s → P s'

/-- A step of party `i` that keeps the invariant and leaves alone what the
others rely on. -/
def Allowed (i : ι) (s s' : σ) : Prop :=
  D.Inv s' ∧ ∀ j, j ≠ i → D.Frame j s s'

/-- Party `i` can run the program from `s` under interference: each of its
calls is an allowed step, whatever the answer, and the result meets `Q`. -/
def Safe (i : ι) (Q : α → σ → Prop) : Prog Op Ans α → σ → Prop
  | .ret a, s => Q a s
  | .call o k, s => ∀ s₁, D.Inv s₁ → D.Frame i s s₁ → ∀ a s₂, sem i o s₁ a s₂ →
      D.Allowed i s₁ s₂ ∧ Safe i Q (k a) s₂

/-- The Hoare triple of a program run by party `i` among the others. -/
def Triple (i : ι) (P : σ → Prop) (p : Prog Op Ans α) (Q : α → σ → Prop) : Prop :=
  ∀ s, D.Inv s → P s → D.Safe sem i Q p s

variable {D sem} {i : ι} {P P' : σ → Prop} {Q Q' : α → σ → Prop}

/-- Two stable conditions are stable together. -/
theorem Stable.and (h : D.Stable i P) (h' : D.Stable i P') :
    D.Stable i fun s => P s ∧ P' s :=
  fun s s' hs hs' hf hp => ⟨h s s' hs hs' hf hp.1, h' s s' hs hs' hf hp.2⟩

/-- What does not look at the state is stable. -/
theorem Stable.const (p : Prop) : D.Stable i fun _ => p :=
  fun _ _ _ _ _ hp => hp

/-- A condition that holds in one case only is stable. -/
theorem Stable.imp {p : Prop} (h : p → D.Stable i P) : D.Stable i fun s => p → P s :=
  fun s s' hs hs' hf hp hx => h hx s s' hs hs' hf (hp hx)

/-- Interference does not make a program unsafe. -/
theorem Safe.stable (hQ : ∀ a, D.Stable i (Q a)) {p : Prog Op Ans α} {s s' : σ}
    (hs : D.Inv s) (hs' : D.Inv s') (hf : D.Frame i s s') (h : D.Safe sem i Q p s) :
    D.Safe sem i Q p s' := by
  cases p with
  | ret a => exact hQ a s s' hs hs' hf h
  | call o k =>
      intro s₁ hs₁ hf₁
      exact h s₁ hs₁ (D.frame_trans i s s' s₁ hf hf₁)

/-- A weaker condition on the result. -/
theorem Safe.mono (hQ : ∀ a s, D.Inv s → Q a s → Q' a s) {p : Prog Op Ans α} {s : σ}
    (hs : D.Inv s) (h : D.Safe sem i Q p s) : D.Safe sem i Q' p s := by
  induction p generalizing s with
  | ret a => exact hQ a s hs h
  | call o k ih =>
      intro s₁ hs₁ hf a s₂ hsem
      obtain ⟨hall, hk⟩ := h s₁ hs₁ hf a s₂ hsem
      exact ⟨hall, ih a hall.1 hk⟩

/-- A sequence is safe when its parts are. -/
theorem Safe.bind {R : α → σ → Prop} {Q : β → σ → Prop} {p : Prog Op Ans α}
    {f : α → Prog Op Ans β} {s : σ} (hs : D.Inv s) (hp : D.Safe sem i R p s)
    (hf : ∀ a s, D.Inv s → R a s → D.Safe sem i Q (f a) s) :
    D.Safe sem i Q (p >>= f) s := by
  induction p generalizing s with
  | ret a => exact hf a s hs hp
  | call o k ih =>
      intro s₁ hs₁ hfr a s₂ hsem
      obtain ⟨hall, hk⟩ := hp s₁ hs₁ hfr a s₂ hsem
      exact ⟨hall, ih a hall.1 hk⟩

/-! ## The rules -/

/-- To return is safe. -/
theorem Triple.ret {a : α} (h : ∀ s, D.Inv s → P s → Q a s) :
    D.Triple sem i P (.ret a : Prog Op Ans α) Q :=
  fun s hs hp => h s hs hp

/-- A call: from a stable assertion, every answer is an allowed step into the
precondition of the rest. -/
theorem Triple.call {o : Op} {k : Ans o → Prog Op Ans α} {R : Ans o → σ → Prop}
    (hP : D.Stable i P)
    (hstep : ∀ s a s', D.Inv s → P s → sem i o s a s' → D.Allowed i s s' ∧ R a s')
    (hk : ∀ a, D.Triple sem i (R a) (k a) Q) :
    D.Triple sem i P (.call o k) Q := by
  intro s hs hp s₁ hs₁ hf a s₂ hsem
  obtain ⟨hall, hr⟩ := hstep s₁ a s₂ hs₁ (hP s s₁ hs hs₁ hf hp) hsem
  exact ⟨hall, hk a s₂ hall.1 hr⟩

/-- A single call. -/
theorem Triple.op {o : Op} {R : Ans o → σ → Prop} (hP : D.Stable i P)
    (hstep : ∀ s a s', D.Inv s → P s → sem i o s a s' → D.Allowed i s s' ∧ R a s') :
    D.Triple sem i P (Prog.op o : Prog Op Ans (Ans o)) R :=
  Triple.call hP hstep fun _ => Triple.ret fun _ _ h => h

/-- A sequence of programs, each with what it leaves to the next. -/
theorem Triple.bind {R : α → σ → Prop} {Q : β → σ → Prop} {p : Prog Op Ans α}
    {f : α → Prog Op Ans β} (hp : D.Triple sem i P p R)
    (hf : ∀ a, D.Triple sem i (R a) (f a) Q) : D.Triple sem i P (p >>= f) Q :=
  fun s hs h => Safe.bind hs (hp s hs h) fun a s' hs' hr => hf a s' hs' hr

/-- A stronger condition before, and a weaker one behind. -/
theorem Triple.conseq {p : Prog Op Ans α} (h : D.Triple sem i P p Q)
    (hP : ∀ s, D.Inv s → P' s → P s) (hQ : ∀ a s, D.Inv s → Q a s → Q' a s) :
    D.Triple sem i P' p Q' :=
  fun s hs hp => Safe.mono hQ hs (h s hs (hP s hs hp))

/-- A stronger condition before. -/
theorem Triple.pre {p : Prog Op Ans α} (h : D.Triple sem i P p Q)
    (hP : ∀ s, D.Inv s → P' s → P s) : D.Triple sem i P' p Q :=
  h.conseq hP fun _ _ _ hq => hq

/-- A weaker condition behind. -/
theorem Triple.post {p : Prog Op Ans α} (h : D.Triple sem i P p Q)
    (hQ : ∀ a s, D.Inv s → Q a s → Q' a s) : D.Triple sem i P p Q' :=
  h.conseq (fun _ _ hp => hp) hQ

/-- A fact about no state may be taken out of a precondition. -/
theorem Triple.intro {p : Prog Op Ans α} {φ : Prop} (h : φ → D.Triple sem i P p Q) :
    D.Triple sem i (fun s => φ ∧ P s) p Q :=
  fun s hs hp => h hp.1 s hs hp.2

/-- A condition with a value that is named somewhere else. -/
theorem Triple.exists_pre {κ : Type} {P : κ → σ → Prop} {p : Prog Op Ans α}
    (h : ∀ x, D.Triple sem i (P x) p Q) : D.Triple sem i (fun s => ∃ x, P x s) p Q :=
  fun s hs hp => hp.elim fun x hx => h x s hs hx

/-- A choice, by the branch that is taken. -/
theorem Triple.ite {p q : Prog Op Ans α} {c : Prop} [Decidable c]
    (hthen : c → D.Triple sem i P p Q) (helse : ¬c → D.Triple sem i P q Q) :
    D.Triple sem i P (if c then p else q) Q := by
  split
  · exact hthen ‹_›
  · exact helse ‹_›

/-- A program whose calls all keep a stable assertion keeps it. -/
theorem Triple.of_calls {φ : Op → Prop} {ψ : α → Prop} {p : Prog Op Ans α} (hcalls : p.Calls φ)
    (hreturns : p.Returns ψ) (hP : D.Stable i P)
    (hstep : ∀ o, φ o → ∀ s a s', D.Inv s → P s → sem i o s a s' → D.Allowed i s s' ∧ P s') :
    D.Triple sem i P p fun a s => ψ a ∧ P s := by
  induction p with
  | ret a => exact Triple.ret fun s _ hp => ⟨hreturns, hp⟩
  | call o k ih =>
      apply Triple.call (R := fun _ => P) hP (hstep o hcalls.1)
      intro x
      exact ih x (hcalls.2 x) (hreturns x)

/-- **Soundness.** If each party's local states carry a stable assertion that
every program it may start re-establishes, then in every reachable
configuration the invariant holds, and what each party still has to run is
safe. -/
theorem reachable_safe [DecidableEq ι] {S : System Op Ans ι σ L C}
    {init : Config Op Ans ι σ L → Prop}
    {J : ι → L → σ → Prop}
    (hstable : ∀ i l, D.Stable i (J i l))
    (hbody : ∀ i l ch, D.Triple S.sem i (fun s => S.enabled i l ch s = true ∧ J i l s)
      (S.body i l ch) (J i))
    (hinit : ∀ c, init c → D.Inv c.shared ∧ ∀ i, D.Safe S.sem i (J i) (c.thread i) c.shared)
    {c : Config Op Ans ι σ L} (hc : S.Reachable init c) :
    D.Inv c.shared ∧ ∀ i, D.Safe S.sem i (J i) (c.thread i) c.shared := by
  obtain ⟨c₀, h₀, hrun⟩ := hc
  induction hrun with
  | refl => exact hinit c₀ h₀
  | @tail c c' _ hstep ih =>
      obtain ⟨hinv, hsafe⟩ := ih
      cases hstep with
      | @start i l ch hidle hen =>
          refine ⟨hinv, fun j => ?_⟩
          by_cases hj : j = i
          · subst hj
            have hl : J j l c.shared := by
              have := hsafe j
              rwa [hidle] at this
            simpa using hbody j l ch c.shared hinv ⟨hen, hl⟩
          · simpa [hj] using hsafe j
      | @act i o k a s' hcall hsem =>
          have hi := hsafe i
          rw [hcall] at hi
          obtain ⟨⟨hinv', hframe⟩, hk⟩ :=
            hi c.shared hinv (D.frame_refl i c.shared) a s' hsem
          refine ⟨hinv', fun j => ?_⟩
          by_cases hj : j = i
          · subst hj
            simpa using hk
          · have hkeep := Safe.stable (fun l => hstable j l) hinv hinv' (hframe j hj) (hsafe j)
            simpa [hj] using hkeep

/-- What the assertion of an idle party says of every reachable configuration. -/
theorem reachable_idle [DecidableEq ι] {S : System Op Ans ι σ L C}
    {init : Config Op Ans ι σ L → Prop}
    {J : ι → L → σ → Prop}
    (hstable : ∀ i l, D.Stable i (J i l))
    (hbody : ∀ i l ch, D.Triple S.sem i (fun s => S.enabled i l ch s = true ∧ J i l s)
      (S.body i l ch) (J i))
    (hinit : ∀ c, init c → D.Inv c.shared ∧ ∀ i, D.Safe S.sem i (J i) (c.thread i) c.shared)
    {c : Config Op Ans ι σ L} (hc : S.Reachable init c) {i : ι} {l : L}
    (hidle : c.thread i = .ret l) : J i l c.shared := by
  have h := (reachable_safe hstable hbody hinit hc).2 i
  rwa [hidle] at h

end Discipline
