import BundleStore.Lib.Alongside
import BundleStore.Lib.Attempts
import BundleStore.Lib.Runs

set_option autoImplicit false

/-!
# Programs carried out by others

The calls of a program are carried out one after the other by programs over other
calls, until one of these fails. What is known of programs on their own is known of
them where other calls are made besides. Two disciplines hold together, and one of them
may say no more than that the shared state only ever grows.
-/

namespace Prog

variable {Op Op' : Type} {Ans : Op → Type} {Ans' : Op' → Type} {σ ε α β : Type}

/-- The program with each call carried out by a program over other calls, the first of
which that fails ends it. -/
def carry (h : (o : Op) → σ → Prog Op' Ans' (Except ε (Ans o × σ))) :
    Prog Op Ans α → σ → Prog Op' Ans' (Except ε (α × σ))
  | ret a, s => ret (.ok (a, s))
  | call o k, s => h o s >>= fun
      | .error e => ret (.error e)
      | .ok r => carry h (k r.1) r.2

variable {h : (o : Op) → σ → Prog Op' Ans' (Except ε (Ans o × σ))}

/-- To return is carried out at once. -/
@[simp] theorem carry_ret (a : α) (s : σ) : (ret a).carry h s = ret (.ok (a, s)) := rfl

/-- A call that is carried out without calls. -/
theorem carry_call_of_ret {o : Op} {k : Ans o → Prog Op Ans α} {s s' : σ} {x : Ans o}
    (hcall : h o s = ret (.ok (x, s'))) : (call o k).carry h s = (k x).carry h s' := by
  rw [carry, hcall]
  rfl

/-- An execution of a call and the rest. -/
theorem executes_carry_call {σ' : Type} {sem : (o : Op') → σ' → Ans' o → σ' → Prop} {o : Op}
    {k : Ans o → Prog Op Ans α} {s : σ} {t t' : σ'} {r : α × σ}
    (hrun : ((call o k).carry h s).Executes sem t (.ok r) t') :
    ∃ x s₁ t₁, (h o s).Executes sem t (.ok (x, s₁)) t₁ ∧
      ((k x).carry h s₁).Executes sem t₁ (.ok r) t' := by
  rw [carry] at hrun
  obtain ⟨e | ⟨x, s₁⟩, t₁, hcall, hrest⟩ := executes_bind.mp hrun
  · cases hrest.1
  · exact ⟨x, s₁, t₁, hcall, hrest⟩

/-- An execution among calls that the program does not make. -/
theorem Executes.of_embed {σ' : Type} {sem : (o : Op) → σ' → Ans o → σ' → Prop}
    {sem' : (o : Op') → σ' → Ans' o → σ' → Prop} {f : Op → Op'}
    {e : (o : Op) → Ans' (f o) ≃ Ans o}
    (hsem : ∀ o s x s', sem' (f o) s x s' → sem o s (e o x) s') {p : Prog Op Ans α} {t t' : σ'}
    {a : α} (hrun : (p.embed f e).Executes sem' t a t') : p.Executes sem t a t' := by
  induction p generalizing t with
  | ret b => exact hrun
  | call o k ih =>
      obtain ⟨x, t₁, hcall, hrest⟩ := hrun
      exact ⟨e o x, t₁, hsem o t x t₁ hcall, ih (e o x) hrest⟩

/-- The result of a loop is one that a round may end in. -/
theorem Returns.attempts {κ : Type} {body : κ → Prog Op Ans (κ ⊕ α)} {ψ : α → Prop}
    (hbody : ∀ k, (body k).Returns fun step => ∀ a, step = .inr a → ψ a) (n : ℕ) (k : κ) :
    (attempts body n k).Returns fun r => ∀ a, r = some a → ψ a := by
  induction n generalizing k with
  | zero => exact fun a heq => (by cases heq)
  | succ n ih =>
      refine Returns.bind (hbody k) fun step hstep => ?_
      cases step with
      | inl k' => exact ih k'
      | inr b =>
          intro a heq
          obtain rfl := Option.some.inj heq
          exact hstep b rfl

end Prog

namespace Discipline

variable {Op Op' : Type} {Ans : Op → Type} {Ans' : Op' → Type} {ι σ τ ε α β : Type}
variable {D : Discipline ι σ} {i : ι} {P : σ → Prop}

section Carry

variable {sem : ι → (o : Op') → σ → Ans' o → σ → Prop}
variable {h : (o : Op) → τ → Prog Op' Ans' (Except ε (Ans o × τ))}
variable {o : Op} {k : Ans o → Prog Op Ans α} {x : τ} {Q : Except ε (α × τ) → σ → Prop}

/-- A call and the rest, when the call has been carried out. -/
theorem Triple.carry {R : Except ε (Ans o × τ) → σ → Prop} (hcall : D.Triple sem i P (h o x) R)
    (herror : ∀ e s, D.Inv s → R (.error e) s → Q (.error e) s)
    (hok : ∀ r, D.Triple sem i (R (.ok r)) ((k r.1).carry h r.2) Q) :
    D.Triple sem i P ((Prog.call o k).carry h x) Q := by
  rw [Prog.carry]
  refine Triple.bind hcall fun r => ?_
  cases r with
  | error e => exact Triple.ret fun s hs hr => herror e s hs hr
  | ok r => exact hok r

end Carry

section Embed

variable {sem : ι → (o : Op) → σ → Ans o → σ → Prop}
variable {sem' : ι → (o : Op') → σ → Ans' o → σ → Prop} {Q : α → σ → Prop}

/-- A program among calls that it does not make. -/
theorem Safe.embed {f : Op → Op'} {e : (o : Op) → Ans' (f o) ≃ Ans o}
    (hsem : ∀ o s x s', sem' i (f o) s x s' → sem i o s (e o x) s') {p : Prog Op Ans α} {s : σ}
    (h : D.Safe sem i Q p s) : D.Safe sem' i Q (p.embed f e) s := by
  induction p generalizing s with
  | ret a => exact h
  | call o k ih =>
      intro s₁ hs₁ hf x s₂ hcall
      obtain ⟨hallowed, hk⟩ := h s₁ hs₁ hf (e o x) s₂ (hsem o s₁ x s₂ hcall)
      exact ⟨hallowed, ih (e o x) hk⟩

/-- A triple of a program is one of its embedding, where the answers mean the same. -/
theorem Triple.embed {f : Op → Op'} {e : (o : Op) → Ans' (f o) ≃ Ans o}
    (hsem : ∀ o s x s', sem' i (f o) s x s' → sem i o s (e o x) s') {p : Prog Op Ans α}
    (h : D.Triple sem i P p Q) : D.Triple sem' i P (p.embed f e) Q :=
  fun s hs hp => (h s hs hp).embed hsem

end Embed

/-! ## Two disciplines at once -/

section Both

variable {E : Discipline ι σ} {A : σ → Prop} {Q B : α → σ → Prop}
variable {sem : ι → (o : Op) → σ → Ans o → σ → Prop}

/-- What two disciplines say. -/
def both (D E : Discipline ι σ) : Discipline ι σ where
  Inv s := D.Inv s ∧ E.Inv s
  Frame i s s' := D.Frame i s s' ∧ E.Frame i s s'
  frame_refl i s := ⟨D.frame_refl i s, E.frame_refl i s⟩
  frame_trans i s₁ s₂ s₃ h h' :=
    ⟨D.frame_trans i s₁ s₂ s₃ h.1 h'.1, E.frame_trans i s₁ s₂ s₃ h.2 h'.2⟩

/-- What is stable under each discipline is stable under both. -/
theorem Stable.both (hP : D.Stable i P) (hA : E.Stable i A) :
    (D.both E).Stable i fun s => P s ∧ A s :=
  fun s s' hs hs' hf hp => ⟨hP s s' hs.1 hs'.1 hf.1 hp.1, hA s s' hs.2 hs'.2 hf.2 hp.2⟩

/-- What is known of a program in each of them. -/
theorem Triple.both {p : Prog Op Ans α} (h : D.Triple sem i P p Q) (h' : E.Triple sem i A p B) :
    (D.both E).Triple sem i (fun s => P s ∧ A s) p fun a s => Q a s ∧ B a s := by
  intro s hs ⟨hp, ha⟩
  have hD := h s hs.1 hp
  have hE := h' s hs.2 ha
  clear hs hp ha h h'
  induction p generalizing s with
  | ret a => exact ⟨hD, hE⟩
  | call o k ih =>
      intro s₁ hs₁ hf x s₂ hcall
      obtain ⟨hallowed, hk⟩ := hD s₁ hs₁.1 hf.1 x s₂ hcall
      obtain ⟨hallowed', hk'⟩ := hE s₁ hs₁.2 hf.2 x s₂ hcall
      refine ⟨⟨⟨hallowed.1, hallowed'.1⟩, fun j hj => ⟨hallowed.2 j hj, hallowed'.2 j hj⟩⟩, ?_⟩
      exact ih x s₂ hk hk'

end Both

/-! ## A state that grows -/

section Growing

variable {sem : ι → (o : Op) → σ → Ans o → σ → Prop} {R : σ → σ → Prop} {A : σ → Prop}
variable [Std.Refl R] [IsTrans σ R]

/-- Every step of every party is one of the growth. -/
def growing (R : σ → σ → Prop) [Std.Refl R] [IsTrans σ R] : Discipline ι σ where
  Inv _ := True
  Frame _ := R
  frame_refl _ := refl_of R
  frame_trans _ _ _ _ := trans_of R

/-- What the others only let grow is stable. -/
theorem Stable.growing (hA : ∀ s s', R s s' → A s → A s') :
    (Discipline.growing R).Stable i A :=
  fun s s' _ _ hf ha => hA s s' hf ha

/-- What every growth keeps is kept by a program whose calls make the state grow. -/
theorem Triple.growing {φ : Op → Prop} {p : Prog Op Ans α} (hcalls : p.Calls φ)
    (hstep : ∀ o s x s', φ o → sem i o s x s' → R s s') (hA : ∀ s s', R s s' → A s → A s') :
    (Discipline.growing R).Triple sem i A p fun _ => A := by
  apply (Triple.of_calls hcalls (Prog.returns_true p) (Stable.growing hA) ?_).post
  · exact fun _ _ _ h => h.2
  · intro o ho s x s' _ ha hcall
    have hgrown := hstep o s x s' ho hcall
    exact ⟨⟨trivial, fun _ _ => hgrown⟩, hA s s' hgrown ha⟩

end Growing

section Results

variable {sem : ι → (o : Op) → σ → Ans o → σ → Prop} {Q : α → σ → Prop}

/-- Besides, the result is one that the program may return. -/
theorem Triple.and_returns {ψ : α → Prop} {p : Prog Op Ans α} (h : D.Triple sem i P p Q)
    (hreturns : p.Returns ψ) : D.Triple sem i P p fun a s => Q a s ∧ ψ a := by
  intro s hs hp
  have hsafe := h s hs hp
  clear hs hp h
  induction p generalizing s with
  | ret a => exact ⟨hsafe, hreturns⟩
  | call o k ih =>
      intro s₁ hs₁ hf x s₂ hcall
      obtain ⟨hallowed, hk⟩ := hsafe s₁ hs₁ hf x s₂ hcall
      exact ⟨hallowed, ih x (hreturns x) s₂ hk⟩

/-- A loop: each round ends in what the next one starts from, or in the result. -/
theorem Triple.attempts {κ : Type} {body : κ → Prog Op Ans (κ ⊕ α)} {I : κ → σ → Prop}
    (hbody : ∀ k, D.Triple sem i (I k) (body k) fun
      | .inl k' => I k'
      | .inr a => Q a) (n : ℕ) (k : κ) :
    D.Triple sem i (I k) (Prog.attempts body n k) fun
      | none => fun s => ∃ k', I k' s
      | some a => Q a := by
  induction n generalizing k with
  | zero => exact Triple.ret fun _ _ h => ⟨k, h⟩
  | succ n ih =>
      refine Triple.bind (hbody k) fun step => ?_
      cases step with
      | inl k' => exact ih k'
      | inr a => exact Triple.ret fun _ _ h => h

end Results

end Discipline

/-! ## Observers -/

namespace Observer

variable {Call Call' : Type} {Reply : Call → Type} {Reply' : Call' → Type} {σ ρ α : Type}
variable {B : Observer Call Reply σ ρ} {B' : Observer Call' Reply' σ ρ} {G : σ → Prop}
variable {P : ρ → Prop} {Q : α → Prop}

/-- A program among calls that it does not make. -/
theorem Triple.embed {f : Call → Call'} {e : (o : Call) → Reply' (f o) ≃ Reply o}
    (hsem : ∀ s o r x r', B'.sem s (f o) r x r' → B.sem s o r (e o x) r')
    (hwatch : B'.watch = B.watch) {p : Prog Call Reply α} (h : B.Triple G P p Q) :
    B'.Triple G P (p.embed f e) Q := by
  intro r hp
  have hsafe := h r hp
  clear hp h
  induction p generalizing r with
  | ret a => exact hsafe
  | call o k ih =>
      intro r' hr' s hs x r'' hcall
      rw [hwatch] at hr'
      exact ih (e o x) r'' (hsafe r' hr' s hs (e o x) r'' (hsem s o r' x r'' hcall))

end Observer
