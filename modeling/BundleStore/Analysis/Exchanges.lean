import BundleStore.Lib.Runs
import BundleStore.Model.MasterServer

set_option autoImplicit false

/-!
# What an exchange leaves in a run

An exchange is one request with its reply, and a hang-up behind a reply that
makes no sense. A path is looked up by one exchange for each of its components.
-/

namespace BundleStore

namespace Moose

/-- The calls of a run of the client, with the answers of the master. -/
abbrev MasterTrace : Type := Prog.Trace MasterCall MasterCall.Answer

/-- One request and what `SendAndReceive` returned for it. -/
def asked (request : Request) (reply : Option Reply) :
    Σ o : MasterCall, MasterCall.Answer o :=
  ⟨.send request, reply⟩

/-- The ways an exchange can go. -/
inductive Exchanged (request : Request) (hangup : Bool) (full : ℤ → Bool)
    (outs : Reply → Outputs) : MasterTrace → RpcResult → Prop
  | silent : Exchanged request hangup full outs [asked request none] ( ERROR_IO, {})
  | status (reply : Reply) (hone : reply.length = 1) :
      Exchanged request hangup full outs [asked request (some reply)]
        (get8bit reply.rptr 0, {})
  | success (reply : Reply) (hone : reply.length ≠ 1) (hfull : full reply.length = true) :
      Exchanged request hangup full outs [asked request (some reply)] (STATUS_OK, outs reply)
  | garbled (reply : Reply) (hone : reply.length ≠ 1) (hfull : full reply.length = false) :
      Exchanged request hangup full outs
        (asked request (some reply) :: if hangup then [⟨.disconnect, ()⟩] else [])
        ( ERROR_IO, {})

section Exchange

variable {request : Request} {hangup : Bool} {full : ℤ → Bool} {outs : Reply → Outputs}
variable {t : MasterTrace} {r : RpcResult}

/-- A run of an exchange is one of its kinds. -/
theorem exchange_runs (h : (MasterServer.exchange request hangup full outs).Runs t r) :
    Exchanged request hangup full outs t r := by
  obtain ⟨answer, t', rfl, hrest⟩ := Prog.runs_op_bind.mp h
  cases answer with
  | none =>
      obtain ⟨rfl, rfl⟩ := hrest
      exact .silent
  | some reply =>
      by_cases hone : reply.length = 1
      · simp only [hone, if_true] at hrest
        obtain ⟨rfl, rfl⟩ := hrest
        exact .status reply hone
      · cases hfull : full reply.length with
        | true =>
            simp only [hone, hfull, if_true, if_false] at hrest
            obtain ⟨rfl, rfl⟩ := hrest
            exact .success reply hone hfull
        | false =>
            simp only [hone, hfull, if_false, Bool.false_eq_true] at hrest
            cases hangup with
            | true =>
                obtain ⟨⟨⟩, t'', rfl, hlast⟩ := Prog.runs_op_bind.mp hrest
                obtain ⟨rfl, rfl⟩ := hlast
                exact .garbled reply hone hfull
            | false =>
                obtain ⟨rfl, rfl⟩ := hrest
                exact .garbled reply hone hfull

/-- An exchange with a full reply succeeds. -/
theorem exchange_success {reply : Reply} (hone : reply.length ≠ 1)
    (hfull : full reply.length = true) :
    (MasterServer.exchange request hangup full outs).Runs [asked request (some reply)]
      (STATUS_OK, outs reply) := by
  refine Prog.runs_op_bind.mpr ⟨some reply, [], rfl, ?_⟩
  simp only [hone, hfull, if_true, if_false]
  exact ⟨rfl, rfl⟩

/-- The replies that an exchange takes for success. -/
def Grants (full : ℤ → Bool) (reply : Reply) : Prop :=
  (reply.length = 1 ∧ get8bit reply.rptr 0 = 0) ∨ (reply.length ≠ 1 ∧ full reply.length = true)

instance (full : ℤ → Bool) (reply : Reply) : Decidable (Grants full reply) :=
  inferInstanceAs (Decidable (_ ∨ _))

/-- Success is a reply that grants, and the last thing that happens. -/
theorem Exchanged.ok (h : Exchanged request hangup full outs t r) (hr : r.1 = STATUS_OK) :
    ∃ reply, t = [asked request (some reply)] ∧ Grants full reply ∧
      r.2 = if reply.length = 1 then {} else outs reply := by
  cases h with
  | silent => exact absurd hr (by decide)
  | garbled => exact absurd hr (by decide)
  | status reply hone =>
      have hzero : get8bit reply.rptr 0 = 0 := by simpa [STATUS_OK] using hr
      exact ⟨reply, rfl, .inl ⟨hone, hzero⟩, by rw [if_pos hone]⟩
  | success reply hone hfull =>
      exact ⟨reply, rfl, .inr ⟨hone, hfull⟩, by rw [if_neg hone]⟩

/-- A reply that grants is not followed by anything else than success. -/
theorem Exchanged.of_grants (h : Exchanged request hangup full outs t r) {t₁ : MasterTrace}
    {request' : Request} {reply : Reply} (ht : t = t₁ ++ [asked request' (some reply)])
    (hg : Grants full reply) : r.1 = STATUS_OK := by
  have hhead : ∀ {first : Option Reply} {rest : MasterTrace},
      asked request first :: rest = t₁ ++ [asked request' (some reply)] → rest = [] →
        first = some reply := by
    rintro first rest heq rfl
    cases t₁ with
    | nil =>
        injection heq with hfirst
        cases hfirst
        rfl
    | cons a t₁ => simp at heq
  cases h with
  | silent => cases hhead ht rfl
  | success => rfl
  | status reply' hone =>
      cases hhead ht rfl
      obtain ⟨-, hzero⟩ | ⟨hne, -⟩ := hg
      · simp [hzero, STATUS_OK]
      · exact absurd hone hne
  | garbled reply' hone hfull =>
      cases hangup with
      | true =>
          have hlast := congrArg List.getLast? ht
          simp [asked] at hlast
      | false =>
          cases hhead ht rfl
          obtain ⟨hone', -⟩ | ⟨-, hfull'⟩ := hg
          · exact absurd hone' hone
          · exact absurd (hfull.symm.trans hfull') (by decide)

/-- An exchange that never hangs up is one request. -/
theorem Exchanged.single (h : Exchanged request false full outs t r) :
    ∃ answer, t = [asked request answer] ∧
      (r.1 = STATUS_OK ↔ ∃ reply, answer = some reply ∧ Grants full reply) := by
  have hgrants : ∀ {answer : Option Reply}, t = [asked request answer] →
      (∃ reply, answer = some reply ∧ Grants full reply) → r.1 = STATUS_OK := by
    rintro answer ht ⟨reply, rfl, hg⟩
    exact h.of_grants (ht.trans (List.nil_append _).symm) hg
  have hok : ∀ {answer : Option Reply}, t = [asked request answer] → r.1 = STATUS_OK →
      ∃ reply, answer = some reply ∧ Grants full reply := by
    intro answer ht hr
    obtain ⟨reply, ht', hg, -⟩ := h.ok hr
    rw [ht'] at ht
    cases ht
    exact ⟨reply, rfl, hg⟩
  have hone : ∃ answer, t = [asked request answer] := by
    cases h with
    | silent => exact ⟨_, rfl⟩
    | status reply => exact ⟨_, rfl⟩
    | success reply => exact ⟨_, rfl⟩
    | garbled reply => exact ⟨_, rfl⟩
  obtain ⟨answer, ht⟩ := hone
  exact ⟨answer, ht, hok ht, hgrants ht⟩

/-- A monitor that only looks at what is sent sees one step of an exchange. -/
theorem exchange_passes {σ : Type} {M : Prog.Monitor MasterCall MasterCall.Answer σ}
    {Q : RpcResult → σ → Prop} {s : σ} (hallows : ∀ o s, M.Allows o s)
    (hdisconnect : ∀ s, M.step .disconnect () s = s)
    (hgranted : ∀ reply, Grants full reply →
      Q (STATUS_OK, if reply.length = 1 then {} else outs reply)
        (M.step (.send request) (some reply) s))
    (hrefused : ∀ answer ret, (∀ reply, answer = some reply → ¬ Grants full reply) →
      ret ≠ STATUS_OK → Q (ret, {}) (M.step (.send request) answer s)) :
    M.Passes Q (MasterServer.exchange request hangup full outs) s := by
  have hio : ERROR_IO ≠ STATUS_OK := by decide
  refine ⟨hallows _ _, fun answer => ?_⟩
  cases answer with
  | none =>
      refine hrefused none _ ?_ hio
      rintro reply ⟨⟩
  | some reply =>
      show M.Passes Q (if _ then _ else _) _
      refine Prog.Monitor.Passes.ite (fun hone => ?_) fun hone => ?_
      · by_cases hzero : get8bit reply.rptr 0 = 0
        · have h := hgranted reply (.inl ⟨hone, hzero⟩)
          rw [if_pos hone] at h
          rw [hzero]
          exact h
        · refine hrefused (some reply) _ ?_ ?_
          · rintro _ ⟨⟩ (⟨-, h⟩ | ⟨h, -⟩)
            · exact hzero h
            · exact h hone
          · simpa [STATUS_OK] using hzero
      · refine Prog.Monitor.Passes.ite (fun hfull => ?_) fun hfull => ?_
        · have h := hgranted reply (.inr ⟨hone, hfull⟩)
          rw [if_neg hone] at h
          exact h
        · have h := hrefused (some reply) ERROR_IO (by
            rintro _ ⟨⟩ (⟨h, -⟩ | ⟨-, h⟩)
            · exact hone h
            · exact hfull h) hio
          refine Prog.Monitor.Passes.ite (fun _ => ⟨hallows _ _, fun _ => ?_⟩) fun _ => h
          rw [hdisconnect]
          exact h

end Exchange

/-! ## Paths -/

/-- The master has been asked for the components one after the other, from the
inode `parent` on, and every reply carried the next inode. -/
inductive Resolves : ℕ → List Bytes → MasterTrace → ℕ → Prop
  | done (inode : ℕ) : Resolves inode [] [] inode
  | skip {inode last : ℕ} {rest : List Bytes} {t : MasterTrace}
      (h : Resolves inode rest t last) : Resolves inode ([] :: rest) t last
  | entry {parent last : ℕ} {copy : Bytes} {rest : List Bytes} {t : MasterTrace} {reply : Reply}
      (hcopy : copy ≠ []) (hlength : reply.length = 39)
      (h : Resolves (get32bit reply.rptr 0) rest t last) :
      Resolves parent (copy :: rest) (asked (.lookup parent copy) (some reply) :: t) last

/-- The master has resolved the path to the inode, from the root on. -/
def ResolvesPath (pathname : Bytes) (t : MasterTrace) (inode : ℕ) : Prop :=
  Resolves MFS_ROOT_ID (pathname.splitOn 47) t inode

/-- A path that resolves is looked up.
SOURCE: moose.cc:495-531 -/
theorem Resolves.runs {parent last : ℕ} {components : List Bytes} {t : MasterTrace}
    (h : Resolves parent components t last) (attr : FileAttribute) :
    ∃ attr', (MasterServer.lookupFrom parent attr components).Runs t (STATUS_OK, last, attr') := by
  induction h generalizing attr with
  | done inode => exact ⟨attr, rfl, rfl⟩
  | skip h ih => exact ih attr
  | @entry parent last copy rest t reply hcopy hlength h ih =>
      have hlookup : (MasterServer.lookup parent copy true true).Runs
          [asked (.lookup parent copy) (some reply)]
          (STATUS_OK, MasterServer.entryOutputs true true reply) :=
        exchange_success (by omega) (by simp [hlength])
      obtain ⟨attr', ht⟩ := ih (FileAttribute.ofMem reply.rptr 4)
      refine ⟨attr', ?_⟩
      have hne : copy.isEmpty = false := by simpa using hcopy
      simp only [MasterServer.lookupFrom, hne, Bool.false_eq_true, if_false]
      exact Prog.runs_bind.mpr ⟨_, t, _, rfl, hlookup, ht⟩

/-- A path that the master has resolved is one that `Lookup` has found. -/
theorem ResolvesPath.runs {pathname : Bytes} {t : MasterTrace} {inode : ℕ}
    (h : ResolvesPath pathname t inode) :
    (MasterServer.lookupPath pathname true false).Runs t (STATUS_OK, { inode := some inode }) := by
  obtain ⟨attr', hrun⟩ := Resolves.runs h FileAttribute.zero
  exact Prog.runs_bind.mpr ⟨t, [], _, (List.append_nil t).symm, hrun, rfl, rfl⟩

/-- Looking up sends no other requests than lookups. -/
def IsLookup : MasterCall → Prop
  | .send (.lookup _ _) => True
  | .send _ => False
  | .disconnect => True

/-- The calls of an exchange. -/
theorem exchange_calls {φ : MasterCall → Prop} {request : Request} {hangup : Bool}
    {full : ℤ → Bool} {outs : Reply → Outputs} (hsend : φ (.send request))
    (hdisconnect : φ .disconnect) :
    (MasterServer.exchange request hangup full outs).Calls φ := by
  refine ⟨hsend, fun answer => ?_⟩
  cases answer with
  | none => trivial
  | some reply =>
      refine Prog.Calls.ite trivial (Prog.Calls.ite trivial (Prog.Calls.ite ?_ trivial))
      exact ⟨hdisconnect, fun _ => trivial⟩

/-- The calls of a lookup.
SOURCE: moose.cc:456-493 -/
theorem lookupFrom_calls (parent : ℕ) (attr : FileAttribute) (components : List Bytes) :
    (MasterServer.lookupFrom parent attr components).Calls IsLookup := by
  induction components generalizing parent attr with
  | nil => trivial
  | cons copy rest ih =>
      unfold MasterServer.lookupFrom
      apply Prog.Calls.ite (ih parent attr)
      apply Prog.Calls.bind (exchange_calls trivial trivial)
      intro r
      exact Prog.Calls.ite trivial (ih _ _)

/-- The calls of a lookup of a path.
SOURCE: moose.cc:495-531 -/
theorem lookupPath_calls (pathname : Bytes) (inode attr : Bool) :
    (MasterServer.lookupPath pathname inode attr).Calls IsLookup := by
  apply Prog.Calls.bind (lookupFrom_calls _ _ _)
  intro r
  exact Prog.Calls.ite trivial trivial

end Moose

end BundleStore
