import BundleStore.Analysis.Exchanges
import BundleStore.Model.MooseFile

set_option autoImplicit false

/-!
# The file that `Open` opens

`Open` looks at the status of the lookup twice, for `ENOENT` with `O_CREAT` and
for success with `O_EXCL`. Every other status goes on to the request to open,
with whatever the local inode holds.
-/

namespace BundleStore

namespace Moose

variable {uninit : Uninit} {self self' : File} {pathname : Bytes} {flags mode : ℕ}
variable {t : MasterTrace} {status : ℤ}

/-- The request by which `Create` asks for the file. -/
def createRequest (parent : ℕ) (pathname : Bytes) (mode : ℕ) : Request :=
  .mknod parent
    (match Text.rfind 47 pathname with
      | some slash => pathname.drop (slash + 1)
      | none => pathname)
    TYPE_FILE (mode &&& 0o7777) 0

/-- The master has resolved the directory of the path. -/
def ParentResolved (pathname : Bytes) (t : MasterTrace) (parent : ℕ) : Prop :=
  match Text.rfind 47 pathname with
  | some slash => ResolvesPath (pathname.take slash) t parent
  | none => t = [] ∧ parent = MFS_ROOT_ID

/-- The run starts with the master resolving the path to the inode. -/
def Resolved (pathname : Bytes) (t : MasterTrace) (inode : ℕ) : Prop :=
  ∃ t₁ t₂, t = t₁ ++ t₂ ∧ ResolvesPath pathname t₁ inode

/-- After the lookup of the path, the run resolves its directory and ends with
the master creating the file there. -/
def Created (pathname : Bytes) (mode : ℕ) (t : MasterTrace) (inode : ℕ) : Prop :=
  ∃ t₁ r t₂ parent reply,
    t = t₁ ++ (t₂ ++ [asked (createRequest parent pathname mode) (some reply)]) ∧
      (MasterServer.lookupPath pathname true false).Runs t₁ r ∧
      ParentResolved pathname t₂ parent ∧ reply.length = 39 ∧ inode = get32bit reply.rptr 0

/-- Success is the file that was named, resolved or created; with neither, there
is no success and no inode. -/
structure OpensNamed (pathname : Bytes) (mode : ℕ) (t : MasterTrace) (status : ℤ) (file : File) :
    Prop where
  named : status = STATUS_OK →
    Resolved pathname t file.inode_ ∨ Created pathname mode t file.inode_
  refused : (∀ inode, ¬ Resolved pathname t inode) → (∀ inode, ¬ Created pathname mode t inode) →
    status ≠ STATUS_OK ∧ file.inode_ = 0

/-- The replies to a run of `Open`, by what the lookup of the path has come to.
When it has not resolved the path: where the file is to be created, the master
creates it with a full reply in the directory it has resolved, or refuses; where
it is not, the master does not grant the request to open. -/
def NamedReplies (pathname : Bytes) (flags mode : ℕ) (t : MasterTrace) : Prop :=
  ∀ t₁ t₂ ret out, t = t₁ ++ t₂ →
    (MasterServer.lookupPath pathname true false).Runs t₁ (ret, out) →
    (∀ inode, ¬ ResolvesPath pathname t₁ inode) →
    if ret = ERROR_ENOENT ∧ flags &&& O_CREAT ≠ 0 then
      ∀ t₃ parent reply, t₂ = t₃ ++ [asked (createRequest parent pathname mode) (some reply)] →
        Grants (· == 39) reply → reply.length = 39 ∧ ParentResolved pathname t₃ parent
    else if ret = STATUS_OK ∧ flags &&& O_EXCL ≠ 0 then True
    else
      ∀ t₃ inode oflags reply, t₂ = t₃ ++ [asked (.openFile inode oflags) (some reply)] →
        ¬ Grants (· == 35) reply

/-! ## The two halves -/

/-- The request to open is granted, or the object keeps its inode. -/
theorem openInode_runs {inode : ℕ}
    (h : (self.openInode uninit inode flags).Runs t (status, self')) :
    (status = STATUS_OK ∧ self'.inode_ = inode ∧ ∃ reply,
      t = [asked (.openFile inode (File.openFlags flags)) (some reply)] ∧
        Grants (· == 35) reply) ∨
    (status ≠ STATUS_OK ∧ self'.inode_ = self.inode_ ∧ ∀ t₃ inode' oflags reply,
      t = t₃ ++ [asked (.openFile inode' oflags) (some reply)] → ¬ Grants (· == 35) reply) := by
  obtain ⟨t₁, t₂, ⟨ret, out⟩, rfl, hexchange, hrest⟩ := Prog.runs_bind.mp h
  have hfull : (fun length : ℤ => length == 35 && true) = (· == 35) := by
    funext length
    exact Bool.and_true _
  have hx := exchange_runs hexchange
  rw [hfull] at hx
  by_cases hret : ret = STATUS_OK
  · obtain ⟨reply, rfl, hgrants, -⟩ := hx.ok hret
    refine .inl ?_
    by_cases happend : flags &&& O_APPEND = O_APPEND
    · simp only [hret, happend, ne_eq, not_true_eq_false, if_false, if_true] at hrest
      obtain ⟨rfl, heq⟩ := hrest
      cases heq
      exact ⟨rfl, rfl, reply, rfl, hgrants⟩
    · simp only [hret, happend, ne_eq, not_true_eq_false, if_false] at hrest
      obtain ⟨rfl, heq⟩ := hrest
      cases heq
      exact ⟨rfl, rfl, reply, rfl, hgrants⟩
  · simp only [hret, ne_eq, not_false_eq_true, if_true] at hrest
    obtain ⟨rfl, heq⟩ := hrest
    cases heq
    refine .inr ⟨hret, ?_, ?_⟩
    · split <;> rfl
    · intro t₃ inode' oflags reply ht hgrants
      exact hret (hx.of_grants (by simpa using ht) hgrants)

/-- `Create` comes down to one request, and its reply. -/
theorem createIn_runs {parent : ℕ} {name : Bytes}
    (h : (self.createIn parent name mode).Runs t (status, self')) :
    ∃ answer, t = [asked (.mknod parent name TYPE_FILE (mode &&& 0o7777) 0) answer] ∧
      ((status = STATUS_OK ∧ ∃ reply, answer = some reply ∧ Grants (· == 39) reply ∧
        (reply.length = 39 → self'.inode_ = get32bit reply.rptr 0)) ∨
      (status ≠ STATUS_OK ∧ self' = self ∧ ∀ reply, answer = some reply →
        ¬ Grants (· == 39) reply)) := by
  obtain ⟨t₁, t₂, ⟨ret, out⟩, rfl, hexchange, hrest⟩ := Prog.runs_bind.mp h
  unfold MasterServer.create MasterServer.mknod at hexchange
  have hx := exchange_runs hexchange
  obtain ⟨answer, rfl, hgranted⟩ := hx.single
  by_cases hret : ret = STATUS_OK
  · obtain ⟨reply, hreply, hgrants, hout⟩ := hx.ok hret
    cases hreply
    simp only [hret, ne_eq, not_true_eq_false, if_false] at hrest
    obtain ⟨rfl, heq⟩ := hrest
    cases heq
    refine ⟨some reply, rfl, .inl ⟨rfl, reply, rfl, hgrants, fun hlength => ?_⟩⟩
    change out = _ at hout
    rw [if_neg (by omega)] at hout
    rw [hout]
    rfl
  · simp only [hret, ne_eq, not_false_eq_true, if_true] at hrest
    obtain ⟨rfl, heq⟩ := hrest
    cases heq
    refine ⟨answer, rfl, .inr ⟨hret, rfl, fun reply hreply hgrants => ?_⟩⟩
    exact hret (hgranted.mpr ⟨reply, hreply, hgrants⟩)

/-- `Create` succeeds with the reply to its last request, and leaves the object
alone when it does not succeed. -/
theorem create_runs (h : (self.create pathname mode).Runs t (status, self')) :
    (status = STATUS_OK ∧ ∃ t₃ parent reply,
      t = t₃ ++ [asked (createRequest parent pathname mode) (some reply)] ∧
        Grants (· == 39) reply ∧ (reply.length = 39 → self'.inode_ = get32bit reply.rptr 0)) ∨
    (status ≠ STATUS_OK ∧ self' = self ∧ ∀ t₃ parent reply,
      t = t₃ ++ [asked (createRequest parent pathname mode) (some reply)] →
        ¬ Grants (· == 39) reply) := by
  -- the lookup of the parent comes first, and sends lookups only
  have hlast : ∀ {t₁ : MasterTrace} {parent : ℕ} {name : Bytes},
      createRequest parent pathname mode = .mknod parent name TYPE_FILE (mode &&& 0o7777) 0 →
      ∀ t₂, t = t₁ ++ t₂ → (self.createIn parent name mode).Runs t₂ (status, self') →
        (status = STATUS_OK ∧ ∃ t₃ parent reply,
          t = t₃ ++ [asked (createRequest parent pathname mode) (some reply)] ∧
            Grants (· == 39) reply ∧
            (reply.length = 39 → self'.inode_ = get32bit reply.rptr 0)) ∨
        (status ≠ STATUS_OK ∧ self' = self ∧ ∀ t₃ parent reply,
          t = t₃ ++ [asked (createRequest parent pathname mode) (some reply)] →
            ¬ Grants (· == 39) reply) := by
    intro t₁ parent name hrequest t₂ ht hrun
    obtain ⟨answer, rfl, ⟨hok, reply, rfl, hgrants⟩ | ⟨hne, hself, hrefused⟩⟩ :=
      createIn_runs hrun
    · exact .inl ⟨hok, t₁, parent, reply, by rw [ht, hrequest], hgrants⟩
    · refine .inr ⟨hne, hself, fun t₃ parent' reply ht' => ?_⟩
      rw [ht] at ht'
      have hend := List.append_inj_right' ht' rfl
      injection hend with hend
      injection hend with hsend hanswer
      cases hsend
      exact hrefused reply hanswer
  unfold File.create at h
  cases hslash : Text.rfind 47 pathname with
  | none =>
      rw [hslash] at h
      exact hlast (by rw [createRequest, hslash]) t (List.nil_append t).symm h
  | some slash =>
      rw [hslash] at h
      obtain ⟨t₁, t₂, ⟨ret, out⟩, ht, hlookup, hrest⟩ := Prog.runs_bind.mp h
      by_cases hret : ret = STATUS_OK
      · simp only [hret, ne_eq, not_true_eq_false, if_false] at hrest
        exact hlast (by rw [createRequest, hslash]) t₂ ht hrest
      · simp only [hret, ne_eq, not_false_eq_true, if_true] at hrest
        obtain ⟨rfl, heq⟩ := hrest
        cases heq
        refine .inr ⟨hret, rfl, fun t₃ parent reply ht' _ => ?_⟩
        rw [List.append_nil] at ht
        have hmem : asked (createRequest parent pathname mode) (some reply) ∈ t₁ := by
          rw [← ht, ht']
          simp
        exact hlookup.calls (lookupPath_calls _ _ _) _ hmem

/-! ## `Open` -/

/-- A path that the run resolves is one that its lookup has resolved. -/
theorem resolvesPath_of_resolved {t₁ t₂ : MasterTrace} {r : RpcResult} {inode : ℕ}
    (hlookup : (MasterServer.lookupPath pathname true false).Runs t₁ r)
    (h : Resolved pathname (t₁ ++ t₂) inode) :
    ResolvesPath pathname t₁ inode ∧ r = (STATUS_OK, { inode := some inode }) := by
  obtain ⟨u₁, u₂, hsplit, hresolves⟩ := h
  obtain ⟨rfl, -, rfl⟩ := hlookup.append_unique hresolves.runs hsplit
  exact ⟨hresolves, rfl⟩

/-- A file that the run creates is created behind its lookup. -/
theorem created_split {t₁ t₂ : MasterTrace} {r : RpcResult} {inode : ℕ}
    (hlookup : (MasterServer.lookupPath pathname true false).Runs t₁ r)
    (h : Created pathname mode (t₁ ++ t₂) inode) :
    ∃ t₃ parent reply, t₂ = t₃ ++ [asked (createRequest parent pathname mode) (some reply)] ∧
      ParentResolved pathname t₃ parent ∧ reply.length = 39 ∧
        inode = get32bit reply.rptr 0 := by
  obtain ⟨u₁, r', t₃, parent, reply, hsplit, hlookup', hparent, hlength, rfl⟩ := h
  obtain ⟨rfl, rfl, -⟩ := hlookup.append_unique hlookup' hsplit
  exact ⟨t₃, parent, reply, rfl, hparent, hlength, rfl⟩

/-- The lookup has resolved the path: what is opened is that file. -/
theorem opensNamed_of_resolved {t₁ t₂ : MasterTrace} {inode : ℕ}
    (hresolves : ResolvesPath pathname t₁ inode)
    (hrest : Prog.Runs
      (if STATUS_OK = ERROR_ENOENT ∧ flags &&& O_CREAT ≠ 0 then File.create {} pathname mode
      else if STATUS_OK = STATUS_OK ∧ flags &&& O_EXCL ≠ 0 then pure (-1, {})
      else File.openInode uninit {} inode flags) t₂ (status, self')) :
    OpensNamed pathname mode (t₁ ++ t₂) status self' := by
  have hresolved : Resolved pathname (t₁ ++ t₂) inode := ⟨t₁, t₂, rfl, hresolves⟩
  refine ⟨fun hstatus => .inl ?_, fun hno => absurd hresolved (hno inode)⟩
  have hcode : STATUS_OK ≠ ERROR_ENOENT := by decide
  rw [if_neg fun h => hcode h.1] at hrest
  by_cases hexcl : flags &&& O_EXCL ≠ 0
  · rw [if_pos ⟨rfl, hexcl⟩] at hrest
    obtain ⟨-, heq⟩ := hrest
    cases heq
    exact absurd hstatus (by decide)
  · rw [if_neg fun h => hexcl h.2] at hrest
    obtain ⟨-, rfl, -⟩ | ⟨hne, -⟩ := openInode_runs hrest
    · exact hresolved
    · exact absurd hstatus hne

/-- **Open opens the file that was named**, exactly as far as the replies tell
it apart from the others.
SOURCE: moose.cc:1256-1329 -/
theorem opens_named_iff
    (h : (File.openFile uninit {} pathname flags mode).Runs t (status, self')) :
    OpensNamed pathname mode t status self' ↔ NamedReplies pathname flags mode t := by
  obtain ⟨t₁, t₂, ⟨ret, out⟩, rfl, hlookup, hrest⟩ := Prog.runs_bind.mp h
  have hsplit : ∀ {u₁ u₂ : MasterTrace} {r : RpcResult}, t₁ ++ t₂ = u₁ ++ u₂ →
      (MasterServer.lookupPath pathname true false).Runs u₁ r →
        u₁ = t₁ ∧ u₂ = t₂ ∧ r = (ret, out) := by
    intro u₁ u₂ r heq hrun
    obtain ⟨rfl, rfl, rfl⟩ := hlookup.append_unique hrun heq
    exact ⟨rfl, rfl, rfl⟩
  by_cases hresolved : ∃ inode, ResolvesPath pathname t₁ inode
  · obtain ⟨inode, hresolves⟩ := hresolved
    obtain ⟨-, -, heq⟩ := hsplit rfl hresolves.runs
    cases heq
    refine iff_of_true (opensNamed_of_resolved hresolves hrest) ?_
    intro u₁ u₂ ret' out' heq hrun hno
    obtain ⟨rfl, -, -⟩ := hsplit heq hrun
    exact absurd hresolves (hno inode)
  · have hunresolved : ∀ inode, ¬ Resolved pathname (t₁ ++ t₂) inode :=
      fun inode hr => hresolved ⟨inode, (resolvesPath_of_resolved hlookup hr).1⟩
    have hreplies : NamedReplies pathname flags mode (t₁ ++ t₂) ↔
        if ret = ERROR_ENOENT ∧ flags &&& O_CREAT ≠ 0 then
          ∀ t₃ parent reply, t₂ = t₃ ++ [asked (createRequest parent pathname mode) (some reply)] →
            Grants (· == 39) reply → reply.length = 39 ∧ ParentResolved pathname t₃ parent
        else if ret = STATUS_OK ∧ flags &&& O_EXCL ≠ 0 then True
        else
          ∀ t₃ inode oflags reply, t₂ = t₃ ++ [asked (.openFile inode oflags) (some reply)] →
            ¬ Grants (· == 35) reply := by
      constructor
      · intro hn
        exact hn t₁ t₂ ret out rfl hlookup fun inode hr => hresolved ⟨inode, hr⟩
      · intro hn u₁ u₂ ret' out' heq hrun _
        obtain ⟨rfl, rfl, hr⟩ := hsplit heq hrun
        cases hr
        exact hn
    rw [hreplies]
    change Prog.Runs (if _ then _ else if _ then _ else _) t₂ (status, self') at hrest
    by_cases hcreat : ret = ERROR_ENOENT ∧ flags &&& O_CREAT ≠ 0
    · rw [if_pos hcreat] at hrest ⊢
      obtain ⟨hok, t₃, parent, reply, rfl, hgrants, hinode⟩ | ⟨hne, rfl, hrefused⟩ :=
        create_runs hrest
      · constructor
        · intro hopens t₃' parent' reply' heq hgrants'
          obtain hr | hcreated := hopens.named hok
          · exact absurd hr (hunresolved _)
          · obtain ⟨t₄, parent₄, reply₄, hlast, hparent, hlength, -⟩ :=
              created_split hlookup hcreated
            rw [heq] at hlast
            obtain ⟨rfl, hend⟩ := List.append_inj' hlast rfl
            cases hend
            exact ⟨hlength, hparent⟩
        · intro hn
          obtain ⟨hlength, hparent⟩ := hn t₃ parent reply rfl hgrants
          have hcreated : Created pathname mode
              (t₁ ++ (t₃ ++ [asked (createRequest parent pathname mode) (some reply)]))
                self'.inode_ :=
            ⟨t₁, _, t₃, parent, reply, rfl, hlookup, hparent, hlength, hinode hlength⟩
          exact ⟨fun _ => .inr hcreated, fun _ hno => absurd hcreated (hno _)⟩
      · refine iff_of_true ⟨fun hok => absurd hok hne, fun _ _ => ⟨hne, rfl⟩⟩ ?_
        intro t₃ parent reply heq hgrants
        exact absurd hgrants (hrefused t₃ parent reply heq)
    · rw [if_neg hcreat] at hrest ⊢
      by_cases hexcl : ret = STATUS_OK ∧ flags &&& O_EXCL ≠ 0
      · rw [if_pos hexcl] at hrest ⊢
        obtain ⟨rfl, heq⟩ := hrest
        cases heq
        have hne : (-1 : ℤ) ≠ STATUS_OK := by decide
        exact iff_of_true ⟨fun hok => absurd hok hne, fun _ _ => ⟨hne, rfl⟩⟩ trivial
      · rw [if_neg hexcl] at hrest ⊢
        obtain ⟨hok, -, reply, rfl, hgrants⟩ | ⟨hne, hinode, hrefused⟩ := openInode_runs hrest
        · refine iff_of_false (fun hopens => ?_) fun hn => hn [] _ _ reply rfl hgrants
          obtain hr | hcreated := hopens.named hok
          · exact hunresolved _ hr
          · obtain ⟨t₃, parent, reply', hlast, -⟩ := created_split hlookup hcreated
            have hend := List.append_inj_right' ((List.nil_append _).trans hlast) rfl
            cases hend
        · exact iff_of_true ⟨fun hok => absurd hok hne, fun _ _ => ⟨hne, hinode⟩⟩ hrefused

/-- The master knows the file `a` as inode 7, and grants the request to open it. -/
def namedOpen : MasterTrace :=
  [asked (.lookup 1 (Text.ascii "a")) (some ⟨39, fun i => if i = 3 then 7 else 0⟩),
    asked (.openFile 7 1) (some ⟨1, fun _ => 0⟩)]

/-- The path of the example resolves. -/
theorem namedOpen_resolves :
    ResolvesPath (Text.ascii "a") (namedOpen.take 1) 7 :=
  .entry (by decide) rfl (.done 7)

/-- `Open` of a file that is found opens it. -/
theorem opens_named_iff_found :
    OpensNamed (Text.ascii "a") 0 namedOpen STATUS_OK { inode_ := 7 } := by
  have hrun : (File.openFile ⟨99, 0⟩ {} (Text.ascii "a") O_RDONLY 0).Runs namedOpen
      (STATUS_OK, { inode_ := 7 }) := ⟨_, _, rfl, _, _, rfl, rfl, rfl⟩
  refine (opens_named_iff hrun).mpr ?_
  intro t₁ t₂ ret out hsplit hlookup hunresolved
  obtain ⟨rfl, -, -⟩ := namedOpen_resolves.runs.append_unique hlookup hsplit
  exact absurd namedOpen_resolves (hunresolved 7)

/-- The lookup of `a` fails with `ERROR_EACCES`, and the request to open goes out
for what the local inode happens to hold. -/
def unnamedOpen : MasterTrace :=
  [asked (.lookup 1 (Text.ascii "a")) (some ⟨1, fun _ => 4⟩),
    asked (.openFile 99 1) (some ⟨1, fun _ => 0⟩)]

/-- `Open` of an empty reply opens the inode that the stack held. -/
theorem not_opens_named :
    (File.openFile ⟨99, 0⟩ {} (Text.ascii "a") O_RDONLY 0).Runs unnamedOpen
      (STATUS_OK, { inode_ := 99 }) ∧
    ¬ OpensNamed (Text.ascii "a") 0 unnamedOpen STATUS_OK { inode_ := 99 } := by
  have hlookup : (MasterServer.lookupPath (Text.ascii "a") true false).Runs
      (unnamedOpen.take 1) (4, {}) := ⟨_, _, rfl, rfl, rfl⟩
  refine ⟨⟨_, _, rfl, _, _, rfl, rfl, rfl⟩, fun h => ?_⟩
  obtain hresolved | hcreated := h.named rfl
  · have hsplit : Resolved (Text.ascii "a") (unnamedOpen.take 1 ++ unnamedOpen.drop 1) 99 :=
      hresolved
    obtain ⟨-, hr⟩ := resolvesPath_of_resolved hlookup hsplit
    cases hr
  · have hsplit : Created (Text.ascii "a") 0 (unnamedOpen.take 1 ++ unnamedOpen.drop 1) 99 :=
      hcreated
    obtain ⟨t₃, parent, reply, hlast, -⟩ := created_split hlookup hsplit
    have hend := List.append_inj_right' ((List.nil_append _).trans hlast) rfl
    cases hend

end Moose

end BundleStore
