import BundleStore.Analysis.OpenNamed
import BundleStore.Model.MooseClients

set_option autoImplicit false

/-!
# Exclusive opens of a file of MooseFS

`Open` looks the path up and then asks for the file to be made: two requests, and
those of other clients may come between them. What decides is the second one,
which the master refuses when the name is there.
-/

namespace BundleStore

namespace Moose

open Machine

/-! ## Histories -/

/-- The inode that a path of directories leads to. -/
def Tree.walk (tree : Tree) : ℕ → List Bytes → Option ℕ
  | inode, [] => some inode
  | inode, copy :: rest =>
      if copy.isEmpty then walk tree inode rest
      else
        match tree.entry (inode, copy) with
        | some next => walk tree next rest
        | none => none

/-- The entry that a path names, its last component in the directory before it. -/
def Tree.key (tree : Tree) (pathname : Bytes) : Option Entry :=
  match Text.rfind 47 pathname with
  | some slash =>
      (tree.walk MFS_ROOT_ID ((pathname.take slash).splitOn 47)).map fun parent =>
        (parent, pathname.drop (slash + 1))
  | none => some (MFS_ROOT_ID, pathname)

variable {ι : Type}

/-- Whether the entry exists after what has happened. -/
def existsAfter (tree : Tree) (key : Entry) (log : List (Event ι)) : Bool :=
  log.foldl (fun present event =>
    match event with
    | .made _ _ key' => present || decide (key' = key)
    | .unlinked key' => present && decide (key' ≠ key)
    | .opened _ _ _ => present) (tree.entry key).isSome

/-- The histories that can happen: an entry is made while it does not exist, and a
call that succeeds is one whose entry has been made, and that had not returned. -/
inductive History (tree : Tree) : List (Event ι) → Prop
  | nil : History tree []
  | made {log : List (Event ι)} {i : ι} {n : ℕ} {key : Entry} (h : History tree log)
      (habsent : existsAfter tree key log = false) : History tree (log ++ [.made i n key])
  | unlinked {log : List (Event ι)} {key : Entry} (h : History tree log) :
      History tree (log ++ [.unlinked key])
  | opened {log : List (Event ι)} {i : ι} {n : ℕ} {pathname : Bytes} {key : Entry}
      (h : History tree log) (hkey : tree.key pathname = some key) (hmade : .made i n key ∈ log)
      (hnew : ∀ pathname', .opened i n pathname' ∉ log) :
      History tree (log ++ [.opened i n pathname])

variable {tree : Tree} {log l₁ l₂ : List (Event ι)} {key : Entry} {i j : ι} {n m : ℕ}
  {pathname : Bytes}

/-- What is there before anything has happened. -/
@[simp] theorem existsAfter_nil : existsAfter (ι := ι) tree key [] = (tree.entry key).isSome := rfl

/-- A name that has been made is there. -/
@[simp] theorem existsAfter_made {key' : Entry} :
    existsAfter tree key (log ++ [.made i n key']) =
      (existsAfter tree key log || decide (key' = key)) := by
  simp [existsAfter]

/-- A name that has been unlinked is not there. -/
@[simp] theorem existsAfter_unlinked {key' : Entry} :
    existsAfter tree key (log ++ [.unlinked key']) =
      (existsAfter tree key log && decide (key' ≠ key)) := by
  simp [existsAfter]

/-- Who opens a file leaves the names. -/
@[simp] theorem existsAfter_opened :
    existsAfter tree key (log ++ [.opened i n pathname]) = existsAfter tree key log := by
  simp [existsAfter]

namespace History

/-- What has happened up to any point is a history. -/
theorem of_append (h : History tree (l₁ ++ l₂)) : History tree l₁ := by
  induction l₂ using List.reverseRecOn with
  | nil => rwa [List.append_nil] at h
  | append_singleton l₂ e ih =>
      apply ih
      generalize hlog : l₁ ++ (l₂ ++ [e]) = log at h
      rw [← List.append_assoc] at hlog
      cases h with
      | nil => exact absurd hlog (by simp)
      | made h | unlinked h | opened h => rwa [(List.append_inj' hlog rfl).1]

/-- A name that is made was not there before. -/
theorem absent_of_made (h : History tree (l₁ ++ .made i n key :: l₂)) :
    existsAfter tree key l₁ = false := by
  rw [List.append_cons] at h
  have hlast := h.of_append
  generalize hlog : l₁ ++ [Event.made i n key] = log at hlast
  cases hlast with
  | nil => exact absurd hlog (by simp)
  | made _ habsent =>
      obtain ⟨rfl, heq⟩ := List.append_inj' hlog rfl
      cases heq
      exact habsent
  | unlinked | opened => exact absurd (List.append_inj' hlog rfl).2 (by simp)

/-- A call that has succeeded has made the entry of its path before, and has not
succeeded before. -/
theorem made_of_opened (h : History tree (l₁ ++ .opened i n pathname :: l₂)) :
    (∃ key, tree.key pathname = some key ∧ .made i n key ∈ l₁) ∧
      ∀ pathname', .opened i n pathname' ∉ l₁ := by
  rw [List.append_cons] at h
  have hlast := h.of_append
  generalize hlog : l₁ ++ [Event.opened i n pathname] = log at hlast
  cases hlast with
  | nil => exact absurd hlog (by simp)
  | opened _ hkey hmade hnew =>
      obtain ⟨rfl, heq⟩ := List.append_inj' hlog rfl
      cases heq
      exact ⟨⟨_, hkey, hmade⟩, hnew⟩
  | unlinked | made => exact absurd (List.append_inj' hlog rfl).2 (by simp)

end History

/-- An entry that exists goes on to exist until it is unlinked. -/
theorem existsAfter_append (h : existsAfter tree key l₁ = true) (hkept : .unlinked key ∉ l₂) :
    existsAfter tree key (l₁ ++ l₂) = true := by
  induction l₂ using List.reverseRecOn with
  | nil => rwa [List.append_nil]
  | append_singleton l₂ e ih =>
      rw [List.mem_append, not_or] at hkept
      have hbefore := ih hkept.1
      rw [← List.append_assoc]
      cases e with
      | made => rw [existsAfter_made, hbefore, Bool.true_or]
      | opened => rw [existsAfter_opened, hbefore]
      | unlinked key' =>
          have hne : key' ≠ key := by
            rintro rfl
            exact hkept.2 List.mem_cons_self
          rw [existsAfter_unlinked, hbefore, Bool.true_and, decide_eq_true hne]

/-- What is asked of a history: a call that succeeds has made the entry of its path,
and succeeds once; while a name is not unlinked, at most one call makes it, and none
does where it exists from before. -/
structure CreatesOnce (tree : Tree) (log : List (Event ι)) : Prop where
  created : ∀ l₁ i n pathname l₂, log = l₁ ++ .opened i n pathname :: l₂ →
    (∃ key, tree.key pathname = some key ∧ .made i n key ∈ l₁) ∧
      ∀ pathname', .opened i n pathname' ∉ l₁
  once : ∀ key l₁ window l₂, log = l₁ ++ window ++ l₂ → .unlinked key ∉ window →
    ∀ i n j m, .made i n key ∈ window → .made j m key ∈ window → i = j ∧ n = m
  absent : ∀ key l₁ window l₂, log = l₁ ++ window ++ l₂ → .unlinked key ∉ window →
    existsAfter tree key l₁ = true → ∀ i n, .made i n key ∉ window

/-- Of a name two creations have an unlink between them. -/
theorem History.createsOnce (h : History tree log) : CreatesOnce tree log := by
  have habsent : ∀ key l₁ window l₂, log = l₁ ++ window ++ l₂ → .unlinked key ∉ window →
      existsAfter tree key l₁ = true → ∀ i n, .made i n key ∉ window := by
    rintro key l₁ window l₂ rfl hkept hexists i n hmade
    obtain ⟨w₁, w₂, rfl⟩ := List.append_of_mem hmade
    rw [List.mem_append, not_or] at hkept
    have hbefore := existsAfter_append hexists hkept.1
    rw [← List.append_assoc] at h
    rw [h.of_append.absent_of_made] at hbefore
    cases hbefore
  refine ⟨?_, ?_, habsent⟩
  · rintro l₁ i n pathname l₂ rfl
    exact h.made_of_opened
  · rintro key l₁ window l₂ rfl hkept i n j m hi hj
    -- nothing is made again behind the first time
    have hcut : ∀ {i j : ι} {n m : ℕ} {w₁ w₂ : List (Event ι)},
        window = w₁ ++ .made i n key :: w₂ → .made j m key ∉ w₂ := by
      rintro i j n m w₁ w₂ rfl hmade
      have hexists : existsAfter tree key (l₁ ++ w₁ ++ [.made i n key]) = true := by
        rw [existsAfter_made, decide_eq_true rfl, Bool.or_true]
      refine habsent key _ w₂ l₂ (by simp) ?_ hexists j m hmade
      exact fun hun => hkept (List.mem_append_right _ (List.mem_cons_of_mem _ hun))
    obtain ⟨w₁, w₂, hwindow⟩ := List.append_of_mem hi
    rw [hwindow, List.mem_append, List.mem_cons] at hj
    obtain hj | heq | hj := hj
    · obtain ⟨u₁, u₂, rfl⟩ := List.append_of_mem hj
      have hlater : .made i n key ∈ u₂ ++ .made i n key :: w₂ :=
        List.mem_append_right _ List.mem_cons_self
      rw [List.append_assoc] at hwindow
      exact absurd hlater (hcut hwindow)
    · cases heq
      exact ⟨rfl, rfl⟩
    · exact absurd hj (hcut hwindow)

/-! ## What a call is told -/

/-- What the reply to a lookup tells of the directories. -/
def LookupTold (tree : Tree) (parent : ℕ) (name : Bytes) (reply : Reply) : Prop :=
  (reply.length = 39 ∧ tree.isDir parent = true ∧
    (tree.isDir (get32bit reply.rptr 0) = true →
      tree.entry (parent, name) = some (get32bit reply.rptr 0))) ∨
  (reply.length = 1 ∧ (get8bit reply.rptr 0 : ℤ) = ERROR_ENOENT)

/-- What the answer to a request of the `n`-th call of a client tells. -/
def Told (tree : Tree) (log : List (Event ι)) (i : ι) (n : ℕ) :
    Request → Option Reply → Prop
  | .lookup parent name, answer => ∃ reply, answer = some reply ∧ LookupTold tree parent name reply
  | .mknod parent name _ _ _, answer => ∀ reply, answer = some reply → Grants (· == 39) reply →
      tree.isDir parent = true ∧ .made i n (parent, name) ∈ log
  | _, _ => True

/-- What all the answers of a run tell. -/
def AllTold (tree : Tree) (log : List (Event ι)) (i : ι) (n : ℕ) (t : MasterTrace) : Prop :=
  ∀ request answer, asked request answer ∈ t → Told tree log i n request answer

/-- What a call was told stays told. -/
theorem Told.mono {log' : List (Event ι)} {request : Request} {answer : Option Reply}
    (hlog : ∀ e ∈ log, e ∈ log') (h : Told tree log i n request answer) :
    Told tree log' i n request answer := by
  cases request with
  | mknod =>
      intro reply hreply hgrants
      exact ⟨(h reply hreply hgrants).1, hlog _ (h reply hreply hgrants).2⟩
  | _ => exact h

section Told

variable {t t₁ t₂ : MasterTrace}

/-- The first calls were told. -/
theorem AllTold.left (h : AllTold tree log i n (t₁ ++ t₂)) : AllTold tree log i n t₁ :=
  fun request answer hmem => h request answer (List.mem_append_left _ hmem)

/-- The last calls were told. -/
theorem AllTold.right (h : AllTold tree log i n (t₁ ++ t₂)) : AllTold tree log i n t₂ :=
  fun request answer hmem => h request answer (List.mem_append_right _ hmem)

/-- A lookup finds an inode, in a directory, or there is no such entry. -/
theorem lookup_told {parent : ℕ} {name : Bytes} {r : RpcResult}
    (h : (MasterServer.lookup parent name true true).Runs t r)
    (htold : AllTold tree log i n t) :
    (r.1 = STATUS_OK ∧ tree.isDir parent = true ∧ ∃ inode, r.2.inode = some inode ∧
      (tree.isDir inode = true → tree.entry (parent, name) = some inode)) ∨
    r.1 = ERROR_ENOENT := by
  have htells : ∀ {reply : Reply}, asked (.lookup parent name) (some reply) ∈ t →
      LookupTold tree parent name reply := by
    intro reply hmem
    obtain ⟨reply', heq, h⟩ := htold _ _ hmem
    cases heq
    exact h
  cases exchange_runs h with
  | silent =>
      obtain ⟨reply, heq, -⟩ := htold _ _ List.mem_cons_self
      cases heq
  | status reply hone =>
      obtain ⟨hlength, -⟩ | ⟨-, hnoent⟩ := htells List.mem_cons_self
      · omega
      · exact .inr hnoent
  | success reply hone hfull =>
      obtain ⟨-, hdir, hentry⟩ | ⟨hlength, -⟩ := htells List.mem_cons_self
      · exact .inl ⟨rfl, hdir, _, rfl, hentry⟩
      · exact absurd hlength hone
  | garbled reply hone hfull =>
      obtain ⟨hlength, -⟩ | ⟨hlength, -⟩ := htells List.mem_cons_self
      · simp [hlength] at hfull
      · exact absurd hlength hone

/-- The lookups of a path that ends in a directory have walked through directories. -/
theorem lookupFrom_told {components : List Bytes} {parent last ret} {attr attr' : FileAttribute}
    (h : (MasterServer.lookupFrom parent attr components).Runs t (ret, last, attr'))
    (htold : AllTold tree log i n t) :
    (ret = STATUS_OK ∧ (tree.isDir last = true →
      tree.isDir parent = true ∧ tree.walk parent components = some last)) ∨
    ret = ERROR_ENOENT := by
  induction components generalizing parent attr t with
  | nil =>
      obtain ⟨-, heq⟩ := h
      cases heq
      exact .inl ⟨rfl, fun hdir => ⟨hdir, rfl⟩⟩
  | cons copy rest ih =>
      unfold MasterServer.lookupFrom at h
      cases hcopy : copy.isEmpty with
      | true =>
          simp only [hcopy, if_true] at h
          simpa only [Tree.walk, hcopy, if_true] using ih h htold
      | false =>
          simp only [hcopy, Bool.false_eq_true, if_false] at h
          obtain ⟨t₁, t₂, ⟨ret₁, out⟩, rfl, hlookup, hrest⟩ := Prog.runs_bind.mp h
          obtain ⟨hok, hdir, inode, hinode, hentry⟩ | hnoent := lookup_told hlookup htold.left
          · change ret₁ = STATUS_OK at hok
            change out.inode = some inode at hinode
            simp only [hok, hinode, ne_eq, not_true_eq_false, if_false, Option.getD_some] at hrest
            obtain ⟨hret, hwalk⟩ | hnoent := ih hrest htold.right
            · refine .inl ⟨hret, fun hlast => ⟨hdir, ?_⟩⟩
              obtain ⟨hdir', hwalk'⟩ := hwalk hlast
              simpa only [Tree.walk, hcopy, Bool.false_eq_true, if_false, hentry hdir'] using hwalk'
            · exact .inr hnoent
          · change ret₁ = ERROR_ENOENT at hnoent
            have hne : ERROR_ENOENT ≠ STATUS_OK := by decide
            simp only [hnoent, hne, ne_eq, not_false_eq_true, if_true] at hrest
            obtain ⟨-, heq⟩ := hrest
            cases heq
            exact .inr rfl

/-- A lookup finds the inode that the path leads to, or finds none.
SOURCE: moose.cc:495-531 -/
theorem lookupPath_told {attr : Bool} {r : RpcResult}
    (h : (MasterServer.lookupPath pathname true attr).Runs t r)
    (htold : AllTold tree log i n t) :
    (r.1 = STATUS_OK ∧ ∃ inode, r.2.inode = some inode ∧ (tree.isDir inode = true →
      tree.walk MFS_ROOT_ID (pathname.splitOn 47) = some inode)) ∨
    r.1 = ERROR_ENOENT := by
  obtain ⟨t₁, t₂, ⟨ret, inode, attr'⟩, rfl, hfrom, hrest⟩ := Prog.runs_bind.mp h
  obtain ⟨rfl, hwalk⟩ | rfl := lookupFrom_told hfrom htold.left
  · obtain ⟨-, rfl⟩ := hrest
    exact .inl ⟨rfl, inode, rfl, fun hdir => (hwalk hdir).2⟩
  · obtain ⟨-, rfl⟩ := hrest
    exact .inr rfl

/-- `Create` succeeds when the master has made the entry. -/
theorem createIn_told {self self' : File} {parent mode : ℕ} {name : Bytes}
    (h : (self.createIn parent name mode).Runs t (STATUS_OK, self'))
    (htold : AllTold tree log i n t) :
    tree.isDir parent = true ∧ .made i n (parent, name) ∈ log := by
  obtain ⟨answer, rfl, ⟨-, reply, rfl, hgrants, -⟩ | ⟨hne, -⟩⟩ := createIn_runs h
  · exact htold _ _ List.mem_cons_self reply rfl hgrants
  · exact absurd rfl hne

/-- A `Create` that succeeds has made the name.
SOURCE: moose.cc:1298-1329 -/
theorem create_told {self self' : File} {mode : ℕ}
    (h : (self.create pathname mode).Runs t (STATUS_OK, self'))
    (htold : AllTold tree log i n t) :
    ∃ key, tree.key pathname = some key ∧ .made i n key ∈ log := by
  unfold File.create at h
  unfold Tree.key
  cases hslash : Text.rfind 47 pathname with
  | none =>
      rw [hslash] at h
      exact ⟨_, rfl, (createIn_told h htold).2⟩
  | some slash =>
      rw [hslash] at h
      obtain ⟨t₁, t₂, ⟨ret, out⟩, rfl, hlookup, hrest⟩ := Prog.runs_bind.mp h
      obtain ⟨hok, inode, hinode, hwalk⟩ | hnoent := lookupPath_told hlookup htold.left
      · change ret = STATUS_OK at hok
        change out.inode = some inode at hinode
        simp only [hok, hinode, ne_eq, not_true_eq_false, if_false, Option.getD_some] at hrest
        obtain ⟨hdir, hmade⟩ := createIn_told hrest htold.right
        exact ⟨_, by simp [hwalk hdir], hmade⟩
      · change ret = ERROR_ENOENT at hnoent
        have hne : ERROR_ENOENT ≠ STATUS_OK := by decide
        simp only [hnoent, hne, ne_eq, not_false_eq_true, if_true] at hrest
        obtain ⟨-, heq⟩ := hrest
        cases heq

/-- An exclusive open succeeds when the master has made the entry of the path. -/
theorem openFile_told {uninit : Uninit} {self self' : File} {mode : ℕ}
    (h : (self.openFile uninit pathname exclusive mode).Runs t (STATUS_OK, self'))
    (htold : AllTold tree log i n t) :
    ∃ key, tree.key pathname = some key ∧ .made i n key ∈ log := by
  have hcreat : exclusive &&& O_CREAT ≠ 0 := by decide
  have hexcl : exclusive &&& O_EXCL ≠ 0 := by decide
  obtain ⟨t₁, t₂, ⟨ret, out⟩, rfl, hlookup, hrest⟩ := Prog.runs_bind.mp h
  obtain ⟨hok, -⟩ | hnoent := lookupPath_told hlookup htold.left
  · change ret = STATUS_OK at hok
    have hne : STATUS_OK ≠ ERROR_ENOENT := by decide
    simp only [hok, hne, false_and, if_false, hexcl, ne_eq, not_false_eq_true, and_self,
      if_true] at hrest
    obtain ⟨-, heq⟩ := hrest
    cases heq
  · change ret = ERROR_ENOENT at hnoent
    simp only [hnoent, hcreat, ne_eq, not_false_eq_true, and_self, if_true] at hrest
    exact create_told hrest htold.right

end Told

/-! ## The master -/

/-- The directories are those of the tree, and what there is now is what has
happened so far. -/
structure Served (tree : Tree) (s : Names ι) : Prop where
  under : ∀ key inode, s.entry key = some inode → tree.isDir key.1 = true
  dirs : ∀ key inode, tree.isDir inode = true →
    (s.entry key = some inode ↔ tree.entry key = some inode)
  exists_iff : ∀ key, (s.entry key).isSome = existsAfter tree key s.log
  history : History tree s.log

/-- Other clients add to what has happened, but no return of the client. -/
def namesDiscipline (ι : Type) (tree : Tree) : Discipline ι (Names ι) where
  Inv := Served tree
  Frame i s s' := ∃ more, s'.log = s.log ++ more ∧ ∀ n pathname, .opened i n pathname ∉ more
  frame_refl _ _ := ⟨[], by simp⟩
  frame_trans := by
    rintro i s₁ s₂ s₃ ⟨l, hl, hnot⟩ ⟨l', hl', hnot'⟩
    refine ⟨l ++ l', by rw [hl', hl, List.append_assoc], ?_⟩
    intro n pathname hmem
    obtain hmem | hmem := List.mem_append.mp hmem
    · exact hnot n pathname hmem
    · exact hnot' n pathname hmem

variable {s s' : Names ι} {inode : ℕ}

/-- The master that makes a name keeps its book. -/
theorem Served.make (h : Served tree s) (hfree : s.entry key = none)
    (hdir : tree.isDir key.1 = true) (hfile : tree.isDir inode = false) :
    Served tree (s.make i n key inode) := by
  have hentry : ∀ key', (s.make i n key inode).entry key' =
      if key' = key then some inode else s.entry key' := fun key' =>
    Function.update_apply ..
  constructor
  · intro key' inode' hk
    rw [hentry] at hk
    split at hk
    · rename_i heq
      rwa [heq]
    · exact h.under key' inode' hk
  · intro key' inode' hdir'
    rw [hentry]
    split
    · rename_i heq
      subst heq
      constructor
      · intro hk
        rw [← Option.some.inj hk, hfile] at hdir'
        cases hdir'
      · intro hk
        rw [(h.dirs key' inode' hdir').mpr hk] at hfree
        cases hfree
    · exact h.dirs key' inode' hdir'
  · intro key'
    show _ = existsAfter tree key' (s.log ++ [_])
    rw [hentry, existsAfter_made, ← h.exists_iff]
    split
    · rename_i heq
      simp [heq]
    · rename_i hne
      simp [Ne.symm hne]
  · refine .made h.history ?_
    rw [← h.exists_iff, hfree]
    rfl

/-- The master that unlinks a name keeps its book. -/
theorem Served.unlink (h : Served tree s) (hentry : s.entry key = some inode)
    (hfile : tree.isDir inode = false) : Served tree (s.unlink key) := by
  have hentry' : ∀ key', (s.unlink key).entry key' = if key' = key then none else s.entry key' :=
    fun key' => Function.update_apply ..
  constructor
  · intro key' inode' hk
    rw [hentry'] at hk
    split at hk
    · cases hk
    · exact h.under key' inode' hk
  · intro key' inode' hdir'
    rw [hentry']
    split
    · rename_i heq
      subst heq
      refine iff_of_false (by simp) fun hk => ?_
      rw [(h.dirs key' inode' hdir').mpr hk] at hentry
      rw [← Option.some.inj hentry, hdir'] at hfile
      cases hfile
    · exact h.dirs key' inode' hdir'
  · intro key'
    show _ = existsAfter tree key' (s.log ++ [_])
    rw [hentry', existsAfter_unlinked, ← h.exists_iff]
    split
    · rename_i heq
      simp [heq]
    · rename_i hne
      simp [Ne.symm hne]
  · exact .unlinked h.history

/-- The master's book with a client that has opened a file. -/
theorem Served.opened (h : Served tree s) (hkey : tree.key pathname = some key)
    (hmade : .made i n key ∈ s.log) (hnew : ∀ pathname', .opened i n pathname' ∉ s.log) :
    Served tree { s with log := s.log ++ [.opened i n pathname] } :=
  ⟨h.under, h.dirs, fun key' => (h.exists_iff key').trans existsAfter_opened.symm,
    .opened h.history hkey hmade hnew⟩

/-- The master starts with an empty book. -/
theorem served_start : Served (ι := ι) tree ⟨tree.entry, []⟩ :=
  ⟨tree.under, fun _ _ _ => Iff.rfl, fun _ => rfl, .nil⟩

/-- A step that adds events, none of which is a return of the client. -/
theorem allowed_of_log {more : List (Event ι)} (h : Served tree s')
    (hlog : s'.log = s.log ++ more)
    (hmore : ∀ j, j ≠ i → ∀ n pathname, .opened j n pathname ∉ more) :
    (namesDiscipline ι tree).Allowed i s s' :=
  ⟨h, fun j hj => ⟨more, hlog, hmore j hj⟩⟩

/-- A request once: what the master does, and what its answer tells. -/
theorem transmit_step {request : Request} {a : Option Reply} (h : Served tree s)
    (hsem : s.Transmit tree i n request a s') :
    Served tree s' ∧ Told tree s'.log i n request a ∧
      ∃ more, s'.log = s.log ++ more ∧ ∀ j m pathname, .opened j m pathname ∉ more := by
  have hsame : ∃ more, s.log = s.log ++ more ∧ ∀ j m pathname, .opened j m pathname ∉ more :=
    ⟨[], by simp⟩
  cases request with
  | lookup parent name =>
      obtain ⟨rfl, reply, rfl, hreply⟩ := hsem
      refine ⟨h, ⟨reply, rfl, ?_⟩, hsame⟩
      cases hentry : s'.entry (parent, name) with
      | none =>
          rw [hentry] at hreply
          exact .inr hreply
      | some inode =>
          rw [hentry] at hreply
          obtain ⟨hlength, rfl⟩ := hreply
          exact .inl ⟨hlength, h.under _ _ hentry, fun hdir => (h.dirs _ _ hdir).mp hentry⟩
  | mknod parent name type mode rdev =>
      obtain ⟨inode, hfree, hdir, hfile, rfl, -⟩ | ⟨rfl, hrefused⟩ := hsem
      · refine ⟨h.make hfree hdir hfile, ?_, [.made i n (parent, name)], rfl, by simp⟩
        exact fun _ _ _ => ⟨hdir, List.mem_append_right _ List.mem_cons_self⟩
      · refine ⟨h, ?_, hsame⟩
        intro reply hreply hgrants
        obtain ⟨hone, hstatus, -⟩ := hrefused reply hreply
        obtain ⟨-, hzero⟩ | ⟨hne, -⟩ := hgrants
        · exact absurd (by simp [hzero, STATUS_OK]) hstatus
        · exact absurd hone hne
  | unlink parent name =>
      obtain ⟨inode, hentry, hfile, rfl⟩ | rfl := hsem
      · exact ⟨h.unlink hentry hfile, trivial, [.unlinked (parent, name)], rfl, by simp⟩
      · exact ⟨h, trivial, hsame⟩
  | _ =>
      obtain rfl := hsem
      exact ⟨h, trivial, hsame⟩

/-! ## The clients -/

variable {retries : ℕ}

/-- What a client knows in its `n`-th call: it has returned from earlier calls only,
and what the answers so far have told. -/
def Knows (tree : Tree) (i : ι) (t : ClientTrace) (n : ℕ) (s : Names ι) : Prop :=
  (∀ m pathname, .opened i m pathname ∈ s.log → m < n) ∧
    ∀ request answer, (⟨.master (.send request), answer⟩ : Σ o : FileCall, o.Answer) ∈ t →
      Told tree s.log i n request answer

/-- A client knows what it knew after events of others. -/
theorem Knows.mono {t : ClientTrace} (h : Knows tree i t n s) {more : List (Event ι)}
    (hlog : s'.log = s.log ++ more) (hmore : ∀ m pathname, .opened i m pathname ∉ more) :
    Knows tree i t n s' := by
  refine ⟨?_, ?_⟩
  · intro m pathname hmem
    rw [hlog, List.mem_append] at hmem
    obtain hmem | hmem := hmem
    · exact h.1 m pathname hmem
    · exact absurd hmem (hmore m pathname)
  · intro request answer hmem
    refine (h.2 request answer hmem).mono fun e he => ?_
    rw [hlog]
    exact List.mem_append_left _ he

/-- What a client knows is stable. -/
theorem Knows.stable (t : ClientTrace) : (namesDiscipline ι tree).Stable i (Knows tree i t n) := by
  rintro s s' - - ⟨more, hlog, hmore⟩ h
  exact h.mono hlog hmore

/-- A request is answered as the master's book tells.
SOURCE: moose.cc:812-850 -/
theorem triple_transmit (t : ClientTrace) (request : Request) :
    (namesDiscipline ι tree).Triple (clientSystem tree retries).sem i (Knows tree i t n)
      (Prog.op (TransmitCall.transmit n request))
      fun answer s => Knows tree i t n s ∧ Told tree s.log i n request answer := by
  refine Discipline.Triple.op (Knows.stable t) ?_
  intro s a s' hs hknows hsem
  obtain ⟨hserved, htold, more, hlog, hmore⟩ := transmit_step hs hsem
  exact ⟨allowed_of_log hserved hlog fun j _ => hmore j, hknows.mono hlog (hmore i), htold⟩

/-- A request that is sent again is answered as the master's book tells.
SOURCE: moose.cc:812-850 -/
theorem triple_transmitLoop (t : ClientTrace) (request : Request) (retry : ℕ) :
    (namesDiscipline ι tree).Triple (clientSystem tree retries).sem i (Knows tree i t n)
      (transmitLoop n request retry)
      fun answer s => Knows tree i t n s ∧ Told tree s.log i n request answer := by
  induction retry with
  | zero => exact triple_transmit t request
  | succ retry ih =>
      refine Discipline.Triple.bind (triple_transmit t request) ?_
      rintro (_ | reply)
      · exact ih.pre fun _ _ h => h.1
      · exact .ret fun _ _ h => h

/-- A client that was told something knows it. -/
theorem Knows.append {t : ClientTrace} {e : Σ o : FileCall, o.Answer} (h : Knows tree i t n s)
    (he : ∀ request answer, (⟨.master (.send request), answer⟩ : Σ o : FileCall, o.Answer) = e →
      Told tree s.log i n request answer) : Knows tree i (t ++ [e]) n s := by
  refine ⟨h.1, fun request answer hmem => ?_⟩
  obtain hmem | hmem := List.mem_append.mp hmem
  · exact h.2 request answer hmem
  · exact he request answer (List.mem_singleton.mp hmem)

/-- The calls of a file add to what is known. -/
theorem triple_transmitted (t : ClientTrace) (o : FileCall) :
    (namesDiscipline ι tree).Triple (clientSystem tree retries).sem i (Knows tree i t n)
      (transmitted retries o n) fun r s => r.2 = n ∧ Knows tree i (t ++ [⟨o, r.1⟩]) n s := by
  have hother : ∀ o : FileCall, (∀ request, o ≠ .master (.send request)) →
      (namesDiscipline ι tree).Triple (clientSystem tree retries).sem i (Knows tree i t n)
        (do
          let answer ← Prog.op (TransmitCall.other o)
          pure (answer, n))
        fun (r : o.Answer × ℕ) s => r.2 = n ∧ Knows tree i (t ++ [⟨o, r.1⟩]) n s := by
    intro o ho
    refine Discipline.Triple.bind (R := fun _ => Knows tree i t n) ?_ fun answer => .ret ?_
    · refine Discipline.Triple.op (Knows.stable t) ?_
      rintro s a s' hs hknows rfl
      have hlog : s'.log = s'.log ++ [] := (List.append_nil _).symm
      exact ⟨allowed_of_log hs hlog (by simp), hknows⟩
    · intro s _ hknows
      refine ⟨rfl, hknows.append fun request answer heq => ?_⟩
      cases heq
      exact absurd rfl (ho request)
  cases o with
  | master o =>
      cases o with
      | send request =>
          refine Discipline.Triple.bind (triple_transmitLoop t request retries) fun answer =>
            .ret ?_
          rintro s - ⟨hknows, htold⟩
          refine ⟨rfl, hknows.append fun request' answer' heq => ?_⟩
          cases heq
          exact htold
      | disconnect =>
          refine Discipline.Triple.ret fun s _ hknows => ⟨rfl, hknows.append fun _ _ heq => ?_⟩
          cases heq
  | _ => exact hother _ (by simp)

/-- The calls of a program are told, by induction on the program. -/
theorem triple_lowered {α : Type} (p : Client α) :
    (namesDiscipline ι tree).Triple (clientSystem tree retries).sem i (Knows tree i [] n)
      (p.lower (transmitted retries) n)
      fun r s => ∃ t, p.Runs t r.1 ∧ Knows tree i t n s := by
  have hcall : ∀ t x o, (namesDiscipline ι tree).Triple (clientSystem tree retries).sem i
      (fun s => x = n ∧ Knows tree i t n s) (transmitted retries o x)
      fun r s => r.2 = n ∧ Knows tree i (t ++ [⟨o, r.1⟩]) n s := by
    intro t x o
    refine Discipline.Triple.intro ?_
    rintro rfl
    exact triple_transmitted t o
  have h := Discipline.Triple.lower (P := fun t x s => x = n ∧ Knows tree i t n s) hcall p [] n
  refine h.conseq (fun _ _ hknows => ⟨rfl, hknows⟩) ?_
  rintro r s - ⟨t, hruns, -, hknows⟩
  exact ⟨t, hruns, hknows⟩

/-- An exclusive `mfs_open` that returns a descriptor has made the entry of the path. -/
theorem mfs_open_told {uninit : Uninit} {map_ map_' : Descriptors} {mode : ℕ} {t : ClientTrace}
    {ret : ℤ} (h : (mfs_open uninit map_ pathname exclusive mode).Runs t (ret, map_'))
    (hret : ret ≠ -1) (hknows : Knows tree i t n s) :
    ∃ key, tree.key pathname = some key ∧ .made i n key ∈ s.log := by
  obtain ⟨t₁, t₂, ⟨ret₁, f⟩, rfl, hopen, hrest⟩ := Prog.runs_bind.mp h
  obtain ⟨rfl, heq⟩ := hrest
  obtain ⟨t₀, hopen₀, rfl⟩ := Prog.runs_embed.mp hopen
  by_cases hok : ret₁ = 0
  · subst hok
    refine openFile_told hopen₀ fun request answer hmem => hknows.2 request answer ?_
    exact List.mem_append_left _ (List.mem_map.mpr ⟨_, hmem, rfl⟩)
  · rw [Descriptors.enter, if_neg hok] at heq
    exact absurd (congrArg Prod.fst heq) hret

/-- Between two calls, a client has returned from as many as it has made. -/
def Returned (i : ι) (l : ClientState) (s : Names ι) : Prop :=
  ∀ m pathname, .opened i m pathname ∈ s.log → m < l.calls

/-- A use of a file ends with what the client has opened. -/
theorem triple_body (l : ClientState) (use : ClientUse) :
    (namesDiscipline ι tree).Triple (clientSystem tree retries).sem i
      (fun s => (clientSystem tree retries).enabled i l use s = true ∧ Returned i l s)
      ((clientSystem tree retries).body i l use) (Returned i) := by
  have hstart : ∀ s, Returned i l s → Knows tree i [] l.calls s := fun s h =>
    ⟨h, fun _ _ hmem => by cases hmem⟩
  have hnext : ∀ {t : ClientTrace} {s : Names ι} {map_ : Descriptors},
      Knows tree i t l.calls s → Returned i { map_ := map_, calls := l.calls + 1 } s :=
    fun h m pathname hmem => (h.1 m pathname hmem).trans (Nat.lt_succ_self _)
  cases use with
  | mfs_open uninit pathname flags mode =>
      refine Discipline.Triple.bind ((triple_lowered _).pre fun s _ h => hstart s h.2) fun r => ?_
      refine Discipline.Triple.ite (fun hcond => ?_) fun _ => .ret ?_
      · obtain ⟨rfl, hret⟩ := hcond
        refine Discipline.Triple.bind (R := fun _ => Returned i ⟨r.1.2, l.calls + 1⟩) ?_
          fun _ => .ret fun _ _ h => h
        refine Discipline.Triple.op ?_ ?_
        · rintro s s' hs hs' hf ⟨t, hruns, hknows⟩
          exact ⟨t, hruns, Knows.stable t s s' hs hs' hf hknows⟩
        · rintro s a s' hs ⟨t, hruns, hknows⟩ rfl
          obtain ⟨key, hkey, hmade⟩ := mfs_open_told hruns hret hknows
          have hnew : ∀ pathname', .opened i l.calls pathname' ∉ s.log :=
            fun pathname' hmem => (hknows.1 _ _ hmem).ne rfl
          refine ⟨allowed_of_log (hs.opened hkey hmade hnew) rfl ?_, ?_⟩
          · intro j hj m pathname' hmem
            cases List.mem_singleton.mp hmem
            exact hj rfl
          · intro m pathname' hmem
            obtain hmem | hmem := List.mem_append.mp hmem
            · exact (hknows.1 _ _ hmem).trans (Nat.lt_succ_self _)
            · cases List.mem_singleton.mp hmem
              exact Nat.lt_succ_self _
      · rintro s - ⟨t, -, hknows⟩
        exact hnext hknows
  | mfs_creat pathname mode =>
      refine Discipline.Triple.bind ((triple_lowered _).pre fun s _ h => hstart s h.2) fun r =>
        .ret ?_
      rintro s - ⟨t, -, hknows⟩
      exact hnext hknows
  | mfs_unlink pathname =>
      refine Discipline.Triple.bind ((triple_lowered _).pre fun s _ h => hstart s h.2) fun r =>
        .ret ?_
      rintro s - ⟨t, -, hknows⟩
      exact hnext hknows

/-- **Exclusive opens create once**, for any number of clients: what exists is what
has been made and not unlinked since, and of the calls on a path that is not
unlinked at most one succeeds, none where it existed before.
SOURCE: moose.cc:1256-1329 -/
theorem exclusive_opens_create_once [DecidableEq ι]
    {c : Config TransmitCall TransmitCall.Answer ι (Names ι) ClientState}
    (hc : (clientSystem tree retries).Reachable (ClientInit tree) c) :
    (∀ key, (c.shared.entry key).isSome = existsAfter tree key c.shared.log) ∧
      CreatesOnce tree c.shared.log := by
  have hserved : Served tree c.shared := by
    refine (Discipline.reachable_safe (D := namesDiscipline ι tree) (J := Returned) ?_ ?_ ?_ hc).1
    · rintro i l s s' - - ⟨more, hlog, hmore⟩ hreturned m pathname hmem
      rw [hlog, List.mem_append] at hmem
      obtain hmem | hmem := hmem
      · exact hreturned m pathname hmem
      · exact absurd hmem (hmore m pathname)
    · intro i l use
      exact triple_body l use
    · rintro c ⟨hshared, hidle⟩
      rw [hshared]
      refine ⟨served_start, fun i => ?_⟩
      rw [hidle i]
      intro m pathname hmem
      cases hmem
  exact ⟨hserved.exists_iff, hserved.history.createsOnce⟩

/-! ## A run -/

def emptyTree : Tree where
  isDir := fun inode => inode == MFS_ROOT_ID
  entry := fun _ => none
  under := by
    intro key inode h
    cases h

def lockOpen : ClientUse := .mfs_open ⟨0, 0⟩ (Text.ascii "a") exclusive 0

def noEntry : Reply := ⟨1, fun _ => 3⟩

def entrySeven : Reply := ⟨39, fun i => if i = 3 then 7 else 0⟩

def entryExists : Reply := ⟨1, fun _ => 5⟩

def lockKey : Entry := (MFS_ROOT_ID, Text.ascii "a")

/-- Two clients look `a` up before either asks for it to be made. -/
theorem exclusive_opens_create_once_raced :
    ∃ c : Config TransmitCall TransmitCall.Answer Bool (Names Bool) ClientState,
      c.shared.log = [.made false 0 lockKey, .opened false 0 (Text.ascii "a")] ∧
        c.thread true = .ret { calls := 1 } ∧ CreatesOnce emptyTree c.shared.log := by
  have h : (clientSystem emptyTree 3).Reachable (ClientInit emptyTree)
      (⟨⟨emptyTree.entry, []⟩, fun _ => .ret {}⟩ : Config _ _ Bool _ _) :=
    ⟨_, ⟨rfl, fun _ => rfl⟩, .refl⟩
  have h := h.start (i := false) lockOpen rfl rfl
  have h := h.act (i := false) (some noEntry) _ rfl ⟨rfl, _, rfl, rfl, rfl⟩
  have h := h.start (i := true) lockOpen rfl rfl
  have h := h.act (i := true) (some noEntry) _ rfl ⟨rfl, _, rfl, rfl, rfl⟩
  have h := h.act (i := false) (some entrySeven) _ rfl
    (.inl ⟨7, rfl, rfl, rfl, rfl, by rintro reply ⟨⟩; exact ⟨rfl, rfl⟩⟩)
  have h := h.act (i := false) () _ rfl rfl
  have h := h.act (i := true) (some entryExists) _ rfl
    (.inr ⟨rfl, by rintro reply ⟨⟩; exact ⟨rfl, by decide, fun _ => rfl⟩⟩)
  exact ⟨_, rfl, rfl, (exclusive_opens_create_once h).2⟩

end Moose

end BundleStore
