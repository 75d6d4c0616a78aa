import BundleStore.Lib.Text
import BundleStore.Model.MasterLookup

set_option autoImplicit false

/-!
# Path lookup is a fold

The loop over the buffer makes the lookups that a fold over the components of the path makes, and
ends on every string.
-/

namespace BundleStore

namespace Moose

namespace MasterServer

/-- The components of a path that are not empty. -/
def components (name : Bytes) : List Bytes :=
  (name.splitOn 47).filter (· ≠ [])

/-! ## The buffer -/

section Buffer

variable {before f g : Bytes}

/-- A field in the middle of the buffer is a C string. -/
theorem cString_middle (before : Bytes) (hf : (0 : UInt8) ∉ f) (after : Bytes) :
    cString (before ++ (f ++ 0 :: after)) before.length = f := by
  rw [cString, List.drop_left, List.takeWhile_append_of_pos]
  · simp
  · intro b hb
    rw [bne_iff_ne]
    rintro rfl
    exact hf hb

/-- No slash is found in the last field. -/
theorem strchr_none (before : Bytes) (hf : (0 : UInt8) ∉ f) (hslash : (47 : UInt8) ∉ f) :
    strchr (before ++ (f ++ [0])) before.length 47 = none := by
  rw [strchr, cString_middle before hf, Text.findIdx?_eq_none_of_not_mem hslash]
  rfl

/-- The slash behind a field is found.
SOURCE: moose.cc:505 -/
theorem strchr_some (before : Bytes) (hf : (0 : UInt8) ∉ f ++ 47 :: g) (hslash : (47 : UInt8) ∉ f) :
    strchr (before ++ (f ++ 47 :: g ++ [0])) before.length 47 =
      some (before.length + f.length) := by
  have hfind : (f ++ 47 :: g).findIdx? (· == 47) = some f.length := by
    rw [List.findIdx?_append, Text.findIdx?_eq_none_of_not_mem hslash]
    simp [List.findIdx?_cons]
  rw [strchr, cString_middle before hf, hfind]
  rfl

/-- The NUL is stored over the slash. -/
theorem set_slash (before f g : Bytes) :
    (before ++ (f ++ 47 :: g ++ [0])).set (before.length + f.length) 0 =
      before ++ (f ++ 0 :: (g ++ [0])) := by
  rw [List.set_append_right _ _ (Nat.le_add_right _ _), Nat.add_sub_cancel_left, List.append_assoc,
    List.set_append_right _ _ (Nat.le_refl _), Nat.sub_self]
  rfl

/-- The byte at the cursor is NUL when the component is empty. -/
theorem getD_cursor (before : Bytes) (hf : (0 : UInt8) ∉ f) (after : Bytes) :
    (before ++ (f ++ 0 :: after)).getD before.length 0 ≠ 0 ↔ f ≠ [] := by
  cases f with
  | nil => simp
  | cons b f =>
      have hb : b ≠ 0 := by
        rintro rfl
        exact hf List.mem_cons_self
      simp [hb]

end Buffer

/-! ## The loop -/

section Loop

variable {before rest f : Bytes} {to_free to_free' : Bytes} {copy : ℕ} {slash : Option ℕ}
  {inode_temp : ℕ} {attr_temp : FileAttribute}

/-- One pass at the component `f`: it is looked up, unless it is empty. -/
theorem lookupRound_eq (hslash : strchr to_free copy 47 = slash)
    (hstore : storeNul to_free slash = to_free')
    (hf : cString to_free' copy = f)
    (hne : slash ≠ some copy ∧ to_free'.getD copy 0 ≠ 0 ↔ f ≠ []) :
    lookupRound ⟨to_free, copy, inode_temp, attr_temp⟩ =
      if f = [] then pure (PathCursor.next ⟨to_free', copy, inode_temp, attr_temp⟩ slash)
      else
        lookup inode_temp f true true >>= fun r =>
          if r.1 ≠ STATUS_OK then
            pure (.inr (r.1, r.2.inode.getD inode_temp, r.2.attr.getD attr_temp))
          else
            pure (PathCursor.next ⟨to_free', copy, r.2.inode.getD inode_temp,
              r.2.attr.getD attr_temp⟩ slash) := by
  unfold lookupRound
  dsimp only
  rw [hslash, hstore, hf]
  by_cases hempty : f = []
  · rw [if_pos hempty, if_neg fun h => hne.mp h hempty]
  · rw [if_neg hempty, if_pos (hne.mpr hempty)]

/-- A field is passed over if it is empty, else looked up.
SOURCE: moose.cc:511-518 -/
theorem lookupFrom_cons (f : Bytes) (fields : List Bytes) (inode_temp : ℕ)
    (attr_temp : FileAttribute) :
    lookupFrom inode_temp attr_temp (f :: fields) =
      if f = [] then lookupFrom inode_temp attr_temp fields
      else
        lookup inode_temp f true true >>= fun r =>
          if r.1 ≠ STATUS_OK then
            pure (r.1, r.2.inode.getD inode_temp, r.2.attr.getD attr_temp)
          else
            lookupFrom (r.2.inode.getD inode_temp) (r.2.attr.getD attr_temp) fields := by
  rw [lookupFrom]
  simp only [List.isEmpty_iff]

/-- The loop from a cursor on looks up the components behind it. -/
theorem attempts_lookup {rounds : ℕ} (before : Bytes) (hrest : (0 : UInt8) ∉ rest)
    (hrounds : rest.length < rounds) (inode_temp : ℕ) (attr_temp : FileAttribute) :
    Prog.attempts lookupRound rounds
        ⟨before ++ (rest ++ [0]), before.length, inode_temp, attr_temp⟩ =
      some <$> lookupFrom inode_temp attr_temp (rest.splitOn 47) := by
  induction rounds generalizing before rest inode_temp attr_temp with
  | zero => exact absurd hrounds (Nat.not_lt_zero _)
  | succ rounds ih =>
      rw [Prog.attempts]
      by_cases hslash : (47 : UInt8) ∈ rest
      · obtain ⟨f, g, rfl, hf⟩ := List.eq_append_cons_of_mem hslash
        have hfz : (0 : UInt8) ∉ f := fun h => hrest (List.mem_append_left _ h)
        have hgz : (0 : UInt8) ∉ g := fun h =>
          hrest (List.mem_append_right f (List.mem_cons_of_mem _ h))
        have hshort : g.length < rounds := by
          rw [List.length_append, List.length_cons] at hrounds
          omega
        have hround := @lookupRound_eq f _ _ before.length _ inode_temp attr_temp
          (strchr_some before hrest hf) (set_slash before f g) (cString_middle before hfz _)
          ⟨fun h => (getD_cursor before hfz _).mp h.2, fun h =>
            ⟨by simpa using h, (getD_cursor before hfz _).mpr h⟩⟩
        have hnext (inode : ℕ) (attr : FileAttribute) :
            PathCursor.next ⟨before ++ (f ++ 0 :: (g ++ [0])), before.length, inode, attr⟩
                (some (before.length + f.length)) =
              .inl ⟨(before ++ f ++ [0]) ++ (g ++ [0]), (before ++ f ++ [0]).length, inode,
                attr⟩ := by
          simp [PathCursor.next, Nat.add_assoc]
        have hsplit : (f ++ 47 :: g).splitOn 47 = f :: g.splitOn 47 := by
          have hfree : ∀ b ∈ f, (b == 47) = false := by
            intro b hb
            rw [beq_eq_false_iff_ne]
            rintro rfl
            exact hf hb
          exact List.splitOnP_append_cons_of_forall_mem hfree 47 rfl g
        rw [hround, hsplit, lookupFrom_cons]
        by_cases hempty : f = []
        · rw [if_pos hempty, if_pos hempty, pure_bind, hnext]
          exact ih _ hgz hshort inode_temp attr_temp
        · rw [if_neg hempty, if_neg hempty, bind_assoc, map_bind]
          congr 1
          funext r
          by_cases hret : r.1 ≠ STATUS_OK
          · rw [if_pos hret, if_pos hret]
            rfl
          · rw [if_neg hret, if_neg hret, pure_bind, hnext]
            exact ih _ hgz hshort _ _
      · have hround := @lookupRound_eq rest _ _ before.length _ inode_temp attr_temp
          (strchr_none before hrest hslash) rfl (cString_middle before hrest _)
          ⟨fun h => (getD_cursor before hrest []).mp h.2, fun h =>
            ⟨by simp, (getD_cursor before hrest []).mpr h⟩⟩
        have hsplit : rest.splitOn 47 = [rest] := by
          refine List.splitOnP_eq_singleton fun b hb => ?_
          rw [beq_eq_false_iff_ne]
          rintro rfl
          exact hslash hb
        rw [hround, hsplit, lookupFrom_cons]
        by_cases hempty : rest = []
        · rw [if_pos hempty, if_pos hempty]
          rfl
        · rw [if_neg hempty, if_neg hempty, bind_assoc, map_bind]
          congr 1
          funext r
          by_cases hret : r.1 ≠ STATUS_OK
          · rw [if_pos hret, if_pos hret]
            rfl
          · rw [if_neg hret, if_neg hret]
            rfl

/-- Empty fields may be left out.
SOURCE: moose.cc:511 -/
theorem lookupFrom_filter (fields : List Bytes) (inode_temp : ℕ) (attr_temp : FileAttribute) :
    lookupFrom inode_temp attr_temp fields =
      lookupFrom inode_temp attr_temp (fields.filter (· ≠ [])) := by
  induction fields generalizing inode_temp attr_temp with
  | nil => rfl
  | cons f fields ih =>
      rw [lookupFrom_cons]
      by_cases hempty : f = []
      · rw [if_pos hempty, List.filter_cons_of_neg (by simpa using hempty), ih]
      · rw [if_neg hempty, List.filter_cons_of_pos (by simpa using hempty), lookupFrom_cons,
          if_neg hempty]
        congr 1
        funext r
        rw [ih]

/-- The loop gives what the lookups of the components give, for every string and every number of
passes that is larger than its length. -/
theorem lookupName_eq {name : Bytes} (hname : (0 : UInt8) ∉ name) (inode attr : Bool)
    (uninit : FileAttribute) {rounds : ℕ} (hrounds : name.length < rounds) :
    lookupName name inode attr uninit rounds =
      (fun result => some (pathOutputs inode attr result)) <$>
        lookupFrom MFS_ROOT_ID uninit (components name) := by
  have hdup : strdup name = [] ++ (name ++ [0]) := by
    rw [strdup, List.takeWhile_eq_self_iff.mpr]
    · rfl
    · intro b hb
      rw [bne_iff_ne]
      rintro rfl
      exact hname hb
  have hloop := attempts_lookup [] hname hrounds MFS_ROOT_ID uninit
  rw [lookupFrom_filter] at hloop
  unfold lookupName
  rw [hdup]
  refine (congrArg (· >>= fun result => pure (result.map (pathOutputs inode attr))) hloop).trans ?_
  rw [components, bind_pure_comp, ← comp_map]
  rfl

end Loop

/-! ## A directory tree that does not change -/

/-- The statuses of a lookup that has failed. -/
abbrev Failure : Type :=
  {status : ℕ // status ≠ 0 ∧ status < 256}

/-- What a directory tree has under a name in a directory. -/
abbrev Directories : Type :=
  ℕ → Bytes → Except Failure (ℕ × FileAttribute)

/-- The reply of the master tells what there is. -/
def Tells (found : Except Failure (ℕ × FileAttribute)) (reply : Reply) : Prop :=
  match found with
  | .error status => reply.length = 1 ∧ get8bit reply.rptr 0 = status
  | .ok (inode, attr) =>
      reply.length = 39 ∧ get32bit reply.rptr 0 = inode ∧ FileAttribute.ofMem reply.rptr 4 = attr

variable {σ : Type} {sem : (o : MasterCall) → σ → o.Answer → σ → Prop} {dirs : Directories}

/-- Lookups of names that a request can have are answered from the directories. -/
def Static (dirs : Directories) (sem : (o : MasterCall) → σ → o.Answer → σ → Prop) : Prop :=
  ∀ parent name s a s', name.length ≤ 255 → sem (.send (.lookup parent name)) s a s' →
    ∃ reply, a = some reply ∧ Tells (dirs parent name) reply

/-- The fold of the lookups, which ends at the first that fails. -/
def Directories.resolve (dirs : Directories) (start : ℕ × FileAttribute) (names : List Bytes) :
    Except Failure (ℕ × FileAttribute) :=
  names.foldlM (fun at_ name => dirs at_.1 name) start

/-- The status of the component that has failed and no outputs, or the outputs of the last
component. -/
def resolved (inode attr : Bool) (found : Except Failure (ℕ × FileAttribute)) : RpcResult :=
  match found with
  | .error status => ((status : ℕ), {})
  | .ok (inode_temp, attr_temp) =>
      (STATUS_OK,
        { inode := if inode then some inode_temp else none
          attr := if attr then some attr_temp else none })

/-- A lookup in static directories finds the entry.
SOURCE: moose.cc:456-493 -/
theorem executes_lookup (hstatic : Static dirs sem) {parent : ℕ} {name : Bytes}
    (hname : name.length ≤ 255) {r : RpcResult} {s s' : σ}
    (h : (lookup parent name true true).Executes sem s r s') :
    r = resolved true true (dirs parent name) := by
  unfold lookup exchange at h
  obtain ⟨a, s₁, hsend, h⟩ := Prog.executes_bind.mp h
  obtain ⟨a', s₂, hsem, rfl, rfl⟩ := hsend
  obtain ⟨reply, rfl, htells⟩ := hstatic _ _ _ _ _ hname hsem
  cases hfound : dirs parent name with
  | error status =>
      rw [hfound] at htells
      obtain ⟨hlength, hstatus⟩ := htells
      simp only [hlength, if_true] at h
      obtain ⟨rfl, rfl⟩ := h
      rw [hstatus]
      rfl
  | ok found =>
      rw [hfound] at htells
      obtain ⟨hlength, hinode, hattr⟩ := htells
      simp only [hlength, beq_self_eq_true, if_true] at h
      obtain ⟨rfl, rfl⟩ := h
      rw [entryOutputs, hinode, hattr]
      rfl

/-- Looking up the components one after the other follows the directories. -/
theorem executes_lookupFrom (hstatic : Static dirs sem) {names : List Bytes}
    (hnames : ∀ name ∈ names, name ≠ [] ∧ name.length ≤ 255) {inode : ℕ} {attr : FileAttribute}
    {result : ℤ × ℕ × FileAttribute} {s s' : σ}
    (h : (lookupFrom inode attr names).Executes sem s result s') (inode' attr' : Bool) :
    pathOutputs inode' attr' result =
      resolved inode' attr' (dirs.resolve (inode, attr) names) := by
  induction names generalizing inode attr s with
  | nil =>
      obtain ⟨rfl, rfl⟩ := h
      rfl
  | cons name names ih =>
      obtain ⟨hne, hlen⟩ := hnames name List.mem_cons_self
      rw [lookupFrom_cons, if_neg hne] at h
      obtain ⟨r, s₁, hlookup, h⟩ := Prog.executes_bind.mp h
      obtain rfl := executes_lookup hstatic hlen hlookup
      rw [Directories.resolve, List.foldlM_cons]
      cases hfound : dirs inode name with
      | error status =>
          have hstatus : ((status : ℕ) : ℤ) ≠ STATUS_OK := by
            intro hzero
            exact status.2.1 (Int.ofNat.inj hzero)
          rw [hfound] at h
          simp only [resolved, hstatus, ne_eq, not_false_eq_true, if_true] at h
          obtain ⟨rfl, rfl⟩ := h
          rw [pathOutputs, if_pos hstatus]
          rfl
      | ok found =>
          rw [hfound] at h
          exact ih (fun n hn => hnames n (List.mem_cons_of_mem name hn)) h

/-- **`Lookup(path)` is the fold of `Lookup(parent, component)` over the components that are not
empty, whatever the master answers. When it answers from directories that do not change, the result
is that of the fold over them**: the first failure, or the outputs of the last component.
SOURCE: moose.cc:495-531 -/
theorem path_lookup_is_fold {name : Bytes} (hname : (0 : UInt8) ∉ name) (inode attr : Bool)
    (uninit : FileAttribute) {rounds : ℕ} (hrounds : name.length < rounds) :
    lookupName name inode attr uninit rounds =
        (fun result => some (pathOutputs inode attr result)) <$>
          lookupFrom MFS_ROOT_ID uninit (components name) ∧
      ∀ (σ : Type) (sem : (o : MasterCall) → σ → o.Answer → σ → Prop) (dirs : Directories),
        Static dirs sem → (∀ component ∈ components name, component.length ≤ 255) →
        ∀ s result s', (lookupName name inode attr uninit rounds).Executes sem s result s' →
          result = some (resolved inode attr
            (dirs.resolve (MFS_ROOT_ID, uninit) (components name))) := by
  refine ⟨lookupName_eq hname inode attr uninit hrounds, ?_⟩
  intro σ sem dirs hstatic hshort s result s' h
  rw [lookupName_eq hname inode attr uninit hrounds, ← bind_pure_comp] at h
  obtain ⟨result', s₁, hfrom, rfl, -⟩ := Prog.executes_bind.mp h
  have hnames : ∀ component ∈ components name, component ≠ [] ∧ component.length ≤ 255 := by
    intro component hmem
    exact ⟨by simpa using (List.mem_filter.mp hmem).2, hshort component hmem⟩
  exact congrArg some (executes_lookupFrom hstatic hnames hfrom inode attr)

/-- What the master sends for inode 7. -/
def sevenMem : Mem := fun pos => if pos = 3 then 7 else 0

/-- The root has one entry. -/
def oneEntry : Directories := fun parent name =>
  if parent = MFS_ROOT_ID ∧ name = Text.ascii "a" then .ok (7, FileAttribute.ofMem sevenMem 4)
  else .error ⟨3, by decide⟩

def tell (found : Except Failure (ℕ × FileAttribute)) : Reply :=
  match found with
  | .error status => ⟨1, fun _ => UInt8.ofNat status⟩
  | .ok _ => ⟨39, sevenMem⟩

/-- Lookups are answered from the one entry. -/
def OneEntrySem : (o : MasterCall) → Unit → o.Answer → Unit → Prop
  | .send (.lookup parent name), _, a, _ => a = some (tell (oneEntry parent name))
  | _, _, _, _ => True

/-- The example's directories do not change. -/
theorem oneEntry_static : Static oneEntry OneEntrySem := by
  intro parent name s a s' _ h
  refine ⟨_, h, ?_⟩
  unfold oneEntry
  split
  · exact ⟨rfl, rfl, rfl⟩
  · exact ⟨rfl, rfl⟩

/-- `//a/b/` is looked up as `a` and `b`. -/
theorem path_lookup_is_fold_a :
    lookupName (Text.ascii "//a/b/") true true FileAttribute.zero 7 =
        (fun result => some (pathOutputs true true result)) <$>
          lookupFrom MFS_ROOT_ID FileAttribute.zero (components (Text.ascii "//a/b/")) ∧
      ∀ result, (lookupName (Text.ascii "//a/b/") true true FileAttribute.zero 7).Executes
          OneEntrySem () result () →
        result = some (resolved true true
          (oneEntry.resolve (MFS_ROOT_ID, FileAttribute.zero)
            (components (Text.ascii "//a/b/")))) := by
  obtain ⟨hfold, hstatic⟩ := path_lookup_is_fold
    (show (0 : UInt8) ∉ Text.ascii "//a/b/" by decide) true true FileAttribute.zero
    (show (Text.ascii "//a/b/").length < 7 by decide)
  refine ⟨hfold, fun result hrun => ?_⟩
  exact hstatic Unit OneEntrySem oneEntry oneEntry_static (by decide) () result () hrun

end MasterServer

end Moose

end BundleStore
