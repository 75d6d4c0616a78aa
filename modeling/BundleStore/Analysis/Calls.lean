import BundleStore.Analysis.Layout
import BundleStore.Model.World

set_option autoImplicit false

/-!
# What a call does to the state

`Effect` lists the states that a call may leave, and `Sem.effect` says that there
are no others. What every call leaves alone is read off that list. The last part
says which calls the parts of `Allocate` make.
-/

namespace BundleStore

open Machine Posix

namespace World

variable {ι κ : Type} [DecidableEq ι] [DecidableEq κ] {cwd : Loc} {proc : ι → κ}

/-- The states that a call of thread `i` may leave. -/
inductive Effect (cwd : Loc) (proc : ι → κ) (i : ι) (w : World ι κ) :
    SysCall → World ι κ → Prop
  | unchanged {o : SysCall} : Effect cwd proc i w o w
  | failed {o : SysCall} (e : ℕ) : Effect cwd proc i w o (w.setErrno i e)
  | created {p : Bytes} {fd : Fd} {t : Tree} (h : w.tree.openExcl cwd p = .ok (fd, t)) :
      Effect cwd proc i w (.openExcl p) ((w.setTree t).setHolds i fd.loc true)
  | truncated {p : Bytes} {fd : Fd} {t : Tree} (h : w.tree.openTrunc cwd p = .ok (fd, t)) :
      Effect cwd proc i w (.openTrunc p) (w.setTree t)
  | wrote {fd : Fd} {site : WriteSite} {data : Bytes} (n : ℕ) :
      Effect cwd proc i w (.write fd site data) (w.wrote fd site data n)
  | madeDir {p : Bytes} {t : Tree} (h : w.tree.mkdir cwd p = .ok t) :
      Effect cwd proc i w (.mkdir p) (w.setTree t)
  | removed {p : Bytes} {t : Tree} (h : w.tree.unlink cwd p = .ok t) :
      Effect cwd proc i w (.unlink p) ((w.setTree t).setHolds i (canon cwd p) false)
  | readId (site : LastIdSite) :
      Effect cwd proc i w (.getLastId site) (w.readLastId i site (w.lastId (proc i)))
  | setId (id : ℤ) : Effect cwd proc i w (.setLastId id) (w.setLastId proc i id)
  | incId : Effect cwd proc i w .incLastId (w.setLastId proc i (int32 (w.lastId (proc i) + 1)))
  | noted {p : Bytes} {offset : ℕ} {call : WriteCall} :
      Effect cwd proc i w (.completed p offset call) (w.completed (canon cwd p) offset call)

/-- A call that is refused changes `errno` alone. -/
theorem Refused.effect {i : ι} {o : SysCall} {w w' : World ι κ} {α : Type} {r : Except ℕ α}
    (h : w.Refused i r w') : Effect cwd proc i w o w' := by
  obtain ⟨e, -, rfl⟩ := h
  exact .failed e

/-- A call that fails changes `errno` alone. -/
theorem Failed.effect {i : ι} {o : SysCall} {w w' : World ι κ} (h : w.Failed i w') :
    Effect cwd proc i w o w' := by
  obtain ⟨e, -, rfl⟩ := h
  exact .failed e

/-- Every call has the effect of its kind. -/
theorem Sem.effect {i : ι} {o : SysCall} {w w' : World ι κ} {a : o.Answer}
    (hsem : Sem cwd proc i o w a w') : Effect cwd proc i w o w' := by
  cases o with
  | openExcl p =>
      cases a with
      | none => exact Refused.effect hsem
      | some fd =>
          obtain ⟨t, h, rfl⟩ := hsem
          exact .created h
  | openTrunc p =>
      cases a with
      | none => exact Refused.effect hsem
      | some fd =>
          obtain ⟨t, h, rfl⟩ := hsem
          exact .truncated h
  | openRdwr p =>
      cases a with
      | none => exact Refused.effect hsem
      | some fd =>
          obtain ⟨-, rfl⟩ := hsem
          exact .unchanged
  | lseek fd offset =>
      rcases hsem with ⟨-, -, -, rfl⟩ | ⟨-, -, h⟩
      · exact .unchanged
      · exact h.effect
  | write fd site data =>
      rcases hsem with ⟨n, -, -, -, rfl⟩ | ⟨-, h⟩
      · exact .wrote n
      · exact h.effect
  | close fd =>
      rcases hsem with rfl | h
      · exact .unchanged
      · exact h.effect
  | access p =>
      cases a with
      | false => exact Refused.effect hsem
      | true =>
          obtain ⟨-, rfl⟩ := hsem
          exact .unchanged
  | mkdir p =>
      cases a with
      | false => exact Refused.effect hsem
      | true =>
          obtain ⟨t, h, rfl⟩ := hsem
          exact .madeDir h
  | unlink p =>
      cases a with
      | false => exact Refused.effect hsem
      | true =>
          obtain ⟨t, h, rfl⟩ := hsem
          exact .removed h
  | lstat p =>
      cases a with
      | none => exact Refused.effect hsem
      | some size =>
          obtain ⟨-, rfl, -⟩ := hsem
          exact .unchanged
  | errno =>
      obtain ⟨-, rfl⟩ := hsem
      exact .unchanged
  | newChars n =>
      obtain ⟨-, rfl⟩ := hsem
      exact .unchanged
  | rand =>
      obtain ⟨-, rfl⟩ := hsem
      exact .unchanged
  | getpid =>
      obtain ⟨-, -, rfl⟩ := hsem
      exact .unchanged
  | localtime =>
      obtain ⟨-, rfl⟩ := hsem
      exact .unchanged
  | getLastId site =>
      obtain ⟨rfl, rfl⟩ := hsem
      exact .readId site
  | setLastId id =>
      subst hsem
      exact .setId id
  | incLastId =>
      subst hsem
      exact .incId
  | completed p offset call =>
      subst hsem
      exact .noted

variable {i : ι} {o : SysCall} {w w' : World ι κ}

/-- Every call keeps the directories there are. -/
theorem Effect.grows (h : Effect cwd proc i w o w') : w.tree.Grows w'.tree := by
  cases h with
  | unchanged => exact Tree.Grows.refl _
  | failed e => exact Tree.Grows.refl _
  | created h =>
      obtain ⟨-, -, -, rfl⟩ := Tree.openExcl_ok h
      exact Tree.grows_setFile _ _ _
  | truncated h =>
      obtain ⟨-, -, rfl⟩ := Tree.openTrunc_ok h
      exact Tree.grows_setFile _ _ _
  | wrote n => exact Tree.grows_write _ _ _
  | madeDir h =>
      obtain ⟨m, rfl⟩ := Tree.mkdir_ok h
      exact Tree.grows_setDir _ _
  | removed h =>
      have ht := Tree.unlink_ok h
      subst ht
      exact Tree.grows_remove _ _
  | readId site =>
      rw [readLastId_tree]
      exact Tree.Grows.refl _
  | setId id => exact Tree.Grows.refl _
  | incId => exact Tree.Grows.refl _
  | noted => exact Tree.Grows.refl _

/-- Only the `write` of a record adds to the records that were accepted whole. -/
theorem Effect.accepted_eq (h : Effect cwd proc i w o w')
    (ho : ∀ fd call data, o ≠ .write fd (.record call) data) : w'.accepted = w.accepted := by
  cases h with
  | @wrote fd site data n =>
      cases site with
      | bundleHeader => rfl
      | record call => exact absurd rfl (ho fd call data)
  | readId site =>
      unfold readLastId
      split <;> rfl
  | @noted p offset call =>
      funext l
      unfold World.accepted World.completed
      by_cases hl : l = canon cwd p
      · simp [hl]
      · simp [hl]
  | _ => rfl

omit [DecidableEq ι] [DecidableEq κ] in
/-- The records that were accepted whole after the `write` of one. -/
theorem accepted_wrote {fd : Fd} {call : WriteCall} {data : Bytes} {n : ℕ} :
    (w.wrote fd (.record call) data n).accepted =
      if n = data.length then
        Function.update w.accepted fd.loc (w.accepted fd.loc ++ [⟨fd.pos, call, data⟩])
      else w.accepted := by
  funext l
  unfold World.accepted World.wrote
  by_cases hall : n = data.length
  · simp only [hall, if_true]
    by_cases hl : l = fd.loc
    · rw [hl, Function.update_self, Function.update_self]
      rfl
    · rw [Function.update_of_ne hl, Function.update_of_ne hl]
  · simp only [hall, if_false]

/-- A call adds no record, or it is the `write` of one. -/
theorem Sem.accepted_cases {a : o.Answer} (h : Sem cwd proc i o w a w') :
    w'.accepted = w.accepted ∨ ∃ l, ∃ entry : LogEntry,
      entry.offset + entry.record.length < 2 ^ 63 ∧
        w'.accepted = Function.update w.accepted l (w.accepted l ++ [entry]) := by
  by_cases ho : ∃ fd call data, o = .write fd (.record call) data
  · obtain ⟨fd, call, data, rfl⟩ := ho
    rcases h with ⟨n, -, -, hlt, rfl⟩ | ⟨-, e, -, rfl⟩
    · by_cases hall : n = data.length
      · exact .inr ⟨fd.loc, ⟨fd.pos, call, data⟩, by rw [← hall]; exact hlt, by
          rw [accepted_wrote, if_pos hall]⟩
      · left
        rw [accepted_wrote, if_neg hall]
    · exact .inl rfl
  · exact .inl (h.effect.accepted_eq fun fd call data heq => ho ⟨fd, call, data, heq⟩)

/-- No call takes a record away. -/
theorem Sem.accepted_grows {a : o.Answer} (h : Sem cwd proc i o w a w') (l : Loc) :
    w.accepted l <+: w'.accepted l := by
  rcases h.accepted_cases with heq | ⟨loc, entry, -, heq⟩
  · exact heq ▸ List.prefix_rfl
  · rw [heq]
    by_cases hl : l = loc
    · rw [hl, Function.update_self]
      exact List.prefix_append _ _
    · exact (Function.update_of_ne hl _ _).symm ▸ List.prefix_rfl

/-- The number of an error belongs to the thread that met it. -/
theorem Effect.errno_ne (h : Effect cwd proc i w o w') {j : ι} (hj : j ≠ i) :
    w'.errno j = w.errno j := by
  cases h with
  | failed e => exact Function.update_of_ne hj _ _
  | readId site =>
      unfold readLastId
      split <;> rfl
  | _ => rfl

/-- So does the id that was read for a lock name. -/
theorem Effect.lockRead_ne (h : Effect cwd proc i w o w') {j : ι} (hj : j ≠ i) :
    w'.lockRead j = w.lockRead j := by
  cases h with
  | readId site =>
      unfold readLastId
      split
      · exact Function.update_of_ne hj _ _
      · rfl
  | _ => rfl

/-- The id read is changed by the read for a lock alone. -/
theorem Effect.lockRead_eq (h : Effect cwd proc i w o w') (ho : o ≠ .getLastId .lockName) :
    w'.lockRead i = w.lockRead i := by
  cases h with
  | readId site =>
      unfold readLastId
      split
      · rename_i hsite
        rw [hsite] at ho
        exact absurd rfl ho
      · rfl
  | _ => rfl

/-- What another thread does to `last_id_` overtakes this one. -/
theorem Effect.overtaken_ne (h : Effect cwd proc i w o w') {j : ι} (hj : j ≠ i)
    (hnot : w'.overtaken j = false) :
    w.overtaken j = false ∧ w'.lastId (proc j) = w.lastId (proc j) := by
  cases h with
  | readId site =>
      unfold readLastId at hnot ⊢
      split at hnot
      · rw [if_pos ‹_›]
        exact ⟨(Function.update_of_ne hj _ _).symm.trans hnot, rfl⟩
      · rw [if_neg ‹_›]
        exact ⟨hnot, rfl⟩
  | setId id =>
      obtain ⟨hbefore, hother⟩ := Bool.or_eq_false_iff.mp hnot
      have hproc : proc j ≠ proc i := fun heq => of_decide_eq_false hother ⟨hj, heq⟩
      exact ⟨hbefore, Function.update_of_ne hproc _ _⟩
  | incId =>
      obtain ⟨hbefore, hother⟩ := Bool.or_eq_false_iff.mp hnot
      have hproc : proc j ≠ proc i := fun heq => of_decide_eq_false hother ⟨hj, heq⟩
      exact ⟨hbefore, Function.update_of_ne hproc _ _⟩
  | _ => exact ⟨hnot, rfl⟩

/-- `last_id_` of a process is changed by its own threads. -/
theorem Effect.lastId_ne (h : Effect cwd proc i w o w') {p : κ} (hp : p ≠ proc i) :
    w'.lastId p = w.lastId p := by
  cases h with
  | readId site =>
      unfold readLastId
      split <;> rfl
  | setId id => exact Function.update_of_ne hp _ _
  | incId => exact Function.update_of_ne hp _ _
  | _ => rfl

end World

/-! ## The calls of the parts of `Allocate` -/

/-- The calls that check and make directories. -/
def IsDirCall : SysCall → Prop
  | .access _ | .mkdir _ | .errno => True
  | _ => False

/-- The calls that choose an id. -/
def IsIdCall : SysCall → Prop
  | .rand | .getpid | .getLastId .init => True
  | .setLastId id => IsId id
  | _ => False

/-- The calls of a lock object. -/
def IsLockCall (lockfile : Bytes) : SysCall → Prop
  | .openExcl p | .unlink p => p = lockfile
  | .close _ => True
  | _ => False

/-- The calls of the loop of `mkdirs` are calls on directories. -/
theorem mkdirsFrom_calls (subpaths : List Bytes) : (mkdirsFrom subpaths).Calls IsDirCall := by
  induction subpaths with
  | nil => trivial
  | cons subpath rest ih =>
      refine ⟨trivial, fun made => Prog.Calls.ite ih ?_⟩
      exact ⟨trivial, fun e => Prog.Calls.ite ih trivial⟩

/-- The check of a directory makes calls on directories. -/
theorem checkDir_calls (dir : Bytes) : (checkDir dir).Calls IsDirCall :=
  ⟨trivial, fun _ => Prog.Calls.ite trivial (mkdirsFrom_calls _)⟩

/-- A small number is an id. -/
theorem isId_of_lt {n : ℕ} (h : n < 10) : IsId n := by
  constructor
  · omega
  · omega

/-- What comes before the loop reads and sets the id. -/
theorem enterAllocate_calls : enterAllocate.Calls IsIdCall := by
  refine ⟨trivial, fun id => Prog.Calls.ite ?_ trivial⟩
  refine ⟨trivial, fun pid => ⟨?_, fun _ => trivial⟩⟩
  exact isId_of_lt (Nat.mod_lt pid (by norm_num))

/-- The draw of an id reads and sets the id. -/
theorem chooseId_calls (setting : Setting) (loop_count : ℤ) :
    (chooseId setting loop_count).Calls IsIdCall := by
  refine Prog.Calls.ite ?_ trivial
  exact ⟨trivial, fun r => ⟨isId_int32 _, fun _ => trivial⟩⟩

/-- `TryLock` makes calls on its lock file. -/
theorem tryLock_calls (self : FileLock) : self.tryLock.Calls (IsLockCall self.lockfile_) := by
  refine ⟨rfl, fun fd => ?_⟩
  cases fd with
  | none => trivial
  | some fd => exact ⟨trivial, fun _ => trivial⟩

/-- `TryLock` leaves the name of the lock file. -/
theorem tryLock_returns (self : FileLock) :
    self.tryLock.Returns fun self' => self'.lockfile_ = self.lockfile_ := by
  intro fd
  cases fd with
  | none => rfl
  | some fd => exact fun _ => rfl

/-- The calls that write a record, and the note of it. -/
def IsRecordCall : SysCall → Prop
  | .openRdwr _ | .lseek _ _ | .newChars _ | .write _ _ _ | .close _ | .errno
  | .completed _ _ _ => True
  | _ => False

/-- `Write` makes calls on its record.
SOURCE: bundle.cc:329-390 -/
theorem writeRecord_calls (file : Bytes) (offset : ℕ) (url buf : Bytes)
    (user_data : Option Bytes) :
    (writeRecord file offset url buf user_data).Calls IsRecordCall := by
  unfold writeRecord
  generalize recordTotal buf.length = total
  refine ⟨trivial, fun fd => ?_⟩
  cases fd with
  | none => exact ⟨trivial, fun e => trivial⟩
  | some fd =>
      refine ⟨trivial, fun r => ?_⟩
      obtain ⟨pos, fd'⟩ := r
      refine Prog.Calls.ite ⟨trivial, fun _ => trivial⟩ ?_
      refine Prog.Calls.ite trivial (Prog.Calls.ite trivial ?_)
      refine ⟨trivial, fun heap => ⟨trivial, fun n => ⟨trivial, fun _ => ?_⟩⟩⟩
      exact Prog.Calls.ite ⟨trivial, fun e => trivial⟩ trivial

/-- A `Write` under a URL makes calls on its record. -/
theorem writeUrl_calls (writer : Writer) (url buf : Bytes) (user_data : Option Bytes) :
    (writer.writeUrl url buf user_data).Calls IsRecordCall := by
  refine (writeRecord_calls _ _ _ _ _).bind fun result => ?_
  exact Prog.Calls.bind (Prog.Calls.ite ⟨trivial, fun _ => trivial⟩ trivial) fun _ => trivial

end BundleStore
