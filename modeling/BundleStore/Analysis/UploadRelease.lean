import BundleStore.Analysis.LockFrame
import BundleStore.Model.FrameWork
import Mathlib.Data.List.Nodup
import Mathlib.Data.List.Range

set_option autoImplicit false

/-!
# What the upload handlers release

Neither handler asks whether `Allocate` gave a writer. `WriteAction` deletes the
writer of every file; `WriteRedirectAction` returns from the middle of the loop
after the first file it has written, and that file's writer keeps its lock. The calls of
both are carried out by the bundle code, whose own calls may be answered in any way.
-/

namespace BundleStore

namespace UploadAction

open Machine Posix Cwf

/-- What the calls of a worker do to the lock files. -/
def LockSem : (o : ServerCall) → LockState → o.Answer → LockState → Prop
  | .sys o, s, a, s' => LockState.Sem o s a s'
  | .reading _, s, _, s' => s' = s

/-- What every request should do with the writers it gets: no method is called on NULL, each
writer is deleted once, and the lock files are those from before. -/
structure Releases (files : Finset Bytes) (result : ProcessResult) (x : Handling)
    (files' : Finset Bytes) : Prop where
  no_null_call : result ≠ .calledOnNull
  deleted_once : ∀ n < x.allocated, x.deleted.count n = 1
  same_locks : files' = files

/-- Between two files: every writer so far has been deleted, in order, and locks have been
left behind where an `lstat` has failed. -/
structure Settled (files : Finset Bytes) (x : Handling) (s : LockState) : Prop where
  left : LeftBehind files s
  deleted : x.deleted = List.range x.allocated
  refused : x.refused = 0

/-- While a file is handled: its writer is the last one, and has one more lock. -/
structure Holding (files : Finset Bytes) (n : ℕ) (writer : Writer) (x : Handling)
    (s : LockState) : Prop where
  lock : ∃ filelock t, writer.filelock_ = some filelock ∧ filelock.locked_ = true ∧
    filelock.lockfile_ ∉ t.files ∧ LeftBehind files t ∧
      s.files = insert filelock.lockfile_ t.files ∧ s.otherError = t.otherError
  allocated : x.allocated = n + 1
  deleted : x.deleted = List.range n
  refused : x.refused = 0

variable {setting : Setting} {clock : ℕ → Calendar} {rounds : ℕ} {files : Finset Bytes}
variable {x : Handling} {s s' : LockState} {r : ProcessResult × Handling}

/-- An upload that has settled releases its locks if no bundle's `lstat` has failed otherwise. -/
theorem Settled.releases_iff (h : Settled files x s) (code : HttpStatusCode) :
    Releases files (.returned code) x s.files ↔ s.otherError = false := by
  rw [← h.left.iff]
  constructor
  · exact fun hrel => hrel.same_locks
  · intro hfiles
    constructor
    · exact ProcessResult.noConfusion
    · intro n hn
      rw [h.deleted]
      exact List.count_eq_one_of_mem List.nodup_range (List.mem_range.mpr hn)
    · exact hfiles

/-- An execution of a program of the store inside a handler. -/
theorem executes_sys {α : Type} {p : Sys α} {a : α}
    (h : (Serving.sys p).Executes LockSem s a s') : p.Executes LockState.Sem s a s' :=
  h.of_embed fun _ _ _ _ hsem => hsem

/-! ## The calls of a handler -/

/-- `Write` touches no lock. -/
theorem write_executes {writer : Writer} {content : Bytes} {result : WriteResult}
    (h : (writer.write content none).Executes LockState.Sem s result s') : s.Same s' := by
  refine h.kept (I := fun t => s.Same t) (writeUrl_calls _ _ _ _) ?_ (LockState.Same.refl s)
  intro o t a t' ho ht hsem
  refine ht.trans ?_
  cases o with
  | openRdwr _ | lseek _ _ | newChars _ | write _ _ _ | close _ | completed _ _ _ =>
      exact LockState.Other.same hsem
  | errno =>
      obtain ⟨-, rfl⟩ := hsem
      exact LockState.Same.refl t'
  | _ => exact absurd ho id

/-- A writer holds its lock after steps that leave the locks. -/
theorem Holding.same {n : ℕ} {writer : Writer} (h : Holding files n writer x s)
    (hsame : s.Same s') : Holding files n writer x s' := by
  obtain ⟨filelock, t, hlock, hlocked, hfree, hleft, hfiles, hother⟩ := h.lock
  exact ⟨⟨filelock, t, hlock, hlocked, hfree, hleft, hsame.files.trans hfiles,
    hsame.otherError.trans hother⟩, h.allocated, h.deleted, h.refused⟩

/-- `Allocate`, `Write`, and the rest with the writer and what `Write` has returned. -/
theorem uploadFile_executes {fd : FormDisposition} {rest : WriterPtr → ℤ → Upload ProcessResult}
    (hs : Settled files x s)
    (h : ((uploadFile fd rest).carry (carryOut setting clock rounds) x).Executes LockSem s
      (.ok r) s') :
    (r.1 = .calledOnNull ∧ r.2.refused ≠ 0) ∨
      ∃ writer ret y s₁, Holding files x.allocated writer y s₁ ∧ y.returns = x.returns ++ [ret] ∧
        ((rest ⟨x.allocated, writer⟩ ret).carry (carryOut setting clock rounds) y).Executes
          LockSem s₁ (.ok r) s' := by
  unfold uploadFile at h
  rw [Prog.op_bind] at h
  obtain ⟨ts, x₁, s₁, hclock, h⟩ := Prog.executes_carry_call h
  obtain ⟨hx₁, rfl⟩ := hclock
  cases hx₁
  rw [Prog.op_bind] at h
  obtain ⟨aw, x₂, s₂, hallocate, h⟩ := Prog.executes_carry_call h
  obtain ⟨result, s₃, hrun, hrest⟩ := Prog.executes_bind.mp hallocate
  rcases result with _ | _ | writer
  · cases hrest.1
  · obtain ⟨hx₂, rfl⟩ := hrest
    cases hx₂
    obtain ⟨hr, -⟩ := h
    cases hr
    exact .inl ⟨rfl, Nat.succ_ne_zero _⟩
  · obtain ⟨hx₂, rfl⟩ := hrest
    cases hx₂
    obtain ⟨t, hleft, hnew, hother⟩ := allocate_executes hs.left (executes_sys hrun)
    obtain ⟨filelock, hlock, hlocked, hlockfile⟩ := hnew.lock
    dsimp only at h
    rw [Prog.op_bind] at h
    obtain ⟨ret, x₃, s₄, hwrite, h⟩ := Prog.executes_carry_call h
    obtain ⟨result, s₅, hrun', hrest'⟩ := Prog.executes_bind.mp hwrite
    cases result with
    | threw => cases hrest'.1
    | overran => cases hrest'.1
    | returned ret' n =>
        obtain ⟨hx₃, rfl⟩ := hrest'
        cases hx₃
        refine .inr ⟨writer, ret, _, s₄, ?_, ?_, h⟩
        · refine Holding.same ⟨⟨filelock, t, hlock, hlocked, ?_, hleft, ?_, hother⟩, rfl,
            hs.deleted, hs.refused⟩ (write_executes (executes_sys hrun'))
          · rw [hlockfile]
            exact hnew.free
          · rw [hlockfile]
            exact hnew.files
        · rfl

/-- `delete` releases the lock. -/
theorem delete_executes {n : ℕ} {writer : Writer} {rest : Unit → Upload ProcessResult}
    (hs : Holding files n writer x s)
    (h : ((Prog.call (.delete ⟨n, writer⟩) rest).carry (carryOut setting clock rounds) x).Executes
      LockSem s (.ok r) s') :
    ∃ y s₁, Settled files y s₁ ∧ y.returns = x.returns ∧
      ((rest ()).carry (carryOut setting clock rounds) y).Executes LockSem s₁ (.ok r) s' := by
  obtain ⟨_, y, s₁, hdelete, h⟩ := Prog.executes_carry_call h
  obtain ⟨_, s₂, hrun, hy, rfl⟩ := Prog.executes_bind.mp hdelete
  cases hy
  obtain ⟨filelock, t, hlock, hlocked, hfree, hleft, hfiles, hother⟩ := hs.lock
  have hrelease := executes_sys hrun
  unfold Writer.release at hrelease
  rw [hlock] at hrelease
  obtain ⟨_, s₃, hdestroy, -, rfl⟩ := Prog.executes_bind.mp hrelease
  have hmem : filelock.lockfile_ ∈ s.files := by
    rw [hfiles]
    exact Finset.mem_insert_self _ _
  obtain ⟨hgone, hsame⟩ := destroy_executes_locked hlocked hmem hdestroy
  rw [hfiles, Finset.erase_insert hfree] at hgone
  refine ⟨_, _, ?_, ?_, h⟩
  · constructor
    · constructor
      · rw [hgone]
        exact hleft.subset
      · rw [hgone, hsame, hother]
        exact hleft.iff
    · show x.deleted ++ [n] = List.range x.allocated
      rw [hs.deleted, hs.allocated, List.range_succ]
    · exact hs.refused
  · rfl

/-- What is put into the response changes nothing else. -/
theorem Holding.respond {n : ℕ} {writer : Writer} (h : Holding files n writer x s)
    (response : Response) : Holding files n writer { x with response := response } s :=
  ⟨h.lock, h.allocated, h.deleted, h.refused⟩

/-! ## All files -/

/-- The loop of `WriteAction::Process` calls a method on NULL, or deletes every writer. -/
theorem writeFiles_executes {fds : List FormDisposition} (hs : Settled files x s)
    (h : ((writeFiles fds).carry (carryOut setting clock rounds) x).Executes LockSem s
      (.ok r) s') :
    (r.1 = .calledOnNull ∧ r.2.refused ≠ 0) ∨
      ∃ code, r.1 = .returned code ∧ Settled files r.2 s' := by
  induction fds generalizing x s with
  | nil =>
      obtain ⟨hr, rfl⟩ := h
      cases hr
      exact .inr ⟨.HC_OK, rfl, hs⟩
  | cons fd fds ih =>
      rcases uploadFile_executes hs h with hnull | ⟨writer, ret, y, s₁, hholds, -, h⟩
      · exact .inl hnull
      · have hnext : ∀ line : Bytes, ((Upload.writeRaw line >>= fun _ =>
            Upload.delete ⟨x.allocated, writer⟩ >>= fun _ => writeFiles fds :
              Upload ProcessResult).carry (carryOut setting clock rounds) y).Executes LockSem s₁
                (.ok r) s' →
            (r.1 = .calledOnNull ∧ r.2.refused ≠ 0) ∨
              ∃ code, r.1 = .returned code ∧ Settled files r.2 s' := by
          intro line hline
          rw [Prog.op_bind, Prog.carry_call_of_ret rfl, Prog.op_bind] at hline
          obtain ⟨z, s₂, hsettled, -, hrest⟩ := delete_executes (hholds.respond _) hline
          exact ih hsettled hrest
        dsimp only at h
        split at h
        · exact hnext _ h
        · exact hnext _ h

/-- The loop of `WriteRedirectAction::Process` calls a method on NULL, keeps the writer of a
file that was written, or deletes every writer. -/
theorem writeFirstFile_executes {fds : List FormDisposition} (hs : Settled files x s)
    (hreturns : 0 ∉ x.returns)
    (h : ((writeFirstFile fds).carry (carryOut setting clock rounds) x).Executes LockSem s
      (.ok r) s') :
    (r.1 = .calledOnNull ∧ r.2.refused ≠ 0) ∨
      (0 ∈ r.2.returns ∧ ∃ n < r.2.allocated, n ∉ r.2.deleted) ∨
      ∃ code, r.1 = .returned code ∧ Settled files r.2 s' ∧ 0 ∉ r.2.returns := by
  induction fds generalizing x s with
  | nil =>
      obtain ⟨hr, rfl⟩ := h
      cases hr
      exact .inr (.inr ⟨.HC_OK, rfl, hs, hreturns⟩)
  | cons fd fds ih =>
      rcases uploadFile_executes hs h with hnull | ⟨writer, ret, y, s₁, hholds, hy, h⟩
      · exact .inl hnull
      · dsimp only at h
        split at h
        · -- the head is put out, and the writer stays
          rename_i hret
          simp only [Prog.op_bind] at h
          rw [Prog.carry_call_of_ret rfl, Prog.carry_call_of_ret rfl, Prog.carry_call_of_ret rfl,
            Prog.carry_call_of_ret rfl, Prog.carry_call_of_ret rfl] at h
          obtain ⟨hr, rfl⟩ := h
          cases hr
          refine .inr (.inl ⟨?_, x.allocated, ?_, ?_⟩)
          · show 0 ∈ y.returns
            rw [hy, hret]
            exact List.mem_append_right _ (List.mem_singleton_self 0)
          · show x.allocated < y.allocated
            rw [hholds.allocated]
            exact Nat.lt_succ_self _
          · show x.allocated ∉ y.deleted
            rw [hholds.deleted]
            simp
        · rename_i hret
          rw [Prog.op_bind, Prog.carry_call_of_ret rfl, Prog.op_bind] at h
          obtain ⟨z, s₂, hsettled, hz, hrest⟩ := delete_executes (hholds.respond _) h
          refine ih hsettled ?_ hrest
          rw [hz]
          show 0 ∉ y.returns
          rw [hy]
          simp [hreturns, Ne.symm hret]

/-- Before the first file nothing has been done. -/
theorem settled_start (files : Finset Bytes) (lastId : ℤ) (errno : ℕ) (response : Response) :
    Settled files { response } { files, lastId, errno } :=
  ⟨leftBehind_start files lastId errno, rfl, rfl⟩

/-- Where a handler is not asked to write it allocates nothing. -/
theorem releases_of_refused {lastId : ℤ} {errno : ℕ}
    (h : ((pure (.returned .HC_METHOD_NOT_ALLOWED) : Upload ProcessResult).carry
      (carryOut setting clock rounds) {}).Executes LockSem { files, lastId, errno } (.ok r) s') :
    Releases files r.1 r.2 s'.files := by
  obtain ⟨hr, rfl⟩ := h
  cases hr
  exact ((settled_start files lastId errno {}).releases_iff .HC_METHOD_NOT_ALLOWED).mpr rfl

/-- **When the two handlers release what they allocate.** `WriteAction` does for a `POST` if
and only if every `Allocate` has given a writer, and none of their `lstat`s has failed for
another reason than that there was no bundle. For `WriteRedirectAction` besides no `Write`
may have returned 0.
SOURCE: src/bundle/bundleaction.cc:22-124 -/
theorem upload_releases_iff (setting : Setting) (clock : ℕ → Calendar) (rounds : ℕ)
    (request : Request) (files : Finset Bytes) (lastId : ℤ) (errno : ℕ) :
    (∀ result x s', ((writeAction request).carry (carryOut setting clock rounds) {}).Executes
        LockSem { files, lastId, errno } (.ok (result, x)) s' →
      (Releases files result x s'.files ↔
        request.method ≠ .HV_POST ∨ (x.refused = 0 ∧ s'.otherError = false))) ∧
    ∀ result x s', ((writeRedirectAction request).carry (carryOut setting clock rounds) {}).Executes
        LockSem { files, lastId, errno } (.ok (result, x)) s' →
      (Releases files result x s'.files ↔
        request.method ≠ .HV_POST ∨
          (x.refused = 0 ∧ s'.otherError = false ∧ 0 ∉ x.returns)) := by
  constructor
  · intro result x s' h
    unfold writeAction at h
    by_cases hpost : request.method = .HV_POST
    · rw [if_neg (not_not_intro hpost)] at h
      simp only [Prog.op_bind] at h
      rw [Prog.carry_call_of_ret rfl, Prog.carry_call_of_ret rfl, Prog.carry_call_of_ret rfl] at h
      simp only [hpost, ne_eq, not_true_eq_false, false_or]
      rcases writeFiles_executes (settled_start files lastId errno _) h with
        ⟨hnull, hrefused⟩ | ⟨code, hcode, hsettled⟩
      · exact ⟨fun hrel => absurd hnull hrel.no_null_call, fun hall => absurd hall.1 hrefused⟩
      · dsimp only at hcode hsettled
        rw [hcode, hsettled.releases_iff]
        simp [hsettled.refused]
    · rw [if_pos hpost] at h
      exact ⟨fun _ => .inl hpost, fun _ => releases_of_refused h⟩
  · intro result x s' h
    unfold writeRedirectAction at h
    by_cases hpost : request.method = .HV_POST
    · rw [if_neg (not_not_intro hpost)] at h
      simp only [hpost, ne_eq, not_true_eq_false, false_or]
      rcases writeFirstFile_executes (settled_start files lastId errno {})
        (fun hzero => absurd hzero List.not_mem_nil) h with
        ⟨hnull, hrefused⟩ | ⟨hzero, n, hn, hkept⟩ | ⟨code, hcode, hsettled, hreturns⟩
      · exact ⟨fun hrel => absurd hnull hrel.no_null_call, fun hall => absurd hall.1 hrefused⟩
      · constructor
        · intro hrel
          have honce := hrel.deleted_once n hn
          rw [List.count_eq_zero.mpr hkept] at honce
          cases honce
        · exact fun hall => absurd hzero hall.2.2
      · dsimp only at hcode hsettled hreturns
        rw [hcode, hsettled.releases_iff]
        simp [hsettled.refused, hreturns]
    · rw [if_pos hpost] at h
      exact ⟨fun _ => .inl hpost, fun _ => releases_of_refused h⟩

/-! ## Requests -/

/-- Surroundings where bundles may not be created, or not be opened to write. -/
def permitting (create write : Bool) (stat : Bytes → Except ℕ ℕ) :
    Prog.Handler SysCall SysCall.Answer LockState
  | .openTrunc path, s => if create then LockState.answer stat (.openTrunc path) s else (none, s)
  | .openRdwr path, s =>
      if write then LockState.answer stat (.openRdwr path) s
      else (none, { s with errno := EACCES })
  | o, s => LockState.answer stat o s

/-- The answers of the example are answers that may be given. -/
theorem permitting_sem (create write : Bool) (stat : Bytes → Except ℕ ℕ) (o : SysCall)
    (s : LockState) : LockState.Sem o s (permitting create write stat o s).1
      (permitting create write stat o s).2 := by
  cases o with
  | openTrunc path =>
      cases create with
      | true => exact ⟨s.errno, rfl⟩
      | false => exact ⟨s.errno, rfl⟩
  | openRdwr path =>
      cases write with
      | true => exact ⟨s.errno, rfl⟩
      | false => exact ⟨EACCES, rfl⟩
  | _ => exact LockState.answer_sem stat _ s

/-- The calls of a worker, of which those of the reader are not made. -/
def serveLocks (answer : Prog.Handler SysCall SysCall.Answer LockState) :
    Prog.Handler ServerCall ServerCall.Answer LockState
  | .sys o, s => answer o s
  | .reading (.fopen _), s | .reading (.fseek _), s => (false, s)
  | .reading (.fread _), s => (([] : Bytes), s)
  | .reading .errno, s => ((0 : ℕ), s)

/-- The answers of the example's server are answers that may be given. -/
theorem serveLocks_sem {answer : Prog.Handler SysCall SysCall.Answer LockState}
    (h : ∀ o s, LockState.Sem o s (answer o s).1 (answer o s).2) (o : ServerCall)
    (s : LockState) : LockSem o s (serveLocks answer o s).1 (serveLocks answer o s).2 := by
  cases o with
  | sys o => exact h o s
  | reading o => cases o <;> rfl

/-- What is looked at of a request that has been handled. -/
structure Summary where
  result : ProcessResult
  allocated : ℕ
  refused : ℕ
  returns : List ℤ
  deleted : List ℕ
  deriving DecidableEq

def summary (r : ProcessResult × Handling) : Summary :=
  ⟨r.1, r.2.allocated, r.2.refused, r.2.returns, r.2.deleted⟩

/-- The fourteenth of May. -/
def postDay : Calendar where
  tm := { tm_year := 112, tm_mon := 4, tm_mday := 14 }
  year_lt := by decide
  mon_lt := by decide
  mday_lt := by decide

/-- A handler, when the first id is 3 and there is no lock file. -/
def handle (create write : Bool) (stat : Bytes → Except ℕ ℕ) (action : Upload ProcessResult) :
    Except Stop (ProcessResult × Handling) × LockState :=
  (action.carry (carryOut defaultSetting (fun _ => postDay) 2) {}).run
    (serveLocks (permitting create write stat)) { files := ∅, lastId := 3, errno := 0 }

/-- A run of a handler in the examples is an execution. -/
theorem exists_executes (create write : Bool) (stat : Bytes → Except ℕ ℕ)
    (action : Upload ProcessResult) (outcome : Summary)
    (h : (handle create write stat action).1.toOption.map summary = some outcome) :
    ∃ x, summary (outcome.result, x) = outcome ∧
      (action.carry (carryOut defaultSetting (fun _ => postDay) 2) {}).Executes LockSem
        { files := ∅, lastId := 3, errno := 0 } (.ok (outcome.result, x))
        (handle create write stat action).2 := by
  have hrun := Prog.executes_run_of_sem (serveLocks_sem (permitting_sem create write stat))
    (action.carry (carryOut defaultSetting (fun _ => postDay) 2) {})
    { files := ∅, lastId := 3, errno := 0 }
  cases hresult : (handle create write stat action).1 with
  | error stop =>
      rw [hresult] at h
      cases h
  | ok r =>
      rw [hresult] at h
      obtain rfl := Option.some.inj h
      refine ⟨r.2, rfl, ?_⟩
      unfold handle at hresult
      rw [hresult] at hrun
      exact hrun

/-- A post of two files. -/
def twoFiles : Request :=
  ⟨.HV_POST, [⟨Text.ascii "jpg"⟩, ⟨Text.ascii "png"⟩]⟩

/-- Where nothing fails `WriteAction` releases what it has allocated for two files, and where
no bundle can be written `WriteRedirectAction` does. -/
theorem upload_releases_iff_twoFiles :
    ∃ x s' y t', ((writeAction twoFiles).carry
        (carryOut defaultSetting (fun _ => postDay) 2) {}).Executes LockSem
        { files := ∅, lastId := 3, errno := 0 } (.ok (.returned .HC_OK, x)) s' ∧
      Releases ∅ (.returned .HC_OK) x s'.files ∧ x.returns = [0, 0] ∧
      ((writeRedirectAction twoFiles).carry
        (carryOut defaultSetting (fun _ => postDay) 2) {}).Executes LockSem
        { files := ∅, lastId := 3, errno := 0 } (.ok (.returned .HC_OK, y)) t' ∧
      Releases ∅ (.returned .HC_OK) y t'.files ∧ y.returns = [13, 13] := by
  have hiff := upload_releases_iff defaultSetting (fun _ => postDay) 2 twoFiles ∅ 3 0
  obtain ⟨x, hx, hrun⟩ := exists_executes true true (fun _ => .ok 1024) (writeAction twoFiles)
    ⟨.returned .HC_OK, 2, 0, [0, 0], [0, 1]⟩ (by decide +kernel)
  obtain ⟨y, hy, hrun'⟩ := exists_executes true false (fun _ => .ok 1024)
    (writeRedirectAction twoFiles) ⟨.returned .HC_OK, 2, 0, [13, 13], [0, 1]⟩ (by decide +kernel)
  have hreturns : y.returns = [13, 13] := congrArg Summary.returns hy
  refine ⟨x, _, y, _, hrun, (hiff.1 _ _ _ hrun).mpr (.inr ⟨congrArg Summary.refused hx, ?_⟩),
    congrArg Summary.returns hx, hrun', (hiff.2 _ _ _ hrun').mpr
      (.inr ⟨congrArg Summary.refused hy, ?_, ?_⟩), hreturns⟩
  · decide +kernel
  · decide +kernel
  · rw [hreturns]
    decide

/-- On a post of one file: the writer that redirects is not deleted when `Write` has returned
0; both handlers call `Write` on NULL when no bundle can be created; and the lock file of id 3
stays when the `lstat` of its bundle fails. -/
theorem not_upload_releases :
    let request : Request := ⟨.HV_POST, [⟨Text.ascii "jpg"⟩]⟩
    let Ends (action : Upload ProcessResult) (result : ProcessResult) (x : Handling)
        (s' : LockState) : Prop :=
      (action.carry (carryOut defaultSetting (fun _ => postDay) 2) {}).Executes LockSem
        { files := ∅, lastId := 3, errno := 0 } (.ok (result, x)) s'
    (∃ x s', Ends (writeRedirectAction request) (.returned .HC_OK) x s' ∧
      ¬ Releases ∅ (.returned .HC_OK) x s'.files) ∧
    (∃ x s', Ends (writeRedirectAction request) .calledOnNull x s') ∧
    (∃ x s', Ends (writeAction request) .calledOnNull x s') ∧
    ∃ x s', Ends (writeAction request) (.returned .HC_OK) x s' ∧
      ¬ Releases ∅ (.returned .HC_OK) x s'.files := by
  intro request Ends
  refine ⟨?_, ?_, ?_, ?_⟩
  · obtain ⟨x, hx, hrun⟩ := exists_executes true true (fun _ => .ok 1024)
      (writeRedirectAction request) ⟨.returned .HC_OK, 1, 0, [0], []⟩ (by decide +kernel)
    refine ⟨x, _, hrun, fun hrel => ?_⟩
    have hallocated : x.allocated = 1 := congrArg Summary.allocated hx
    have hdeleted : x.deleted = [] := congrArg Summary.deleted hx
    have honce := hrel.deleted_once 0 (by rw [hallocated]; exact Nat.one_pos)
    rw [hdeleted] at honce
    cases honce
  · obtain ⟨x, -, hrun⟩ := exists_executes false true (fun _ => .error ENOENT)
      (writeRedirectAction request) ⟨.calledOnNull, 0, 1, [], []⟩ (by decide +kernel)
    exact ⟨x, _, hrun⟩
  · obtain ⟨x, -, hrun⟩ := exists_executes false true (fun _ => .error ENOENT) (writeAction request)
      ⟨.calledOnNull, 0, 1, [], []⟩ (by decide +kernel)
    exact ⟨x, _, hrun⟩
  · let stat (path : Bytes) : Except ℕ ℕ :=
      if path = Text.ascii "test/p/20120514/00000000/00000003" then .error EACCES else .ok 1024
    obtain ⟨x, -, hrun⟩ := exists_executes true true stat (writeAction request)
      ⟨.returned .HC_OK, 1, 0, [0], [0]⟩ (by decide +kernel)
    refine ⟨x, _, hrun, fun hrel => absurd hrel.same_locks ?_⟩
    decide +kernel

end UploadAction

end BundleStore
