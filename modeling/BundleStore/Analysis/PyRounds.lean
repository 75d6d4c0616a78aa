import BundleStore.Analysis.PyRecords
import BundleStore.Analysis.PyUrl
import BundleStore.Analysis.PyWalk

set_option autoImplicit false

/-!
# `walk` and `read` give back what one process has written

One process uploads one content after the other: `allocate`, `ensure_url`, `write`, `release`.
A bundle that it creates is a header with the records behind it, in the order of the rounds:
`allocate` takes the offset from the size of the file, and only the round that has its lock
changes it.
-/

namespace BundleStore

namespace PyBundle

open Machine Posix

variable {ι : Type} [DecidableEq ι]

/-! ## Rounds -/

/-- `write` accepts everything it is given. -/
def WholeCall : (o : SysCall) → o.Answer → Prop
  | .write _ _ data, count => count = (data.length : ℤ)
  | _, _ => True

/-- The calls of process `i`. -/
def WholeSem (L : Places) (i : ι) (o : SysCall) (w : World ι ι) (a : o.Answer) (w' : World ι ι) :
    Prop :=
  World.Sem L.cwd id i o w a w' ∧ WholeCall o a

/-- The loop of `allocate`, up to the writer that it returns. -/
inductive Allocates (L : Places) (i : ι) : Pending → ℕ → World ι ι → Writer → World ι ι → Prop
  | returned {pending : Pending} {last_id last_id' : ℕ} {w w' : World ι ι} {writer : Writer}
      (h : (allocateRound L pending last_id).Executes (WholeSem L i) w
        (last_id', .returned writer) w') :
      Allocates L i pending last_id w writer w'
  | again {pending : Pending} {last_id last_id' : ℕ} {w w₁ w' : World ι ι} {writer : Writer}
      {flock : Option FileLock}
      (h : (allocateRound L pending last_id).Executes (WholeSem L i) w (last_id', .again flock) w₁)
      (hrest : Allocates L i { pending with loop_count := pending.loop_count + 1, flock } last_id'
        w₁ writer w') :
      Allocates L i pending last_id w writer w'

/-- One upload: `allocate`, `ensure_url`, `write` and `release`. -/
inductive Upload (L : Places) (i : ι) (w w' : World ι ι) (bid url content : Bytes) : Prop
  | mk {tm : Day} {last_id : ℕ} {writer : Writer} {w₁ w₂ : World ι ι} {prefix_ ext : Bytes}
      {flock : FileLock}
      (allocated : Allocates L i { length := content.length, tm, loop_count := 1 } last_id w
        writer w₁)
      (bid_eq : writer.bid = bid)
      (ensured : buildUrl prefix_ writer.bid writer.offset writer.length (46 :: ext) = some url)
      (dot : 46 ∉ ext) (slash_ext : slash ∉ ext)
      (nul : 0 ∉ url) (url_le : url.length ≤ 256)
      (length_lt : content.length + kFileHeaderSize < 2 ^ 32)
      (written : ({ writer with url := some url }.write content).Executes (WholeSem L i) w₁
        (some content.length) w₂)
      (released : writer.del.Executes (WholeSem L i) w₂ flock w')

/-- The uploads to a bundle since it was created, by `create` alone or by the first of them;
there may be others in between. A lock file that is the bundle, where locks and bundles are
kept in one directory, may take it away: then it gets no more of them. -/
inductive Uploads (L : Places) (i : ι) (bid : Bytes) :
    World ι ι → List (Bytes × Bytes) → Prop
  | created {w w' : World ι ι}
      (h : (create (bundleFilename bid L.place)).Executes (WholeSem L i) w true w') :
      Uploads L i bid w' []
  | first {w w' : World ι ι} {url content : Bytes}
      (h : w.tree.content (L.bundleLoc bid) = none)
      (hround : Upload L i w w' bid url content) : Uploads L i bid w' [(url, content)]
  | round {w w' : World ι ι} {items : List (Bytes × Bytes)} {url content : Bytes}
      (h : Uploads L i bid w items)
      (there : L.Apart ∨ (w.tree.content (L.bundleLoc bid)).isSome = true)
      (hround : Upload L i w w' bid url content) : Uploads L i bid w' (items ++ [(url, content)])
  | other {w w' : World ι ι} {items : List (Bytes × Bytes)} {bid' url content : Bytes}
      (h : Uploads L i bid w items) (hne : bid' ≠ bid)
      (hround : Upload L i w w' bid' url content) : Uploads L i bid w' items

/-! ## What happens to a bundle -/

variable {L : Places} {i : ι} {w w' : World ι ι} {bid bid' : Bytes} {x : Option Bytes}

/-- What the file of a bundle holds, if there is one, and that its path leads to it. -/
structure At (L : Places) (bid : Bytes) (x : Option Bytes) (w : World ι ι) : Prop where
  content : w.tree.content (L.bundleLoc bid) = x
  path : x.isSome = true →
    w.tree.lookup L.cwd (bundleFilename bid L.place) = .ok (L.bundleLoc bid)

/-- The calls that leave the file of a bundle alone. -/
def Leaves (L : Places) (bid : Bytes) (x : Option Bytes) : SysCall → Prop
  | .openExcl path => x = none → canon L.cwd path ≠ L.bundleLoc bid
  | .openTrunc path => canon L.cwd path ≠ L.bundleLoc bid
  | .write fd _ _ => fd.loc ≠ L.bundleLoc bid
  | .unlink path => x ≠ none → canon L.cwd path ≠ L.bundleLoc bid
  | _ => True

/-- Calls that do their whole work take no file away. -/
theorem WholeSem.grows {o : SysCall} {a : o.Answer} (h : WholeSem L i o w a w') :
    w.tree.Grows w'.tree :=
  h.1.effect.grows

/-- A bundle stays as it is under a call that leaves it. -/
theorem At.step {o : SysCall} {a : o.Answer} (hat : At L bid x w) (ho : Leaves L bid x o)
    (h : WholeSem L i o w a w') : At L bid x w' := by
  refine ⟨?_, fun hx => h.grows.lookup (hat.path hx)⟩
  have hcontent := hat.content
  have heffect := h.1.effect
  cases heffect with
  | unchanged => exact hcontent
  | failed e => exact hcontent
  | @created p fd t hopen =>
      obtain ⟨-, hnone, -, rfl⟩ := Tree.openExcl_ok hopen
      have hne : L.bundleLoc bid ≠ canon L.cwd p := by
        intro heq
        have hx : x = none := by
          rw [← hcontent, heq, Tree.content, hnone]
        exact ho hx heq.symm
      exact (Tree.content_setFile_ne _ hne _).trans hcontent
  | truncated hopen =>
      obtain ⟨-, -, rfl⟩ := Tree.openTrunc_ok hopen
      exact (Tree.content_setFile_ne _ (Ne.symm ho) _).trans hcontent
  | wrote n => exact (Tree.content_write_ne _ _ _ (Ne.symm ho)).trans hcontent
  | madeDir hmade =>
      obtain ⟨m, rfl⟩ := Tree.mkdir_ok hmade
      exact (Tree.content_setDir _ _ _).trans hcontent
  | @removed p t hunlink =>
      have hgone := Tree.unlink_ok hunlink
      by_cases heq : L.bundleLoc bid = canon L.cwd p
      · have hx : x = none := by
          by_contra hne
          exact ho hne heq.symm
        rw [hx]
        change t.content (L.bundleLoc bid) = none
        rw [hgone, heq]
        exact Tree.content_remove_self _ _
      · change t.content (L.bundleLoc bid) = x
        rw [hgone, Tree.content_remove_ne _ heq]
        exact hcontent
  | readId site =>
      rw [World.readLastId_tree]
      exact hcontent
  | setId m => exact hcontent
  | incId => exact hcontent
  | noted => exact hcontent

/-- A bundle stays as it is under a program whose calls leave it. -/
theorem At.kept {α : Type} {p : Sys α} {a : α} (hat : At L bid x w)
    (h : p.Executes (WholeSem L i) w a w') (hcalls : p.Calls (Leaves L bid x)) :
    At L bid x w' :=
  h.kept hcalls (fun _ _ _ _ ho hs hstep => hs.step ho hstep) hat

/-- A quiet call leaves every bundle. -/
theorem leaves_of_quiet {o : SysCall} (ho : Quiet o) : Leaves L bid x o := by
  cases o with
  | openExcl _ => exact absurd ho id
  | openTrunc _ => exact absurd ho id
  | write _ _ _ => exact absurd ho id
  | unlink _ => exact absurd ho id
  | _ => trivial

/-- A bundle stays as it is under a quiet program. -/
theorem At.quiet {α : Type} {p : Sys α} {a : α} (hat : At L bid x w)
    (h : p.Executes (WholeSem L i) w a w') (hcalls : p.Calls Quiet) : At L bid x w' :=
  hat.kept h (hcalls.mono fun _ => leaves_of_quiet)

/-- A program takes no file away. -/
theorem executes_grows {α : Type} {p : Sys α} {a : α} (h : p.Executes (WholeSem L i) w a w') :
    w.tree.Grows w'.tree :=
  h.kept (I := fun s => w.tree.Grows s.tree) p.calls_true
    (fun _ _ _ _ _ hs hstep => hs.trans hstep.grows) (Tree.Grows.refl _)

/-! ## The parts of a round -/

/-- The size that `stat` gives is that of the file, unless a directory is there. -/
theorem stat_spec {size : ℕ} (hat : At L bid x w)
    (h : (stat (bundleFilename bid L.place)).Executes (WholeSem L i) w (.ok size) w') :
    (∃ c, x = some c ∧ size = c.length) ∨ w.tree.node (L.bundleLoc bid) = some .dir := by
  obtain ⟨answer, w₁, hsem, h⟩ := h
  cases answer with
  | none =>
      obtain ⟨e, w₂, -, heq, -⟩ := h
      cases heq
  | some st_size =>
      obtain ⟨heq, -⟩ := h
      cases heq
      obtain ⟨-, -, ⟨c, hstat, hsize⟩ | hstat⟩ := hsem.1
      · refine .inl ⟨c, ?_, hsize⟩
        rw [← hat.content]
        exact Tree.content_eq_some.mpr (Tree.stat_ok hstat)
      · exact .inr (Tree.stat_ok hstat)

/-- `stat` finds a file that is there. -/
theorem stat_enoent {c : Bytes} (hat : At L bid (some c) w) :
    ¬ (stat (bundleFilename bid L.place)).Executes (WholeSem L i) w (.error ENOENT) w' := by
  have hnode := Tree.content_eq_some.mp hat.content
  have hstat : w.tree.stat L.cwd (bundleFilename bid L.place) = .ok (.file c) := by
    simp only [Tree.stat, Tree.onPath, hat.path rfl, hnode]
  rintro ⟨answer, w₁, hsem, h⟩
  cases answer with
  | some st_size =>
      obtain ⟨heq, -⟩ := h
      cases heq
  | none =>
      obtain ⟨e, hrefused, hw₁⟩ := hsem.1
      obtain ⟨e', w₂, herrno, heq, -⟩ := h
      cases heq
      have he : e = ENOENT := by
        have hread := herrno.1.1
        rw [hw₁] at hread
        simpa [World.setErrno] using hread.symm
      subst he
      obtain herror | hspurious := hrefused
      · rw [hstat] at herror
        cases herror
      · exact hspurious.2.1 rfl

/-- `os.stat` is quiet. -/
theorem stat_calls (path : Bytes) : (stat path).Calls Quiet := by
  refine ⟨trivial, fun answer => ?_⟩
  cases answer with
  | none => exact ⟨trivial, fun _ => trivial⟩
  | some st_size => trivial

/-- A file that holds something new, among files that are as before. -/
structure Puts (l : Loc) (c : Bytes) (w w' : World ι ι) : Prop where
  grows : w.tree.Grows w'.tree
  content : w'.tree.content l = some c
  other : ∀ m, m ≠ l → w'.tree.content m = w.tree.content m

omit [DecidableEq ι] in
/-- A file put elsewhere leaves the bundle as it is. -/
theorem At.puts_ne {l : Loc} {c : Bytes} (hat : At L bid x w) (h : Puts l c w w')
    (hne : L.bundleLoc bid ≠ l) : At L bid x w' :=
  ⟨(h.other _ hne).trans hat.content, fun hx => h.grows.lookup (hat.path hx)⟩

omit [DecidableEq ι] in
/-- Of two files put at a place the second stands there. -/
theorem Puts.trans {w₁ : World ι ι} {l : Loc} {c c' : Bytes} (h : Puts l c w w₁)
    (h' : Puts l c' w₁ w') : Puts l c' w w' :=
  ⟨h.grows.trans h'.grows, h'.content, fun m hm => (h'.other m hm).trans (h.other m hm)⟩

/-- `open(path, 'wb')` empties the file. -/
theorem truncated_puts {path : Bytes} {fd : Fd}
    (h : WholeSem L i (.openTrunc path) w (some fd) w') :
    fd = ⟨canon L.cwd path, 0⟩ ∧ Puts (canon L.cwd path) [] w w' ∧
      w'.tree.lookup L.cwd path = .ok (canon L.cwd path) := by
  obtain ⟨t, hopen, rfl⟩ := h.1
  have hgrows := h.grows
  have hpath := Tree.onPath_lookup hopen
  obtain ⟨rfl, hcan, rfl⟩ := Tree.openTrunc_ok hopen
  exact ⟨rfl, ⟨hgrows, Tree.content_setFile_self hcan [],
    fun m hm => Tree.content_setFile_ne _ hm []⟩, hgrows.lookup hpath⟩

/-- A `write` overwrites from its place on. -/
theorem wrote_puts {fd : Fd} {site : WriteSite} {data c : Bytes} {count : ℤ}
    (h : WholeSem L i (.write fd site data) w count w') (hc : w.tree.content fd.loc = some c) :
    Puts fd.loc (ByteSeq.overwrite 0 c fd.pos data) w w' := by
  have hcount : count = (data.length : ℤ) := h.2
  have hgrows := h.grows
  obtain ⟨n, hn, -, -, rfl⟩ | ⟨hfailed, -⟩ := h.1
  · have hall : n = data.length := by
      have heq : (n : ℤ) = (data.length : ℤ) := hn.symm.trans hcount
      omega
    subst hall
    refine ⟨hgrows, ?_, fun m hm => Tree.content_write_ne _ _ _ hm⟩
    simp only [World.wrote, List.take_length]
    exact Tree.content_write_self hc data
  · have heq : (-1 : ℤ) = (data.length : ℤ) := hfailed.symm.trans hcount
    omega

/-- A `close` leaves the tree. -/
theorem closed_tree {fd : Fd} {a : Unit} (h : WholeSem L i (.close fd) w a w') :
    w'.tree = w.tree := by
  obtain rfl | ⟨e, -, rfl⟩ := h.1
  · rfl
  · rfl

omit [DecidableEq ι] in
/-- A file that is put stays put under steps that leave the tree. -/
theorem Puts.of_tree {w₁ : World ι ι} {l : Loc} {c : Bytes} (h : Puts l c w w₁)
    (htree : w'.tree = w₁.tree) : Puts l c w w' := by
  constructor
  · rw [htree]
    exact h.grows
  · rw [htree]
    exact h.content
  · rw [htree]
    exact h.other

/-- What `create` leaves, if it does not raise. -/
theorem create_spec {filename : Bytes}
    (h : (create filename).Executes (WholeSem L i) w true w') :
    ∃ now w₁, now.length < 100 ∧ (ensureDir (dirname filename)).Executes (WholeSem L i) w true w₁ ∧
      Puts (canon L.cwd filename) (bundleHeader now) w₁ w' ∧
      w'.tree.lookup L.cwd filename = .ok (canon L.cwd filename) := by
  obtain ⟨made, w₁, hmade, h⟩ := Prog.executes_bind.mp h
  cases made with
  | false =>
      obtain ⟨heq, -⟩ := h
      cases heq
  | true =>
      obtain ⟨now, w₂, ⟨⟨hnow, rfl⟩, -⟩, answer, w₃, hopen, h⟩ := h
      cases answer with
      | none =>
          obtain ⟨heq, -⟩ := h
          cases heq
      | some fp =>
          obtain ⟨count, w₄, hwrite, closed, w₅, hclose, -, rfl⟩ := h
          obtain ⟨rfl, hempty, hpath⟩ := truncated_puts hopen
          have hwritten := wrote_puts hwrite hempty.content
          have hheader : ByteSeq.overwrite 0 [] 0 (bundleHeader now) = bundleHeader now :=
            ByteSeq.overwrite_length 0 [] _
          rw [hheader] at hwritten
          have htree := closed_tree hclose
          refine ⟨now, w₂, hnow, hmade, (hempty.trans hwritten).of_tree htree, ?_⟩
          rw [htree]
          exact hwritten.grows.lookup hpath

/-- What `write` leaves, if it returns a length: the record at the offset, which is aligned,
in the file that the path leads to. -/
theorem write_spec {writer : Writer} {content : Bytes} {n : ℕ}
    (h : (writer.write content).Executes (WholeSem L i) w (some n) w') :
    ∃ url c, writer.url = some url ∧ w.tree.content (canon L.cwd writer.filename) = some c ∧
      (writer.offset = align1k writer.offset ∧ writer.offset < 2 ^ 63 ∧
        w.tree.lookup L.cwd writer.filename = .ok (canon L.cwd writer.filename)) ∧
      Puts (canon L.cwd writer.filename)
        (ByteSeq.overwrite 0 c writer.offset (writer.huge url content)) w w' := by
  unfold Writer.write at h
  split at h
  · obtain ⟨heq, -⟩ := h
    cases heq
  · rename_i url hurl
    obtain ⟨answer, w₁, hopen, h⟩ := h
    cases answer with
    | none =>
        obtain ⟨heq, -⟩ := h
        cases heq
    | some fp =>
        obtain ⟨hopen, rfl⟩ := hopen.1
        have hpath := Tree.onPath_lookup hopen
        obtain ⟨rfl, c, hc⟩ := Tree.openRdwr_ok hopen
        obtain ⟨⟨pos, fp⟩, w₂, hseek, h⟩ := h
        change Prog.Executes _ (ite _ _ _) _ _ _ at h
        split at h
        · obtain ⟨heq, -⟩ := h
          cases heq
        rename_i hpos
        split at h
        · obtain ⟨heq, -⟩ := h
          cases heq
        rename_i haligned
        split at h
        · obtain ⟨heq, -⟩ := h
          cases heq
        rename_i hlength
        obtain ⟨count, w₃, hwrite, closed, w₄, hclose, h⟩ := h
        have hw : w' = w₄ := by
          change Prog.Executes _ (ite _ _ _) _ _ _ at h
          split at h
          · exact h.2
          split at h
          · exact h.2
          · exact h.2
        subst hw
        obtain ⟨hlt, -, rfl, rfl⟩ | ⟨hfailed, -⟩ := hseek.1
        · have hwritten := wrote_puts hwrite hc
          exact ⟨url, c, hurl, hc, ⟨not_not.mp haligned, hlt, hpath⟩,
            hwritten.of_tree (closed_tree hclose)⟩
        · exact absurd (not_not.mp hpos) (by omega)

/-- The release of a lock elsewhere leaves the bundle.
SOURCE: filelock.py:58-66 -/
theorem release_calls {flock : FileLock}
    (h : flock.is_locked = true → x ≠ none → canon L.cwd flock.lockfile ≠ L.bundleLoc bid) :
    flock.release.Calls (Leaves L bid x) := by
  unfold FileLock.release
  split
  · rename_i fd hlocked hfd
    refine ⟨trivial, fun _ => ⟨h hlocked, fun removed => ?_⟩⟩
    cases removed with
    | true => trivial
    | false => trivial
  · trivial

/-- A release that leaves the file of the bundle alone, or takes it away. -/
theorem release_spec {flock flock' : FileLock} (hat : At L bid x w)
    (h : flock.release.Executes (WholeSem L i) w flock' w') : At L bid x w' ∨ At L bid none w' := by
  by_cases hlock : canon L.cwd flock.lockfile = L.bundleLoc bid
  · unfold FileLock.release at h
    split at h
    · obtain ⟨closed, w₁, hclose, removed, w₂, hunlink, h⟩ := h
      have hat₁ : At L bid x w₁ := hat.step (o := .close _) trivial hclose
      cases removed with
      | false =>
          obtain ⟨-, rfl⟩ := h
          obtain ⟨e, -, rfl⟩ := hunlink.1
          exact .inl ⟨hat₁.content, hat₁.path⟩
      | true =>
          obtain ⟨-, rfl⟩ := h
          obtain ⟨t, hgone, rfl⟩ := hunlink.1
          have ht := Tree.unlink_ok hgone
          refine .inr ⟨?_, fun hx => by cases hx⟩
          change t.content (L.bundleLoc bid) = none
          rw [ht, ← hlock]
          exact Tree.content_remove_self _ _
    · obtain ⟨-, rfl⟩ := h
      exact .inl hat
  · exact .inl (hat.kept h (release_calls fun _ _ => hlock))

/-- So do the two releases behind each other. -/
theorem del_spec {writer : Writer} {flock : FileLock} (hat : At L bid x w)
    (h : writer.del.Executes (WholeSem L i) w flock w') : At L bid x w' ∨ At L bid none w' := by
  obtain ⟨flock₁, w₁, hfirst, hsecond⟩ := Prog.executes_bind.mp h
  obtain hat₁ | hat₁ := release_spec hat hfirst
  · exact release_spec hat₁ hsecond
  · exact .inr ((release_spec hat₁ hsecond).elim id id)

/-- The name of the bundle whose lock file lies at a place. -/
theorem lockLoc_eq_bundleLoc (hbid : IsBid bid) (hbid' : IsBid bid')
    (h : L.lockLoc bid' = L.bundleLoc bid) : bid' = bid := by
  obtain ⟨id, tm, rfl⟩ := hbid
  obtain ⟨id', tm', rfl⟩ := hbid'
  rw [Places.lockLoc_eq, Places.bundleLoc_eq] at h
  obtain ⟨hid, hrest⟩ := List.cons.inj h
  unfold newBid
  rw [hid, (List.cons.inj hrest).1]

/-! ## A round of the loop in `allocate` -/

/-- What a round gives its writer. -/
structure Given (L : Places) (tm : Day) (length : ℕ) (writer : Writer) : Prop where
  bid : ∃ k < 2 ^ 32, writer.bid = newBid k tm
  filename : writer.filename = bundleFilename writer.bid L.place
  lockfile : writer.flock.lockfile = L.lockFile writer.bid
  length : writer.length = length
  offset_le : writer.offset ≤ kMaxBundleSize

/-- The writer of the bundle is at the end of the file, which was there or has been created;
or else a directory is in the way. -/
inductive AtEnd (L : Places) (bid : Bytes) (x : Option Bytes) (offset : ℕ) (w : World ι ι) : Prop
  | dir (h : w.tree.node (L.bundleLoc bid) = some .dir)
  | found {c : Bytes} (hx : x = some c) (hat : At L bid (some c) w) (hoffset : offset = c.length)
  | made {now : Bytes} (hx : x = none) (hnow : now.length < 100)
      (hat : At L bid (some (bundleHeader now)) w) (hoffset : offset = kBundleHeaderSize)

/-- The lock that is left is not the bundle. -/
def LockApart (L : Places) (bid : Bytes) (flock : Option FileLock) : Prop :=
  ∀ f ∈ flock, f.is_locked = true → canon L.cwd f.lockfile ≠ L.bundleLoc bid

/-- What a round means for a bundle. -/
def RoundSpec (L : Places) (bid : Bytes) (x : Option Bytes) (tm : Day) (length : ℕ)
    (w : World ι ι) : Round → Prop
  | .again flock => At L bid x w ∧ LockApart L bid flock
  | .raised _ => True
  | .returned writer =>
      Given L tm length writer ∧
        (writer.bid ≠ bid → At L bid x w) ∧
        (writer.bid = bid → AtEnd L bid x writer.offset w)

/-- The lock that a round lets go leaves the bundle. -/
theorem rebind_calls {flock : Option FileLock} (h : LockApart L bid flock) :
    (rebind flock).Calls (Leaves L bid x) := by
  cases flock with
  | none => trivial
  | some f => exact (release_calls fun hlocked _ => h f rfl hlocked).bind fun _ => trivial

/-- A bundle is created that is not another. -/
theorem create_other (hat : At L bid x w) (hne : L.bundleLoc bid ≠ L.bundleLoc bid')
    (h : (create (bundleFilename bid' L.place)).Executes (WholeSem L i) w true w') :
    At L bid x w' := by
  obtain ⟨now, w₁, -, hmade, hputs, -⟩ := create_spec h
  exact (hat.quiet hmade (ensureDir_calls _)).puts_ne hputs hne

/-- `create` leaves a header and no record.
SOURCE: bundle.py:329-344 -/
theorem create_self (h : (create (bundleFilename bid L.place)).Executes (WholeSem L i) w true w') :
    ∃ now, now.length < 100 ∧ At L bid (some (bundleHeader now)) w' := by
  obtain ⟨now, w₁, hnow, -, hputs, hpath⟩ := create_spec h
  exact ⟨now, hnow, hputs.content, fun _ => hpath⟩

/-- With the lock of a bundle. -/
theorem place_spec {pending : Pending} {statinfo : Except ℕ ℕ} {flock : FileLock}
    {last_id last_id' : ℕ} {r : Round} (hbid : IsBid bid)
    (hid : ∃ k < 2 ^ 32, bid' = newBid k pending.tm) (hlock : flock.lockfile = L.lockFile bid')
    (hold : ∀ size, statinfo = .ok size → At L bid x w ∧ L.lockLoc bid' ≠ L.bundleLoc bid)
    (hnew : ∀ e, statinfo = .error e → (bid' = bid → x = none) ∧ (bid' ≠ bid → At L bid x w))
    (h : (place L pending bid' statinfo flock last_id).Executes (WholeSem L i) w (last_id', r) w') :
    RoundSpec L bid x pending.tm pending.length w' r := by
  have hbid' : IsBid bid' := by
    obtain ⟨k, -, rfl⟩ := hid
    exact ⟨k, pending.tm, rfl⟩
  cases statinfo with
  | error e =>
      obtain ⟨made, w₁, hmade, h⟩ := Prog.executes_bind.mp h
      cases made with
      | false =>
          obtain ⟨heq, rfl⟩ := h
          cases heq
          trivial
      | true =>
          obtain ⟨heq, rfl⟩ := h
          cases heq
          refine ⟨⟨hid, rfl, hlock, rfl, show kBundleHeaderSize ≤ kMaxBundleSize by decide⟩,
            fun hne => ?_, fun heq => ?_⟩
          · refine create_other ((hnew e rfl).2 hne) (fun heq => hne ?_) hmade
            exact (Places.bid_of_bundleLoc hbid hbid' heq).symm
          · have heq' : bid' = bid := heq
            subst heq'
            obtain ⟨now, hnow, hat⟩ := create_self hmade
            exact .made ((hnew e rfl).1 rfl) hnow hat rfl
  | ok size =>
      obtain ⟨hat, hapart⟩ := hold size rfl
      obtain ⟨result, w₁, hstat, h⟩ := Prog.executes_bind.mp h
      have hat₁ := hat.quiet hstat (stat_calls _)
      cases result with
      | error e =>
          obtain ⟨heq, rfl⟩ := h
          cases heq
          trivial
      | ok st_size =>
          change Prog.Executes _ (ite _ _ _) _ _ _ at h
          split at h
          · obtain ⟨heq, rfl⟩ := h
            cases heq
            refine ⟨hat₁, fun f hf _ => ?_⟩
            rw [← Option.some.inj hf, hlock]
            exact hapart
          rename_i hmax
          split at h
          · obtain ⟨heq, rfl⟩ := h
            cases heq
            trivial
          · obtain ⟨heq, rfl⟩ := h
            cases heq
            refine ⟨⟨hid, rfl, hlock, rfl, Nat.le_of_not_lt hmax⟩, fun _ => hat₁, fun heq => ?_⟩
            have heq' : bid' = bid := heq
            subst heq'
            obtain ⟨c, hx, hsize⟩ | hdir := stat_spec hat hstat
            · subst hx
              exact .found rfl hat₁ hsize
            · exact .dir (executes_grows hstat _ hdir)

/-- The draw of an id is quiet.
SOURCE: bundle.py:170-173 -/
theorem chooseId_calls (loop_count last_id : ℕ) : (chooseId loop_count last_id).Calls Quiet :=
  .ite ⟨trivial, fun _ => trivial⟩ trivial

/-- The attempt to get a lock: it has come to nothing, or its file is new. -/
theorem tryAcquire_spec {flock : FileLock} (hat : At L bid x w)
    (h : (FileLock.tryAcquire { lockfile := L.lockFile bid' }).Executes (WholeSem L i) w flock w') :
    flock.lockfile = L.lockFile bid' ∧ (L.lockLoc bid' ≠ L.bundleLoc bid → At L bid x w') ∧
      (flock.is_locked = false → At L bid x w') ∧
      (flock.is_locked = true → w.tree.node (L.lockLoc bid') = none) := by
  obtain ⟨answer, w₁, hopen, h⟩ := h
  cases answer with
  | none =>
      obtain ⟨rfl, rfl⟩ := h
      obtain ⟨e, -, rfl⟩ := hopen.1
      have hat₁ : At L bid x (w.setErrno i e) := ⟨hat.content, hat.path⟩
      exact ⟨rfl, fun _ => hat₁, fun _ => hat₁, fun hlocked => by cases hlocked⟩
  | some fd =>
      obtain ⟨rfl, rfl⟩ := h
      refine ⟨rfl, fun hne => hat.step (o := .openExcl _) (fun _ => hne) hopen,
        fun hlocked => (by cases hlocked), ?_⟩
      obtain ⟨t, hcreated, -⟩ := hopen.1
      exact fun _ => (Tree.openExcl_ok hcreated).2.1

/-- A round of the loop. -/
theorem round_spec {pending : Pending} {last_id last_id' : ℕ} {r : Round} (hbid : IsBid bid)
    (hat : At L bid x w) (hpending : LockApart L bid pending.flock)
    (h : (allocateRound L pending last_id).Executes (WholeSem L i) w (last_id', r) w') :
    RoundSpec L bid x pending.tm pending.length w' r := by
  obtain ⟨chosen, w₁, hchosen, h⟩ := Prog.executes_bind.mp h
  have hat₁ := hat.quiet hchosen (chooseId_calls _ _)
  have hid : ∃ k < 2 ^ 32,
      newBid (chosen % kBundleCountPerDay) pending.tm = newBid k pending.tm := by
    refine ⟨chosen % kBundleCountPerDay, ?_, rfl⟩
    exact (Nat.mod_lt _ (by decide)).trans (by decide)
  generalize hbid'_eq : newBid (chosen % kBundleCountPerDay) pending.tm = bid' at hid
  have hbid' : IsBid bid' := ⟨_, pending.tm, hbid'_eq.symm⟩
  obtain ⟨statinfo, w₂, hstat, h⟩ := Prog.executes_bind.mp h
  rw [hbid'_eq] at hstat
  have hat₂ := hat₁.quiet hstat (stat_calls _)
  change Prog.Executes _ (ite _ _ _) _ _ _ at h
  split at h
  · obtain ⟨heq, rfl⟩ := h
    cases heq
    exact ⟨hat₂, hpending⟩
  rename_i hskip
  obtain ⟨made, w₃, hmade, h⟩ := Prog.executes_bind.mp h
  have hat₃ := hat₂.quiet hmade (ensureDir_calls _)
  cases made with
  | false =>
      obtain ⟨heq, rfl⟩ := h
      cases heq
      trivial
  | true =>
      obtain ⟨old, w₄, hrebind, h⟩ := Prog.executes_bind.mp h
      have hat₄ := hat₃.kept hrebind (rebind_calls hpending)
      obtain ⟨flock, w₅, hacquire, h⟩ := Prog.executes_bind.mp h
      rw [hbid'_eq] at hacquire h
      obtain ⟨hlock, hapart, hfree, hnew⟩ := tryAcquire_spec hat₄ hacquire
      change Prog.Executes _ (ite _ _ _) _ _ _ at h
      split at h
      · rename_i hlocked
        -- where the lock file is the bundle, the bundle was not there
        have hgrows : w₁.tree.Grows w₄.tree :=
          ((executes_grows hstat).trans (executes_grows hmade)).trans (executes_grows hrebind)
        have hgone : L.lockLoc bid' = L.bundleLoc bid → x = none ∧
            w₄.tree.node (L.bundleLoc bid) = none := by
          intro heq
          have hnode := hnew hlocked
          rw [heq] at hnode
          refine ⟨?_, hnode⟩
          rw [← hat₄.content, Tree.content, hnode]
        refine place_spec hbid hid hlock (fun size hsize => ?_) (fun e he => ⟨fun heq => ?_,
          fun hne => hapart fun heq => hne (lockLoc_eq_bundleLoc hbid hbid' heq)⟩) h
        · subst hsize
          have hne : L.lockLoc bid' ≠ L.bundleLoc bid := by
            intro heq
            obtain ⟨hx, hnode⟩ := hgone heq
            have heq' := lockLoc_eq_bundleLoc hbid hbid' heq
            subst heq'
            obtain ⟨c, hc, -⟩ | hdir := stat_spec hat₁ hstat
            · rw [hx] at hc
              cases hc
            · rw [hgrows _ hdir] at hnode
              cases hnode
          exact ⟨hapart hne, hne⟩
        · subst he heq
          have he : e = ENOENT := by simpa [skips] using hskip
          subst he
          cases x with
          | none => rfl
          | some c => exact absurd hstat (stat_enoent hat₁)
      · rename_i hlocked
        obtain ⟨heq, rfl⟩ := h
        cases heq
        have hunlocked : flock.is_locked = false := by simpa using hlocked
        refine ⟨hfree hunlocked, fun f hf hf' => ?_⟩
        rw [← Option.some.inj hf, hunlocked] at hf'
        cases hf'

/-! ## Uploads -/

/-- An allocation of a bundle leaves it as it was, or leaves a header if there was none, by
induction on its rounds.
SOURCE: bundle.py:167-220 -/
theorem allocates_spec {pending : Pending} {last_id : ℕ} {writer : Writer} (hbid : IsBid bid)
    (hat : At L bid x w) (hpending : LockApart L bid pending.flock)
    (h : Allocates L i pending last_id w writer w') :
    RoundSpec L bid x pending.tm pending.length w' (.returned writer) := by
  induction h with
  | returned h => exact round_spec hbid hat hpending h
  | again h hrest ih =>
      obtain ⟨hat₁, hflock⟩ := round_spec hbid hat hpending h
      exact ih hat₁ hflock

/-- A URL is not empty. -/
theorem urlOf_ne_nil (prefix_ date : Bytes) (id offset length : ℕ) (postfix_ : Bytes) :
    urlOf prefix_ date id offset length postfix_ ≠ [] := by
  simp [urlOf]

/-- A lock that is released is a lock of the same name. -/
theorem release_lockfile (flock : FileLock) :
    flock.release.Returns fun flock' => flock'.lockfile = flock.lockfile := by
  unfold FileLock.release
  split
  · refine fun _ removed => ?_
    cases removed with
    | true => rfl
    | false => rfl
  · rfl

/-- Releasing the lock of another bundle. -/
theorem del_other {writer : Writer} {flock : FileLock} (hat : At L bid x w)
    (hlock : canon L.cwd writer.flock.lockfile ≠ L.bundleLoc bid)
    (h : writer.del.Executes (WholeSem L i) w flock w') : At L bid x w' := by
  obtain ⟨flock₁, w₁, hfirst, hsecond⟩ := Prog.executes_bind.mp h
  have hlock₁ := hfirst.returns (release_lockfile _)
  have hat₁ := hat.kept hfirst (release_calls fun _ _ => hlock)
  refine hat₁.kept hsecond (release_calls fun _ _ => ?_)
  rw [hlock₁]
  exact hlock

/-- The bundle of a writer that is given out has a bundle id. -/
theorem isBid_of_given {tm : Day} {length : ℕ} {writer : Writer} (h : Given L tm length writer) :
    IsBid writer.bid := by
  obtain ⟨k, -, hk⟩ := h.bid
  exact ⟨k, tm, hk⟩

/-- Another bundle gets a record. -/
theorem upload_other {url content : Bytes} (hbid : IsBid bid) (hat : At L bid x w)
    (hne : bid' ≠ bid) (h : Upload L i w w' bid' url content) : At L bid x w' := by
  cases h with
  | @mk tm last_id writer w₁ w₂ prefix_ ext flock allocated bid_eq ensured dot slash_ext nul url_le
      length_lt written released =>
      obtain ⟨hgiven, hother, -⟩ := allocates_spec hbid hat (fun f hf => by cases hf) allocated
      have hbid' := isBid_of_given hgiven
      subst bid_eq
      obtain ⟨url', c, -, -, -, hputs⟩ := write_spec written
      have hat₂ := (hother hne).puts_ne hputs (by
        intro heq
        change _ = canon L.cwd writer.filename at heq
        rw [hgiven.filename] at heq
        exact hne (Places.bid_of_bundleLoc hbid hbid' heq).symm)
      refine del_other hat₂ ?_ released
      rw [hgiven.lockfile]
      exact fun heq => hne (lockLoc_eq_bundleLoc hbid hbid' heq)

/-- What the URL of a record says. -/
def Names (bid url : Bytes) (offset length : ℕ) : Prop :=
  ∃ prefix_, extractUrl url = some (some ⟨prefix_, bid, offset, length⟩)

/-- A header of a bundle with a short date is 1024 bytes long.
SOURCE: bundle.py:329-344 -/
theorem length_bundleHeader {now : Bytes} (hnow : now.length < 100) :
    (bundleHeader now).length = kBundleHeaderSize := by
  have htext : (Text.ascii "opi-corp.com file store\n1.0\n").length = 28 := by decide
  have hline : (Text.ascii "\n").length = 1 := by decide
  rw [bundleHeader, length_ljust, List.length_append, List.length_append, htext, hline]
  unfold kBundleHeaderSize
  omega

/-- The bundle gets a record at its end, and a URL that names it. It is gone afterwards only if
its lock file is the bundle itself. -/
theorem upload_self {url content : Bytes} (hbid : IsBid bid) (hat : At L bid x w)
    (h : Upload L i w w' bid url content) :
    Walkable (url, content) ∧ ∃ c,
      (x = some c ∨ x = none ∧ ∃ now, now.length < 100 ∧ c = bundleHeader now) ∧
        Names bid url c.length content.length ∧
        (At L bid (some (c ++ record url content)) w' ∨ ¬ L.Apart ∧ At L bid none w') := by
  cases h with
  | @mk tm last_id writer w₁ w₂ prefix_ ext flock allocated bid_eq ensured dot slash_ext nul url_le
      length_lt written released =>
      obtain ⟨hgiven, -, hself⟩ := allocates_spec hbid hat (fun f hf => by cases hf) allocated
      have hend := hself bid_eq
      obtain ⟨k, hk, hname⟩ := hgiven.bid
      have hlength : writer.length = content.length := hgiven.length
      have hoffset := hgiven.offset_le
      -- the URL names the place of the record
      have hurl : url = urlOf prefix_ tm.text k writer.offset writer.length (46 :: ext) := by
        rw [hname] at ensured
        exact Option.some.inj
          (ensured.symm.trans (buildUrl_eq (slash_not_mem_day tm) hk (46 :: ext)))
      have hnames : Names bid url writer.offset content.length := by
        refine ⟨prefix_, ?_⟩
        rw [hurl, ← bid_eq, hname, ← hlength]
        exact extractUrl_urlOf (slash_not_mem_day tm) hk (hoffset.trans_lt (by decide))
          (by rw [hlength]; unfold kFileHeaderSize at length_lt; omega) dot
      have hwalk : Walkable (url, content) :=
        ⟨url_le, by rw [hurl]; exact urlOf_ne_nil _ _ _ _ _ _, nul, length_lt⟩
      obtain ⟨url', c, hurl', hc, -, hputs⟩ := write_spec written
      have hfile : canon L.cwd writer.filename = L.bundleLoc bid := by
        rw [hgiven.filename, bid_eq]
        rfl
      obtain rfl : url = url' := Option.some.inj hurl'
      have hrecord : Writer.huge { writer with url := some url } url content = record url content :=
        huge_eq_record hlength
      have hdone : ∀ c, At L bid (some c) w₁ → writer.offset = c.length →
          Names bid url c.length content.length ∧
            (At L bid (some (c ++ record url content)) w' ∨ ¬ L.Apart ∧ At L bid none w') := by
        intro c' hat₁ hend
        rw [hfile, hrecord] at hputs
        rw [hfile] at hc
        obtain rfl : c = c' := Option.some.inj (hc.symm.trans hat₁.content)
        have hat₂ : At L bid (some (c ++ record url content)) w₂ := by
          refine ⟨?_, fun _ => hputs.grows.lookup (hat₁.path rfl)⟩
          rw [← ByteSeq.overwrite_length 0 c, ← hend]
          exact hputs.content
        rw [← hend]
        refine ⟨hnames, ?_⟩
        by_cases hapart : L.Apart
        · refine .inl (del_other hat₂ ?_ released)
          rw [hgiven.lockfile, bid_eq]
          exact Places.lockLoc_ne_bundleLoc hapart hbid hbid
        · exact (del_spec hat₂ released).imp_right fun hgone => ⟨hapart, hgone⟩
      refine ⟨hwalk, ?_⟩
      cases hend with
      | dir hdir =>
          rw [hfile, Tree.content_eq_some, hdir] at hc
          cases hc
      | @found c' hx hat₁ hoff =>
          obtain ⟨hnamed, hstate⟩ := hdone c' hat₁ hoff
          exact ⟨c', .inl hx, hnamed, hstate⟩
      | @made now hx hnow hat₁ hoff =>
          have hlen := length_bundleHeader hnow
          obtain ⟨hnamed, hstate⟩ := hdone _ hat₁ (hoff.trans hlen.symm)
          exact ⟨bundleHeader now, .inr ⟨hx, now, hnow, rfl⟩, hnamed, hstate⟩

/-! ## All uploads -/

/-- Every URL names the place of its record. -/
def Named (bid : Bytes) (items : List (Bytes × Bytes)) : Prop :=
  ∀ k item, items[k]? = some item →
    Names bid item.1 (kBundleHeaderSize + (records (items.take k)).length) item.2.length

/-- The records of two lists are those of the first and then those of the second. -/
theorem records_append (items items' : List (Bytes × Bytes)) :
    records (items ++ items') = records items ++ records items' := by
  simp [records]

/-- A further record is named by its place and length. -/
theorem named_append {items : List (Bytes × Bytes)} {url content : Bytes}
    (h : Named bid items)
    (hnew : Names bid url (kBundleHeaderSize + (records items).length) content.length) :
    Named bid (items ++ [(url, content)]) := by
  intro k item hk
  by_cases hlt : k < items.length
  · rw [List.getElem?_append_left hlt] at hk
    rw [List.take_append_of_le_length (Nat.le_of_lt hlt)]
    exact h k item hk
  · rw [List.getElem?_append_right (Nat.le_of_not_lt hlt), List.getElem?_singleton] at hk
    split at hk
    · rename_i hzero
      obtain rfl : k = items.length := by omega
      cases hk
      rw [List.take_left]
      exact hnew
    · cases hk

/-- The records behind the header, or the bundle is gone with its lock. -/
def Holds (L : Places) (bid : Bytes) (items : List (Bytes × Bytes)) (w : World ι ι) : Prop :=
  (¬ L.Apart ∧ At L bid none w) ∨
    ∃ now, now.length < 100 ∧ At L bid (some (bundleHeader now ++ records items)) w

/-- The file is the header and the records, in the order of the uploads. -/
structure Uploaded (L : Places) (bid : Bytes) (items : List (Bytes × Bytes)) (w : World ι ι) :
    Prop where
  walkable : ∀ item ∈ items, Walkable item
  named : Named bid items
  holds : Holds L bid items w

omit [DecidableEq ι] in
/-- One more upload to a file that holds the header and records. -/
theorem uploaded_round (items : List (Bytes × Bytes)) {url content now : Bytes}
    (hwalk : ∀ item ∈ items, Walkable item) (hnamed : Named bid items) (hnow : now.length < 100)
    (hnew : Walkable (url, content))
    (hname : Names bid url (bundleHeader now ++ records items).length content.length)
    (hat : At L bid (some (bundleHeader now ++ records items ++ record url content)) w' ∨
      ¬ L.Apart ∧ At L bid none w') : Uploaded L bid (items ++ [(url, content)]) w' := by
  constructor
  · intro item hmem
    obtain hold | hlast := List.mem_append.mp hmem
    · exact hwalk item hold
    · rw [List.mem_singleton.mp hlast]
      exact hnew
  · rw [List.length_append, length_bundleHeader hnow] at hname
    exact named_append hnamed hname
  · obtain hat | hgone := hat
    · refine .inr ⟨now, hnow, ?_⟩
      have hone : records [(url, content)] = record url content := by
        simp [records]
      rw [records_append, hone, ← List.append_assoc]
      exact hat
    · exact .inl hgone

/-- After uploads into a bundle it holds their records in their order, by induction on the
rounds. -/
theorem uploads_spec {items : List (Bytes × Bytes)} (hbid : IsBid bid)
    (h : Uploads L i bid w items) : Uploaded L bid items w := by
  induction h with
  | created h =>
      obtain ⟨now, hnow, hat⟩ := create_self h
      refine ⟨fun _ hmem => (by cases hmem), fun k item hk => (by cases hk), .inr ⟨now, hnow, ?_⟩⟩
      simpa [records] using hat
  | first h hround =>
      have hat : At L bid none _ := ⟨h, fun hx => by cases hx⟩
      obtain ⟨hnew, c, hx | ⟨-, now, hnow, rfl⟩, hname, hat'⟩ := upload_self hbid hat hround
      · cases hx
      · refine uploaded_round [] (fun _ hmem => (by cases hmem))
          (fun k item hk => (by cases hk)) hnow hnew ?_ ?_
        · simpa [records] using hname
        · simpa [records] using hat'
  | other h hne hround ih =>
      refine ⟨ih.walkable, ih.named, ?_⟩
      obtain ⟨hapart, hat⟩ | ⟨now, hnow, hat⟩ := ih.holds
      · exact .inl ⟨hapart, upload_other hbid hat hne hround⟩
      · exact .inr ⟨now, hnow, upload_other hbid hat hne hround⟩
  | round h there hround ih =>
      obtain ⟨hapart, hat⟩ | ⟨now, hnow, hat⟩ := ih.holds
      · have hsome := there.resolve_left hapart
        rw [hat.content] at hsome
        cases hsome
      · obtain ⟨hnew, c, hx | ⟨hx, -⟩, hname, hat'⟩ := upload_self hbid hat hround
        · obtain rfl := Option.some.inj hx
          exact uploaded_round _ ih.walkable ih.named hnow hnew hname hat'
        · cases hx

omit [DecidableEq ι] in
/-- The file that is opened is the one that was written. -/
theorem fopen_at {file : Bytes} (hat : At L bid (some file) w) :
    (treeView w.tree L.cwd).fopen (bundleFilename bid L.place) = .ok file := by
  have hnode := Tree.content_eq_some.mp hat.content
  have hopen : w.tree.openRdwr L.cwd (bundleFilename bid L.place) =
      .ok ⟨L.bundleLoc bid, 0⟩ := by
    simp only [Tree.openRdwr, Tree.onPath, hat.path rfl, hnode]
  simp only [treeView, hopen, hat.content, Option.getD_some]

/-- A record with what stands before and behind it. -/
theorem records_at {items : List (Bytes × Bytes)} {k : ℕ} {item : Bytes × Bytes}
    (h : items[k]? = some item) :
    records items = records (items.take k) ++ record item.1 item.2 ++
      records (items.drop (k + 1)) := by
  obtain ⟨hk, rfl⟩ := List.getElem?_eq_some_iff.mp h
  have hsplit : items = items.take k ++ [items[k]] ++ items.drop (k + 1) := by
    simp
  conv_lhs => rw [hsplit]
  rw [records_append, records_append]
  simp [records]

/-- **`walk` recovers the uploads.** From a bundle that was created, and to which one process has
uploaded, `walk` yields one item for each upload, in their order, with its URL and its content,
and ends; and `read` gives back the content of each URL. Locks and bundles are kept apart, or
the bundle is still there.
SOURCE: pybundle/bundle.py:30-52,368-407 -/
theorem walk_recovers (L : Places) (i : ι) {bid : Bytes} (hbid : IsBid bid) {w : World ι ι}
    {items : List (Bytes × Bytes)} (h : Uploads L i bid w items)
    (there : L.Apart ∨ (w.tree.content (L.bundleLoc bid)).isSome = true) :
    (∀ rounds, items.length < rounds →
      walk (treeView w.tree L.cwd) (bundleFilename bid L.place) rounds =
        (items.map fun item => ⟨1, item.1, item.2⟩, .finished)) ∧
      ∀ item ∈ items, ∀ check_flag,
        read (treeView w.tree L.cwd) L.place item.1 check_flag = some item.2 := by
  obtain ⟨hwalk, hnamed, ⟨hapart, hat⟩ | ⟨now, hnow, hat⟩⟩ := uploads_spec hbid h
  · have hsome := there.resolve_left hapart
    rw [hat.content] at hsome
    cases hsome
  have hlen := length_bundleHeader hnow
  have hopen := fopen_at hat
  constructor
  · intro rounds hrounds
    have hpos : align1k kBundleHeaderSize = (bundleHeader now).length := by
      rw [hlen]
      rfl
    unfold walk
    rw [hopen]
    exact walkLoop_records hwalk hpos hrounds
  · intro item hitem check_flag
    obtain ⟨k, hk⟩ := List.mem_iff_getElem?.mp hitem
    obtain ⟨prefix_, hextract⟩ := hnamed k item hk
    rw [records_at hk, ← List.append_assoc, ← List.append_assoc] at hopen
    rw [← hlen, ← List.length_append] at hextract
    exact read_record hextract hopen (hwalk item hitem).url_le (hwalk item hitem).length_lt
      check_flag

/-- An upload where the first round of `allocate` returns a writer: the name of the bundle and
the URL, if all goes well. -/
def uploadOnce (L : Places) (tm : Day) (last_id : ℕ) (prefix_ ext content : Bytes) :
    Sys (Option (Bytes × Bytes)) := do
  let result ← allocateRound L { length := content.length, tm, loop_count := 1 } last_id
  match result with
  | (_, .returned writer) =>
      match buildUrl prefix_ writer.bid writer.offset writer.length (46 :: ext) with
      | some url => do
          let n ← { writer with url := some url }.write content
          let _ ← writer.del
          pure (if n = some content.length then some (writer.bid, url) else none)
      | none => pure none
  | _ => pure none

/-- What it does is an upload. -/
theorem upload_of_once {tm : Day} {last_id : ℕ} {prefix_ ext url content : Bytes}
    (h : (uploadOnce L tm last_id prefix_ ext content).Executes (WholeSem L i) w
      (some (bid, url)) w')
    (hdot : 46 ∉ ext) (hslash : slash ∉ ext) (hnul : 0 ∉ url) (hurl : url.length ≤ 256)
    (hlength : content.length + kFileHeaderSize < 2 ^ 32) : Upload L i w w' bid url content := by
  obtain ⟨⟨last_id', r⟩, w₁, hround, h⟩ := Prog.executes_bind.mp h
  cases r with
  | again flock =>
      obtain ⟨heq, -⟩ := h
      cases heq
  | raised flock =>
      obtain ⟨heq, -⟩ := h
      cases heq
  | returned writer =>
      simp only at h
      split at h
      · rename_i url' hbuild
        obtain ⟨n, w₂, hwrite, h⟩ := Prog.executes_bind.mp h
        obtain ⟨flock, w₃, hdel, heq, rfl⟩ := Prog.executes_bind.mp h
        split at heq
        · rename_i hn
          subst hn
          obtain ⟨rfl, rfl⟩ := Prod.mk.inj (Option.some.inj heq)
          exact ⟨.returned hround, rfl, hbuild, hdot, hslash, hnul, hurl, hlength, hwrite, hdel⟩
        · cases heq
      · obtain ⟨heq, -⟩ := h
        cases heq

/-- The write does not reach the end of all offsets. -/
def writable : SysCall → World Bool Bool → Bool
  | .write fd _ data, _ => decide (fd.pos + data.length < 2 ^ 63)
  | _, _ => true

/-- Calls that find their paths writable do their whole work. -/
theorem faultless_whole (o : SysCall) (w : World Bool Bool) (h : writable o w = true) :
    WholeSem twoPlaces false o w (faultless false o w).1 (faultless false o w).2 := by
  refine ⟨faultless_sem false o w, ?_⟩
  cases o with
  | write fd site data =>
      have hlt : fd.pos + data.length < 2 ^ 63 := of_decide_eq_true h
      simp only [WholeCall, faultless, World.serve, if_pos hlt]
  | _ => trivial

/-- An upload that goes well, as a test of what it gives. -/
theorem upload_of_run {tm : Day} {last_id : ℕ} {prefix_ ext content : Bytes}
    {w : World Bool Bool} (bid : Bytes)
    (hwell : (((uploadOnce twoPlaces tm last_id prefix_ ext content).run (faultless false) w).1.map
      fun result => decide (result.1 = bid ∧ 0 ∉ result.2 ∧ result.2.length ≤ 256)) = some true)
    (hwhole : (uploadOnce twoPlaces tm last_id prefix_ ext content).runsWith (faultless false)
      writable w = true)
    (hdot : 46 ∉ ext) (hslash : slash ∉ ext)
    (hlength : content.length + kFileHeaderSize < 2 ^ 32) :
    ∃ url, Upload twoPlaces false w
      ((uploadOnce twoPlaces tm last_id prefix_ ext content).run (faultless false) w).2
      bid url content := by
  obtain ⟨⟨bid', url⟩, hrun, hok⟩ := Option.map_eq_some_iff.mp hwell
  obtain ⟨hbid, hnul, hurl⟩ := of_decide_eq_true hok
  have hbid' : bid' = bid := hbid
  subst hbid'
  have hexec := Prog.executes_run faultless_whole hwhole
  rw [hrun] at hexec
  exact ⟨url, upload_of_once hexec hdot hslash hnul hurl hlength⟩

/-- Two uploads to one bundle of an empty disk, the second one of no bytes. -/
theorem walk_recovers_two :
    let w := ((uploadOnce twoPlaces may14 0 (Text.ascii "fmn04") (Text.ascii "jpg")
      [97, 98, 99]).run (faultless false) (World.start Tree.bare)).2
    let w' := ((uploadOnce twoPlaces may14 0 (Text.ascii "fmn04") (Text.ascii "png")
      []).run (faultless false) w).2
    let bid := newBid 0 may14
    ∃ url url',
      (∀ rounds, 2 < rounds →
        walk (treeView w'.tree twoPlaces.cwd) (bundleFilename bid twoPlaces.place) rounds =
          ([⟨1, url, [97, 98, 99]⟩, ⟨1, url', []⟩], .finished)) ∧
        ∀ item ∈ [(url, ([97, 98, 99] : Bytes)), (url', [])], ∀ check_flag,
          read (treeView w'.tree twoPlaces.cwd) twoPlaces.place item.1 check_flag =
            some item.2 := by
  intro w w' bid
  obtain ⟨url, hfirst⟩ : ∃ url, Upload twoPlaces false (World.start Tree.bare) w bid url
      [97, 98, 99] :=
    upload_of_run bid (by decide +kernel) (by decide +kernel) (by decide) (by decide) (by decide)
  obtain ⟨url', hsecond⟩ : ∃ url', Upload twoPlaces false w w' bid url' [] :=
    upload_of_run bid (by decide +kernel) (by decide +kernel) (by decide) (by decide) (by decide)
  have hempty : (World.start (ι := Bool) (κ := Bool) Tree.bare).tree.content
      (twoPlaces.bundleLoc bid) = none := by
    decide +kernel
  have huploads : Uploads twoPlaces false bid w' [(url, [97, 98, 99]), (url', [])] :=
    .round (.first hempty hfirst) (.inl twoPlaces_apart) hsecond
  have hbid : IsBid bid := ⟨0, may14, rfl⟩
  clear_value w' bid
  exact ⟨url, url', walk_recovers twoPlaces false hbid huploads (.inl twoPlaces_apart)⟩

end PyBundle

end BundleStore
