import BundleStore.Analysis.WebStorage

set_option autoImplicit false

/-!
# Uploads to the web server

Every upload action leaves the storage as it should be, whatever the other workers do.
Each part of its output is a failure, or the url of a record that has been accepted whole
and that has the data of the file.
-/

namespace BundleStore

namespace Cwf

open Machine Posix Text Relation

section Uploads

variable {ι : Type} [DecidableEq ι] {cwd : Loc} {base : Tree} {i : ι}

/-! ## One writer -/

/-- What is told of the record that a url is built for. -/
structure WebInfo (info : Info) : Prop where
  day : isDay info.prefix_ = true
  postfix_ : info.postfix_ = ascii ".jpg"
  id_range : 0 ≤ info.id ∧ info.id < 2 ^ 31
  offset_le : info.offset ≤ 2 ^ 31
  size_lt : info.size < 2 ^ 31

/-- A url has been given out for some data: its record has been accepted whole. -/
def GivenOut (cwd : Loc) (w : World ι ι) (url data : Bytes) : Prop :=
  ∃ info entry, url = buildWithEncode info ∧ WebInfo info ∧ info.size = data.length ∧
    info.offset = entry.offset ∧ entry.call = ⟨url, data, none⟩ ∧ IsRecord entry.call entry.record ∧
      entry ∈ w.accepted ((webLayout cwd).bundleLoc info.prefix_ info.id)

/-- The call of an upload action for a file. -/
def uploadCall (ts : Calendar) (data : Bytes) : AllocateCall where
  prefix_ := UploadAction.dayPrefix ts.tm
  postfix_ := ascii ".jpg"
  size := data.length
  storage := UploadAction.the_storage_

/-- The prefix of an upload is its day.
SOURCE: bundleaction.cc:36-44 -/
theorem bundlePrefix_uploadCall (ts : Calendar) (data : Bytes) :
    (uploadCall ts data).bundlePrefix = UploadAction.dayPrefix ts.tm := by
  obtain ⟨day, hday, -, -⟩ := isDay_iff.mp (isDay_dayPrefix ts)
  unfold AllocateCall.bundlePrefix uploadCall
  rw [hday]
  exact if_neg (by simp [slash])

variable {sem : ι → (o : SysCall) → World ι ι → o.Answer → World ι ι → Prop}
variable {before : List LiveWriter} {data : Bytes} {writer : Writer}

/-- `Allocate`, as far as it comes. -/
theorem allocate_kept (hsem : (webUpkeep cwd base).KeptCalls sem) (ts : Calendar)
    (hdata : fullSize data < 2 ^ 31) (rounds : ℕ) :
    (webUpkeep cwd base).discipline.Triple sem i ((webUpkeep cwd base).LiveOk i before)
      (allocate defaultSetting (uploadCall ts data) rounds) fun
        | some (some writer) => (webUpkeep cwd base).LiveOk i (before ++ [⟨writer, .fresh⟩])
        | _ => (webUpkeep cwd base).LiveOk i before := by
  have hsize : (webUpkeep cwd base).sizes (uploadCall ts data).size := by
    intro _
    have hfits := fits_fullSize data
    show data.length < 2 ^ 62
    omega
  have hday : (webUpkeep cwd base).allowed (uploadCall ts data).bundlePrefix = true := by
    rw [bundlePrefix_uploadCall]
    exact isDay_dayPrefix ts
  refine Discipline.Triple.bind (Upkeep.quiet_triple hsem (Upkeep.held_liveOk i before)
    (enterAllocate_calls.mono Upkeep.quiet_of_idCall)) fun _ => ?_
  refine (Discipline.Triple.attempts (I := fun _ => (webUpkeep cwd base).LiveOk i before)
    (Q := fun
      | some writer => (webUpkeep cwd base).LiveOk i (before ++ [⟨writer, .fresh⟩])
      | none => (webUpkeep cwd base).LiveOk i before) (fun count => ?_) rounds 0).post ?_
  · refine Discipline.Triple.bind
      (Upkeep.allocatePass_kept hsem _ rfl rfl hday hsize) fun pass => ?_
    cases pass with
    | null => exact Discipline.Triple.ret fun _ _ h => h
    | again => exact Discipline.Triple.ret fun _ _ h => h
    | writer writer => exact Discipline.Triple.ret fun _ _ h => h
  · intro r w _ h
    match r, h with
    | none, ⟨_, h⟩ => exact h
    | some none, h => exact h
    | some (some writer), h => exact h

/-- No file of a request makes a record of two gigabytes. -/
def filesInRange (_ : ι) (_ : Worker) (arrival : Arrival) (_ : World ι ι) : Bool :=
  arrival.request.file_array_.all fun fd => decide (fullSize fd.data < 2 ^ 31)

/-- The workers, when files are not too large and failures are signalled. -/
abbrev servingSystem (cwd : Loc) (ι : Type) [DecidableEq ι] :
    System ServerCall ServerCall.Answer ι (World ι ι) Worker Arrival :=
  (webSystem cwd defaultSetting).restrict Signalled filesInRange

variable {F : World ι ι → Prop}

variable {clock : ℕ → Calendar} {rounds : ℕ} {x : Handling}
variable {Q : HttpStatusCode → Handling → World ι ι → Prop}

/-- The part of the output of `WriteAction` for a file. -/
def Line (Given : Bytes → Bytes → Prop) (fd : BundleStore.FormDisposition) (line : Bytes) : Prop :=
  (∃ ret : ℤ, ret ≠ 0 ∧ line = ascii "failed " ++ decimalInt ret) ∨
    ∃ url, line = url ++ [10] ∧ Given url fd.data

/-- A line that says less. -/
theorem Line.mono {Given Given' : Bytes → Bytes → Prop}
    (h : ∀ url data, Given url data → Given' url data) {fd : BundleStore.FormDisposition}
    {line : Bytes} (hline : Line Given fd line) : Line Given' fd line :=
  hline.imp id fun ⟨url, hurl, hgiven⟩ => ⟨url, hurl, h url fd.data hgiven⟩

/-- What `WriteAction` puts out for the files. -/
def Lines (files : List BundleStore.FormDisposition) (Given : Bytes → Bytes → Prop)
    (text : Bytes) : Prop :=
  ∃ lines, List.Forall₂ (Line Given) files lines ∧ text = lines.flatten

/-- What `WriteRedirectAction` puts out for failures. -/
def failures (failed : List ℤ) : Bytes :=
  failed.flatMap fun ret => ascii "failed " ++ decimalInt ret

/-- The head that leads to a url. -/
def redirectHead (url : Bytes) : Bytes :=
  ascii "HTTP/1.x 302 Found\r\nContent-Type: text/plain; charset=utf-8\r\n" ++
    ascii "Content-Length: 0\r\nLocation: /" ++ url ++ ascii "\r\n\r\n"

/-- What `WriteRedirectAction` puts out for the files: it leads to the first one that has
been written. -/
def Redirects (files : List BundleStore.FormDisposition) (Given : Bytes → Bytes → Prop)
    (text : Bytes) : Prop :=
  ∃ failed : List ℤ, (∀ ret ∈ failed, ret ≠ 0) ∧
    ((failed.length = files.length ∧ text = failures failed) ∨
      ∃ fd url, files[failed.length]? = some fd ∧ Given url fd.data ∧
        text = failures failed ++ redirectHead url)

/-- A file that failed before a redirection.
SOURCE: bundleaction.cc:114-119 -/
theorem Redirects.cons {files : List BundleStore.FormDisposition}
    {Given : Bytes → Bytes → Prop} {text : Bytes} (h : Redirects files Given text)
    (fd : BundleStore.FormDisposition) {ret : ℤ} (hret : ret ≠ 0) :
    Redirects (fd :: files) Given (ascii "failed " ++ decimalInt ret ++ text) := by
  obtain ⟨failed, hne, hcase⟩ := h
  refine ⟨ret :: failed, ?_, ?_⟩
  · intro r hr
    rcases List.mem_cons.mp hr with rfl | hr
    · exact hret
    · exact hne r hr
  · rcases hcase with ⟨hall, rfl⟩ | ⟨fd', url, hat, hgiven, rfl⟩
    · exact .inl ⟨by rw [List.length_cons, List.length_cons, hall], rfl⟩
    · refine .inr ⟨fd', url, ?_, hgiven, ?_⟩
      · rw [List.length_cons, List.getElem?_cons_succ]
        exact hat
      · rw [← List.append_assoc]
        rfl

end Uploads

end Cwf

end BundleStore
