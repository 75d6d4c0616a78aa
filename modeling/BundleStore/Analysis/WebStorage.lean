import BundleStore.Analysis.Durable
import BundleStore.Analysis.EncodedUrl
import BundleStore.Model.WebSystem

set_option autoImplicit false

/-!
# The storage of the web server

The bundles lie under the prefixes of days. A writer names its day, and what has been
written for a url only grows: records are added, and no id that has reached zero goes back
below it.
-/

namespace BundleStore

namespace Cwf

open Machine Posix Text Relation

/-! ## The storage of the web server -/

/-- The first level of the web server's setting is positive. -/
theorem default_level_1_pos : 0 < defaultSetting.file_count_level_1 := by decide

/-- The levels of the web server's setting are in their order. -/
theorem default_level_1_le :
    defaultSetting.file_count_level_1 ≤ defaultSetting.file_count_level_2 := by decide

/-- The second level of the web server's setting is an `int`. -/
theorem default_level_2_lt : defaultSetting.file_count_level_2 < 2 ^ 31 := by decide

/-- What the actions pass to `Allocate`. -/
def webLayout (cwd : Loc) : Layout where
  cwd := cwd
  setting := defaultSetting
  storage := UploadAction.the_storage_
  lock_dir := pathJoin UploadAction.the_storage_ (ascii ".lock")
  level_1_pos := default_level_1_pos
  level_1_le := default_level_1_le
  level_2_lt := default_level_2_lt

/-- The prefix of a day: eight digits in the directory `p`. -/
def isDay (p : Bytes) : Bool :=
  p.take 2 == ascii "p/" && decide ((p.drop 2).length = 8) &&
    (p.drop 2).all fun c => decide (IsDigit c)

/-- A day is `p/` and eight digits. -/
theorem isDay_iff {p : Bytes} :
    isDay p = true ↔ ∃ day, p = 112 :: slash :: day ∧ day.length = 8 ∧ ∀ c ∈ day, IsDigit c := by
  have hp : ascii "p/" = [112, slash] := by decide
  unfold isDay
  rw [hp]
  constructor
  · intro h
    simp only [Bool.and_eq_true, beq_iff_eq, decide_eq_true_eq, List.all_eq_true] at h
    obtain ⟨⟨hfront, hlength⟩, hdigits⟩ := h
    refine ⟨p.drop 2, ?_, hlength, hdigits⟩
    conv_lhs => rw [← List.take_append_drop 2 p, hfront]
    rfl
  · rintro ⟨day, rfl, hlength, hdigits⟩
    simp only [List.take_succ_cons, List.take_zero, List.drop_succ_cons, List.drop_zero,
      beq_self_eq_true, Bool.true_and, Bool.and_eq_true, decide_eq_true_eq, List.all_eq_true]
    exact ⟨hlength, hdigits⟩

/-- There is no slash among digits. -/
theorem slash_not_mem_day {day : Bytes} (h : ∀ c ∈ day, IsDigit c) : slash ∉ day := by
  intro hmem
  have hdigit := h slash hmem
  revert hdigit
  decide

/-- The components of a day are `p` and the digits. -/
theorem components_day {day : Bytes} (h : ∀ c ∈ day, IsDigit c) :
    components (112 :: slash :: day) = [[112], day] := by
  have hsplit : (112 :: slash :: day : Bytes) = [112] ++ slash :: day := rfl
  rw [hsplit, components_append_slash, components_of_no_slash (slash_not_mem_day h),
    components_of_no_slash (by decide)]
  rfl

/-- There is no `..` in a day. -/
theorem day_plain {p : Bytes} (hp : isDay p = true) : ∀ c ∈ components p, c ≠ dotdot := by
  obtain ⟨day, rfl, hlength, hdigits⟩ := isDay_iff.mp hp
  rw [components_day hdigits]
  intro c hc
  simp only [List.mem_cons, List.not_mem_nil, or_false] at hc
  rcases hc with rfl | rfl
  · decide
  · intro heq
    rw [heq] at hlength
    cases hlength

/-- The locks of the web server lie under its storage. -/
theorem canon_lockDir (cwd : Loc) :
    canon (webLayout cwd).cwd (webLayout cwd).lock_dir =
      ascii ".lock" :: canon cwd UploadAction.the_storage_ := by
  have hname : IsName (ascii ".lock") := isName_of_two_lt (by decide)
  show canon cwd (pathJoin UploadAction.the_storage_ (ascii ".lock")) = _
  rw [canon_pathJoin _ _ (by decide) (by decide), components_of_no_slash (by decide)]
  exact descend_name hname _

/-- No bundle is a lock file: it lies in a directory whose name is longer. -/
theorem webLayout_outside (cwd : Loc) (p : Bytes) : (webLayout cwd).Outside p := by
  apply Layout.outside_of_tail
  intro id heq
  rw [Layout.bundleLoc_eq, List.tail_cons, canon_lockDir] at heq
  have hlength := congrArg List.length (List.cons.inj heq).1
  rw [length_hex8] at hlength
  revert hlength
  decide

/-- The storage of the web server is on no way through a `..`. -/
theorem storage_direct (base : Tree) (cwd : Loc) :
    base.Direct cwd (webLayout cwd).storage := by
  apply Tree.direct_of_plain
  show ∀ c ∈ components UploadAction.the_storage_, c ≠ dotdot
  decide

/-- What is kept of the bundles of the days. -/
def webUpkeep (cwd : Loc) (base : Tree) : Upkeep (webLayout cwd) :=
  durableUpkeep (webLayout cwd) base isDay (fun p _ => webLayout_outside cwd p) (fun _ => day_plain)
    (storage_direct base cwd) True

/-! ## The prefix of a day -/

/-- A number that fits is padded to its width. -/
theorem length_padded {width n : ℕ} (hwidth : 0 < width) (h : n < 10 ^ width) :
    (UploadAction.padded width n).length = width := by
  have hle : (decimal n).length ≤ width := by
    have hmap : (decimal n).length = (Nat.toDigits 10 n).length := List.length_map ..
    rw [hmap]
    exact (Nat.length_toDigits_le_iff (by norm_num) hwidth).mpr h
  unfold UploadAction.padded
  rw [List.length_append, List.length_replicate]
  omega

/-- A padded number is of digits. -/
theorem mem_padded {width n : ℕ} {c : UInt8} (hc : c ∈ UploadAction.padded width n) :
    IsDigit c := by
  unfold UploadAction.padded at hc
  rcases List.mem_append.mp hc with hc | hc
  · rw [List.eq_of_mem_replicate hc]
    decide
  · exact isDigit_of_mem_decimal hc

/-- The prefix of an upload is a day.
SOURCE: bundleaction.cc:36-41 -/
theorem isDay_dayPrefix (ts : Calendar) : isDay (UploadAction.dayPrefix ts.tm) = true := by
  have hyear : (UploadAction.padded 4 (ts.tm.tm_year + 1900)).length = 4 :=
    length_padded (by norm_num) ts.year_lt
  have hmon : (UploadAction.padded 2 (ts.tm.tm_mon + 1)).length = 2 :=
    length_padded (by norm_num) (by have := ts.mon_lt; omega)
  have hmday : (UploadAction.padded 2 ts.tm.tm_mday).length = 2 :=
    length_padded (by norm_num) (by have := ts.mday_lt; omega)
  have hp : ascii "p/" = [112, slash] := by decide
  rw [isDay_iff]
  refine ⟨UploadAction.padded 4 (ts.tm.tm_year + 1900) ++
    UploadAction.padded 2 (ts.tm.tm_mon + 1) ++ UploadAction.padded 2 ts.tm.tm_mday, ?_, ?_, ?_⟩
  · unfold UploadAction.dayPrefix UploadAction.snprintf
    rw [List.take_of_length_le, hp]
    · rfl
    · simp only [List.length_append, hp, hyear, hmon, hmday, List.length_cons, List.length_nil]
      norm_num
  · simp only [List.length_append, hyear, hmon, hmday]
  · intro c hc
    simp only [List.mem_append, or_assoc] at hc
    rcases hc with hc | hc | hc
    · exact mem_padded hc
    · exact mem_padded hc
    · exact mem_padded hc

/-! ## What a writer says -/

section Returns

variable (setting : Setting) (call : AllocateCall)

/-- A bundle that is made is the file it was asked for.
SOURCE: bundle.cc:518-539 -/
theorem createMissing_returns (bundle_file : Bytes) (filelock : FileLock) :
    (createMissing bundle_file filelock).Returns fun step => ∀ file offset,
      step = .placed file offset → file = bundle_file := by
  refine Prog.Returns.bind (Prog.returns_true _) fun made _ => ?_
  refine Prog.Returns.ite (fun _ => ?_) fun _ => ?_
  · refine Prog.Returns.bind (Prog.returns_true _) fun created _ => ?_
    refine Prog.Returns.ite (fun _ => ?_) fun _ => ?_
    · rintro file offset heq
      cases heq
      rfl
    · refine Prog.Returns.bind (Prog.returns_true _) fun _ _ => ?_
      rintro file offset heq
      cases heq
  · refine Prog.Returns.bind (Prog.returns_true _) fun _ _ => ?_
    rintro file offset heq
    cases heq

end Returns

section Growth

variable {ι : Type}

/-- Records are only added, and `last_id_` does not go back below -1, or below 0. -/
structure Ages (w w' : World ι ι) : Prop where
  accepted : ∀ l, w.accepted l <+: w'.accepted l
  lastId : ∀ p n, -1 ≤ n → n ≤ 0 → n ≤ w.lastId p → n ≤ w'.lastId p

/-- A world with the same log and the same ids has aged. -/
theorem Ages.of_eq {w w' : World ι ι} (hlog : w'.accepted = w.accepted)
    (hid : w'.lastId = w.lastId) : Ages w w' :=
  ⟨fun l => by rw [hlog], fun p n _ _ h => by rwa [hid]⟩

instance : Std.Refl (Ages (ι := ι)) := ⟨fun _ => .of_eq rfl rfl⟩

instance : IsTrans (World ι ι) Ages :=
  ⟨fun _ _ _ h h' => ⟨fun l => (h.accepted l).trans (h'.accepted l), fun p n hlo hhi hn =>
    h'.lastId p n hlo hhi (h.lastId p n hlo hhi hn)⟩⟩

/-- What stays true. -/
def Ageless (F : World ι ι → Prop) : Prop :=
  ∀ w w', Ages w w' → F w → F w'

/-- Two ageless facts are ageless together. -/
theorem Ageless.and {F G : World ι ι → Prop} (hF : Ageless F) (hG : Ageless G) :
    Ageless fun w => F w ∧ G w :=
  fun w w' h hw => ⟨hF w w' h hw.1, hG w w' h hw.2⟩

/-- A `write` of a record that falls short finds an `errno`, or fails; and `last_id_ ++`
stays an `int`. -/
def Signalled (i : ι) : (o : ServerCall) → World ι ι → o.Answer → World ι ι → Prop
  | .sys (.write _ (.record _) data), w, count, _ =>
      count = (data.length : ℤ) ∨ count = (-1 : ℤ) ∨ w.errno i ≠ 0
  | .sys .incLastId, w, _, _ => w.lastId i + 1 < 2 ^ 31
  | _, _, _, _ => True

/-- No id below zero is set. -/
def Rising : SysCall → Prop
  | .setLastId id => 0 ≤ id
  | _ => True

variable [DecidableEq ι] {cwd : Loc} {i : ι} {w w' : World ι ι}

/-- A call on the system whose failures are signalled ages the world. -/
theorem ages_of_sys {o : SysCall} {a : o.Answer} (h : World.Sem cwd id i o w a w')
    (hok : Signalled i (.sys o) w a w') (ho : Rising o) : Ages w w' := by
  constructor
  · exact h.accepted_grows
  · intro p n hlo hhi hn
    by_cases hp : p = i
    · subst hp
      cases h.effect with
      | setId id =>
          show n ≤ Function.update w.lastId p id p
          rw [Function.update_self]
          exact hhi.trans ho
      | incId =>
          show n ≤ Function.update w.lastId p (int32 (w.lastId p + 1)) p
          rw [Function.update_self, int32_of_range (by omega) hok]
          omega
      | readId site =>
          unfold World.readLastId
          split
          · exact hn
          · exact hn
      | _ => exact hn
    · rw [h.effect.lastId_ne (p := p) hp]
      exact hn

/-- Reading ages the world. -/
theorem ages_of_reading (h : ReadsOnly i w w') : Ages w w' := by
  rcases h with rfl | ⟨e, rfl⟩
  · exact .of_eq rfl rfl
  · exact .of_eq rfl rfl

end Growth

/-! ## The ids of writers -/

section Grown

variable {ι : Type} [DecidableEq ι]

/-- The calls do what they do on a file system, with failures signalled. -/
structure SignalledCalls (cwd : Loc)
    (sem : ι → (o : SysCall) → World ι ι → o.Answer → World ι ι → Prop) : Prop where
  calls : ∀ {i o w a w'}, sem i o w a w' → World.Sem cwd id i o w a w'
  signalled : ∀ {i o w a w'}, sem i o w a w' → Signalled i (.sys o) w a w'

variable {cwd : Loc} {sem : ι → (o : SysCall) → World ι ι → o.Answer → World ι ι → Prop}
variable {i : ι} {F : World ι ι → Prop}

/-- Programs of rising calls keep what is ageless. -/
theorem grown (hsem : SignalledCalls cwd sem) (hF : Ageless F) {α : Type} {p : Sys α}
    (hp : p.Calls Rising) : (Discipline.growing Ages).Triple sem i F p fun _ => F :=
  Discipline.Triple.growing hp
    (fun _ _ _ _ ho h => ages_of_sys (hsem.calls h) (hsem.signalled h) ho) hF

end Grown

end Cwf

end BundleStore
