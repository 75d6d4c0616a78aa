import BundleStore.Model.Allocate
import Mathlib.Data.Int.ConditionallyCompleteOrder
import Mathlib.Data.Int.ModEq
import Mathlib.Data.List.Induction

set_option autoImplicit false

/-!
# Where locks and bundles lie

The lock file of an id is an entry of the lock directory. A bundle lies two names
below its prefix; these names determine its id as long as the second level has at
least as many files as the first. So a bundle belongs to one lock file, and no
bundle is a lock file unless a prefix leads into the lock directory.
-/

namespace BundleStore

open Machine Posix Text

/-- What all callers have in common. The two levels are `int`s. -/
structure Layout where
  cwd : Loc
  setting : Setting
  storage : Bytes
  lock_dir : Bytes
  level_1_pos : 0 < setting.file_count_level_1
  level_1_le : setting.file_count_level_1 ≤ setting.file_count_level_2
  level_2_lt : setting.file_count_level_2 < 2 ^ 31

/-- The values of `last_id_`. -/
def IsId (id : ℤ) : Prop :=
  -2 ^ 31 ≤ id ∧ id < 2 ^ 31

/-- A value of an `int` is an id. -/
theorem isId_int32 (x : ℤ) : IsId (int32 x) :=
  int32_range x

/-! ## Joined paths -/

/-- The empty path has one empty component. -/
theorem components_nil : components [] = [[]] := rfl

/-- A path that is joined to a directory goes on from there. -/
theorem canon_append_slash (cwd : Loc) {a : Bytes} (ha : a ≠ []) (b : Bytes) :
    canon cwd (a ++ slash :: b) = (components b).foldl descend (canon cwd a) := by
  have horigin : origin cwd (a ++ slash :: b) = origin cwd a := by
    unfold origin
    rw [List.head?_append_of_ne_nil _ ha]
  unfold canon
  rw [components_append_slash, List.foldl_append, horigin]

/-- A slash at the end of a path leads nowhere. -/
theorem canon_slash (cwd : Loc) {a : Bytes} (ha : a ≠ []) :
    canon cwd (a ++ [slash]) = canon cwd a :=
  canon_append_slash cwd ha []

/-- A joined path leads into the second path from the first. -/
theorem canon_pathJoin (cwd : Loc) (a : Bytes) {b : Bytes} (hb : b ≠ [])
    (hrel : b.head? ≠ some slash) :
    canon cwd (pathJoin a b) = (components b).foldl descend (canon cwd a) := by
  unfold pathJoin
  rw [if_neg hb]
  by_cases ha : a = []
  · rw [if_pos ha, ha]
    unfold canon origin
    rw [if_neg hrel]
    rfl
  · rw [if_neg ha, if_neg (show ¬ b.head? = some 47 from hrel)]
    by_cases hlast : a.getLast? = some 47
    · rw [if_pos hlast]
      obtain ⟨front, rfl⟩ : ∃ front, a = front ++ [slash] := by
        rw [List.getLast?_eq_some_iff] at hlast
        exact hlast
      rw [List.append_assoc, List.singleton_append]
      by_cases hfront : front = []
      · subst hfront
        rfl
      · rw [canon_append_slash cwd hfront, canon_slash cwd hfront]
    · rw [if_neg hlast, List.append_assoc]
      exact canon_append_slash cwd ha b

/-- A path without `..` that is joined to a direct one is direct. -/
theorem direct_pathJoin {t : Tree} {cwd : Loc} {a b : Bytes} (ha : t.Direct cwd a)
    (hb : ∀ c ∈ components b, c ≠ dotdot) : t.Direct cwd (pathJoin a b) := by
  unfold pathJoin
  by_cases hbnil : b = []
  · rw [if_pos hbnil]
    exact ha
  rw [if_neg hbnil]
  by_cases hanil : a = []
  · rw [if_pos hanil]
    exact Tree.direct_of_plain t cwd hb
  rw [if_neg hanil]
  by_cases habs : b.head? = some 47
  · rw [if_pos habs]
    exact Tree.direct_of_plain t cwd hb
  rw [if_neg habs]
  obtain ⟨pre, post, hsplit, hpost, hpre⟩ := ha
  have hadd : ∀ q : List Bytes, (∀ c ∈ q, c ≠ dotdot) →
      ∀ c ∈ q ++ components b, c ≠ dotdot := by
    intro q hq c hc
    exact (List.mem_append.mp hc).elim (hq c) (hb c)
  by_cases hlast : a.getLast? = some 47
  · rw [if_pos hlast]
    obtain ⟨front, rfl⟩ : ∃ front, a = front ++ [slash] := by
      rw [List.getLast?_eq_some_iff] at hlast
      exact hlast
    have hcomp : components (front ++ [slash] ++ b) = components front ++ components b := by
      rw [List.append_assoc]
      exact components_append_slash front b
    have horigin : origin cwd (front ++ [slash] ++ b) = origin cwd (front ++ [slash]) := by
      unfold origin
      rw [List.head?_append_of_ne_nil _ hanil]
    rw [components_append_slash] at hsplit
    -- the empty component behind the last slash belongs to `post`, or `pre` is everything
    rcases List.eq_nil_or_concat post with rfl | ⟨post', c, rfl⟩
    · rw [List.append_nil] at hsplit
      refine ⟨components front, components b, hcomp, hb, ?_⟩
      rcases hpre with hpre | ⟨l, hl⟩
      · refine .inl fun d hd => hpre d ?_
        rw [← hsplit]
        exact List.mem_append_left _ hd
      · rw [← hsplit, Tree.walk_append] at hl
        rw [horigin]
        cases hfront : t.walk (origin cwd (front ++ [slash])) (components front) with
        | ok m => exact .inr ⟨m, rfl⟩
        | error e =>
            rw [hfront] at hl
            cases hl
    · rw [components_nil, List.concat_eq_append, ← List.append_assoc] at hsplit
      have hfront := (List.append_inj' hsplit rfl).1
      refine ⟨pre, post' ++ components b, ?_, ?_, ?_⟩
      · rw [hcomp, hfront, List.append_assoc]
      · refine hadd post' fun d hd => hpost d ?_
        rw [List.concat_eq_append]
        exact List.mem_append_left _ hd
      · rw [horigin]
        exact hpre
  · rw [if_neg hlast, List.append_assoc, List.singleton_append]
    have horigin : origin cwd (a ++ slash :: b) = origin cwd a := by
      unfold origin
      rw [List.head?_append_of_ne_nil _ hanil]
    refine ⟨pre, post ++ components b, ?_, hadd post hpost, ?_⟩
    · rw [← List.append_assoc, ← hsplit]
      exact components_append_slash a b
    · rw [show (47 : UInt8) = slash from rfl, horigin]
      exact hpre

/-- A component longer than two bytes is the name of a file. -/
theorem isName_of_two_lt {c : Bytes} (h : 2 < c.length) : IsName c := by
  refine ⟨?_, ?_, ?_⟩
  · rintro rfl
    simp at h
  · rintro rfl
    simp at h
  · rintro rfl
    simp [dotdot] at h

/-- There is no slash in a hexadecimal name. -/
theorem slash_not_mem_hex8 (n : ℕ) : slash ∉ hex8 n := by
  intro h
  obtain ⟨d, hd, heq⟩ := mem_hex8 h
  have hnat := congrArg UInt8.toNat heq
  rw [hexDigit_toNat hd] at hnat
  change 47 = _ at hnat
  split at hnat <;> omega

/-- A hexadecimal name is the name of a file. -/
theorem isName_hex8 (n : ℕ) : IsName (hex8 n) :=
  isName_of_two_lt (by rw [length_hex8]; norm_num)

/-- There is no slash in a decimal numeral. -/
theorem slash_not_mem_decimalInt (id : ℤ) : slash ∉ decimalInt id := by
  intro h
  rcases mem_decimalInt h with hdig | hsign
  · exact absurd hdig.1 (by decide)
  · exact absurd hsign (by decide)

/-- A decimal numeral is the name of a file. -/
theorem isName_decimalInt (id : ℤ) : IsName (decimalInt id) := by
  have hdot : (46 : UInt8) ∉ decimalInt id := by
    intro h
    rcases mem_decimalInt h with hdig | hsign
    · exact absurd hdig.1 (by decide)
    · exact absurd hsign (by decide)
  refine ⟨decimalInt_ne_nil id, ?_, ?_⟩
  · intro heq
    rw [heq] at hdot
    exact hdot (by decide)
  · intro heq
    rw [heq] at hdot
    exact hdot (by decide)

/-- Quotient and remainder determine an id, when the divisor of the remainder is
at least that of the quotient. -/
theorem eq_of_div_eq_of_mod_eq {a b m n : ℕ} (ha : 0 < a) (hab : a ≤ b) (hdiv : m / a = n / a)
    (hmod : m % b = n % b) : m = n := by
  have hm := Nat.div_add_mod m a
  have hn := Nat.div_add_mod n a
  have hma := Nat.mod_lt m ha
  have hna := Nat.mod_lt n ha
  rw [hdiv] at hm
  rcases Nat.lt_trichotomy m n with hlt | heq | hlt
  · have hdvd := (Nat.modEq_iff_dvd' hlt.le).mp hmod
    exact absurd (Nat.le_of_dvd (by omega) hdvd) (by omega)
  · exact heq
  · have hdvd := (Nat.modEq_iff_dvd' hlt.le).mp hmod.symm
    exact absurd (Nat.le_of_dvd (by omega) hdvd) (by omega)

/-- A level is not changed by the conversion to `unsigned`. -/
theorem uint32_of_level {l : ℤ} (hpos : 0 < l) (hlt : l < 2 ^ 31) : (uint32 l : ℤ) = l := by
  unfold uint32
  omega

/-- The two names of a bundle determine its id, when the second level has at least
as many files as the first. -/
theorem eq_of_names {a b m n : ℕ} (ha : 0 < a) (hab : a ≤ b) (hm : m < 2 ^ 32) (hn : n < 2 ^ 32)
    (hdiv : hex8 (m / a) = hex8 (n / a)) (hmod : hex8 (m % b) = hex8 (n % b)) : m = n := by
  refine eq_of_div_eq_of_mod_eq ha hab (hex8_injOn ?_ ?_ hdiv) (hex8_injOn ?_ ?_ hmod)
  · exact lt_of_le_of_lt (Nat.div_le_self _ _) hm
  · exact lt_of_le_of_lt (Nat.div_le_self _ _) hn
  · exact lt_of_le_of_lt (Nat.mod_le _ _) hm
  · exact lt_of_le_of_lt (Nat.mod_le _ _) hn

/-- The name of a bundle has two components.
SOURCE: bundle.cc:203-215 -/
theorem components_bid2Filename (setting : Setting) (id : ℤ) :
    components (bid2Filename setting id) =
      [hex8 (uint32 id / uint32 setting.file_count_level_1),
        hex8 (uint32 id % uint32 setting.file_count_level_2)] := by
  unfold bid2Filename
  rw [List.append_assoc]
  change components (hex8 _ ++ slash :: hex8 _) = _
  rw [components_append_slash, components_of_no_slash (slash_not_mem_hex8 _),
    components_of_no_slash (slash_not_mem_hex8 _)]
  rfl

/-- The name of a bundle is not empty. -/
theorem bid2Filename_ne_nil (setting : Setting) (id : ℤ) : bid2Filename setting id ≠ [] := by
  intro h
  have hlen := congrArg List.length h
  simp [bid2Filename, length_hex8] at hlen

/-- Bundles of one name have both components in common. -/
theorem names_of_bid2Filename {setting : Setting} {m n : ℤ}
    (h : bid2Filename setting m = bid2Filename setting n) :
    hex8 (uint32 m / uint32 setting.file_count_level_1) =
        hex8 (uint32 n / uint32 setting.file_count_level_1) ∧
      hex8 (uint32 m % uint32 setting.file_count_level_2) =
        hex8 (uint32 n % uint32 setting.file_count_level_2) := by
  have hnames := congrArg components h
  rw [components_bid2Filename, components_bid2Filename] at hnames
  simpa using hnames

/-- Ids do not share files exactly when the second level has at least as many files as the
first, and every name fits into its buffer as it is printed.
SOURCE: bundle.cc:203-215 -/
theorem bid2Filename_levels (setting : Setting) (hpos1 : 0 < setting.file_count_level_1)
    (hlt1 : setting.file_count_level_1 < 2 ^ 31) (hpos2 : 0 < setting.file_count_level_2)
    (hlt2 : setting.file_count_level_2 < 2 ^ 31) :
    (setting.file_count_level_1 ≤ setting.file_count_level_2 →
      Set.InjOn (bid2Filename setting) (Set.Ico 0 (2 ^ 32))) ∧
    (setting.file_count_level_2 < setting.file_count_level_1 →
      ∃ m ∈ Set.Ico 0 (2 ^ 32), ∃ n ∈ Set.Ico 0 (2 ^ 32), m ≠ n ∧
        bid2Filename setting m = bid2Filename setting n) ∧
    ∀ m ∈ Set.Ico 0 (2 ^ 32),
      bid2Filename setting m =
        paddedHex (uint32 m / uint32 setting.file_count_level_1) ++ ascii "/" ++
          paddedHex (uint32 m % uint32 setting.file_count_level_2) ∧
      (bid2Filename setting m).length + 1 ≤ 18 := by
  have h1 := uint32_of_level hpos1 hlt1
  have h2 := uint32_of_level hpos2 hlt2
  refine ⟨?_, ?_, ?_⟩
  · intro hle m hm n hn heq
    obtain ⟨hdiv, hmod⟩ := names_of_bid2Filename heq
    have hid := eq_of_names (by omega) (by omega) (uint32_lt m) (uint32_lt n) hdiv hmod
    obtain ⟨hm0, hm32⟩ := hm
    obtain ⟨hn0, hn32⟩ := hn
    unfold uint32 at hid
    omega
  · -- the first id and the one that is as large as the second level
    intro hlt
    refine ⟨0, ⟨le_refl _, by norm_num⟩, setting.file_count_level_2, ⟨by omega, by omega⟩,
      by omega, ?_⟩
    have hzero : uint32 0 = 0 := rfl
    unfold bid2Filename
    rw [hzero, Nat.zero_div, Nat.zero_mod, Nat.mod_self,
      Nat.div_eq_of_lt (show uint32 setting.file_count_level_2 <
        uint32 setting.file_count_level_1 by omega)]
  · intro m hm
    constructor
    · unfold bid2Filename
      rw [hex8_eq_paddedHex (lt_of_le_of_lt (Nat.div_le_self _ _) (uint32_lt m)),
        hex8_eq_paddedHex (lt_of_le_of_lt (Nat.mod_le _ _) (uint32_lt m))]
    · simp [bid2Filename, length_hex8, ascii]

/-- The levels of the default setting keep the names apart, and levels in the other order do not. -/
theorem bid2Filename_levels_default :
    (∃ setting : Setting, 0 < setting.file_count_level_1 ∧
      setting.file_count_level_1 ≤ setting.file_count_level_2 ∧
      Set.InjOn (bid2Filename setting) (Set.Ico 0 (2 ^ 32))) ∧
    ∃ setting : Setting, setting.file_count_level_2 < setting.file_count_level_1 ∧
      ∃ m ∈ Set.Ico 0 (2 ^ 32), ∃ n ∈ Set.Ico 0 (2 ^ 32), m ≠ n ∧
        bid2Filename setting m = bid2Filename setting n := by
  have hle := bid2Filename_levels defaultSetting (by decide) (by decide)
    (by decide) (by decide)
  have hgt := bid2Filename_levels { defaultSetting with file_count_level_2 := 7 }
    (by decide) (by decide) (by decide) (by decide)
  exact ⟨⟨defaultSetting, by decide, by decide, hle.1 (by decide)⟩,
    ⟨{ defaultSetting with file_count_level_2 := 7 }, by decide, hgt.2.1 (by decide)⟩⟩

/-- A joined path is not empty. -/
theorem pathJoin_ne_nil (a : Bytes) {b : Bytes} (hb : b ≠ []) : pathJoin a b ≠ [] := by
  intro h
  unfold pathJoin at h
  rw [if_neg hb] at h
  split at h
  · exact hb h
  · split at h
    · exact hb h
    · split at h
      · exact hb (List.append_eq_nil_iff.mp h).2
      · exact hb (List.append_eq_nil_iff.mp h).2

/-- The path of a bundle is not empty. -/
theorem bundleFile_ne_nil (setting : Setting) (storage prefix_ : Bytes) (id : ℤ) :
    bundleFile setting storage prefix_ id ≠ [] :=
  pathJoin_ne_nil _ (bid2Filename_ne_nil setting id)

/-- The path of a bundle has no `..` but those of its storage. -/
theorem direct_bundleFile {t : Tree} {cwd : Loc} (setting : Setting) {storage prefix_ : Bytes}
    (hstorage : t.Direct cwd storage) (hprefix_ : ∀ c ∈ components prefix_, c ≠ dotdot) (id : ℤ) :
    t.Direct cwd (bundleFile setting storage prefix_ id) := by
  apply direct_pathJoin (direct_pathJoin hstorage hprefix_)
  rw [components_bid2Filename]
  intro c hc
  rcases List.mem_cons.mp hc with rfl | hc
  · exact (isName_hex8 _).2.2
  · rw [List.mem_singleton] at hc
    rw [hc]
    exact (isName_hex8 _).2.2

/-- A lock lies in the directory of the locks, under its id.
SOURCE: bundle.cc:480-481 -/
theorem canon_lockFile (cwd : Loc) (lock_dir : Bytes) (id : ℤ) :
    canon cwd (lockFile lock_dir id) = decimalInt id :: canon cwd lock_dir := by
  have hrel : (decimalInt id).head? ≠ some slash := by
    intro h
    exact slash_not_mem_decimalInt id (List.mem_of_mem_head? h)
  unfold lockFile
  rw [canon_pathJoin _ _ (decimalInt_ne_nil id) hrel,
    components_of_no_slash (slash_not_mem_decimalInt id)]
  exact descend_name (isName_decimalInt id) _

/-- A bundle lies two levels below its prefix.
SOURCE: bundle.cc:505-506 -/
theorem canon_bundleFile (cwd : Loc) (setting : Setting) (storage prefix_ : Bytes) (id : ℤ) :
    canon cwd (bundleFile setting storage prefix_ id) =
      hex8 (uint32 id % uint32 setting.file_count_level_2) ::
        hex8 (uint32 id / uint32 setting.file_count_level_1) ::
          canon cwd (pathJoin storage prefix_) := by
  have hne := bid2Filename_ne_nil setting id
  have hrel : (bid2Filename setting id).head? ≠ some slash := by
    unfold bid2Filename
    rw [List.append_assoc, List.head?_append_of_ne_nil _ (isName_hex8 _).1]
    intro h
    exact slash_not_mem_hex8 _ (List.mem_of_mem_head? h)
  unfold bundleFile
  rw [canon_pathJoin _ _ hne hrel, components_bid2Filename]
  simp only [List.foldl_cons, List.foldl_nil, descend_name (isName_hex8 _)]

/-- The value of digits is below the power of their number. -/
theorem decimalValue_lt {s : Bytes} (hs : ∀ b ∈ s, IsDigit b) : decimalValue s < 10 ^ s.length := by
  induction s using List.reverseRecOn with
  | nil => decide
  | append_singleton s b ih =>
      have hb := (hs b (by simp)).2
      have hfront := ih fun c hc => hs c (List.mem_append_left _ hc)
      rw [List.length_append, List.length_singleton, Nat.pow_succ]
      unfold decimalValue at hfront ⊢
      rw [List.foldl_append, List.foldl_cons, List.foldl_nil]
      omega

/-- Eight hexadecimal digits are no decimal numeral of a number that is as large. -/
theorem hex8_ne_decimal {m n : ℕ} (hmn : m ≤ n) : hex8 m ≠ decimal n := by
  intro h
  have hlen : (Nat.toDigits 10 n).length = 8 := by
    have hmap : (decimal n).length = (Nat.toDigits 10 n).length := List.length_map ..
    rw [← hmap, ← h, length_hex8]
  have hlt : n < 10 ^ 8 := (Nat.length_toDigits_le_iff (by norm_num) (by norm_num)).mp hlen.le
  have hle : ¬ n < 10 ^ 7 := by
    rw [← Nat.length_toDigits_le_iff (by norm_num) (by norm_num), hlen]
    norm_num
  -- the number is too small for a first digit other than `0`
  obtain ⟨rest, hcons⟩ : ∃ rest, hex8 m = 48 :: rest := by
    have hzero : m / 16 ^ 7 % 16 = 0 := by
      rw [Nat.div_eq_of_lt (by omega), Nat.zero_mod]
    have hfirst : hexDigit (m / 16 ^ (7 - 0) % 16) = 48 := congrArg hexDigit hzero
    unfold hex8
    rw [List.range_succ_eq_map, List.map_cons, hfirst]
    exact ⟨_, rfl⟩
  have hrest : rest.length = 7 := by
    have hall := length_hex8 m
    rw [hcons, List.length_cons] at hall
    omega
  have hdigits : ∀ b ∈ rest, IsDigit b := by
    intro b hb
    refine isDigit_of_mem_decimal (n := n) ?_
    rw [← h, hcons]
    exact List.mem_cons_of_mem _ hb
  have hvalue : decimalValue rest = n := by
    rw [← decimalValue_decimal n, ← h, hcons]
    rfl
  have hsmall := decimalValue_lt hdigits
  rw [hrest, hvalue] at hsmall
  exact hle hsmall

/-- No bundle is the lock file of its own id. -/
theorem bundleFile_ne_lockFile (cwd : Loc) (setting : Setting) (storage prefix_ lock_dir : Bytes)
    (id : ℤ) :
    canon cwd (bundleFile setting storage prefix_ id) ≠ canon cwd (lockFile lock_dir id) := by
  rw [canon_bundleFile, canon_lockFile]
  intro h
  have hname := (List.cons.inj h).1
  unfold decimalInt at hname
  split at hname
  · have hsign : (45 : UInt8) ∈ hex8 (uint32 id % uint32 setting.file_count_level_2) := by
      rw [hname]
      exact List.mem_cons_self
    obtain ⟨d, hd, heq⟩ := mem_hex8 hsign
    have hnat := congrArg UInt8.toNat heq
    rw [hexDigit_toNat hd] at hnat
    change 45 = _ at hnat
    split at hnat <;> omega
  · refine hex8_ne_decimal ((Nat.mod_le _ _).trans ?_) hname
    unfold uint32
    omega

namespace Layout

variable (L : Layout)

/-- Where the lock file of an id is. -/
def lockLoc (id : ℤ) : Loc :=
  canon L.cwd (lockFile L.lock_dir id)

/-- Where the bundle of an id under a prefix is. -/
def bundleLoc (prefix_ : Bytes) (id : ℤ) : Loc :=
  canon L.cwd (bundleFile L.setting L.storage prefix_ id)

/-- No bundle of the prefix is a lock file. -/
def Outside (prefix_ : Bytes) : Prop :=
  ∀ id m, L.bundleLoc prefix_ id ≠ L.lockLoc m

/-- The place of a lock is its numeral in the directory of the locks. -/
theorem lockLoc_eq (id : ℤ) : L.lockLoc id = decimalInt id :: canon L.cwd L.lock_dir :=
  canon_lockFile L.cwd L.lock_dir id

/-- Locks of two ids lie at two places. -/
theorem lockLoc_injective : Function.Injective L.lockLoc := by
  intro m n h
  rw [lockLoc_eq, lockLoc_eq] at h
  exact decimalInt_injective (List.cons.inj h).1

/-- The place of a bundle is its two names below the prefix. -/
theorem bundleLoc_eq (prefix_ : Bytes) (id : ℤ) :
    L.bundleLoc prefix_ id =
      hex8 (uint32 id % uint32 L.setting.file_count_level_2) ::
        hex8 (uint32 id / uint32 L.setting.file_count_level_1) ::
          canon L.cwd (pathJoin L.storage prefix_) :=
  canon_bundleFile L.cwd L.setting L.storage prefix_ id

/-- A bundle belongs to one id, whatever its prefix. -/
theorem id_of_bundleLoc {p q : Bytes} {m n : ℤ} (hm : IsId m) (hn : IsId n)
    (h : L.bundleLoc p m = L.bundleLoc q n) : m = n := by
  have hlevels := L.level_1_pos
  have hle := L.level_1_le
  have hlt := L.level_2_lt
  have h1 := uint32_of_level (l := L.setting.file_count_level_1) (by omega) (by omega)
  have h2 := uint32_of_level (l := L.setting.file_count_level_2) (by omega) (by omega)
  rw [bundleLoc_eq, bundleLoc_eq] at h
  obtain ⟨hmod, hrest⟩ := List.cons.inj h
  have hdiv := (List.cons.inj hrest).1
  have heq : uint32 m = uint32 n :=
    eq_of_names (by omega) (by omega) (uint32_lt m) (uint32_lt n) hdiv hmod
  calc m = int32 m := (int32_of_range hm.1 hm.2).symm
    _ = int32 (uint32 m) := (int32_uint32 m).symm
    _ = int32 (uint32 n) := by rw [heq]
    _ = int32 n := int32_uint32 n
    _ = n := int32_of_range hn.1 hn.2

/-- A bundle that `lstat` does not find is not there, when its path can be told. -/
theorem content_of_missing {t t' : Tree} (storage : t.Direct L.cwd L.storage) (hgrows : t.Grows t')
    {p : Bytes} (plain : ∀ c ∈ components p, c ≠ dotdot) {id : ℤ}
    (hmissing : t'.stat L.cwd (bundleFile L.setting L.storage p id) = .error ENOENT) :
    t'.content (L.bundleLoc p id) = none := by
  have hdirect : t'.Direct L.cwd (bundleFile L.setting L.storage p id) :=
    direct_bundleFile L.setting (storage.grows hgrows) plain id
  have hnode := hdirect.node_of_stat_enoent (bundleFile_ne_nil _ _ _ _) hmissing
  unfold Tree.content bundleLoc
  rw [hnode]

/-- Bundles that are no entries of the lock directory. -/
theorem outside_of_tail {prefix_ : Bytes}
    (h : ∀ id, (L.bundleLoc prefix_ id).tail ≠ canon L.cwd L.lock_dir) : L.Outside prefix_ := by
  intro id m heq
  refine h id ?_
  rw [heq, lockLoc_eq]
  rfl

end Layout

end BundleStore
