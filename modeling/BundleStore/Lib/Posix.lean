import BundleStore.Lib.ByteSeq
import Mathlib.Tactic.Common

set_option autoImplicit false

/-!
# A file-system tree and its calls

A tree of directories and regular files, without links. A location is a list of
names, the innermost first. A `Tree` carries the facts that make it a tree: the
root is a directory, and whatever exists lies in a directory.

A path is resolved by walking its components through the tree, so a path that
leads through a missing directory is refused with `ENOENT` even where its
canonical location (`canon`) exists: `missing/../x`. For a `Direct` path the two
agree (`Direct.node_of_stat_enoent`).

Each call is a function from the tree to its result when nothing outside the
tree makes it fail; `Except.error` carries the error number.
-/

namespace Posix

def ENOENT : ℕ := 2
def EIO : ℕ := 5
def EACCES : ℕ := 13
def EEXIST : ℕ := 17
def ENOTDIR : ℕ := 20
def EISDIR : ℕ := 21
def EINVAL : ℕ := 22
def EFBIG : ℕ := 27

/-- The byte that separates the components of a path. -/
def slash : UInt8 := 47

/-- The component that names the parent directory. -/
def dotdot : Bytes := [46, 46]

/-- A place in the tree: the names that lead to it, the innermost first. -/
abbrev Loc : Type := List Bytes

inductive Node
  | dir
  | file (content : Bytes)

structure Tree where
  node : Loc → Option Node
  root_dir : node [] = some .dir
  parent_dir : ∀ n l, node (n :: l) ≠ none → node l = some .dir

/-- An open file: where it was opened, and the position of the next transfer. -/
structure Fd where
  loc : Loc
  pos : ℕ
  deriving DecidableEq

/-! ## Paths -/

def components (p : Bytes) : List Bytes :=
  p.splitOnP (· == slash)

/-- Where the walk of a path starts. -/
def origin (cwd : Loc) (p : Bytes) : Loc :=
  if p.head? = some slash then [] else cwd

/-- One component further. -/
def descend (l : Loc) (c : Bytes) : Loc :=
  if c = [] ∨ c = [46] then l else if c = dotdot then l.tail else c :: l

/-- The location a path denotes once every directory on its way exists. -/
def canon (cwd : Loc) (p : Bytes) : Loc :=
  (components p).foldl descend (origin cwd p)

/-- A component that is the name of an entry of its directory. -/
def IsName (c : Bytes) : Prop :=
  c ≠ [] ∧ c ≠ [46] ∧ c ≠ dotdot

/-- A name leads one directory down. -/
theorem descend_name {c : Bytes} (h : IsName c) (l : Loc) : descend l c = c :: l := by
  obtain ⟨h₁, h₂, h₃⟩ := h
  simp [descend, h₁, h₂, h₃]

/-- A component other than `..` stays or goes one name deeper. -/
theorem descend_of_ne_dotdot {c : Bytes} (h : c ≠ dotdot) (l : Loc) :
    descend l c = l ∨ descend l c = c :: l := by
  unfold descend
  rw [if_neg h]
  split
  · exact .inl rfl
  · exact .inr rfl

/-- The components of two paths with a slash in between are those of the one and of the other. -/
theorem components_append_slash (a b : Bytes) :
    components (a ++ slash :: b) = components a ++ components b :=
  List.splitOnP_append_cons a b rfl

/-- A text without a slash is one component. -/
theorem components_of_no_slash {a : Bytes} (h : slash ∉ a) : components a = [a] := by
  refine List.splitOnP_eq_singleton fun x hx => ?_
  simp only [beq_eq_false_iff_ne, ne_eq]
  rintro rfl
  exact h hx

namespace Tree

/-- Nothing but the root. -/
def bare : Tree where
  node l := if l = [] then some .dir else none
  root_dir := if_pos rfl
  parent_dir n l h := absurd (if_neg (List.cons_ne_nil n l)) h

/-- The content of the regular file at a location. -/
def content (t : Tree) (l : Loc) : Option Bytes :=
  match t.node l with
  | some (.file c) => some c
  | _ => none

/-- The content of a file is what its node holds. -/
theorem content_eq_some {t : Tree} {l : Loc} {c : Bytes} :
    t.content l = some c ↔ t.node l = some (.file c) := by
  unfold content
  split <;> simp_all

/-- Follow the components of a path; the last one need not exist. -/
def walk (t : Tree) : Loc → List Bytes → Except ℕ Loc
  | l, [] => .ok l
  | l, c :: cs =>
      match t.node l with
      | some .dir => walk t (descend l c) cs
      | some (.file _) => .error ENOTDIR
      | none => .error ENOENT

/-- Resolve a path. -/
def lookup (t : Tree) (cwd : Loc) (p : Bytes) : Except ℕ Loc :=
  if p = [] then .error ENOENT else t.walk (origin cwd p) (components p)

/-- A walk along two lists of components is one walk after the other. -/
theorem walk_append (t : Tree) (l : Loc) (cs ds : List Bytes) :
    t.walk l (cs ++ ds) = (t.walk l cs).bind fun m => t.walk m ds := by
  induction cs generalizing l with
  | nil => rfl
  | cons c cs ih =>
      simp only [List.cons_append, walk]
      split
      · exact ih (descend l c)
      · rfl
      · rfl

/-- A successful walk ends where the components lead by name. -/
theorem walk_ok {t : Tree} {cs : List Bytes} {l m : Loc} (h : t.walk l cs = .ok m) :
    m = cs.foldl descend l := by
  induction cs generalizing l with
  | nil =>
      simp only [walk, Except.ok.injEq] at h
      exact h.symm
  | cons c cs ih =>
      simp only [walk] at h
      split at h
      · exact ih h
      · cases h
      · cases h

/-- A lookup that succeeds ends at the canonical place of its path. -/
theorem lookup_ok {t : Tree} {cwd l : Loc} {p : Bytes} (h : t.lookup cwd p = .ok l) :
    l = canon cwd p := by
  unfold lookup at h
  split at h
  · cases h
  · exact walk_ok h

/-- A walk that fails has an error number. -/
theorem walk_error_ne_zero {t : Tree} {cs : List Bytes} {l : Loc} {e : ℕ}
    (h : t.walk l cs = .error e) : e ≠ 0 := by
  induction cs generalizing l with
  | nil => cases h
  | cons c cs ih =>
      simp only [walk] at h
      split at h
      · exact ih h
      · cases h
        decide
      · cases h
        decide

/-- A lookup that fails has an error number. -/
theorem lookup_error_ne_zero {t : Tree} {cwd : Loc} {p : Bytes} {e : ℕ}
    (h : t.lookup cwd p = .error e) : e ≠ 0 := by
  unfold lookup at h
  split at h
  · cases h
    decide
  · exact walk_error_ne_zero h

/-- Below a location where nothing exists nothing exists. -/
theorem node_foldl_descend_eq_none {t : Tree} {cs : List Bytes} {l : Loc}
    (hcs : ∀ c ∈ cs, c ≠ dotdot) (h : t.node l = none) :
    t.node (cs.foldl descend l) = none := by
  induction cs generalizing l with
  | nil => exact h
  | cons c cs ih =>
      refine ih (fun d hd => hcs d (List.mem_cons_of_mem c hd)) ?_
      rcases descend_of_ne_dotdot (hcs c List.mem_cons_self) l with hd | hd
      · rw [hd]
        exact h
      · rw [hd]
        by_contra hne
        have hdir := t.parent_dir c l hne
        rw [h] at hdir
        cases hdir

/-- A walk without `..` that is refused with `ENOENT` leads to a location where
nothing exists. -/
theorem node_of_walk_enoent {t : Tree} {cs : List Bytes} {l : Loc}
    (hcs : ∀ c ∈ cs, c ≠ dotdot) (h : t.walk l cs = .error ENOENT) :
    t.node (cs.foldl descend l) = none := by
  induction cs generalizing l with
  | nil => cases h
  | cons c cs ih =>
      simp only [walk] at h
      split at h
      · exact ih (fun d hd => hcs d (List.mem_cons_of_mem c hd)) h
      · simp only [Except.error.injEq] at h
        exact absurd h (by decide)
      · rename_i hnone
        exact node_foldl_descend_eq_none hcs hnone

/-- Directories are only ever added. -/
def Grows (t t' : Tree) : Prop :=
  ∀ l, t.node l = some .dir → t'.node l = some .dir

/-- A tree keeps its own directories. -/
theorem Grows.refl (t : Tree) : t.Grows t := fun _ h => h

/-- What is kept twice is kept. -/
theorem Grows.trans {t₁ t₂ t₃ : Tree} (h : t₁.Grows t₂) (h' : t₂.Grows t₃) : t₁.Grows t₃ :=
  fun l hl => h' l (h l hl)

/-- A walk that succeeded succeeds again in a tree that has grown. -/
theorem Grows.walk {t t' : Tree} (hg : t.Grows t') {cs : List Bytes} {l m : Loc}
    (h : t.walk l cs = .ok m) : t'.walk l cs = .ok m := by
  induction cs generalizing l with
  | nil => exact h
  | cons c cs ih =>
      simp only [Tree.walk] at h ⊢
      split at h
      · rename_i hdir
        rw [hg l hdir]
        exact ih h
      · cases h
      · cases h

/-- A path that is found is still found when directories have been added. -/
theorem Grows.lookup {t t' : Tree} (hg : t.Grows t') {cwd l : Loc} {p : Bytes}
    (h : t.lookup cwd p = .ok l) : t'.lookup cwd p = .ok l := by
  unfold Tree.lookup at h ⊢
  split at h
  · cases h
  · rename_i hp
    rw [if_neg hp]
    exact hg.walk h

/-! ## Changing the tree -/

/-- A file may be put at the location. -/
def CanHold (t : Tree) (l : Loc) : Prop :=
  l ≠ [] ∧ t.node l.tail = some .dir ∧ ¬ t.node l = some .dir

instance : DecidableEq Node := fun
  | .dir, .dir => isTrue rfl
  | .dir, .file _ => isFalse (by simp)
  | .file _, .dir => isFalse (by simp)
  | .file a, .file b => if h : a = b then isTrue (by rw [h]) else isFalse (by simpa using h)

instance (t : Tree) (l : Loc) : Decidable (t.CanHold l) :=
  inferInstanceAs (Decidable (_ ∧ _ ∧ _))

/-- Put a file at a location that can hold one. -/
def setFile (t : Tree) (l : Loc) (c : Bytes) : Tree :=
  if h : t.CanHold l then
    { node := fun m => if m = l then some (.file c) else t.node m
      root_dir := by rw [if_neg (Ne.symm h.1)]; exact t.root_dir
      parent_dir := by
        intro n m hne
        have hml : m ≠ l := by
          rintro rfl
          refine h.2.2 (t.parent_dir n m ?_)
          rwa [if_neg (by simp)] at hne
        rw [if_neg hml]
        by_cases hl : n :: m = l
        · subst hl
          exact h.2.1
        · rw [if_neg hl] at hne
          exact t.parent_dir n m hne }
  else t

/-- Make a directory where nothing is, in a directory. -/
def setDir (t : Tree) (l : Loc) : Tree :=
  if h : l ≠ [] ∧ t.node l.tail = some .dir ∧ t.node l = none then
    { node := fun m => if m = l then some .dir else t.node m
      root_dir := by rw [if_neg (Ne.symm h.1)]; exact t.root_dir
      parent_dir := by
        intro n m hne
        by_cases hml : m = l
        · rw [if_pos hml]
        · rw [if_neg hml]
          by_cases hl : n :: m = l
          · subst hl
            exact h.2.1
          · rw [if_neg hl] at hne
            exact t.parent_dir n m hne }
  else t

/-- Take a file away. -/
def remove (t : Tree) (l : Loc) : Tree :=
  if h : (t.content l).isSome then
    { node := fun m => if m = l then none else t.node m
      root_dir := by
        have hl : [] ≠ l := by
          rintro rfl
          simp [content, t.root_dir] at h
        rw [if_neg hl]
        exact t.root_dir
      parent_dir := by
        intro n m hne
        by_cases hl : n :: m = l
        · rw [if_pos hl] at hne
          exact absurd rfl hne
        · rw [if_neg hl] at hne
          have hdir := t.parent_dir n m hne
          have hml : m ≠ l := by
            rintro rfl
            simp [content, hdir] at h
          rwa [if_neg hml] }
  else t

/-- A place with a file in it can hold one. -/
theorem canHold_of_content {t : Tree} {l : Loc} {c : Bytes} (h : t.content l = some c) :
    t.CanHold l := by
  rw [content_eq_some] at h
  cases l with
  | nil =>
      rw [t.root_dir] at h
      cases h
  | cons n l => exact ⟨by simp, t.parent_dir n l (by simp [h]), by simp [h]⟩

/-- What is stored at a place that can hold a file is its content. -/
theorem content_setFile_self {t : Tree} {l : Loc} (h : t.CanHold l) (c : Bytes) :
    (t.setFile l c).content l = some c := by
  simp [setFile, h, content]

/-- Storing a file leaves the contents elsewhere. -/
theorem content_setFile_ne (t : Tree) {l m : Loc} (hne : m ≠ l) (c : Bytes) :
    (t.setFile l c).content m = t.content m := by
  unfold setFile
  split
  · simp [content, hne]
  · rfl

/-- Storing a file keeps the directories. -/
theorem grows_setFile (t : Tree) (l : Loc) (c : Bytes) : t.Grows (t.setFile l c) := by
  intro m hm
  unfold setFile
  split
  · rename_i h
    have hne : m ≠ l := by
      rintro rfl
      exact h.2.2 hm
    simpa [hne] using hm
  · exact hm

/-- A new directory changes no content. -/
theorem content_setDir (t : Tree) (l m : Loc) : (t.setDir l).content m = t.content m := by
  unfold setDir
  split
  · rename_i h
    by_cases hm : m = l
    · subst hm
      simp [content, h.2.2]
    · simp [content, hm]
  · rfl

/-- A new directory keeps the directories there are. -/
theorem grows_setDir (t : Tree) (l : Loc) : t.Grows (t.setDir l) := by
  intro m hm
  unfold setDir
  split
  · by_cases hml : m = l
    · simp [hml]
    · simpa [hml] using hm
  · exact hm

/-- Where a file has been removed there is none. -/
theorem content_remove_self (t : Tree) (l : Loc) : (t.remove l).content l = none := by
  unfold remove
  split
  · simp [content]
  · rename_i h
    simpa using h

/-- Removing a file leaves the contents elsewhere. -/
theorem content_remove_ne (t : Tree) {l m : Loc} (hne : m ≠ l) :
    (t.remove l).content m = t.content m := by
  unfold remove
  split
  · simp [content, hne]
  · rfl

/-- Removing a file keeps the directories. -/
theorem grows_remove (t : Tree) (l : Loc) : t.Grows (t.remove l) := by
  intro m hm
  unfold remove
  split
  · rename_i h
    have hne : m ≠ l := by
      rintro rfl
      simp [content, hm] at h
    simpa [hne] using hm
  · exact hm

/-! ## Calls -/

/-- Resolve a path and act on the location it names. -/
def onPath (t : Tree) {α : Type} (cwd : Loc) (p : Bytes) (f : Loc → Except ℕ α) : Except ℕ α :=
  match t.lookup cwd p with
  | .ok l => f l
  | .error e => .error e

/-- What a call on a path gives is what it gives at the canonical place. -/
theorem onPath_ok {t : Tree} {α : Type} {cwd : Loc} {p : Bytes} {f : Loc → Except ℕ α} {a : α}
    (h : t.onPath cwd p f = .ok a) : f (canon cwd p) = .ok a := by
  unfold onPath at h
  split at h
  · rename_i l hl
    rw [← lookup_ok hl]
    exact h
  · cases h

/-- `open(path, O_RDWR | O_CREAT | O_EXCL)`: only ever creates. -/
def openExcl (t : Tree) (cwd : Loc) (p : Bytes) : Except ℕ (Fd × Tree) :=
  t.onPath cwd p fun l =>
    match t.node l with
    | some _ => .error EEXIST
    | none => if t.CanHold l then .ok (⟨l, 0⟩, t.setFile l []) else .error ENOENT

/-- `open(path, O_RDWR | O_CREAT | O_TRUNC)`: the file is empty afterwards. -/
def openTrunc (t : Tree) (cwd : Loc) (p : Bytes) : Except ℕ (Fd × Tree) :=
  t.onPath cwd p fun l =>
    if t.node l = some .dir then .error EISDIR
    else if t.CanHold l then .ok (⟨l, 0⟩, t.setFile l []) else .error ENOENT

/-- `open(path, O_RDWR)` of an existing file. -/
def openRdwr (t : Tree) (cwd : Loc) (p : Bytes) : Except ℕ Fd :=
  t.onPath cwd p fun l =>
    match t.node l with
    | some (.file _) => .ok ⟨l, 0⟩
    | some .dir => .error EISDIR
    | none => .error ENOENT

/-- `stat(path)`: what is there. -/
def stat (t : Tree) (cwd : Loc) (p : Bytes) : Except ℕ Node :=
  t.onPath cwd p fun l =>
    match t.node l with
    | some n => .ok n
    | none => .error ENOENT

/-- A path without the slashes at its end. -/
def stripSlashes (p : Bytes) : List Bytes :=
  ((components p).reverse.dropWhile fun c => c.isEmpty).reverse

/-- `mkdir(path)`; slashes at the end of the path do not count. -/
def mkdir (t : Tree) (cwd : Loc) (p : Bytes) : Except ℕ Tree :=
  if p = [] then .error ENOENT
  else
    match t.walk (origin cwd p) (stripSlashes p) with
    | .error e => .error e
    | .ok l =>
        match t.node l with
        | some _ => .error EEXIST
        | none => .ok (t.setDir l)

/-- `unlink(path)` of a regular file. -/
def unlink (t : Tree) (cwd : Loc) (p : Bytes) : Except ℕ Tree :=
  t.onPath cwd p fun l =>
    match t.node l with
    | some (.file _) => .ok (t.remove l)
    | some .dir => .error EISDIR
    | none => .error ENOENT

/-- The tree after the bytes were written at an open file's position. A file
that has been unlinked meanwhile takes the bytes out of the tree's sight. -/
def write (t : Tree) (fd : Fd) (b : Bytes) : Tree :=
  match t.content fd.loc with
  | some c => t.setFile fd.loc (ByteSeq.overwrite 0 c fd.pos b)
  | none => t

/-- A call on a path that succeeds has found it. -/
theorem onPath_lookup {t : Tree} {α : Type} {cwd : Loc} {p : Bytes} {f : Loc → Except ℕ α} {a : α}
    (h : t.onPath cwd p f = .ok a) : t.lookup cwd p = .ok (canon cwd p) := by
  unfold onPath at h
  split at h
  · rename_i l hl
    rw [hl, lookup_ok hl]
  · cases h

/-- `open` with `O_EXCL` makes an empty file where nothing was. -/
theorem openExcl_ok {t t' : Tree} {cwd : Loc} {p : Bytes} {fd : Fd}
    (h : t.openExcl cwd p = .ok (fd, t')) :
    fd = ⟨canon cwd p, 0⟩ ∧ t.node (canon cwd p) = none ∧ t.CanHold (canon cwd p) ∧
      t' = t.setFile (canon cwd p) [] := by
  have hat := onPath_ok h
  split at hat
  · cases hat
  · rename_i hnone
    split at hat
    · rename_i hcan
      cases hat
      exact ⟨rfl, hnone, hcan, rfl⟩
    · cases hat

/-- `open` with `O_TRUNC` leaves an empty file. -/
theorem openTrunc_ok {t t' : Tree} {cwd : Loc} {p : Bytes} {fd : Fd}
    (h : t.openTrunc cwd p = .ok (fd, t')) :
    fd = ⟨canon cwd p, 0⟩ ∧ t.CanHold (canon cwd p) ∧ t' = t.setFile (canon cwd p) [] := by
  have hat := onPath_ok h
  split at hat
  · cases hat
  · split at hat
    · rename_i hcan
      cases hat
      exact ⟨rfl, hcan, rfl⟩
    · cases hat

/-- `open` without `O_CREAT` finds a file. -/
theorem openRdwr_ok {t : Tree} {cwd : Loc} {p : Bytes} {fd : Fd}
    (h : t.openRdwr cwd p = .ok fd) :
    fd = ⟨canon cwd p, 0⟩ ∧ ∃ c, t.content (canon cwd p) = some c := by
  have hat := onPath_ok h
  split at hat
  · rename_i c hc
    cases hat
    exact ⟨rfl, c, content_eq_some.mpr hc⟩
  · cases hat
  · cases hat

/-- An `open` that fails has an error number. -/
theorem openRdwr_error_ne_zero {t : Tree} {cwd : Loc} {p : Bytes} {e : ℕ}
    (h : t.openRdwr cwd p = .error e) : e ≠ 0 := by
  unfold openRdwr onPath at h
  split at h
  · beta_reduce at h
    split at h
    · cases h
    · cases h
      decide
    · cases h
      decide
  · rename_i hl
    cases h
    exact lookup_error_ne_zero hl

/-- `stat` shows the node at the canonical place. -/
theorem stat_ok {t : Tree} {cwd : Loc} {p : Bytes} {n : Node} (h : t.stat cwd p = .ok n) :
    t.node (canon cwd p) = some n := by
  have hat := onPath_ok h
  split at hat
  · rename_i m hm
    cases hat
    exact hm
  · cases hat

/-- `mkdir` adds one directory. -/
theorem mkdir_ok {t t' : Tree} {cwd : Loc} {p : Bytes} (h : t.mkdir cwd p = .ok t') :
    ∃ l, t' = t.setDir l := by
  unfold mkdir at h
  split at h
  · cases h
  · split at h
    · cases h
    · rename_i l _
      split at h
      · cases h
      · cases h
        exact ⟨l, rfl⟩

/-- `unlink` removes what is at the canonical place. -/
theorem unlink_ok {t t' : Tree} {cwd : Loc} {p : Bytes} (h : t.unlink cwd p = .ok t') :
    t' = t.remove (canon cwd p) := by
  have hat := onPath_ok h
  split at hat
  · cases hat
    rfl
  · cases hat
  · cases hat

/-- A file that its path still leads to can be removed. -/
theorem unlink_of_lookup {t : Tree} {cwd l : Loc} {p c : Bytes} (hl : t.lookup cwd p = .ok l)
    (hc : t.content l = some c) : t.unlink cwd p = .ok (t.remove l) := by
  rw [content_eq_some] at hc
  unfold unlink onPath
  simp only [hl, hc]

/-- Every `..` of the path stands behind a part that leads somewhere. -/
def Direct (t : Tree) (cwd : Loc) (p : Bytes) : Prop :=
  ∃ pre post, components p = pre ++ post ∧ (∀ c ∈ post, c ≠ dotdot) ∧
    ((∀ c ∈ pre, c ≠ dotdot) ∨ ∃ l, t.walk (origin cwd p) pre = .ok l)

/-- A path without `..` is direct. -/
theorem direct_of_plain (t : Tree) (cwd : Loc) {p : Bytes} (h : ∀ c ∈ components p, c ≠ dotdot) :
    t.Direct cwd p :=
  ⟨[], components p, rfl, h, .inl fun _ hc => absurd hc List.not_mem_nil⟩

/-- A direct path stays direct. -/
theorem Direct.grows {t t' : Tree} {cwd : Loc} {p : Bytes} (h : t.Direct cwd p)
    (hg : t.Grows t') : t'.Direct cwd p := by
  obtain ⟨pre, post, hsplit, hpost, hpre⟩ := h
  refine ⟨pre, post, hsplit, hpost, ?_⟩
  rcases hpre with hpre | ⟨l, hl⟩
  · exact .inl hpre
  · exact .inr ⟨l, hg.walk hl⟩

/-- A direct path whose `stat` is refused with `ENOENT` names nothing. -/
theorem Direct.node_of_stat_enoent {t : Tree} {cwd : Loc} {p : Bytes} (hdirect : t.Direct cwd p)
    (hp : p ≠ []) (h : t.stat cwd p = .error ENOENT) : t.node (canon cwd p) = none := by
  obtain ⟨pre, post, hsplit, hpost, hpre⟩ := hdirect
  have hlook : t.lookup cwd p = t.walk (origin cwd p) (components p) := if_neg hp
  unfold stat onPath at h
  cases hl : t.lookup cwd p with
  | ok l =>
      simp only [hl] at h
      rw [← lookup_ok hl]
      split at h
      · cases h
      · assumption
  | error e =>
      simp only [hl, Except.error.injEq] at h
      subst h
      rw [hlook] at hl
      rcases hpre with hpre | ⟨l, hwalk⟩
      · refine node_of_walk_enoent (fun c hc => ?_) hl
        rw [hsplit, List.mem_append] at hc
        exact hc.elim (hpre c) (hpost c)
      · rw [hsplit, walk_append, hwalk] at hl
        have hnode := node_of_walk_enoent hpost (show t.walk l post = .error ENOENT from hl)
        rwa [walk_ok hwalk, ← List.foldl_append, ← hsplit] at hnode

/-- What stands above a directory is a directory. -/
theorem dir_of_foldl_descend {t : Tree} {cs : List Bytes} {l : Loc} (hcs : ∀ c ∈ cs, c ≠ dotdot)
    (h : t.node (cs.foldl descend l) = some .dir) : t.node l = some .dir := by
  induction cs generalizing l with
  | nil => exact h
  | cons c cs ih =>
      have hnext := ih (fun d hd => hcs d (List.mem_cons_of_mem c hd)) h
      rcases descend_of_ne_dotdot (hcs c List.mem_cons_self) l with hd | hd
      · rwa [hd] at hnext
      · rw [hd] at hnext
        exact t.parent_dir c l (by simp [hnext])

/-- A walk without `..` gets to a directory that is there. -/
theorem walk_of_dir {t : Tree} {cs : List Bytes} {l : Loc} (hcs : ∀ c ∈ cs, c ≠ dotdot)
    (h : t.node (cs.foldl descend l) = some .dir) : t.walk l cs = .ok (cs.foldl descend l) := by
  induction cs generalizing l with
  | nil => rfl
  | cons c cs ih =>
      simp only [walk, dir_of_foldl_descend hcs h]
      exact ih (fun d hd => hcs d (List.mem_cons_of_mem c hd)) h

/-- A direct path to a file opens it. -/
theorem Direct.openRdwr_of_content {t : Tree} {cwd : Loc} {p : Bytes} (hdirect : t.Direct cwd p)
    {front : List Bytes} {name : Bytes} (hp : components p = front ++ [name]) (hname : IsName name)
    {c : Bytes} (hc : t.content (canon cwd p) = some c) :
    t.openRdwr cwd p = .ok ⟨canon cwd p, 0⟩ := by
  have hcanon : canon cwd p = name :: front.foldl descend (origin cwd p) := by
    unfold canon
    rw [hp, List.foldl_append, List.foldl_cons, List.foldl_nil, descend_name hname]
  rw [content_eq_some] at hc
  have hdir : t.node (front.foldl descend (origin cwd p)) = some .dir := by
    apply t.parent_dir name
    rw [← hcanon, hc]
    exact Option.some_ne_none _
  -- from a place on the way, without `..`
  have hend : ∀ cs l, (∀ d ∈ cs, d ≠ dotdot) →
      cs.foldl descend l = front.foldl descend (origin cwd p) →
      t.walk l (cs ++ [name]) = .ok (canon cwd p) := by
    intro cs l hcs hl
    rw [← hl] at hdir
    rw [walk_append, walk_of_dir hcs hdir, hcanon, ← hl]
    simp only [Except.bind, walk, hdir, descend_name hname]
  have hwalk : t.walk (origin cwd p) (components p) = .ok (canon cwd p) := by
    obtain ⟨pre, post, hsplit, hpost, hpre⟩ := hdirect
    rcases hpre with hpre | ⟨l, hl⟩
    · rw [hp]
      refine hend front _ (fun d hd => ?_) rfl
      have hmem : d ∈ pre ++ post := by
        rw [← hsplit, hp]
        exact List.mem_append_left _ hd
      exact (List.mem_append.mp hmem).elim (hpre d) (hpost d)
    · rcases List.eq_nil_or_concat post with rfl | ⟨post', d, rfl⟩
      · rw [List.append_nil] at hsplit
        rw [hsplit, hl, walk_ok hl, ← hsplit]
        rfl
      · rw [hp, List.concat_eq_append, ← List.append_assoc] at hsplit
        obtain ⟨rfl, -⟩ := List.append_inj' hsplit rfl
        rw [hp, List.append_assoc, walk_append, hl]
        refine hend post' l (fun d hd => hpost d ?_) ?_
        · rw [List.concat_eq_append]
          exact List.mem_append_left _ hd
        · rw [walk_ok hl, List.foldl_append]
  have hne : p ≠ [] := by
    rintro rfl
    have hlen := congrArg List.getLast? hp
    rw [List.getLast?_concat] at hlen
    exact hname.1 (Option.some.inj hlen).symm
  unfold openRdwr onPath lookup
  simp only [if_neg hne, hwalk, hc]

/-- A write leaves the contents elsewhere. -/
theorem content_write_ne (t : Tree) (fd : Fd) (b : Bytes) {l : Loc} (hne : l ≠ fd.loc) :
    (t.write fd b).content l = t.content l := by
  unfold write
  split
  · exact content_setFile_ne t hne _
  · rfl

/-- A write puts its bytes over the content at the position of the descriptor. -/
theorem content_write_self {t : Tree} {fd : Fd} {c : Bytes} (hc : t.content fd.loc = some c)
    (b : Bytes) :
    (t.write fd b).content fd.loc = some (ByteSeq.overwrite 0 c fd.pos b) := by
  unfold write
  simp only [hc]
  exact content_setFile_self (canHold_of_content hc) _

/-- Writing to a file leaves every path to a file as it is. -/
theorem openRdwr_write {t : Tree} {cwd : Loc} {p : Bytes} {fd : Fd}
    (h : t.openRdwr cwd p = .ok fd) (fd' : Fd) (b : Bytes) :
    (t.write fd' b).openRdwr cwd p = .ok fd := by
  have hgrows : t.Grows (t.write fd' b) := by
    unfold write
    split
    · exact grows_setFile t _ _
    · exact Grows.refl t
  obtain ⟨hfd, c, hc⟩ := openRdwr_ok h
  have hfile : ∃ c, (t.write fd' b).content (canon cwd p) = some c := by
    by_cases hl : canon cwd p = fd'.loc
    · rw [hl] at hc ⊢
      exact ⟨_, content_write_self hc b⟩
    · exact ⟨c, (content_write_ne t fd' b hl).trans hc⟩
  obtain ⟨c', hc'⟩ := hfile
  rw [content_eq_some] at hc'
  unfold openRdwr onPath at h ⊢
  cases hl : t.lookup cwd p with
  | error e =>
      rw [hl] at h
      cases h
  | ok l =>
      have hcanon := lookup_ok hl
      subst hcanon
      rw [hgrows.lookup hl]
      simp only [hc', hfd]

/-- A write keeps the directories. -/
theorem grows_write (t : Tree) (fd : Fd) (b : Bytes) : t.Grows (t.write fd b) := by
  unfold write
  split
  · exact grows_setFile t _ _
  · exact Grows.refl t

end Tree

end Posix
