import BundleStore.Analysis.Calls
import BundleStore.Model.Session

set_option autoImplicit false

/-!
# Keeping the bundles under concurrency

Single-threaded processes share a storage. What they keep of every bundle is a
parameter (`Upkeep`): it must hold of a bundle whenever nobody holds the lock of
its id. A process that holds a lock is alone with the bundles of its id.
-/

namespace BundleStore

open Machine Posix

/-- What is kept of the bundles under the prefixes in use. `base` is the tree at
the start. `Good` holds of a bundle that nobody has locked, `Seen` of every bundle at
any time; `Header` says how much of its header may be accepted. `Fits` says how a live
writer, by its use, its offset and its size, and the content and the history of its
file go together, and `dirs` whether a directory may stand where a bundle should. -/
structure Upkeep (L : Layout) where
  base : Tree
  allowed : Bytes → Bool
  outside : ∀ p, allowed p = true → L.Outside p
  sizes : ℕ → Prop
  Good : Option Bytes → History → Prop
  Seen : Option Bytes → History → Prop
  seen_of_good : ∀ content log, Good content log → Seen content log
  seen_emptied : ∀ log, Good none log → Seen (some []) log
  Header : Bytes → ℕ → Prop
  good_created : ∀ header n log, header.length = kBundleHeaderSize → Header header n →
    Good none log → Good (some (header.take n)) log
  good_missing : ∀ t p id log, base.Grows t → allowed p = true →
    t.stat L.cwd (bundleFile L.setting L.storage p id) = .error ENOENT →
    Good (t.content (L.bundleLoc p id)) log → Good none log
  Fits : Use → ℕ → ℕ → Bytes → History → Prop
  fits_found : ∀ c log size, sizes size → c.length < 2 ^ 63 →
    ¬ exceeds L.setting size (some c.length) → Good (some c) log → Fits .fresh c.length size c log
  fits_created : ∀ header log size, header.length = kBundleHeaderSize → Good none log →
    Fits .fresh kBundleHeaderSize size header log
  dirs : Prop

namespace Upkeep

variable {L : Layout} (U : Upkeep L) {ι : Type}

/-- The bundles of an id. -/
def Bundle (id : ℤ) (l : Loc) : Prop :=
  IsId id ∧ ∃ p, U.allowed p = true ∧ l = L.bundleLoc p id

/-- A bundle has one id. -/
theorem Bundle.id_unique {U : Upkeep L} {m n : ℤ} {l : Loc} (hm : U.Bundle m l)
    (hn : U.Bundle n l) : m = n := by
  obtain ⟨hmid, p, -, rfl⟩ := hm
  obtain ⟨hnid, q, -, heq⟩ := hn
  exact L.id_of_bundleLoc hmid hnid heq

/-- No bundle lies where a lock does. -/
theorem Bundle.ne_lockLoc {U : Upkeep L} {n : ℤ} {l : Loc} (h : U.Bundle n l) (m : ℤ) :
    l ≠ L.lockLoc m := by
  obtain ⟨-, p, hp, rfl⟩ := h
  exact U.outside p hp n m

/-- The invariant of the shared state. -/
structure Inv (w : World ι ι) : Prop where
  grown : U.base.Grows w.tree
  ids : ∀ p, IsId (w.lastId p)
  file_of_holds : ∀ i n, w.holds i (L.lockLoc n) = true →
    (w.tree.content (L.lockLoc n)).isSome = true
  exclusive : ∀ i j n, w.holds i (L.lockLoc n) = true → w.holds j (L.lockLoc n) = true → i = j
  good : ∀ n l, (∀ i, w.holds i (L.lockLoc n) = false) → U.Bundle n l →
    U.Good (w.tree.content l) (w.log l)
  seen : ∀ n l, U.Bundle n l → U.Seen (w.tree.content l) (w.log l)

/-- What the steps of the others leave alone. -/
structure Frame (i : ι) (w w' : World ι ι) : Prop where
  holds : w'.holds i = w.holds i
  errno : w'.errno i = w.errno i
  lastId : w'.lastId i = w.lastId i
  grows : w.tree.Grows w'.tree
  bundle : ∀ n l, w.holds i (L.lockLoc n) = true → U.Bundle n l →
    w'.tree.content l = w.tree.content l ∧ w'.log l = w.log l

def discipline : Discipline ι (World ι ι) where
  Inv := U.Inv
  Frame := U.Frame
  frame_refl i w := ⟨rfl, rfl, rfl, Tree.Grows.refl _, fun _ _ _ _ => ⟨rfl, rfl⟩⟩
  frame_trans i w₁ w₂ w₃ h h' := by
    refine ⟨h'.holds.trans h.holds, h'.errno.trans h.errno, h'.lastId.trans h.lastId,
      h.grows.trans h'.grows, ?_⟩
    intro n l hheld hl
    have h₁ := h.bundle n l hheld hl
    have h₂ := h'.bundle n l (by rw [h.holds]; exact hheld) hl
    exact ⟨h₂.1.trans h₁.1, h₂.2.trans h₁.2⟩

/-- What a step leaves of the locks `H` that a process holds. -/
structure Keeps (i : ι) (H : ℤ → Prop) (w w' : World ι ι) : Prop where
  grows : w.tree.Grows w'.tree
  holds : ∀ n, H n → w.holds i (L.lockLoc n) = true → w'.holds i (L.lockLoc n) = true
  bundle : ∀ n l, H n → w.holds i (L.lockLoc n) = true → U.Bundle n l →
    w'.tree.content l = w.tree.content l ∧ w'.log l = w.log l

variable {U}

/-- What the others change keeps the writers of a process. -/
theorem Frame.keeps {i : ι} {w w' : World ι ι} (h : U.Frame i w w') (H : ℤ → Prop) :
    U.Keeps i H w w' := by
  refine ⟨h.grows, ?_, fun n l _ => h.bundle n l⟩
  intro n _ hheld
  rw [h.holds]
  exact hheld

/-! ## What a process knows -/

variable (U)

/-- A process holds the lock of an id, and its bundles are as they should be. -/
structure Own (i : ι) (n : ℤ) (w : World ι ι) : Prop where
  isId : IsId n
  holds : w.holds i (L.lockLoc n) = true
  good : ∀ l, U.Bundle n l → U.Good (w.tree.content l) (w.log l)

/-- The file of a bundle is there, and its content and its records are as told. -/
def Standing (l : Loc) (Q : Bytes → History → Prop) (w : World ι ι) : Prop :=
  (U.dirs ∧ w.tree.node l = some .dir) ∨ ∃ c, w.tree.content l = some c ∧ Q c (w.log l)

/-- The file of a live writer. -/
def AtFile (live : LiveWriter) (l : Loc) (w : World ι ι) : Prop :=
  U.Standing l (U.Fits live.use live.writer.info_.offset live.writer.info_.size) w

/-- The parts of a writer belong to its id, under a prefix in use. -/
structure Formed (writer : Writer) (p : Bytes) (filelock : FileLock) : Prop where
  allowed : U.allowed p = true
  lock : writer.filelock_ = some filelock
  locked : filelock.locked_ = true
  lockfile : filelock.lockfile_ = lockFile L.lock_dir writer.info_.id
  filename : writer.filename_ = bundleFile L.setting L.storage p writer.info_.id

/-- A live writer of a process. -/
def WriterOk (i : ι) (live : LiveWriter) (w : World ι ι) : Prop :=
  ∃ p filelock, U.Formed live.writer p filelock ∧ U.Own i live.writer.info_.id w ∧
    U.AtFile live (L.bundleLoc p live.writer.info_.id) w

/-- The live writers of a process, each with an id of its own. -/
structure LiveOk (i : ι) (live : List LiveWriter) (w : World ι ι) : Prop where
  apart : live.Pairwise fun a b => a.writer.info_.id ≠ b.writer.info_.id
  each : ∀ lw ∈ live, U.WriterOk i lw w

variable {U} {i : ι} {w w' : World ι ι} {H : ℤ → Prop} {n : ℤ}

/-- A process keeps what it owns. -/
theorem Own.keeps (h : U.Own i n w) (hk : U.Keeps i H w w') (hn : H n) : U.Own i n w' := by
  refine ⟨h.isId, hk.holds n hn h.holds, ?_⟩
  intro l hl
  obtain ⟨hcontent, hlog⟩ := hk.bundle n l hn h.holds hl
  rw [hcontent, hlog]
  exact h.good l hl

/-- A bundle under a lock of the process stands. -/
theorem Standing.keeps {l : Loc} {Q : Bytes → History → Prop} (h : U.Standing l Q w)
    (hk : U.Keeps i H w w') (hn : H n) (hheld : w.holds i (L.lockLoc n) = true)
    (hl : U.Bundle n l) : U.Standing l Q w' := by
  rcases h with ⟨hdirs, hdir⟩ | ⟨c, hc, hq⟩
  · exact .inl ⟨hdirs, hk.grows l hdir⟩
  · obtain ⟨hcontent, hlog⟩ := hk.bundle n l hn hheld hl
    refine .inr ⟨c, hcontent.trans hc, ?_⟩
    rw [hlog]
    exact hq

/-- A live writer is kept. -/
theorem WriterOk.keeps {live : LiveWriter} (h : U.WriterOk i live w) (hk : U.Keeps i H w w')
    (hn : H live.writer.info_.id) : U.WriterOk i live w' := by
  obtain ⟨p, filelock, hformed, hown, hfile⟩ := h
  refine ⟨p, filelock, hformed, hown.keeps hk hn, ?_⟩
  exact Standing.keeps hfile hk hn hown.holds ⟨hown.isId, p, hformed.allowed, rfl⟩

/-- The live writers of a process are kept. -/
theorem LiveOk.keeps {live : List LiveWriter} (h : U.LiveOk i live w) (hk : U.Keeps i H w w')
    (hn : ∀ lw ∈ live, H lw.writer.info_.id) : U.LiveOk i live w' :=
  ⟨h.apart, fun lw hlw => (h.each lw hlw).keeps hk (hn lw hlw)⟩

/-- A lock that a process does not hold is not the lock of a live writer of it. -/
theorem LiveOk.ne_of_free {live : List LiveWriter} (h : U.LiveOk i live w)
    (hfree : w.holds i (L.lockLoc n) = false) : ∀ lw ∈ live, lw.writer.info_.id ≠ n := by
  rintro lw hlw rfl
  obtain ⟨p, filelock, -, hown, -⟩ := h.each lw hlw
  have hheld := hown.holds
  rw [hfree] at hheld
  cases hheld

/-- The live writers of a process are stable. -/
theorem liveOk_stable (i : ι) (live : List LiveWriter) :
    U.discipline.Stable i (U.LiveOk i live) :=
  fun _ _ _ _ hframe h => h.keeps (Frame.keeps hframe fun _ => True) fun _ _ => trivial

end Upkeep

end BundleStore
