import BundleStore.Model.Allocate

set_option autoImplicit false

/-!
# Where `mkdirs` has led

The last directory that `mkdirs` makes is the whole path, but for a slash at its end.
So the path leads somewhere once `mkdirs` has made everything, or found it there.
-/

namespace Posix

/-- Components of nothing are all of a path only where it begins with a slash. -/
theorem head?_of_components_nil {p : Bytes} (hp : p ≠ []) (h : ∀ c ∈ components p, c = []) :
    p.head? = some slash := by
  have hjoin : [slash].intercalate (components p) = p := List.intercalate_splitOn slash
  obtain ⟨c, cs, hcons⟩ := List.exists_cons_of_ne_nil
    (show components p ≠ [] from List.splitOnP_ne_nil _ _)
  rw [hcons] at hjoin h
  obtain rfl := h c List.mem_cons_self
  cases cs with
  | nil => exact absurd hjoin.symm hp
  | cons d ds =>
      rw [← hjoin, List.intercalate_cons_cons]
      rfl

/-- What `stripSlashes` leaves out is empty. -/
theorem components_eq_stripSlashes (p : Bytes) :
    ∃ tail, components p = Tree.stripSlashes p ++ tail ∧ ∀ c ∈ tail, c = [] := by
  refine ⟨((components p).reverse.takeWhile fun c => c.isEmpty).reverse, ?_, ?_⟩
  · unfold Tree.stripSlashes
    rw [← List.reverse_append, List.takeWhile_append_dropWhile, List.reverse_reverse]
  · intro c hc
    rw [List.mem_reverse] at hc
    exact List.isEmpty_iff.mp (List.mem_takeWhile_imp hc)

namespace Tree

variable {t t' : Tree} {cwd l m : Loc} {p : Bytes}

/-- A walk ends where it began or in an entry of a directory. -/
theorem walk_missing {cs : List Bytes} (h : t.walk l cs = .ok m) (hm : t.node m = none) :
    cs = [] ∧ m = l ∨ m ≠ [] ∧ t.node m.tail = some .dir := by
  induction cs generalizing l with
  | nil =>
      cases h
      exact .inl ⟨rfl, rfl⟩
  | cons c cs ih =>
      simp only [walk] at h
      split at h
      · rename_i hdir
        rcases ih h with ⟨rfl, rfl⟩ | hin
        · right
          have hroot : descend l c ≠ [] := by
            intro heq
            rw [heq, t.root_dir] at hm
            cases hm
          refine ⟨hroot, ?_⟩
          unfold descend at hm hroot ⊢
          split
          · rename_i hstay
            rw [if_pos hstay, hdir] at hm
            cases hm
          · rename_i hmove
            rw [if_neg hmove] at hm hroot
            split
            · -- the parent of a directory is there
              rename_i hup
              rw [if_pos hup] at hm hroot
              cases l with
              | nil => exact absurd rfl hroot
              | cons n l' =>
                  have hparent := t.parent_dir n l' (by simp [hdir])
                  rw [List.tail_cons, hparent] at hm
                  cases hm
            · exact hdir
        · exact .inr hin
      · cases h
      · cases h

/-- A way that is blocked ends at what is missing or at a file. -/
theorem walk_error {cs : List Bytes} {e : ℕ} (h : t.walk l cs = .error e) :
    e = ENOENT ∨ e = ENOTDIR := by
  induction cs generalizing l with
  | nil => cases h
  | cons c cs ih =>
      simp only [walk] at h
      split at h
      · exact ih h
      · cases h
        exact .inr rfl
      · cases h
        exact .inl rfl

/-- A walk over nothing but slashes. -/
theorem walk_nils {n : Node} (hn : t.node l = some n) {cs : List Bytes} (hcs : ∀ c ∈ cs, c = []) :
    t.walk l cs = .ok l ∨ t.walk l cs = .error ENOTDIR := by
  induction cs with
  | nil => exact .inl rfl
  | cons c cs ih =>
      obtain rfl := hcs c List.mem_cons_self
      simp only [walk, hn]
      cases n with
      | dir => exact ih fun c hc => hcs c (List.mem_cons_of_mem [] hc)
      | file x => exact .inr rfl

/-- The path, without the slashes at its end, leads to something. -/
def Reaches (t : Tree) (cwd : Loc) (p : Bytes) : Prop :=
  p ≠ [] ∧ ∃ l n, t.walk (origin cwd p) (stripSlashes p) = .ok l ∧ t.node l = some n

/-- A directory that has been made is reached. -/
theorem Reaches.of_mkdir (h : t.mkdir cwd p = .ok t') : t'.Reaches cwd p := by
  unfold mkdir at h
  split at h
  · cases h
  · rename_i hp
    split at h
    · cases h
    · rename_i l hwalk
      split at h
      · cases h
      · rename_i hnone
        cases h
        refine ⟨hp, l, .dir, (grows_setDir t l).walk hwalk, ?_⟩
        have hin : l ≠ [] ∧ t.node l.tail = some .dir := by
          rcases walk_missing hwalk hnone with ⟨hnil, rfl⟩ | hin
          · obtain ⟨tail, hsplit, htail⟩ := components_eq_stripSlashes p
            rw [hnil, List.nil_append] at hsplit
            have hslash := head?_of_components_nil hp (hsplit ▸ htail)
            rw [origin, if_pos hslash, t.root_dir] at hnone
            cases hnone
          · exact hin
        unfold setDir
        rw [dif_pos ⟨hin.1, hin.2, hnone⟩]
        exact if_pos rfl

/-- A directory that was there is reached. -/
theorem Reaches.of_mkdir_eexist (h : t.mkdir cwd p = .error EEXIST) : t.Reaches cwd p := by
  unfold mkdir at h
  split at h
  · exact absurd (Except.error.inj h) (by decide)
  · rename_i hp
    split at h
    · rename_i e hwalk
      rcases walk_error hwalk with rfl | rfl
      · exact absurd (Except.error.inj h) (by decide)
      · exact absurd (Except.error.inj h) (by decide)
    · rename_i l hwalk
      split at h
      · rename_i n hn
        exact ⟨hp, l, n, hwalk, hn⟩
      · cases h

/-- A path that leads to something is not said to be missing, with or without a slash at
its end. -/
theorem Reaches.stat_ne {q : Bytes} (h : t.Reaches cwd q) (hp : p = q ∨ p = q ++ [slash]) :
    t.stat cwd p ≠ .error ENOENT := by
  obtain ⟨hq, l, n, hwalk, hn⟩ := h
  have hpne : p ≠ [] := by
    rcases hp with rfl | rfl
    · exact hq
    · simp
  have horigin : origin cwd p = origin cwd q := by
    rcases hp with rfl | rfl
    · rfl
    · unfold origin
      rw [List.head?_append_of_ne_nil _ hq]
  obtain ⟨tail, hsplit, htail⟩ : ∃ tail, components p = stripSlashes q ++ tail ∧
      ∀ c ∈ tail, c = [] := by
    obtain ⟨tail, hsplit, htail⟩ := components_eq_stripSlashes q
    rcases hp with rfl | rfl
    · exact ⟨tail, hsplit, htail⟩
    · refine ⟨tail ++ [[]], ?_, ?_⟩
      · rw [components_append_slash, hsplit, List.append_assoc]
        rfl
      · intro c hc
        rcases List.mem_append.mp hc with hc | hc
        · exact htail c hc
        · exact List.mem_singleton.mp hc
  have hlook : t.lookup cwd p = t.walk l tail := by
    unfold lookup
    rw [if_neg hpne, horigin, hsplit, walk_append, hwalk]
    rfl
  unfold stat onPath
  rw [hlook]
  rcases walk_nils hn htail with hok | hother
  · rw [hok]
    dsimp only
    rw [hn]
    exact fun h => by cases h
  · rw [hother]
    exact fun h => absurd (Except.error.inj h) (by decide)

end Tree

end Posix

namespace BundleStore

open Machine Posix

/-- A path that fits is worked on as it is, without its last slash.
SOURCE: mkdirs.cc:27-34 -/
theorem mkdirsPath_cases {dir : Bytes} (hnul : 0 ∉ dir) (hshort : dir.length < 300) :
    dir = mkdirsPath dir ∨ dir = mkdirsPath dir ++ [slash] := by
  unfold mkdirsPath
  rw [cstr_of_nul_free hnul, List.take_of_length_le (by omega)]
  dsimp only
  split
  · rename_i hlast
    obtain ⟨front, rfl⟩ := List.getLast?_eq_some_iff.mp hlast
    rw [List.dropLast_concat]
    exact .inr rfl
  · exact .inl rfl

/-- The last directory that is made is the whole path. -/
theorem mkdirsSubpaths_getLast? (dir : Bytes) :
    (mkdirsSubpaths dir).getLast? = some (mkdirsPath dir) := by
  unfold mkdirsSubpaths
  dsimp only
  generalize (if (mkdirsPath dir).head? = some slash then 1
    else if (mkdirsPath dir).take 2 = [46, slash] then 2 else 0) = front
  obtain ⟨n, hn⟩ : ∃ n, (components ((mkdirsPath dir).drop front)).length = n + 1 := by
    refine Nat.exists_eq_succ_of_ne_zero fun hzero => ?_
    exact List.splitOnP_ne_nil _ _ (List.length_eq_zero_iff.mp hzero)
  have hjoin : [slash].intercalate (components ((mkdirsPath dir).drop front)) =
      (mkdirsPath dir).drop front := List.intercalate_splitOn slash
  rw [hn, List.range_succ, List.map_append, List.map_singleton, List.getLast?_concat,
    ← hn, List.take_length, hjoin, List.take_append_drop]

variable {t : Tree} {cwd : Loc}

/-- In a directory that is there no entry is said to be missing when it is made. -/
theorem openExcl_entry {dir name : Bytes} (hdir : t.stat cwd dir ≠ .error ENOENT)
    (hname : IsName name) (hslash : slash ∉ name) :
    t.openExcl cwd (pathJoin dir name) ≠ .error ENOENT := by
  have hne : dir ≠ [] := by
    rintro rfl
    exact hdir rfl
  have hrel : ¬ name.head? = some 47 := fun h => hslash (List.mem_of_mem_head? h)
  -- the path is that of the directory, but for a slash at its end, and the name
  obtain ⟨cs, tail, hcomps, htail, hcomps', horigin, hne'⟩ : ∃ cs tail,
      components dir = cs ++ tail ∧ (tail = [] ∨ tail = [[]]) ∧
        components (pathJoin dir name) = cs ++ [name] ∧
        origin cwd (pathJoin dir name) = origin cwd dir ∧ pathJoin dir name ≠ [] := by
    unfold pathJoin
    rw [if_neg hname.1, if_neg hne, if_neg hrel]
    by_cases hlast : dir.getLast? = some 47
    · rw [if_pos hlast]
      obtain ⟨front, rfl⟩ := List.getLast?_eq_some_iff.mp hlast
      refine ⟨components front, [[]], components_append_slash front [], .inr rfl, ?_, ?_, ?_⟩
      · rw [List.append_assoc]
        exact (components_append_slash front name).trans
          (congrArg (components front ++ ·) (components_of_no_slash hslash))
      · unfold origin
        rw [List.head?_append_of_ne_nil _ hne]
      · exact List.append_ne_nil_of_left_ne_nil hne _
    · rw [if_neg hlast]
      refine ⟨components dir, [], (List.append_nil _).symm, .inl rfl, ?_, ?_, ?_⟩
      · rw [List.append_assoc]
        exact (components_append_slash dir name).trans
          (congrArg (components dir ++ ·) (components_of_no_slash hslash))
      · unfold origin
        rw [List.append_assoc, List.head?_append_of_ne_nil _ hne]
      · rw [List.append_assoc]
        exact List.append_ne_nil_of_left_ne_nil hne _
  have hlook : t.lookup cwd dir = (t.walk (origin cwd dir) cs).bind fun l => t.walk l tail := by
    unfold Tree.lookup
    rw [if_neg hne, hcomps, Tree.walk_append]
  have hlook' : t.lookup cwd (pathJoin dir name) =
      (t.walk (origin cwd dir) cs).bind fun l => t.walk l [name] := by
    unfold Tree.lookup
    rw [if_neg hne', horigin, hcomps', Tree.walk_append]
  unfold Tree.stat Tree.onPath at hdir
  unfold Tree.openExcl Tree.onPath
  rw [hlook] at hdir
  rw [hlook']
  cases hwalk : t.walk (origin cwd dir) cs with
  | error e =>
      rw [hwalk] at hdir
      exact fun h => hdir (congrArg Except.error (Except.error.inj h))
  | ok l =>
      rw [hwalk] at hdir
      dsimp only [Except.bind] at hdir ⊢
      simp only [Tree.walk]
      cases hn : t.node l with
      | none =>
          refine absurd ?_ hdir
          rcases htail with rfl | rfl
          · simp only [Tree.walk, hn]
          · simp only [Tree.walk, hn]
      | some n =>
          cases n with
          | file c => exact fun h => absurd (Except.error.inj h) (by decide)
          | dir =>
              dsimp only
              rw [descend_name hname]
              cases hentry : t.node (name :: l) with
              | some n => exact fun h => absurd (Except.error.inj h) (by decide)
              | none =>
                  dsimp only
                  rw [if_pos ⟨List.cons_ne_nil name l, hn, by simp [hentry]⟩]
                  exact fun h => by cases h

end BundleStore
