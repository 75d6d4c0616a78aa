import BundleStore.Analysis.MadeDirs
import BundleStore.Model.World

set_option autoImplicit false

/-!
# When `mkdirs` tells the truth

`mkdirs` makes the places on the way of its path one after the other, and takes whatever is there
already for a directory. It works on the first 299 bytes of the path.
-/

namespace Posix

/-- The place to which the first `k` components of a path lead. -/
def way (cwd : Loc) (p : Bytes) (k : ℕ) : Loc :=
  ((components p).take k).foldl descend (origin cwd p)

/-- A way begins at its origin. -/
theorem way_zero (cwd : Loc) (p : Bytes) : way cwd p 0 = origin cwd p := rfl

/-- A way ends where the path lies. -/
theorem way_length (cwd : Loc) (p : Bytes) : way cwd p (components p).length = canon cwd p := by
  rw [way, List.take_length, canon]

/-- The way goes on from each of its places. -/
theorem way_eq_foldl (cwd : Loc) (p : Bytes) {j k : ℕ} (hjk : j ≤ k) :
    way cwd p k = (((components p).take k).drop j).foldl descend (way cwd p j) := by
  have htake : (components p).take j = ((components p).take k).take j := by
    rw [List.take_take, min_eq_left hjk]
  unfold way
  rw [htake, ← List.foldl_append, List.take_append_drop]

/-- Empty components stay where they are. -/
theorem foldl_descend_nils {cs : List Bytes} (h : ∀ c ∈ cs, c = []) (l : Loc) :
    cs.foldl descend l = l := by
  induction cs generalizing l with
  | nil => rfl
  | cons c cs ih =>
      obtain rfl := h c List.mem_cons_self
      exact ih (fun d hd => h d (List.mem_cons_of_mem [] hd)) l

namespace Tree

/-- A walk succeeds when all places on it but the last are directories. -/
theorem walk_ok_iff {t : Tree} {l m : Loc} {cs : List Bytes} :
    t.walk l cs = .ok m ↔ m = cs.foldl descend l ∧
      ∀ k < cs.length, t.node ((cs.take k).foldl descend l) = some .dir := by
  induction cs generalizing l with
  | nil => simp [walk, eq_comm]
  | cons c cs ih =>
      simp only [walk]
      constructor
      · intro h
        split at h
        · rename_i hdir
          obtain ⟨hm, hway⟩ := ih.mp h
          refine ⟨hm, fun k hk => ?_⟩
          cases k with
          | zero => exact hdir
          | succ k => exact hway k (Nat.lt_of_succ_lt_succ hk)
        · cases h
        · cases h
      · rintro ⟨hm, hway⟩
        rw [show t.node l = some .dir from hway 0 (Nat.succ_pos _)]
        exact ih.mpr ⟨hm, fun k hk => hway (k + 1) (Nat.succ_lt_succ hk)⟩

/-- A walk is refused with `ENOTDIR` where it comes to a file. -/
theorem walk_notdir {t : Tree} {l : Loc} {cs : List Bytes} (h : t.walk l cs = .error ENOTDIR) :
    ∃ k < cs.length, (∀ j < k, t.node ((cs.take j).foldl descend l) = some .dir) ∧
      t.content ((cs.take k).foldl descend l) ≠ none := by
  induction cs generalizing l with
  | nil => cases h
  | cons c cs ih =>
      simp only [walk] at h
      split at h
      · rename_i hdir
        obtain ⟨k, hk, hdirs, hfile⟩ := ih h
        refine ⟨k + 1, Nat.succ_lt_succ hk, fun j hj => ?_, hfile⟩
        cases j with
        | zero => exact hdir
        | succ j => exact hdirs j (Nat.lt_of_succ_lt_succ hj)
      · rename_i content hfile
        refine ⟨0, Nat.succ_pos _, fun j hj => absurd hj (Nat.not_lt_zero j), ?_⟩
        change t.content l ≠ none
        rw [content_eq_some.mpr hfile]
        exact Option.some_ne_none content
      · exact absurd (Except.error.inj h) (by decide)

/-- A path names a directory when all places on its way are directories. -/
theorem stat_eq_dir_iff {t : Tree} {cwd : Loc} {p : Bytes} (hp : p ≠ []) :
    t.stat cwd p = .ok .dir ↔ ∀ k ≤ (components p).length, t.node (way cwd p k) = some .dir := by
  have hlook : t.lookup cwd p = t.walk (origin cwd p) (components p) := if_neg hp
  unfold stat onPath
  rw [hlook]
  constructor
  · intro h k hk
    split at h
    · rename_i l hl
      obtain ⟨hcanon, hway⟩ := walk_ok_iff.mp hl
      rcases Nat.lt_or_eq_of_le hk with hlt | rfl
      · exact hway k hlt
      · rw [way_length, canon, ← hcanon]
        dsimp only at h
        split at h
        · rename_i n hn
          rw [hn, Except.ok.inj h]
        · cases h
    · cases h
  · intro h
    have hwalk : t.walk (origin cwd p) (components p) = .ok (canon cwd p) :=
      walk_ok_iff.mpr ⟨rfl, fun k hk => h k hk.le⟩
    have hlast := h _ le_rfl
    rw [way_length] at hlast
    rw [hwalk]
    dsimp only
    rw [hlast]

/-- The components that `stripSlashes` keeps are the first ones. -/
theorem stripSlashes_eq_take (p : Bytes) :
    stripSlashes p = (components p).take (stripSlashes p).length ∧
      (stripSlashes p).length ≤ (components p).length := by
  obtain ⟨tail, hsplit, -⟩ := components_eq_stripSlashes p
  constructor
  · conv_rhs => rw [hsplit]
    exact List.take_left.symm
  · rw [hsplit, List.length_append]
    exact Nat.le_add_right ..

/-- Behind the components that `stripSlashes` keeps the way does not move. -/
theorem foldl_stripSlashes (cwd : Loc) (p : Bytes) :
    (stripSlashes p).foldl descend (origin cwd p) = canon cwd p := by
  obtain ⟨tail, hsplit, htail⟩ := components_eq_stripSlashes p
  rw [canon, hsplit, List.foldl_append, foldl_descend_nils htail]

/-- The slashes that are stripped stand at the end. -/
theorem take_stripSlashes (p : Bytes) {k : ℕ} (hk : k ≤ (stripSlashes p).length) :
    (stripSlashes p).take k = (components p).take k := by
  conv_lhs => rw [(stripSlashes_eq_take p).1]
  rw [List.take_take, min_eq_left hk]

/-- A path whose steps are directories leads where it lies. -/
theorem walk_stripSlashes {t : Tree} {cwd : Loc} {p : Bytes}
    (h : ∀ k < (stripSlashes p).length, t.node (way cwd p k) = some .dir) :
    t.walk (origin cwd p) (stripSlashes p) = .ok (canon cwd p) := by
  refine walk_ok_iff.mpr ⟨(foldl_stripSlashes cwd p).symm, fun k hk => ?_⟩
  rw [take_stripSlashes p hk.le]
  exact h k hk

/-- Where `mkdir` finds or makes something, it has come through. -/
theorem walk_of_mkdir {t t' : Tree} {cwd : Loc} {p : Bytes}
    (h : t.mkdir cwd p = .ok t' ∨ t.mkdir cwd p = .error EEXIST) :
    ∃ m, t.walk (origin cwd p) (stripSlashes p) = .ok m := by
  unfold mkdir at h
  split at h
  · rcases h with h | h
    · cases h
    · exact absurd (Except.error.inj h) (by decide)
  · split at h
    · rename_i e hwalk
      rcases h with h | h
      · cases h
      · obtain rfl := Except.error.inj h
        rcases walk_error hwalk with h | h
        · exact absurd h (by decide)
        · exact absurd h (by decide)
    · rename_i l hwalk
      exact ⟨l, hwalk⟩

/-- What `mkdir` does at the end of a way of directories. -/
theorem mkdir_of_way {t : Tree} {cwd : Loc} {p : Bytes} (hp : p ≠ [])
    (h : ∀ k < (stripSlashes p).length, t.node (way cwd p k) = some .dir) :
    (t.node (canon cwd p) ≠ none ∧ t.mkdir cwd p = .error EEXIST) ∨
      (t.node (canon cwd p) = none ∧ ∃ t', t.mkdir cwd p = .ok t' ∧
        ∀ l, t'.node l = if l = canon cwd p then some .dir else t.node l) := by
  have hwalk := walk_stripSlashes h
  cases hnode : t.node (canon cwd p) with
  | some n =>
      left
      refine ⟨by simp, ?_⟩
      unfold mkdir
      rw [if_neg hp, hwalk]
      dsimp only
      rw [hnode]
  | none =>
      right
      refine ⟨rfl, t.setDir (canon cwd p), ?_, ?_⟩
      · unfold mkdir
        rw [if_neg hp, hwalk]
        dsimp only
        rw [hnode]
      · have hin : canon cwd p ≠ [] ∧ t.node (canon cwd p).tail = some .dir := by
          rcases walk_missing hwalk hnode with ⟨hnil, horigin⟩ | hin
          · obtain ⟨tail, hsplit, htail⟩ := components_eq_stripSlashes p
            rw [hnil, List.nil_append] at hsplit
            have hslash := head?_of_components_nil hp (hsplit ▸ htail)
            rw [horigin, origin, if_pos hslash, t.root_dir] at hnode
            cases hnode
          · exact hin
        intro l
        unfold setDir
        rw [dif_pos ⟨hin.1, hin.2, hnode⟩]

end Tree

end Posix

namespace BundleStore

open Machine Posix

/-! ## The paths that `mkdirs` makes -/

/-- A path that is made, as a part of the whole: the components that it has and those behind it. -/
structure PartOf (q s : Bytes) (k : ℕ) : Prop where
  ne_nil : s ≠ []
  components : components s = (components q).take k
  head : s.head? = q.head?

/-- A part of a path begins where the path does. -/
theorem PartOf.origin {q s : Bytes} {k : ℕ} (h : PartOf q s k) (cwd : Loc) :
    origin cwd s = origin cwd q := by
  unfold Posix.origin
  rw [h.head]

/-- A part of a path leads the same way. -/
theorem PartOf.way {q s : Bytes} {k : ℕ} (h : PartOf q s k) (cwd : Loc) {j : ℕ} (hj : j ≤ k) :
    way cwd s j = way cwd q j := by
  unfold Posix.way
  rw [h.components, h.origin, List.take_take, min_eq_left hj]

/-- A part of a path lies on the way. -/
theorem PartOf.canon {q s : Bytes} {k : ℕ} (h : PartOf q s k) (cwd : Loc) :
    canon cwd s = Posix.way cwd q k := by
  unfold Posix.canon Posix.way
  rw [h.components, h.origin]

/-- Names joined by slashes have the names for components. -/
theorem components_intercalate {names : List Bytes} (hne : names ≠ [])
    (h : ∀ name ∈ names, slash ∉ name) : components ([slash].intercalate names) = names := by
  refine Text.splitOnP_intercalate (by decide) hne fun name hname x hx => ?_
  rw [beq_eq_false_iff_ne]
  rintro rfl
  exact h name hname hx

/-- There is no slash in a component. -/
theorem slash_not_mem_components {p name : Bytes} (h : name ∈ components p) : slash ∉ name := by
  intro hmem
  exact absurd (Text.free_of_mem_splitOnP h slash hmem) (by decide)

/-- Names joined by slashes begin with the first name. -/
theorem head?_intercalate {name : Bytes} (h : name ≠ []) (names : List Bytes) :
    ([slash].intercalate (name :: names)).head? = name.head? := by
  cases names with
  | nil => simp
  | cons name' names =>
      rw [List.intercalate_cons_cons, List.append_assoc, List.head?_append_of_ne_nil _ h]

/-- The parts of a path behind a front that is part of each. -/
theorem partOf_of_front (pre : Bytes) (hd : List Bytes) {q rest : Bytes} (hq : q = pre ++ rest)
    (hcomp : ∀ x, components (pre ++ x) = hd ++ components x)
    (hhead : ∀ n, (pre ++ [slash].intercalate ((components rest).take (n + 1))).head? = q.head?)
    (hne : q ≠ []) {n : ℕ} {s : Bytes}
    (h : ((List.range (components rest).length).map fun n =>
      pre ++ [slash].intercalate ((components rest).take (n + 1)))[n]? = some s) :
    PartOf q s (hd.length + n + 1) := by
  rw [List.getElem?_map, Option.map_eq_some_iff] at h
  obtain ⟨m, hm, rfl⟩ := h
  obtain ⟨hlt, rfl⟩ := List.getElem?_eq_some_iff.mp hm
  rw [List.getElem_range]
  rw [List.length_range] at hlt
  have hnames : (components rest).take (n + 1) ≠ [] := by
    intro hnil
    rw [List.take_eq_nil_iff] at hnil
    rcases hnil with hzero | hnil
    · exact absurd hzero (Nat.succ_ne_zero n)
    · rw [hnil] at hlt
      exact absurd hlt (Nat.not_lt_zero n)
  refine ⟨?_, ?_, hhead n⟩
  · intro hnil
    have hempty := hhead n
    rw [hnil, eq_comm, List.head?_eq_none_iff.mpr rfl, List.head?_eq_none_iff] at hempty
    exact hne hempty
  · rw [hcomp, components_intercalate hnames fun name hname =>
      slash_not_mem_components (List.mem_of_mem_take hname), hq, hcomp, Nat.add_assoc,
      List.take_length_add_append]

/-- The first part begins with `front` of the components, which lead nowhere. -/
theorem mkdirsSubpaths_parts {pathname : Bytes} (hq : mkdirsPath pathname ≠ []) :
    ∃ front, front + (mkdirsSubpaths pathname).length = (components (mkdirsPath pathname)).length ∧
      (∀ cwd, ∀ k ≤ front, way cwd (mkdirsPath pathname) k = origin cwd (mkdirsPath pathname)) ∧
      ∀ n s, (mkdirsSubpaths pathname)[n]? = some s →
        PartOf (mkdirsPath pathname) s (front + n + 1) := by
  have hstay : ∀ {c : Bytes}, c = [] ∨ c = [46] → ∀ cs cwd, ∀ k ≤ 1,
      components (mkdirsPath pathname) = c :: cs →
      way cwd (mkdirsPath pathname) k = origin cwd (mkdirsPath pathname) := by
    intro c hc cs cwd k hk hcomp
    unfold way
    rw [hcomp]
    rcases Nat.le_one_iff_eq_zero_or_eq_one.mp hk with rfl | rfl
    · rfl
    · exact if_pos hc
  unfold mkdirsSubpaths
  dsimp only
  rw [List.length_map, List.length_range]
  generalize mkdirsPath pathname = q at *
  by_cases hslash : q.head? = some slash
  · rw [if_pos hslash]
    obtain ⟨rest, rfl⟩ : ∃ rest, q = [slash] ++ rest := by
      cases q with
      | nil => cases hslash
      | cons b rest => exact ⟨rest, by rw [Option.some.inj hslash]; rfl⟩
    have hcomp : ∀ x, components ([slash] ++ x) = [[]] ++ components x :=
      fun x => components_append_slash [] x
    refine ⟨1, ?_, fun cwd k hk => hstay (.inl rfl) _ cwd k hk (hcomp rest), fun n s h => ?_⟩
    · rw [hcomp, List.length_append, List.length_singleton]
      rfl
    · exact partOf_of_front [slash] [[]] rfl hcomp (fun n => rfl) hq h
  rw [if_neg hslash]
  by_cases hdot : q.take 2 = [46, slash]
  · rw [if_pos hdot]
    obtain ⟨rest, rfl⟩ : ∃ rest, q = [46, slash] ++ rest := by
      refine ⟨q.drop 2, ?_⟩
      rw [← hdot, List.take_append_drop]
    have hcomp : ∀ x, components ([46, slash] ++ x) = [[46]] ++ components x :=
      fun x => components_append_slash [46] x
    refine ⟨1, ?_, fun cwd k hk => hstay (.inr rfl) _ cwd k hk (hcomp rest), fun n s h => ?_⟩
    · rw [hcomp, List.length_append, List.length_singleton]
      rfl
    · exact partOf_of_front [46, slash] [[46]] rfl hcomp (fun n => rfl) hq h
  · rw [if_neg hdot]
    refine ⟨0, by simp, fun cwd k hk => by rw [Nat.le_zero.mp hk, way_zero], fun n s h => ?_⟩
    refine partOf_of_front [] [] rfl (fun x => rfl) (fun n => ?_) hq h
    -- the first name is not empty, so it begins all parts
    have hjoin : [slash].intercalate (components q) = q := List.intercalate_splitOn slash
    obtain ⟨name, names, hnames⟩ := List.exists_cons_of_ne_nil
      (show components q ≠ [] from List.splitOnP_ne_nil _ _)
    rw [hnames] at hjoin
    have hname : name ≠ [] := by
      rintro rfl
      cases names with
      | nil => exact hq hjoin.symm
      | cons name' names =>
          rw [List.intercalate_cons_cons] at hjoin
          exact hslash (hjoin ▸ rfl)
    rw [hnames, List.nil_append, List.nil_append, List.take_succ_cons,
      head?_intercalate hname, ← hjoin, head?_intercalate hname]

/-! ## Calls that come through -/

/-- The trees that `mkdirs` goes through when it comes to its end. -/
def Makes (cwd : Loc) : List Bytes → Tree → Tree → Prop
  | [], t, t' => t' = t
  | subpath :: rest, t, t' => ∃ t₁,
      (t.mkdir cwd subpath = .ok t₁ ∨ t.mkdir cwd subpath = .error EEXIST ∧ t₁ = t) ∧
        Makes cwd rest t₁ t'

section Runs

variable {ι κ : Type} [DecidableEq ι] [DecidableEq κ] {cwd : Loc} {proc : ι → κ} {i : ι}

/-- A call that returns 0 has made everything, or found it there. -/
theorem makes_of_executes {subpaths : List Bytes} {w w' : World ι κ}
    (h : (mkdirsFrom subpaths).Executes (World.Sem cwd proc i) w true w') :
    Makes cwd subpaths w.tree w'.tree := by
  induction subpaths generalizing w with
  | nil =>
      obtain ⟨-, rfl⟩ := h
      exact rfl
  | cons subpath rest ih =>
      obtain ⟨made, w₁, hmkdir, hrest⟩ := h
      cases made with
      | true =>
          obtain ⟨t, ht, rfl⟩ := hmkdir
          exact ⟨t, .inl ht, ih hrest⟩
      | false =>
          obtain ⟨e, hreason, rfl⟩ := hmkdir
          obtain ⟨x, w₂, ⟨rfl, rfl⟩, hrest⟩ := hrest
          change (if (w.setErrno i e).errno i = EEXIST then mkdirsFrom rest
            else pure false).Executes (World.Sem cwd proc i) (w.setErrno i e) true w' at hrest
          have herrno : (w.setErrno i e).errno i = e := Function.update_self ..
          rw [herrno] at hrest
          by_cases hexist : e = EEXIST
          · subst hexist
            have hsame : w.tree.mkdir cwd subpath = .error EEXIST := by
              rcases hreason with h | h
              · exact h
              · exact absurd rfl h.2.2
            rw [if_pos rfl] at hrest
            exact ⟨w.tree, .inr ⟨hsame, rfl⟩, ih (w := w.setErrno i EEXIST) hrest⟩
          · rw [if_neg hexist] at hrest
            exact absurd hrest.1 (by decide)

variable (proc i) in
/-- Making everything, or finding it there, is a run of the loop. -/
theorem executes_of_makes {subpaths : List Bytes} {w : World ι κ} {t' : Tree}
    (h : Makes cwd subpaths w.tree t') :
    ∃ w', (mkdirsFrom subpaths).Executes (World.Sem cwd proc i) w true w' ∧ w'.tree = t' := by
  induction subpaths generalizing w with
  | nil => exact ⟨w, ⟨rfl, rfl⟩, h.symm⟩
  | cons subpath rest ih =>
      obtain ⟨t₁, hmkdir | ⟨hmkdir, rfl⟩, hrest⟩ := h
      · obtain ⟨w', hrun, htree⟩ := ih (w := w.setTree t₁) hrest
        exact ⟨w', ⟨true, _, ⟨t₁, hmkdir, rfl⟩, hrun⟩, htree⟩
      · obtain ⟨w', hrun, htree⟩ := ih (w := w.setErrno i EEXIST) hrest
        have herrno : (w.setErrno i EEXIST).errno i = EEXIST := Function.update_self ..
        refine ⟨w', ⟨false, _, ⟨EEXIST, .inl hmkdir, rfl⟩, EEXIST, _, ⟨herrno.symm, rfl⟩, hrun⟩,
          htree⟩

end Runs

/-- `mkdir` changes no file. -/
theorem mkdir_content {t t' : Tree} {cwd : Loc} {p : Bytes} (h : t.mkdir cwd p = .ok t') (l : Loc) :
    t'.content l = t.content l := by
  obtain ⟨m, rfl⟩ := Tree.mkdir_ok h
  exact Tree.content_setDir t m l

/-- Making directories changes no file. -/
theorem Makes.content {cwd : Loc} {subpaths : List Bytes} {t t' : Tree}
    (h : Makes cwd subpaths t t') (l : Loc) : t'.content l = t.content l := by
  induction subpaths generalizing t with
  | nil => rw [h]
  | cons subpath rest ih =>
      obtain ⟨t₁, hmkdir | ⟨-, rfl⟩, hrest⟩ := h
      · rw [ih hrest, mkdir_content hmkdir]
      · exact ih hrest

/-- A directory that has been made, or was there, is reached. -/
theorem reaches_of_mkdir {t t₁ : Tree} {cwd : Loc} {p : Bytes}
    (h : t.mkdir cwd p = .ok t₁ ∨ t.mkdir cwd p = .error EEXIST ∧ t₁ = t) : t₁.Reaches cwd p := by
  rcases h with h | ⟨h, rfl⟩
  · exact .of_mkdir h
  · exact .of_mkdir_eexist h

/-- The last path that is made leads somewhere. -/
theorem Makes.reaches {cwd : Loc} {subpaths : List Bytes} {t t' : Tree} {q : Bytes}
    (h : Makes cwd subpaths t t') (hlast : subpaths.getLast? = some q) : t'.Reaches cwd q := by
  induction subpaths generalizing t with
  | nil => cases hlast
  | cons subpath rest ih =>
      obtain ⟨t₁, hmkdir, hrest⟩ := h
      cases rest with
      | nil =>
          obtain rfl : subpath = q := Option.some.inj hlast
          obtain rfl : t' = t₁ := hrest
          exact reaches_of_mkdir hmkdir
      | cons next rest =>
          rw [List.getLast?_cons_cons] at hlast
          exact ih hrest hlast

/-! ## What is in the way -/

/-- `mkdirs` cannot come through: there is nothing to make, nowhere to start, or a file stands on
the way before its end. -/
def Blocked (t : Tree) (cwd : Loc) (pathname : Bytes) : Prop :=
  mkdirsPath pathname = [] ∨ t.node (origin cwd (mkdirsPath pathname)) ≠ some .dir ∨
    ∃ k < (Tree.stripSlashes (mkdirsPath pathname)).length,
      t.content (way cwd (mkdirsPath pathname) k) ≠ none

/-- A relative path that is not empty has a component before its last slashes. -/
theorem stripSlashes_ne_nil {s : Bytes} (hs : s ≠ []) (h : s.head? ≠ some slash) :
    Tree.stripSlashes s ≠ [] := by
  intro hnil
  obtain ⟨tail, hsplit, htail⟩ := components_eq_stripSlashes s
  rw [hnil, List.nil_append] at hsplit
  exact h (head?_of_components_nil hs (hsplit ▸ htail))

/-- A call that returns 0 was not blocked. -/
theorem Makes.not_blocked {cwd : Loc} {pathname : Bytes} {t t' : Tree}
    (h : Makes cwd (mkdirsSubpaths pathname) t t') : ¬ Blocked t cwd pathname := by
  obtain ⟨hq, l, n, hwalk, -⟩ := h.reaches (mkdirsSubpaths_getLast? pathname)
  obtain ⟨-, hway⟩ := Tree.walk_ok_iff.mp hwalk
  obtain ⟨front, hcount, -, hparts⟩ := mkdirsSubpaths_parts hq
  rintro (hnil | hstart | ⟨k, hk, hfile⟩)
  · exact hq hnil
  · -- the first path starts where the whole one does
    by_cases habs : (mkdirsPath pathname).head? = some slash
    · rw [origin, if_pos habs, t.root_dir] at hstart
      exact hstart rfl
    cases hsub : mkdirsSubpaths pathname with
    | nil =>
        have hlast := mkdirsSubpaths_getLast? pathname
        rw [hsub] at hlast
        cases hlast
    | cons s rest =>
        have hpart := hparts 0 s (by rw [hsub]; rfl)
        rw [hsub] at h
        obtain ⟨t₁, hmkdir, -⟩ := h
        obtain ⟨m, hwalk₀⟩ := Tree.walk_of_mkdir (hmkdir.imp_right And.left)
        have hstrip := stripSlashes_ne_nil hpart.ne_nil (hpart.head ▸ habs)
        have hdir := (Tree.walk_ok_iff.mp hwalk₀).2 0 (List.length_pos_iff.mpr hstrip)
        rw [hpart.origin] at hdir
        exact hstart hdir
  · rw [← h.content] at hfile
    have hdir := hway k hk
    rw [Tree.take_stripSlashes _ hk.le] at hdir
    change t'.node (way cwd (mkdirsPath pathname) k) = _ at hdir
    unfold Tree.content at hfile
    rw [hdir] at hfile
    exact hfile rfl

/-! ## What has been made -/

/-- The places on the way up to the `n`-th that were missing are directories, and nothing else has
changed. -/
structure Made (t : Tree) (way : ℕ → Loc) (n : ℕ) (t' : Tree) : Prop where
  made : ∀ k ≤ n, t.node (way k) = none → t'.node (way k) = some .dir
  kept : ∀ l, t'.node l = t.node l ∨
    (t.node l = none ∧ t'.node l = some .dir ∧ ∃ k ≤ n, l = way k)

/-- A place is free, a directory or a file. -/
theorem node_cases (t : Tree) (l : Loc) :
    t.node l = none ∨ t.node l = some .dir ∨ t.content l ≠ none := by
  cases h : t.node l with
  | none => exact .inl rfl
  | some n =>
      cases n with
      | dir => exact .inr (.inl rfl)
      | file c => exact .inr (.inr (by simp [Tree.content, h]))

variable {t t₁ : Tree} {cwd : Loc} {q : Bytes}

/-- Nothing has been made at the start. -/
theorem Made.start {front : ℕ} (horigin : t.node (origin cwd q) = some .dir)
    (hfront : ∀ k ≤ front, way cwd q k = origin cwd q) : Made t (way cwd q) front t := by
  refine ⟨fun k hk hnone => ?_, fun l => .inl rfl⟩
  rw [hfront k hk, horigin] at hnone
  cases hnone

/-- The directories after some have been made are those before and those of the way. -/
theorem Made.dir_iff {way : ℕ → Loc} {n : ℕ} (h : Made t way n t₁) (l : Loc) :
    t₁.node l = some .dir ↔ t.node l = some .dir ∨ (t.node l = none ∧ ∃ k ≤ n, l = way k) := by
  constructor
  · intro hdir
    rcases h.kept l with heq | ⟨hnone, -, hway⟩
    · exact .inl (heq ▸ hdir)
    · exact .inr ⟨hnone, hway⟩
  · rintro (hdir | ⟨hnone, k, hk, rfl⟩)
    · rcases h.kept l with heq | ⟨hnone, -, -⟩
      · rw [heq, hdir]
      · rw [hdir] at hnone
        cases hnone
    · exact h.made k hk hnone

/-- Slashes at the end of a part are not behind those at the end of the whole. -/
theorem PartOf.stripSlashes_le {s : Bytes} {k : ℕ} (h : PartOf q s k) :
    (Tree.stripSlashes s).length ≤ (Tree.stripSlashes q).length := by
  obtain ⟨tail, hsplit, htail⟩ := components_eq_stripSlashes q
  have hcomp : Posix.components s = (Tree.stripSlashes q).take k ++
      tail.take (k - (Tree.stripSlashes q).length) := by
    rw [h.components, hsplit, List.take_append]
  have hdrop : ∀ c ∈ (tail.take (k - (Tree.stripSlashes q).length)).reverse,
      c.isEmpty = true := by
    intro c hc
    rw [htail c (List.mem_of_mem_take (List.mem_reverse.mp hc))]
    rfl
  calc (Tree.stripSlashes s).length
      = (((Tree.stripSlashes q).take k).reverse.dropWhile fun c => c.isEmpty).length := by
        conv_lhs => unfold Tree.stripSlashes
        rw [List.length_reverse, hcomp, List.reverse_append, List.dropWhile_append_of_pos hdrop]
    _ ≤ ((Tree.stripSlashes q).take k).reverse.length := (List.dropWhile_sublist _).length_le
    _ ≤ (Tree.stripSlashes q).length := by
        rw [List.length_reverse]
        exact List.length_take_le' ..

/-- One directory more. -/
theorem Made.step {s : Bytes} {n : ℕ} (h : Made t (way cwd q) n t₁) (hpart : PartOf q s (n + 1))
    (hfree : ∀ k < (Tree.stripSlashes q).length, t.content (way cwd q k) = none) :
    (∃ t₂, t₁.mkdir cwd s = .ok t₂ ∨ t₁.mkdir cwd s = .error EEXIST ∧ t₂ = t₁) ∧
      ∀ t₂, (t₁.mkdir cwd s = .ok t₂ ∨ t₁.mkdir cwd s = .error EEXIST ∧ t₂ = t₁) →
        Made t (way cwd q) (n + 1) t₂ := by
  have hlen : (Tree.stripSlashes s).length ≤ n + 1 := by
    refine (Tree.stripSlashes_eq_take s).2.trans ?_
    rw [hpart.components]
    exact List.length_take_le ..
  have hway : ∀ k < (Tree.stripSlashes s).length, t₁.node (way cwd s k) = some .dir := by
    intro k hk
    rw [hpart.way cwd (by omega), h.dir_iff]
    rcases node_cases t (way cwd q k) with hnone | hdir | hfile
    · exact .inr ⟨hnone, k, by omega, rfl⟩
    · exact .inl hdir
    · exact absurd (hfree k (hk.trans_le hpart.stripSlashes_le)) hfile
  rcases Tree.mkdir_of_way hpart.ne_nil hway with ⟨hthere, hmkdir⟩ | ⟨hnone, t₂, hmkdir, hnode⟩
  · rw [hpart.canon] at hthere
    refine ⟨⟨t₁, .inr ⟨hmkdir, rfl⟩⟩, ?_⟩
    rintro t₂ (hok | ⟨-, rfl⟩)
    · rw [hmkdir] at hok
      cases hok
    · refine ⟨fun k hk hmiss => ?_, fun l => ?_⟩
      · rcases Nat.lt_or_eq_of_le hk with hlt | rfl
        · exact h.made k (Nat.le_of_lt_succ hlt) hmiss
        · rcases h.kept (way cwd q (n + 1)) with heq | ⟨-, hdir, -⟩
          · exact absurd (heq.trans hmiss) hthere
          · exact hdir
      · exact (h.kept l).imp_right fun ⟨hmiss, hdir, k, hk, hl⟩ => ⟨hmiss, hdir, k, by omega, hl⟩
  · rw [hpart.canon] at hnone hnode
    refine ⟨⟨t₂, .inl hmkdir⟩, ?_⟩
    rintro t₂' (hok | ⟨herror, -⟩)
    · obtain rfl : t₂ = t₂' := Except.ok.inj (hmkdir.symm.trans hok)
      refine ⟨fun k hk hmiss => ?_, fun l => ?_⟩
      · rw [hnode]
        split
        · rfl
        · rename_i hother
          refine h.made k (Nat.le_of_lt_succ (lt_of_le_of_ne hk ?_)) hmiss
          rintro rfl
          exact hother rfl
      · rw [hnode]
        split
        · rename_i hl
          subst hl
          right
          refine ⟨?_, rfl, n + 1, le_rfl, rfl⟩
          rcases h.kept (way cwd q (n + 1)) with heq | ⟨hmiss, -, -⟩
          · rw [← heq, hnone]
          · exact hmiss
        · exact (h.kept l).imp_right
            fun ⟨hmiss, hdir, k, hk, hl⟩ => ⟨hmiss, hdir, k, by omega, hl⟩
    · rw [hmkdir] at herror
      cases herror

/-- All directories, one after the other. -/
theorem Made.makes {front : ℕ} {subpaths : List Bytes} (h : Made t (way cwd q) front t₁)
    (hparts : ∀ n s, subpaths[n]? = some s → PartOf q s (front + n + 1))
    (hfree : ∀ k < (Tree.stripSlashes q).length, t.content (way cwd q k) = none) :
    (∃ t', Makes cwd subpaths t₁ t') ∧
      ∀ t', Makes cwd subpaths t₁ t' → Made t (way cwd q) (front + subpaths.length) t' := by
  induction subpaths generalizing front t₁ with
  | nil => exact ⟨⟨t₁, rfl⟩, fun t' heq => heq ▸ h⟩
  | cons s rest ih =>
      obtain ⟨⟨t₂, hmkdir⟩, hmade⟩ := h.step (hparts 0 s rfl) hfree
      have hrest : ∀ n s', rest[n]? = some s' → PartOf q s' (front + 1 + n + 1) := by
        intro n s' hs'
        rw [Nat.add_assoc front 1 n, Nat.add_comm 1 n]
        exact hparts (n + 1) s' hs'
      rw [List.length_cons, Nat.add_comm rest.length, ← Nat.add_assoc]
      refine ⟨?_, ?_⟩
      · obtain ⟨t', ht'⟩ := (ih (hmade t₂ hmkdir) hrest).1
        exact ⟨t', t₂, hmkdir, ht'⟩
      · rintro t' ⟨t₃, hmkdir', ht'⟩
        exact (ih (hmade t₃ hmkdir') hrest).2 t' ht'

/-- Where nothing is in the way, `mkdirs` can make its path, and makes nothing else. -/
theorem makes_of_not_blocked {pathname : Bytes} (h : ¬ Blocked t cwd pathname) :
    (∃ t', Makes cwd (mkdirsSubpaths pathname) t t') ∧
      ∀ t', Makes cwd (mkdirsSubpaths pathname) t t' →
        Made t (way cwd (mkdirsPath pathname)) (components (mkdirsPath pathname)).length t' := by
  unfold Blocked at h
  push Not at h
  obtain ⟨hq, horigin, hfree⟩ := h
  obtain ⟨front, hcount, hfront, hparts⟩ := mkdirsSubpaths_parts hq
  rw [← hcount]
  exact (Made.start horigin (hfront cwd)).makes hparts hfree

/-! ## What the return value says -/

/-- Every prefix of the path is a directory, or is missing and one of the places that `mkdirs`
works on. -/
def AllMade (t : Tree) (cwd : Loc) (pathname : Bytes) : Prop :=
  ∀ k ≤ (components (cstr pathname)).length,
    t.node (way cwd (cstr pathname) k) = some .dir ∨
      (t.node (way cwd (cstr pathname) k) = none ∧
        ∃ j ≤ (components (mkdirsPath pathname)).length,
          way cwd (cstr pathname) k = way cwd (mkdirsPath pathname) j)

/-- A pathname that `mkdirs` works on is not empty. -/
theorem cstr_ne_nil {pathname : Bytes} (h : mkdirsPath pathname ≠ []) : cstr pathname ≠ [] := by
  rintro hnil
  apply h
  unfold mkdirsPath
  rw [hnil]
  rfl

/-- `mkdirs` returns 0 for nothing but a directory exactly where it cannot come through, or where
the way of its 299 bytes takes in all that was missing of the whole path.
SOURCE: mkdirs.cc:20-90 -/
theorem mkdirs_directory_iff {ι κ : Type} [DecidableEq ι] [DecidableEq κ] (cwd : Loc)
    (proc : ι → κ) (i : ι) (w : World ι κ) (pathname : Bytes) :
    (∀ w', (mkdirs pathname).Executes (World.Sem cwd proc i) w true w' →
      w'.tree.stat cwd (cstr pathname) = .ok .dir) ↔
    Blocked w.tree cwd pathname ∨ AllMade w.tree cwd pathname := by
  by_cases hblocked : Blocked w.tree cwd pathname
  · refine ⟨fun _ => .inl hblocked, fun _ w' hrun => ?_⟩
    exact absurd hblocked (makes_of_executes hrun).not_blocked
  · obtain ⟨⟨t', ht'⟩, hmade⟩ := makes_of_not_blocked hblocked
    have hne : cstr pathname ≠ [] := cstr_ne_nil fun hnil => hblocked (.inl hnil)
    have hall : ∀ t', Makes cwd (mkdirsSubpaths pathname) w.tree t' →
        (t'.stat cwd (cstr pathname) = .ok .dir ↔ AllMade w.tree cwd pathname) := by
      intro t' ht'
      rw [Tree.stat_eq_dir_iff hne]
      exact forall₂_congr fun k _ => (hmade t' ht').dir_iff _
    constructor
    · intro h
      obtain ⟨w', hrun, rfl⟩ := executes_of_makes proc i ht'
      exact .inr ((hall _ ht').mp (h w' hrun))
    · rintro (h | h) w' hrun
      · exact absurd h hblocked
      · exact (hall _ (makes_of_executes hrun)).mpr h

/-- A tree in which a regular file bears the name of the path. -/
def fileTree : Tree :=
  Tree.bare.setFile [Text.ascii "f"] []

/-- `mkdirs` returns 0 for a path that names a regular file. -/
theorem not_mkdirs_directory :
    ¬ ∀ w', (mkdirs (Text.ascii "f")).Executes (World.Sem [] id ())
        (World.start fileTree : World Unit Unit) true w' →
      w'.tree.stat [] (cstr (Text.ascii "f")) = .ok .dir := by
  intro h
  have hmakes : Makes [] (mkdirsSubpaths (Text.ascii "f")) fileTree fileTree := by
    rw [show mkdirsSubpaths (Text.ascii "f") = [Text.ascii "f"] by decide]
    exact ⟨fileTree, .inr ⟨rfl, rfl⟩, rfl⟩
  obtain ⟨w', hrun, htree⟩ := executes_of_makes id ()
    (w := World.start fileTree) hmakes
  have hdir := h w' hrun
  rw [htree] at hdir
  cases hdir

end BundleStore
