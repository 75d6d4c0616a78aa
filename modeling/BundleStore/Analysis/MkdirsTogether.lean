import BundleStore.Analysis.MkdirsWay
import BundleStore.Lib.Parties

set_option autoImplicit false

/-!
# Many calls of `mkdirs` at once

Calls of `mkdirs` make directories that other calls may be about to make. The places that a call
has behind it are directories whatever the others do, so its next `mkdir` can only find the
directory there, and the call goes on. But a directory may also open a way to a file, where a
path leads up again behind it; `mkdirs` takes that file for a directory.
-/

namespace BundleStore

open Machine Posix Relation

/-! ## Prefixes of a path -/

/-- A prefix of a path: all of it, or what stands before one of its slashes. -/
def IsPrefix (p path : Bytes) : Prop :=
  p = path ∨ p ++ [slash] <+: path

/-- The first components of a path are those of a prefix. -/
theorem exists_prefix (path : Bytes) {k : ℕ} (hk : 0 < k) :
    ∃ p, IsPrefix p path ∧ components p = (components path).take k ∧
      (p ≠ [] → p.head? = path.head?) := by
  have hjoin : [slash].intercalate (components path) = path := List.intercalate_splitOn slash
  have hsplit := List.take_append_drop k (components path)
  by_cases hdrop : (components path).drop k = []
  · rw [hdrop, List.append_nil] at hsplit
    exact ⟨path, .inl rfl, hsplit.symm, fun _ => rfl⟩
  · have htake : (components path).take k ≠ [] := by
      intro hnil
      rcases List.take_eq_nil_iff.mp hnil with hzero | hnone
      · omega
      · rw [hnone, List.drop_nil] at hdrop
        exact hdrop rfl
    have hpath : path = [slash].intercalate ((components path).take k) ++ [slash] ++
        [slash].intercalate ((components path).drop k) := by
      rw [← Text.intercalate_append htake hdrop, hsplit, hjoin]
    refine ⟨[slash].intercalate ((components path).take k), .inr ⟨_, hpath.symm⟩, ?_, fun hne => ?_⟩
    · exact components_intercalate htake fun name hname =>
        slash_not_mem_components (List.mem_of_mem_take hname)
    · conv_rhs => rw [hpath]
      rw [List.append_assoc, List.head?_append_of_ne_nil _ hne]

/-- Where a path is made up of directories, and no prefix names a file, the next place holds
none. -/
theorem content_way_of_prefixes {t : Tree} {cwd : Loc} {path : Bytes}
    (hclear : ∀ p, IsPrefix p path → ∀ c, t.stat cwd p ≠ .ok (.file c))
    (hcwd : t.node cwd = some .dir) {k : ℕ} (hdirs : ∀ j < k, t.node (way cwd path j) = some .dir) :
    t.content (way cwd path k) = none := by
  rcases Nat.eq_zero_or_pos k with rfl | hk
  · have horigin : t.node (origin cwd path) = some .dir := by
      unfold origin
      split
      · exact t.root_dir
      · exact hcwd
    rw [way_zero, Tree.content, horigin]
  · obtain ⟨p, hpart, hcomp, hhead⟩ := exists_prefix path hk
    by_contra hfile
    obtain ⟨c, hc⟩ := Option.ne_none_iff_exists'.mp hfile
    rw [Tree.content_eq_some] at hc
    by_cases hp : p = []
    · -- an empty prefix stands before a slash, where the walk has not moved
      rw [hp] at hcomp
      have hstay : way cwd path k = way cwd path 0 := by
        unfold way
        rw [← hcomp]
        rfl
      rw [hstay, hdirs 0 hk] at hc
      cases hc
    · have horigin : origin cwd p = origin cwd path := by
        unfold origin
        rw [hhead hp]
      apply hclear p hpart c
      have hwalk : t.walk (origin cwd p) (components p) = .ok (way cwd path k) := by
        rw [horigin, hcomp]
        refine Tree.walk_ok_iff.mpr ⟨rfl, fun j hj => ?_⟩
        have hjk : j < k := hj.trans_le (List.length_take_le ..)
        rw [List.take_take, min_eq_left hjk.le]
        exact hdirs j hjk
      unfold Tree.stat Tree.onPath Tree.lookup
      rw [if_neg hp, hwalk]
      dsimp only
      rw [hc]

/-- A prefix of a path is a part of it. -/
theorem IsPrefix.partOf {p path : Bytes} (h : IsPrefix p path) (hp : p ≠ []) :
    PartOf path p (components p).length := by
  rcases h with rfl | ⟨rest, rfl⟩
  · exact ⟨hp, List.take_length.symm, rfl⟩
  · refine ⟨hp, ?_, ?_⟩
    · rw [List.append_assoc, List.singleton_append, components_append_slash, List.take_left]
    · rw [List.append_assoc, List.head?_append_of_ne_nil _ hp]

/-! ## The calls -/

/-- Calls of `mkdirs` with paths that fit its buffer and name something, each made in a working
directory of its own. -/
structure MkdirsCalls (ι : Type) where
  path : ι → Bytes
  cwd : ι → Loc
  nul_free : ∀ i, 0 ∉ path i
  short : ∀ i, (path i).length < 300
  named : ∀ i, ∃ name ∈ components (path i), name ≠ []

namespace MkdirsCalls

variable {ι κ : Type} (M : MkdirsCalls ι)

/-- No prefix of a path names something other than a directory. -/
def Clear (t : Tree) : Prop :=
  ∀ i p, IsPrefix p (M.path i) → ∀ c, t.stat (M.cwd i) p ≠ .ok (.file c)

/-- The call opens no way by which a prefix of a path would name something other than a
directory. -/
def StaysClear (i : ι) : SysCall → World ι κ → Prop
  | .mkdir s, w => ∀ t, w.tree.mkdir (M.cwd i) s = .ok t → M.Clear t
  | _, _ => True

/-- A `mkdir` fails because something is there, or because the parent is missing. -/
def Fails (i : ι) : (o : SysCall) → o.Answer → World ι κ → Prop
  | .mkdir _, false, w => w.errno i = EEXIST ∨ w.errno i = ENOENT
  | _, _, _ => True

section System

variable [DecidableEq ι] [DecidableEq κ] (proc : ι → κ)

/-- What a call of a party may answer and leave behind. -/
def calls (i : ι) (o : SysCall) (w : World ι κ) (a : o.Answer) (w' : World ι κ) : Prop :=
  World.Sem (M.cwd i) proc i o w a w' ∧ Fails i o a w'

/-- Every party calls `mkdirs` once. -/
def calling : System SysCall SysCall.Answer ι (World ι κ) Bool Unit where
  sem := M.calls proc
  enabled _ _ _ _ := false
  body _ returned _ := .ret returned

/-- The same when every step keeps the tree clear. -/
def system : System SysCall SysCall.Answer ι (World ι κ) Bool Unit :=
  (M.calling proc).restrict (fun i o w _ _ => M.StaysClear i o w) fun _ _ _ _ => true

end System

/-- Nobody has made anything yet. -/
structure Initial (c : Config SysCall SysCall.Answer ι (World ι κ) Bool) : Prop where
  thread : ∀ i, c.thread i = mkdirs (M.path i)
  cwd_dir : ∀ i, c.shared.tree.node (M.cwd i) = some .dir
  clear : M.Clear c.shared.tree

/-! ## What a call of `mkdirs` asks for -/

/-- A call has something to make. -/
theorem mkdirsPath_ne_nil (i : ι) : mkdirsPath (M.path i) ≠ [] := by
  intro hnil
  obtain ⟨name, hname, hne⟩ := M.named i
  rcases mkdirsPath_cases (M.nul_free i) (M.short i) with hpath | hpath
  · rw [hpath, hnil] at hname
    exact hne (List.mem_singleton.mp hname)
  · rw [hpath, hnil, show components ([] ++ [slash]) = [[], []] by decide] at hname
    simp [hne] at hname

/-- What `mkdirs` works on is the whole path, but for a slash at its end. -/
theorem components_path (i : ι) :
    ∃ tail, components (M.path i) = components (mkdirsPath (M.path i)) ++ tail ∧
      ∀ c ∈ tail, c = [] := by
  rcases mkdirsPath_cases (M.nul_free i) (M.short i) with hpath | hpath
  · exact ⟨[], by rw [← hpath, List.append_nil], fun c hc => absurd hc List.not_mem_nil⟩
  · refine ⟨[[]], ?_, fun c hc => List.mem_singleton.mp hc⟩
    conv_lhs => rw [hpath]
    exact components_append_slash _ []

/-- The path that is worked on begins as the pathname does. -/
theorem head?_path (i : ι) :
    (mkdirsPath (M.path i)).head? = (M.path i).head? := by
  rcases mkdirsPath_cases (M.nul_free i) (M.short i) with hpath | hpath
  · rw [← hpath]
  · conv_rhs => rw [hpath, List.head?_append_of_ne_nil _ (mkdirsPath_ne_nil M i)]

/-- The paths that are made are parts of the whole path. -/
theorem subpaths_parts (i : ι) :
    ∃ front, front + (mkdirsSubpaths (M.path i)).length =
        (components (mkdirsPath (M.path i))).length ∧
      (∀ k ≤ front, way (M.cwd i) (M.path i) k = origin (M.cwd i) (M.path i)) ∧
      ∀ n s, (mkdirsSubpaths (M.path i))[n]? = some s → PartOf (M.path i) s (front + n + 1) := by
  obtain ⟨front, hcount, hfront, hparts⟩ := mkdirsSubpaths_parts (mkdirsPath_ne_nil M i)
  obtain ⟨tail, htail, -⟩ := components_path M i
  have hpart : PartOf (M.path i) (mkdirsPath (M.path i))
      (components (mkdirsPath (M.path i))).length :=
    ⟨mkdirsPath_ne_nil M i, by rw [htail, List.take_left], head?_path M i⟩
  refine ⟨front, hcount, fun k hk => ?_, fun n s hs => ?_⟩
  · rw [← hpart.way (M.cwd i) (by omega), hfront (M.cwd i) k hk, hpart.origin]
  · have hlt : n < (mkdirsSubpaths (M.path i)).length := (List.getElem?_eq_some_iff.mp hs).1
    obtain ⟨hne, hcomp, hhead⟩ := hparts n s hs
    refine ⟨hne, ?_, hhead.trans hpart.head⟩
    rw [hcomp, hpart.components, List.take_take, min_eq_left (by omega)]

/-- The calls that `mkdirs` makes. -/
def Asks (i : ι) (o : SysCall) : Prop :=
  o = .errno ∨ ∃ s k, PartOf (M.path i) s k ∧ o = .mkdir s

/-- The loop asks for parts of the path. -/
theorem mkdirsFrom_asks {M : MkdirsCalls ι} {i : ι} {subpaths : List Bytes}
    (h : ∀ s ∈ subpaths, ∃ k, PartOf (M.path i) s k) : (mkdirsFrom subpaths).Calls (M.Asks i) := by
  induction subpaths with
  | nil => trivial
  | cons s rest ih =>
      have hrest := ih fun s' hs' => h s' (List.mem_cons_of_mem s hs')
      obtain ⟨k, hpart⟩ := h s List.mem_cons_self
      refine ⟨.inr ⟨s, k, hpart, rfl⟩, fun made => ?_⟩
      exact Prog.Calls.ite hrest ⟨.inl rfl, fun e => Prog.Calls.ite hrest trivial⟩

/-- `mkdirs` asks for parts of its path.
SOURCE: mkdirs.cc:24-90 -/
theorem mkdirs_asks (i : ι) : (mkdirs (M.path i)).Calls (M.Asks i) := by
  obtain ⟨front, -, -, hparts⟩ := subpaths_parts M i
  refine mkdirsFrom_asks fun s hs => ?_
  obtain ⟨n, hn⟩ := List.getElem?_of_mem hs
  exact ⟨_, hparts n s hn⟩

/-- The loop makes at most two calls for each part. -/
theorem mkdirsFrom_atMost (subpaths : List Bytes) :
    (mkdirsFrom subpaths).AtMost (2 * subpaths.length) := by
  induction subpaths with
  | nil => trivial
  | cons s rest ih =>
      rw [List.length_cons, Nat.mul_succ]
      intro made
      change (if made = true then mkdirsFrom rest else Sys.errno >>= fun e =>
        if e = EEXIST then mkdirsFrom rest else pure false).AtMost (2 * rest.length + 1)
      split
      · exact ih.mono (Nat.le_succ _)
      · intro e
        change (if e = EEXIST then mkdirsFrom rest else pure false).AtMost (2 * rest.length)
        split
        · exact ih
        · trivial

/-- `mkdirs` makes at most two calls for each component. -/
theorem mkdirs_atMost (i : ι) :
    (mkdirs (M.path i)).AtMost (2 * (components (M.path i)).length) := by
  obtain ⟨front, hcount, -, -⟩ := subpaths_parts M i
  obtain ⟨tail, htail, -⟩ := components_path M i
  refine (mkdirsFrom_atMost _).mono ?_
  rw [htail, List.length_append]
  omega

/-! ## One call -/

section Runs

variable {M} {i : ι} {s : Bytes} {k : ℕ} {w w' : World ι κ}

variable (M) in
/-- The first places on the way are directories. -/
def Behind (i : ι) (k : ℕ) (w : World ι κ) : Prop :=
  ∀ j ≤ k, w.tree.node (way (M.cwd i) (M.path i) j) = some .dir

variable (M) in
/-- The tree stays clear, and the working directories are there. Others only add directories,
and keep their hands off the `errno` of a party. -/
def discipline : Discipline ι (World ι κ) where
  Inv w := M.Clear w.tree ∧ ∀ i, w.tree.node (M.cwd i) = some .dir
  Frame i w w' := w.tree.Grows w'.tree ∧ w'.errno i = w.errno i
  frame_refl _ w := ⟨.refl w.tree, rfl⟩
  frame_trans _ _ _ _ h h' := ⟨h.1.trans h'.1, h'.2.trans h.2⟩

/-- What has been made before a call is stable. -/
theorem behind_stable : (M.discipline (κ := κ)).Stable i (M.Behind i k) :=
  fun _ _ _ _ hframe hbehind j hj => hframe.1 _ (hbehind j hj)

/-- The next place is no file. -/
theorem Behind.content_next (h : M.Behind i k w) (hinv : M.discipline.Inv w) :
    w.tree.content (way (M.cwd i) (M.path i) (k + 1)) = none :=
  content_way_of_prefixes (hinv.1 i) (hinv.2 i) fun j hj => h j (Nat.le_of_lt_succ hj)

/-- The way to the next part is there. -/
theorem ways_of_part (h : M.Behind i k w) (hpart : PartOf (M.path i) s (k + 1)) :
    ∀ j < (Tree.stripSlashes s).length, w.tree.node (way (M.cwd i) s j) = some .dir := by
  intro j hj
  have hlen : (Tree.stripSlashes s).length ≤ k + 1 := by
    refine (Tree.stripSlashes_eq_take s).2.trans ?_
    rw [hpart.components]
    exact List.length_take_le ..
  rw [hpart.way _ (by omega)]
  exact h j (by omega)

/-- The path is the way that `mkdirs` has made. -/
theorem Behind.stat_dir (h : M.Behind i (components (mkdirsPath (M.path i))).length w) :
    w.tree.stat (M.cwd i) (M.path i) = .ok .dir := by
  obtain ⟨tail, htail, hnil⟩ := M.components_path i
  have hne : M.path i ≠ [] := by
    obtain ⟨name, hname, hne⟩ := M.named i
    rintro hpath
    rw [hpath] at hname
    exact hne (List.mem_singleton.mp hname)
  refine (Tree.stat_eq_dir_iff hne).mpr fun k _ => ?_
  rcases le_total k (components (mkdirsPath (M.path i))).length with hle | hge
  · exact h k hle
  · have hstay : way (M.cwd i) (M.path i) k =
        way (M.cwd i) (M.path i) (components (mkdirsPath (M.path i))).length := by
      unfold way
      rw [htail, List.take_append, List.take_of_length_le hge, List.take_left, List.foldl_append]
      exact foldl_descend_nils (fun c hc => hnil c (List.mem_of_mem_take hc)) _
    rw [hstay]
    exact h _ le_rfl

variable [DecidableEq ι] [DecidableEq κ] {proc : ι → κ}

/-- One `mkdir`: the next place is a directory, made or found. -/
theorem mkdir_step (hinv : M.discipline.Inv w) (hbehind : M.Behind i k w)
    (hpart : PartOf (M.path i) s (k + 1)) {made : Bool}
    (h : (M.system proc).sem i (.mkdir s) w made w') :
    M.discipline.Allowed i w w' ∧ M.Behind i (k + 1) w' ∧ (made = false → w'.errno i = EEXIST) := by
  obtain ⟨⟨hsem, hfails⟩, hclear⟩ := h
  have hmkdir := Tree.mkdir_of_way hpart.ne_nil (ways_of_part hbehind hpart)
  rw [hpart.canon] at hmkdir
  cases made with
  | true =>
      obtain ⟨t, ht, rfl⟩ := hsem
      obtain ⟨l, rfl⟩ := Tree.mkdir_ok ht
      have hgrows := Tree.grows_setDir w.tree l
      refine ⟨⟨⟨hclear _ ht, fun j => hgrows _ (hinv.2 j)⟩, fun j _ => ⟨hgrows, rfl⟩⟩, ?_, nofun⟩
      intro j hj
      rcases Nat.lt_or_eq_of_le hj with hlt | rfl
      · exact hgrows _ (hbehind j (Nat.le_of_lt_succ hlt))
      · rcases hmkdir with ⟨-, herror⟩ | ⟨-, t', ht', hnode⟩
        · rw [ht] at herror
          cases herror
        · obtain rfl := Except.ok.inj (ht.symm.trans ht')
          exact (hnode _).trans (if_pos rfl)
  | false =>
      obtain ⟨e, hreason, rfl⟩ := hsem
      have herrno : (w.setErrno i e).errno i = e := Function.update_self ..
      have hother : ∀ j, j ≠ i → (w.setErrno i e).errno j = w.errno j :=
        fun j hj => Function.update_of_ne hj ..
      rw [MkdirsCalls.Fails, herrno] at hfails
      -- what the tree does not know of is none of the two errors
      have htree : w.tree.mkdir (M.cwd i) s = .error e := by
        rcases hreason with h | ⟨-, hmissing, hexists⟩
        · exact h
        · exact (hfails.elim hexists hmissing).elim
      refine ⟨⟨hinv, fun j hj => ⟨.refl _, hother j hj⟩⟩, ?_⟩
      rcases hmkdir with ⟨hthere, herror⟩ | ⟨-, t', ht', -⟩
      · refine ⟨fun j hj => ?_, fun _ => ?_⟩
        · rcases Nat.lt_or_eq_of_le hj with hlt | rfl
          · exact hbehind j (Nat.le_of_lt_succ hlt)
          · rcases node_cases w.tree (way (M.cwd i) (M.path i) (k + 1)) with hnone | hdir | hfile
            · exact absurd hnone hthere
            · exact hdir
            · exact absurd (hbehind.content_next hinv) hfile
        · rw [herrno]
          exact Except.error.inj (htree.symm.trans herror)
      · rw [htree] at ht'
        cases ht'

/-- The rest of a call of `mkdirs`. -/
theorem mkdirsFrom_triple {subpaths : List Bytes}
    (hparts : ∀ n s, subpaths[n]? = some s → PartOf (M.path i) s (k + n + 1)) :
    M.discipline.Triple (M.system proc).sem i (M.Behind i k) (mkdirsFrom subpaths)
      fun returned w => returned = true ∧ M.Behind i (k + subpaths.length) w := by
  induction subpaths generalizing k with
  | nil => exact .ret fun w _ hbehind => ⟨rfl, hbehind⟩
  | cons s rest ih =>
      have hpart := hparts 0 s rfl
      have hrest : M.discipline.Triple (M.system proc).sem i (M.Behind i (k + 1))
          (mkdirsFrom rest)
          fun returned w => returned = true ∧ M.Behind i (k + (s :: rest).length) w := by
        rw [List.length_cons, Nat.add_comm rest.length, ← Nat.add_assoc]
        refine ih fun n s' hs' => ?_
        rw [Nat.add_assoc k 1 n, Nat.add_comm 1 n]
        exact hparts (n + 1) s' hs'
      refine Discipline.Triple.call
        (R := fun made w => M.Behind i (k + 1) w ∧ (made = false → w.errno i = EEXIST))
        behind_stable (fun w made w' hinv hbehind h => mkdir_step hinv hbehind hpart h) ?_
      intro made
      cases made with
      | true => exact hrest.pre fun w _ h => h.1
      | false =>
          refine Discipline.Triple.call (R := fun e w => e = EEXIST ∧ M.Behind i (k + 1) w)
            ?_ ?_ ?_
          · refine Discipline.Stable.and behind_stable (.imp fun _ => ?_)
            exact fun w w' _ _ hframe herrno => hframe.2.trans herrno
          · rintro w e w' hinv ⟨hbehind, herrno⟩ ⟨⟨⟨rfl, rfl⟩, -⟩, -⟩
            exact ⟨⟨hinv, fun j _ => ⟨.refl _, rfl⟩⟩, herrno rfl, hbehind⟩
          · intro e
            refine .intro fun hexists => ?_
            rw [hexists]
            exact hrest

variable (M i) in
/-- A whole call of `mkdirs`. -/
theorem mkdirs_triple :
    M.discipline.Triple (M.system proc).sem i (fun _ => True) (mkdirs (M.path i))
      fun returned w => returned = true ∧
        M.Behind i (components (mkdirsPath (M.path i))).length w := by
  obtain ⟨front, hcount, hfront, hparts⟩ := M.subpaths_parts i
  rw [← hcount]
  refine (mkdirsFrom_triple hparts).pre fun w hinv _ k hk => ?_
  rw [hfront k hk, origin]
  split
  · exact w.tree.root_dir
  · exact hinv.2 i

/-- Whatever `mkdirs` asks for is answered. -/
theorem Asks.answered {o : SysCall} (h : M.Asks i o) (hinv : M.discipline.Inv w) :
    ∃ a w', M.calls proc i o w a w' := by
  rcases h with rfl | ⟨s, k, hpart, rfl⟩
  · exact ⟨w.errno i, w, ⟨rfl, rfl⟩, trivial⟩
  · cases hmkdir : w.tree.mkdir (M.cwd i) s with
    | ok t => exact ⟨true, w.setTree t, ⟨t, hmkdir, rfl⟩, trivial⟩
    | error e =>
        refine ⟨false, w.setErrno i e, ⟨e, .inl hmkdir, rfl⟩, ?_⟩
        change (w.setErrno i e).errno i = EEXIST ∨ (w.setErrno i e).errno i = ENOENT
        rw [show (w.setErrno i e).errno i = e from Function.update_self ..]
        unfold Tree.mkdir at hmkdir
        rw [if_neg hpart.ne_nil] at hmkdir
        split at hmkdir
        · rename_i e' hwalk
          obtain rfl := Except.error.inj hmkdir
          rcases Tree.walk_error hwalk with rfl | rfl
          · exact .inr rfl
          · -- a file would stand on the way
            obtain ⟨j, hj, hdirs, hfile⟩ := Tree.walk_notdir hwalk
            have hway : ∀ j ≤ (Tree.stripSlashes s).length,
                ((Tree.stripSlashes s).take j).foldl descend (origin (M.cwd i) s) =
                  way (M.cwd i) (M.path i) j := by
              intro j hj
              rw [Tree.take_stripSlashes s hj]
              have hle : j ≤ k := by
                have hlen := hj.trans (Tree.stripSlashes_eq_take s).2
                rw [hpart.components] at hlen
                exact hlen.trans (List.length_take_le ..)
              exact hpart.way (M.cwd i) hle
            rw [hway j hj.le] at hfile
            refine absurd (content_way_of_prefixes (hinv.1 i) (hinv.2 i) fun j' hj' => ?_) hfile
            rw [← hway j' (by omega)]
            exact hdirs j' hj'
        · split at hmkdir
          · exact .inl (Except.error.inj hmkdir).symm
          · cases hmkdir

end Runs

/-! ## Paths without `..` -/

/-- Where no path leads up, a tree that is clear stays so as long as no file comes. -/
theorem Clear.of_content {M : MkdirsCalls ι} (hplain : ∀ i, ∀ c ∈ components (M.path i), c ≠ dotdot)
    {t t' : Tree} (hcwd : ∀ i, t.node (M.cwd i) = some .dir) (h : M.Clear t)
    (hsame : ∀ l, t'.content l = t.content l) : M.Clear t' := by
  intro i p hpart c hstat
  have hp : p ≠ [] := by
    rintro rfl
    cases hstat
  have hfile : ∃ k, t.content (way (M.cwd i) (M.path i) k) ≠ none := by
    refine ⟨(components p).length, ?_⟩
    have hnode := Tree.onPath_ok hstat
    split at hnode
    · rename_i n hn
      obtain rfl := Except.ok.inj hnode
      rw [← (hpart.partOf hp).canon, ← hsame, Tree.content_eq_some.mpr hn]
      exact Option.some_ne_none c
    · cases hnode
  classical
  -- the first file on the way is named by a prefix
  obtain ⟨k, hfirst, hmin⟩ : ∃ k, t.content (way (M.cwd i) (M.path i) k) ≠ none ∧
      ∀ j < k, t.content (way (M.cwd i) (M.path i) j) = none :=
    ⟨Nat.find hfile, Nat.find_spec hfile, fun j hj => not_not.mp (Nat.find_min hfile hj)⟩
  refine hfirst (content_way_of_prefixes (h i) (hcwd i) fun j hj => ?_)
  rcases node_cases t (way (M.cwd i) (M.path i) j) with hnone | hdir | hother
  · refine absurd ?_ hfirst
    rw [way_eq_foldl _ _ hj.le, Tree.content,
      Tree.node_foldl_descend_eq_none (fun d hd => ?_) hnone]
    exact hplain i d (List.mem_of_mem_take (List.mem_of_mem_drop hd))
  · exact hdir
  · exact absurd (hmin j hj) hother

/-- A call of `mkdirs` changes no file. -/
theorem Asks.content [DecidableEq ι] [DecidableEq κ] {M : MkdirsCalls ι} {proc : ι → κ} {i : ι}
    {w w' : World ι κ} {o : SysCall} {a : o.Answer} (h : M.Asks i o)
    (hcall : M.calls proc i o w a w') (l : Loc) : w'.tree.content l = w.tree.content l := by
  rcases h with rfl | ⟨s, k, -, rfl⟩
  · obtain ⟨⟨-, rfl⟩, -⟩ := hcall
    rfl
  · cases a with
    | true =>
        obtain ⟨⟨t, ht, rfl⟩, -⟩ := hcall
        exact mkdir_content ht l
    | false =>
        obtain ⟨⟨e, -, rfl⟩, -⟩ := hcall
        rfl

/-- Where no path leads up, every step of a run from a clear tree keeps it clear. -/
theorem steps_of_plain [DecidableEq ι] [DecidableEq κ] {M : MkdirsCalls ι} {proc : ι → κ}
    (hplain : ∀ i, ∀ c ∈ components (M.path i), c ≠ dotdot)
    {c₀ c : Config SysCall SysCall.Answer ι (World ι κ) Bool} (h₀ : M.Initial c₀)
    (h : ReflTransGen (M.calling proc).Step c₀ c) : ReflTransGen (M.system proc).Step c₀ c := by
  suffices hall : ReflTransGen (M.system proc).Step c₀ c ∧
      (∀ l, c.shared.tree.content l = c₀.shared.tree.content l) ∧
      ∀ i, (c.thread i).Calls (M.Asks i) from hall.1
  induction h with
  | refl =>
      refine ⟨.refl, fun l => rfl, fun i => ?_⟩
      rw [h₀.thread i]
      exact M.mkdirs_asks i
  | @tail c _ _ hstep ih =>
      obtain ⟨hrun, hsame, hasks⟩ := ih
      cases hstep with
      | start ch hidle hen => cases hen
      | @act i o k a w' hcall hsem =>
          have hask := hasks i
          rw [hcall] at hask
          have hsame' : ∀ l, w'.tree.content l = c₀.shared.tree.content l :=
            fun l => (hask.1.content hsem l).trans (hsame l)
          have hclear : M.StaysClear i o c.shared := by
            cases o with
            | mkdir s =>
                exact fun t ht => .of_content hplain h₀.cwd_dir h₀.clear fun l =>
                  (mkdir_content ht l).trans (hsame l)
            | _ => trivial
          refine ⟨hrun.tail (.act hcall ⟨hsem, hclear⟩), hsame', fun j => ?_⟩
          by_cases hj : j = i
          · subst hj
            simpa using hask.2 a
          · simpa [hj] using hasks j

/-- There every run is one in which the calls of a party can be counted. -/
theorem run_of_plain [DecidableEq ι] [DecidableEq κ] {M : MkdirsCalls ι} {proc : ι → κ}
    (hplain : ∀ i, ∀ c ∈ components (M.path i), c ≠ dotdot)
    {c₀ c : Config SysCall SysCall.Answer ι (World ι κ) Bool} (h₀ : M.Initial c₀)
    (h : ReflTransGen (M.calling proc).Step c₀ c) (i : ι) : ∃ n, (M.system proc).Run i c₀ n c :=
  System.exists_run (steps_of_plain hplain h₀ h) i

/-! ## Every run -/

/-- What is promised of a call of `mkdirs` of which `n` calls have been answered: it makes a
bounded number of calls, none of which hangs, and when it returns, it returns 0 and its path
names a directory. -/
structure Comes [DecidableEq ι] [DecidableEq κ] (proc : ι → κ) (i : ι) (n : ℕ)
    (c : Config SysCall SysCall.Answer ι (World ι κ) Bool) : Prop where
  bounded : n ≤ 2 * (components (M.path i)).length
  answered : ∀ o k, c.thread i = .call o k → ∃ a w, M.calls proc i o c.shared a w
  dir : ∀ returned, c.thread i = .ret returned → returned = true ∧
    c.shared.tree.stat (M.cwd i) (M.path i) = .ok .dir

/-- In a run that keeps the tree clear. -/
theorem comes_of_run [DecidableEq ι] [DecidableEq κ] {proc : ι → κ}
    {c₀ c : Config SysCall SysCall.Answer ι (World ι κ) Bool} (h₀ : M.Initial c₀) {i : ι} {n : ℕ}
    (h : (M.system proc).Run i c₀ n c) : M.Comes proc i n c := by
  have hnever : ∀ l ch s, (M.system proc).enabled i l ch s = false := fun _ _ _ => rfl
  have hinit : ∀ c, c = c₀ → M.discipline.Inv c.shared ∧ ∀ j,
      M.discipline.Safe (M.system proc).sem j (fun returned w => returned = true ∧
        M.Behind j (components (mkdirsPath (M.path j))).length w) (c.thread j) c.shared := by
    rintro c rfl
    have hinv : M.discipline.Inv c.shared := ⟨h₀.clear, h₀.cwd_dir⟩
    refine ⟨hinv, fun j => ?_⟩
    rw [h₀.thread j]
    exact M.mkdirs_triple j c.shared hinv trivial
  have hsafe := Discipline.reachable_safe
    (J := fun j returned w => returned = true ∧
      M.Behind j (components (mkdirsPath (M.path j))).length w)
    (fun j returned => .and (.const _) behind_stable)
    (fun j returned ch s _ hs => absurd hs.1 Bool.false_ne_true) hinit ⟨c₀, rfl, h.steps⟩
  refine ⟨?_, fun o k hcall => ?_, fun returned hret => ?_⟩
  · refine (h.atMost hnever ?_).1
    rw [h₀.thread i]
    exact M.mkdirs_atMost i
  · have hasks := h.calls hnever (φ := M.Asks i) (by rw [h₀.thread i]; exact M.mkdirs_asks i)
    rw [hcall] at hasks
    exact hasks.1.answered hsafe.1
  · have hdone := hsafe.2 i
    rw [hret] at hdone
    exact ⟨hdone.1, hdone.2.stat_dir⟩

/-- **However the calls of `mkdirs` interleave**, each comes to its end as it should in every
run that opens no way to a file; and where no path leads up, every run is one of these.
SOURCE: src/base3/mkdirs.cc:20-90 -/
theorem mkdirs_together [DecidableEq ι] [DecidableEq κ] {proc : ι → κ}
    {c₀ : Config SysCall SysCall.Answer ι (World ι κ) Bool} (h₀ : M.Initial c₀) (i : ι) :
    (∀ n c, (M.system proc).Run i c₀ n c → M.Comes proc i n c) ∧
      ((∀ j, ∀ name ∈ components (M.path j), name ≠ dotdot) →
        ∀ c, ReflTransGen (M.calling proc).Step c₀ c →
          ∃ n, (M.system proc).Run i c₀ n c ∧ M.Comes proc i n c) := by
  refine ⟨fun n c hrun => comes_of_run M h₀ hrun, fun hplain c hsteps => ?_⟩
  obtain ⟨n, hrun⟩ := run_of_plain hplain h₀ hsteps i
  exact ⟨n, hrun, comes_of_run M h₀ hrun⟩

/-- Two parties make one directory, by different paths. -/
def twoCalls : MkdirsCalls Bool where
  path i := Text.ascii (if i then "a" else "./a/")
  cwd _ := []
  nul_free := by decide
  short := by decide
  named := by decide

def twoCallers : Config SysCall SysCall.Answer Bool (World Bool Bool) Bool where
  shared := World.start Tree.bare
  thread i := mkdirs (twoCalls.path i)

/-- A tree without files is clear. -/
theorem clear_of_no_content {M : MkdirsCalls ι} {t : Tree} (h : ∀ l, t.content l = none) :
    M.Clear t := by
  intro i p _ c hstat
  have hnode := Tree.onPath_ok hstat
  split at hnode
  · rename_i n hn
    obtain rfl := Except.ok.inj hnode
    have hcontent := h (canon (M.cwd i) p)
    rw [Tree.content_eq_some.mpr hn] at hcontent
    cases hcontent
  · cases hnode

/-- Two processes make `./a/` together. -/
theorem mkdirs_together_twoCalls :
    ∃ c, (twoCalls.system id).Run false twoCallers 2 c ∧
      c.shared.tree.stat [] (Text.ascii "./a/") = .ok .dir := by
  have hbare : ∀ l, Tree.bare.content l = none := by
    intro l
    unfold Tree.content Tree.bare
    dsimp only
    split_ifs <;> rfl
  have hmade : ∀ l, (Tree.bare.setDir [Text.ascii "a"]).content l = none := fun l => by
    rw [Tree.content_setDir, hbare]
  have hinit : twoCalls.Initial twoCallers :=
    ⟨fun _ => rfl, fun _ => rfl, clear_of_no_content hbare⟩
  have hsub : mkdirsSubpaths (Text.ascii "a") = [Text.ascii "a"] := by decide
  have hsub' : mkdirsSubpaths (Text.ascii "./a/") = [Text.ascii "./a"] := by decide
  obtain ⟨c, hrun, hret⟩ : ∃ c, (twoCalls.system id).Run false twoCallers 2 c ∧
      c.thread false = .ret true := by
    have hfirst : twoCallers.thread true = mkdirsFrom [Text.ascii "a"] := congrArg mkdirsFrom hsub
    have hsecond : twoCallers.thread false = mkdirsFrom [Text.ascii "./a"] :=
      congrArg mkdirsFrom hsub'
    let made : World Bool Bool := twoCallers.shared.setTree (Tree.bare.setDir [Text.ascii "a"])
    -- the first call makes the directory, the second finds it
    have hsem₁ : (twoCalls.system id).sem true (.mkdir (Text.ascii "a")) twoCallers.shared true
        made := ⟨⟨⟨_, rfl, rfl⟩, trivial⟩, fun t ht =>
          clear_of_no_content fun l => (mkdir_content ht l).trans (hbare l)⟩
    have hsem₂ : (twoCalls.system id).sem false (.mkdir (Text.ascii "./a")) made false
        (made.setErrno false EEXIST) :=
      ⟨⟨⟨EEXIST, .inl rfl, rfl⟩, .inl rfl⟩, fun t ht =>
        clear_of_no_content fun l => (mkdir_content ht l).trans (hmade l)⟩
    have hsem₃ : (twoCalls.system id).sem false .errno (made.setErrno false EEXIST) EEXIST
        (made.setErrno false EEXIST) := ⟨⟨⟨rfl, rfl⟩, trivial⟩, trivial⟩
    have hrun₁ := System.Run.other (i := false) .nil (.act hfirst hsem₁) fun _ _ hcall => hcall
    have hrun₂ := hrun₁.own hsecond hsem₂
    have hrun₃ := hrun₂.own rfl hsem₃
    exact ⟨_, hrun₃, rfl⟩
  exact ⟨c, hrun, (((twoCalls.mkdirs_together hinit false).1 2 c hrun).dir true hret).2⟩

/-- A call whose path leads up behind a directory that is missing, and then to a file. -/
def upCall : MkdirsCalls Unit where
  path _ := Text.ascii "x/../f"
  cwd _ := []
  nul_free _ := by decide
  short _ := by decide
  named _ := by decide

def upCaller : Config SysCall SysCall.Answer Unit (World Unit Unit) Bool where
  shared := World.start fileTree
  thread i := mkdirs (upCall.path i)

/-- The caller of the example has not begun. -/
theorem upCaller_initial : upCall.Initial upCaller := by
  refine ⟨fun _ => rfl, fun _ => rfl, ?_⟩
  rintro i p (rfl | hpart) c hstat
  · cases hstat
  · have htake : p = (Text.ascii "x/../f").take p.length := by
      rw [← List.prefix_iff_eq_take]
      exact (List.prefix_append p [slash]).trans hpart
    have hlen : p.length < 6 := by
      have hle := hpart.length_le
      rw [List.length_append] at hle
      exact hle
    generalize p.length = n at htake hlen
    subst htake
    -- the prefixes are `x` and `x/..`, and `x` is missing
    interval_cases n <;> cases hstat

/-- `x` is made, and so `x/..` is found, and `x/../f`, which is the file: 0 is returned. -/
theorem not_mkdirs_together :
    ¬ ∀ (M : MkdirsCalls Unit) (c₀ c : Config SysCall SysCall.Answer Unit (World Unit Unit) Bool),
      M.Initial c₀ → ReflTransGen (M.calling id).Step c₀ c → ∀ i returned,
        c.thread i = .ret returned → returned = true ∧
          c.shared.tree.stat (M.cwd i) (M.path i) = .ok .dir := by
  intro h
  have hsub : mkdirsSubpaths (Text.ascii "x/../f") =
      [Text.ascii "x", Text.ascii "x/..", Text.ascii "x/../f"] := by decide
  have hthread : upCaller.thread () = mkdirsFrom [Text.ascii "x", Text.ascii "x/..",
      Text.ascii "x/../f"] := congrArg mkdirsFrom hsub
  let made : World Unit Unit := upCaller.shared.setTree (fileTree.setDir [Text.ascii "x"])
  let found : World Unit Unit := made.setErrno () EEXIST
  have hsem₁ : (upCall.calling id).sem () (.mkdir (Text.ascii "x")) upCaller.shared true made :=
    ⟨⟨_, rfl, rfl⟩, trivial⟩
  have hsem₂ : (upCall.calling id).sem () (.mkdir (Text.ascii "x/..")) made false found :=
    ⟨⟨EEXIST, .inl rfl, rfl⟩, .inl rfl⟩
  have hsem₃ : (upCall.calling id).sem () (.mkdir (Text.ascii "x/../f")) found false
      (found.setErrno () EEXIST) := ⟨⟨EEXIST, .inl rfl, rfl⟩, .inl rfl⟩
  have herrno : ∀ w : World Unit Unit, (upCall.calling id).sem () .errno (w.setErrno () EEXIST)
      EEXIST (w.setErrno () EEXIST) := fun _ => ⟨⟨rfl, rfl⟩, trivial⟩
  have hrun := System.Run.nil.own hthread hsem₁
  have hrun := hrun.own rfl hsem₂
  have hrun := hrun.own rfl (herrno made)
  have hrun := hrun.own rfl hsem₃
  have hrun := hrun.own rfl (herrno found)
  have hdir := (h upCall upCaller _ upCaller_initial hrun.steps () true rfl).2
  cases hdir

end MkdirsCalls

end BundleStore
