import BundleStore.Analysis.PyBundle

set_option autoImplicit false

/-!
# When every bundle of the day is full

After 20000 rounds `allocate` of the Python code chooses an id behind the last one,
and then takes it modulo 20000 for its name. So it looks at the bundles of the day
again, which are full, and nothing ends its loop.
-/

namespace BundleStore

namespace PyBundle

open Machine Posix

/-- The bundles of the day are full, there are no others of that day, and no lock is
held. -/
structure FullDay (L : Places) (tm : Day) (t : Tree) : Prop where
  full : ∀ id < kBundleCountPerDay, ∃ c,
    t.stat L.cwd (bundleFilename (newBid id tm) L.place) = .ok (.file c) ∧
      kMaxBundleSize < c.length
  none_above : ∀ id, kBundleCountPerDay ≤ id → id < 2 ^ 32 →
    t.stat L.cwd (bundleFilename (newBid id tm) L.place) = .error ENOENT
  unlocked : ∀ id < 2 ^ 32, t.stat L.cwd (L.lockFile (newBid id tm)) = .error ENOENT

variable {ι : Type} [DecidableEq ι] {L : Places} {tm : Day} {i : ι} {w w' : World ι ι}
variable {sem : (o : SysCall) → World ι ι → o.Answer → World ι ι → Prop}

/-- The calls answer as they may. -/
def Possible (L : Places) (i : ι) (sem : (o : SysCall) → World ι ι → o.Answer → World ι ι → Prop) :
    Prop :=
  ∀ {o w a w'}, sem o w a w' → World.Sem L.cwd id i o w a w'

/-- What `stat` of a full bundle gives makes `allocate` go on. -/
theorem stat_full (hsem : Possible L i sem) {path c : Bytes}
    (hfile : w.tree.stat L.cwd path = .ok (.file c)) (hfull : kMaxBundleSize < c.length)
    {statinfo : Except ℕ ℕ} (h : (stat path).Executes sem w statinfo w') :
    skips statinfo = true ∧ w'.tree = w.tree := by
  unfold stat at h
  simp only [Prog.op_bind, Prog.executes_call] at h
  obtain ⟨size, w₁, hlstat, hrest⟩ := h
  cases size with
  | some st_size =>
      obtain ⟨rfl, rfl⟩ := hrest
      obtain ⟨-, rfl, ⟨c', hc', rfl⟩ | hdir⟩ := hsem hlstat
      · rw [hfile] at hc'
        cases hc'
        exact ⟨decide_eq_true hfull, rfl⟩
      · rw [hfile] at hdir
        cases hdir
  | none =>
      obtain ⟨e, w₂, herrno, rfl, rfl⟩ := hrest
      obtain ⟨e', he', rfl⟩ := hsem hlstat
      obtain ⟨rfl, rfl⟩ := hsem herrno
      rw [hfile] at he'
      rcases he' with he' | he'
      · cases he'
      · refine ⟨?_, rfl⟩
        simpa [skips, World.setErrno] using he'.2.1

/-- The draw of an id leaves the tree.
SOURCE: bundle.py:170-173 -/
theorem chooseId_tree (hsem : Possible L i sem) {loop_count last_id last_id' : ℕ}
    (h : (chooseId loop_count last_id).Executes sem w last_id' w') : w'.tree = w.tree := by
  unfold chooseId at h
  split at h
  · obtain ⟨r, w₁, hrand, -, rfl⟩ := h
    obtain ⟨-, rfl⟩ := hsem hrand
    rfl
  · obtain ⟨-, rfl⟩ := h
    rfl

/-- Every round on a full day goes on to the next one. -/
theorem countedRound_full (hsem : Possible L i sem) {call : Pending × ℕ}
    (hday : FullDay L call.1.tm w.tree) {step : (Pending × ℕ) ⊕ Allocated}
    (h : (countedRound L call).Executes sem w step w') :
    ∃ call', step = .inl call' ∧ call'.1.tm = call.1.tm ∧ w'.tree = w.tree := by
  unfold countedRound allocateRound at h
  obtain ⟨⟨last_id, round⟩, w₁, hround, hend⟩ := Prog.executes_bind.mp h
  obtain ⟨last_id₀, w₂, hchoose, hround⟩ := Prog.executes_bind.mp hround
  obtain ⟨statinfo, w₃, hstat, hround⟩ := Prog.executes_bind.mp hround
  have htree := chooseId_tree hsem hchoose
  obtain ⟨c, hfile, hfull⟩ := hday.full (last_id₀ % kBundleCountPerDay)
    (Nat.mod_lt _ (by decide))
  rw [← htree] at hfile
  obtain ⟨hskips, htree'⟩ := stat_full hsem hfile hfull hstat
  rw [if_pos hskips] at hround
  obtain ⟨heq, rfl⟩ := hround
  cases heq
  obtain ⟨rfl, rfl⟩ := hend
  exact ⟨_, rfl, rfl, htree'.trans htree⟩

/-- The first id leaves the tree.
SOURCE: bundle.py:159-160 -/
theorem startId_tree (hsem : Possible L i sem) {last_id : Option ℕ} {id : ℕ}
    (h : (startId last_id).Executes sem w id w') : w'.tree = w.tree := by
  cases last_id with
  | some id₀ =>
      obtain ⟨-, rfl⟩ := h
      rfl
  | none =>
      obtain ⟨pid, w₁, hpid, -, rfl⟩ := h
      obtain ⟨-, -, rfl⟩ := hsem hpid
      rfl

/-- On a full day `allocate` does not come to an end, by induction on its rounds.
SOURCE: bundle.py:167-220 -/
theorem allocate_unfinished (hsem : Possible L i sem) (hday : FullDay L tm w.tree)
    {length rounds : ℕ} {last_id : Option ℕ} {result : Option Allocated}
    (h : (allocate L length tm last_id rounds).Executes sem w result w') : result = none := by
  unfold allocate at h
  obtain ⟨id, w₁, hid, hloop⟩ := Prog.executes_bind.mp h
  refine hloop.attempts_endless
    (I := fun call w' => call.1.tm = tm ∧ w'.tree = w.tree) ?_ ⟨rfl, startId_tree hsem hid⟩
  rintro call w₂ step w₃ ⟨htm, hw⟩ hround
  rw [← htm, ← hw] at hday
  obtain ⟨call', hstep, htm', hw'⟩ := countedRound_full hsem hday hround
  exact ⟨call', hstep, htm'.trans htm, hw'.trans hw⟩

/-- On a full day `allocate` goes round its loop, whatever the random numbers are and
however the calls go, and never returns.
SOURCE: bundle.py:132-222 -/
theorem allocate_full_day (hsem : Possible L i sem) (htotal : ∀ o w, ∃ a w', sem o w a w')
    (hday : FullDay L tm w.tree) (length : ℕ) (last_id : Option ℕ) (rounds : ℕ) :
    (∃ w', (allocate L length tm last_id rounds).Executes sem w none w') ∧
      ∀ result w', (allocate L length tm last_id rounds).Executes sem w result w' →
        result = none := by
  obtain ⟨result, w', h⟩ := Prog.exists_executes htotal (allocate L length tm last_id rounds) w
  have hresult := allocate_unfinished hsem hday h
  exact ⟨⟨w', hresult ▸ h⟩, fun _ _ h => allocate_unfinished hsem hday h⟩

/-! ## A full day -/

/-- The example's day is of digits. -/
theorem digits_someDay : ∀ b ∈ Text.ascii "20120514", Text.IsDigit b := by
  decide +kernel

def someDay : Day where
  text := Text.ascii "20120514"
  ne_nil := List.cons_ne_nil _ _
  digits := digits_someDay

def plainPlaces : Places where
  cwd := []
  place := Text.ascii "p"
  lock_place := Text.ascii "k"

/-- Where the bundles of the day lie. -/
def IsBundleLoc (l : Loc) : Prop :=
  ∃ id < kBundleCountPerDay, l = [Text.hex8 id, someDay.text, Text.ascii "p"]

instance (l : Loc) : Decidable (IsBundleLoc l) :=
  inferInstanceAs (Decidable (∃ id < kBundleCountPerDay, _))

def IsDirLoc (l : Loc) : Prop :=
  l = [] ∨ l = [Text.ascii "p"] ∨ l = [someDay.text, Text.ascii "p"]

instance (l : Loc) : Decidable (IsDirLoc l) :=
  inferInstanceAs (Decidable (_ ∨ _))

/-- Every bundle of the day has the content `c`. -/
def fullTree (c : Bytes) : Tree where
  node l :=
    if IsDirLoc l then some .dir
    else if IsBundleLoc l then some (.file c)
    else none
  root_dir := if_pos (.inl rfl)
  parent_dir := by
    intro n l h
    have hl : IsDirLoc l := by
      split at h
      · rename_i hdir
        rcases hdir with hnil | hp | hday
        · cases hnil
        · exact .inl (List.cons.inj hp).2
        · exact .inr (.inl (List.cons.inj hday).2)
      · split at h
        · rename_i hbundle
          obtain ⟨id, -, hloc⟩ := hbundle
          exact .inr (.inr (List.cons.inj hloc).2)
        · exact absurd rfl h
    rw [if_pos hl]

variable {c : Bytes}

/-- What stands at a place of the full tree. -/
theorem node_fullTree (c : Bytes) (l : Loc) :
    (fullTree c).node l =
      if IsDirLoc l then some .dir else if IsBundleLoc l then some (.file c) else none :=
  rfl

/-- A directory of the full tree. -/
theorem node_fullTree_dir {l : Loc} (h : IsDirLoc l) : (fullTree c).node l = some .dir :=
  if_pos h

/-- A bundle of the full tree. -/
theorem node_fullTree_bundle {l : Loc} (hdir : ¬ IsDirLoc l) (h : IsBundleLoc l) :
    (fullTree c).node l = some (.file c) := by
  rw [node_fullTree, if_neg hdir, if_pos h]

/-- Nothing else stands in the full tree. -/
theorem node_fullTree_none {l : Loc} (hdir : ¬ IsDirLoc l) (h : ¬ IsBundleLoc l) :
    (fullTree c).node l = none := by
  rw [node_fullTree, if_neg hdir, if_neg h]

/-- The bundles of the full tree are those of the ids of a day. -/
theorem isBundleLoc_iff {id : ℕ} (hid : id < 2 ^ 32) :
    IsBundleLoc [Text.hex8 id, someDay.text, Text.ascii "p"] ↔ id < kBundleCountPerDay := by
  constructor
  · rintro ⟨id', hid', hloc⟩
    have hlt : id' < 2 ^ 32 := lt_trans hid' (by decide)
    rwa [Text.hex8_injOn hid hlt (List.cons.inj hloc).1]
  · intro h
    exact ⟨id, h, rfl⟩

/-- No bundle is a directory of the full tree. -/
theorem not_isDirLoc (id : ℕ) : ¬ IsDirLoc [Text.hex8 id, someDay.text, Text.ascii "p"] := by
  simp [IsDirLoc]

/-- A step into a name of a directory. -/
theorem walk_name {t : Tree} {l : Loc} {c : Bytes} (hdir : t.node l = some .dir) (hc : IsName c)
    (cs : List Bytes) : t.walk l (c :: cs) = t.walk (c :: l) cs := by
  rw [Tree.walk, hdir, descend_name hc]

/-- The place of the locks is the name of a file. -/
theorem isName_k : IsName (Text.ascii "k") :=
  ⟨by decide, by decide, by decide⟩

/-- The place of the bundles is the name of a file. -/
theorem isName_p : IsName (Text.ascii "p") :=
  ⟨by decide, by decide, by decide⟩

/-- No way leads through what is not there. -/
theorem walk_absent {t : Tree} {l : Loc} {c : Bytes} {cs : List Bytes} (h : t.node l = none) :
    t.walk l (c :: cs) = .error ENOENT := by
  rw [Tree.walk, h]

/-- What a path of three names leads to, when the first two are directories. -/
theorem stat_bundlePath (id : ℕ) :
    (fullTree c).stat plainPlaces.cwd (bundleFilename (newBid id someDay) plainPlaces.place) =
      match (fullTree c).node [Text.hex8 id, someDay.text, Text.ascii "p"] with
      | some n => .ok n
      | none => .error ENOENT := by
  have hpath : components (Text.ascii "p" ++ slash :: newBid id someDay) =
      [Text.ascii "p", someDay.text, Text.hex8 id] := by
    rw [components_append_slash, components_newBid]
    rfl
  have hwalk : (fullTree c).lookup [] (Text.ascii "p" ++ slash :: newBid id someDay) =
      .ok [Text.hex8 id, someDay.text, Text.ascii "p"] := by
    rw [Tree.lookup, if_neg (by simp [Text.ascii]), hpath, origin,
      if_neg (by simp [Text.ascii, slash]), walk_name (node_fullTree_dir (.inl rfl)) isName_p,
      walk_name (node_fullTree_dir (.inr (.inl rfl))) (isName_day someDay),
      walk_name (node_fullTree_dir (.inr (.inr rfl))) (isName_hex8 id)]
    rfl
  show (fullTree c).stat [] (Text.ascii "p" ++ slash :: newBid id someDay) = _
  cases hnode : (fullTree c).node [Text.hex8 id, someDay.text, Text.ascii "p"] with
  | none => simp only [Tree.stat, Tree.onPath, hwalk, hnode]
  | some n => simp only [Tree.stat, Tree.onPath, hwalk, hnode]

/-- The place of the locks is not there. -/
theorem not_isDirLoc_k : ¬ IsDirLoc [Text.ascii "k"] := by
  simp [IsDirLoc, Text.ascii]

/-- Every bundle of the full tree is three levels down. -/
theorem not_isBundleLoc_of_length {l : Loc} (h : l.length ≠ 3) : ¬ IsBundleLoc l := by
  rintro ⟨id, -, rfl⟩
  exact h rfl

/-- Nothing stands at the place of the locks. -/
theorem node_lockPlace (c : Bytes) : (fullTree c).node [Text.ascii "k"] = none :=
  node_fullTree_none not_isDirLoc_k (not_isBundleLoc_of_length (by simp))

/-- No way leads into the place of the locks. -/
theorem walk_lockPath (c : Bytes) (cs : List Bytes) (day : Bytes) :
    (fullTree c).walk [] (Text.ascii "k" :: day :: cs) = .error ENOENT := by
  rw [walk_name (node_fullTree_dir (.inl rfl)) isName_k, walk_absent (node_lockPlace c)]

/-- No lock is there. -/
theorem lookup_lockPath (c : Bytes) (id : ℕ) :
    (fullTree c).lookup [] (Text.ascii "k" ++ slash :: newBid id someDay) = .error ENOENT := by
  have hpath : components (Text.ascii "k" ++ slash :: newBid id someDay) =
      [Text.ascii "k", someDay.text, Text.hex8 id] := by
    rw [components_append_slash, components_newBid]
    rfl
  rw [Tree.lookup, if_neg (by simp [Text.ascii]), hpath, origin,
    if_neg (by simp [Text.ascii, slash]), walk_lockPath]

/-- The path of what is not there has no `stat`. -/
theorem stat_of_lookup {t : Tree} {cwd : Loc} {path : Bytes} {e : ℕ}
    (h : t.lookup cwd path = .error e) : t.stat cwd path = .error e := by
  rw [Tree.stat, Tree.onPath, h]

/-- No lock of the full tree has a `stat`. -/
theorem stat_lockPath (c : Bytes) (id : ℕ) :
    (fullTree c).stat plainPlaces.cwd (plainPlaces.lockFile (newBid id someDay)) =
      .error ENOENT := by
  have hpath : plainPlaces.lockFile (newBid id someDay) =
      Text.ascii "k" ++ slash :: newBid id someDay := rfl
  have hcwd : plainPlaces.cwd = [] := rfl
  rw [hpath, hcwd]
  exact stat_of_lookup (lookup_lockPath c id)

/-- A tree with bundles above the limit is that of a full day. -/
theorem fullTree_fullDay (hc : kMaxBundleSize < c.length) :
    FullDay plainPlaces someDay (fullTree c) where
  full id hid := by
    have hlt : id < 2 ^ 32 := lt_trans hid (by decide)
    have hnode : (fullTree c).node [Text.hex8 id, someDay.text, Text.ascii "p"] =
        some (.file c) :=
      node_fullTree_bundle (not_isDirLoc id) ((isBundleLoc_iff hlt).mpr hid)
    refine ⟨c, ?_, hc⟩
    rw [stat_bundlePath, hnode]
  none_above id hid hlt := by
    have hnode : (fullTree c).node [Text.hex8 id, someDay.text, Text.ascii "p"] = none :=
      node_fullTree_none (not_isDirLoc id) (mt (isBundleLoc_iff hlt).mp (Nat.not_lt.mpr hid))
    rw [stat_bundlePath, hnode]
  unlocked id _ := stat_lockPath c id

/-- A disk that is full for the day. -/
def fullDisk : World Unit Unit :=
  World.start (fullTree (List.replicate (kMaxBundleSize + 1) 0))

/-- The full disk is one of a full day. -/
theorem fullDisk_fullDay : FullDay plainPlaces someDay fullDisk.tree :=
  fullTree_fullDay (by
    rw [List.length_replicate]
    exact Nat.lt_succ_self kMaxBundleSize)

/-- The answers of the faultless environment. -/
def Faultless (L : Places) (o : SysCall) (w : World Unit Unit) (a : o.Answer)
    (w' : World Unit Unit) : Prop :=
  (a, w') = World.serve L.cwd id World.Surroundings.plain () o w

/-- Calls that do not fail are possible. -/
theorem faultless_possible (L : Places) : Possible L () (Faultless L) := by
  intro o w a w' h
  have hanswer : (a, w') = World.serve L.cwd id World.Surroundings.plain () o w := h
  have hsem := World.serve_sem L.cwd id World.Surroundings.plain_sound () o w
  rw [← hanswer] at hsem
  exact hsem

/-- The first 20001 rounds of one call. -/
theorem allocate_full_day_faultless :
    (∃ w', (allocate plainPlaces 3 someDay none 20001).Executes (Faultless plainPlaces) fullDisk
        none w') ∧
      ∀ result w', (allocate plainPlaces 3 someDay none 20001).Executes (Faultless plainPlaces)
        fullDisk result w' → result = none :=
  allocate_full_day (faultless_possible plainPlaces) (fun _ _ => ⟨_, _, rfl⟩) fullDisk_fullDay 3
    none 20001

/-- A call on the full disk does not return a writer behind the bundles of the day. -/
theorem not_allocate_falls_back :
    ¬ ∀ (L : Places) (tm : Day) (w : World Unit Unit) (length : ℕ) (last_id : Option ℕ),
      FullDay L tm w.tree → ∃ rounds, ∀ result w',
        (allocate L length tm last_id rounds).Executes (Faultless L) w result w' →
        ∃ last_id' writer bid, result = some (last_id', some writer) ∧
          kBundleCountPerDay < bid ∧ writer.bid = newBid bid tm := by
  intro h
  obtain ⟨rounds, hrounds⟩ := h plainPlaces someDay fullDisk 3 none fullDisk_fullDay
  have htotal : ∀ o w, ∃ x w', Faultless plainPlaces o w x w' := fun _ _ => ⟨_, _, rfl⟩
  obtain ⟨result, w', hrun⟩ :=
    Prog.exists_executes htotal (allocate plainPlaces 3 someDay none rounds) fullDisk
  obtain ⟨last_id', writer, bid, hreturned, -⟩ := hrounds result w' hrun
  rw [allocate_unfinished (faultless_possible plainPlaces) fullDisk_fullDay hrun] at hreturned
  cases hreturned

end PyBundle

end BundleStore
