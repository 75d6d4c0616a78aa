import BundleStore.Model.HashCache
import Mathlib.Data.List.Induction

set_option autoImplicit false

/-!
# What the cache holds after any calls

What has been done with the keys is a list of events. The events say which keys are cached, in the
order of their last use, and with which values; the list and the map should agree with them.
-/

namespace BundleStore

namespace HashCache

variable {Key Value : Type} [DecidableEq Key]

/-! ## What has happened to the keys -/

inductive Event (Key Value : Type)
  | inserted (key : Key) (v : Value)
  | used (key : Key)
  | removed (key : Key)

/-- An event moves its key to the end, or takes it away. -/
def recencyStep (r : List Key) : Event Key Value → List Key
  | .inserted key _ => r.filter (· ≠ key) ++ [key]
  | .used key => r.filter (· ≠ key) ++ [key]
  | .removed key => r.filter (· ≠ key)

/-- The keys that are cached, the least recently used one first. -/
def recency (h : List (Event Key Value)) : List Key :=
  h.foldl recencyStep []

def valueStep (key : Key) (v : Option Value) : Event Key Value → Option Value
  | .inserted k v' => if k = key then some v' else v
  | .used _ => v
  | .removed k => if k = key then none else v

/-- The value of the last insertion of a key, unless it has been removed since. -/
def lastInserted (h : List (Event Key Value)) (key : Key) : Option Value :=
  h.foldl (valueStep key) none

def keys (s : HashCache Key Value) : List Key :=
  s.list_.map CacheNode.first

/-- What a step does to the keys. A `Replace` has removed what is not in the list any more. -/
def events (s s' : HashCache Key Value) : Move Key Value → List (Event Key Value)
  | .find key => if key ∈ s.map_ then [.used key] else []
  | .locate key => if key ∈ s.map_ then [.used key] else []
  | .erase key => [.removed key]
  | .insert key v => [.inserted key v]
  | .created v => ((s.creating.bind fun key => v.map fun v => .inserted key v).toList)
  | .replace => (s.keys.filter (· ∉ s'.keys)).map .removed

section Runs

variable [Inhabited Value]

/-- The states of the runs whose steps are all `ok`, with what has happened. -/
inductive Reached (ok : HashCache Key Value → Move Key Value → Prop) (max_size : ℕ) :
    List (Event Key Value) → HashCache Key Value → Prop
  | start : Reached ok max_size [] (start max_size)
  | step {h : List (Event Key Value)} {s s' : HashCache Key Value} {m : Move Key Value} :
      Reached ok max_size h s → s.Enabled m → ok s m → s.step m = some s' →
      Reached ok max_size (h ++ events s s' m) s'

/-- The list and the map agree with what has happened, and so do the steps that are `ok`. -/
structure Holds (ok : HashCache Key Value → Move Key Value → Prop) (h : List (Event Key Value))
    (s : HashCache Key Value) : Prop where
  once : s.keys.Nodup
  cached : ∀ key, key ∈ s.keys ↔ key ∈ s.map_
  mapped : ∀ key i, s.map_.lookup key = some i ↔ ∃ n ∈ s.list_, n.first = key ∧ n.place = i
  found : ∀ key, ∃ s', s.find key = some ((lastInserted h key).getD default, s')
  replaced : s.Enabled .replace → ok s .replace → ∃ s',
    s.replace = some (s.size - s.max_size_, s') ∧ s'.keys = (recency h).drop (s.size - s.max_size_)
  defined : ∀ m, s.Enabled m → ok s m → (s.step m).isSome

/-- An `Insert` is of a key that is not cached, and a `Replace` runs while there is nothing too
few. -/
def Meets (s : HashCache Key Value) : Move Key Value → Prop
  | .insert key _ => key ∉ s.map_
  | .replace => s.max_size_ ≤ s.size
  | _ => True

end Runs

/-! ## The list and the map, step by step -/

/-- The list and the map agree with the keys `r` and their values. -/
structure Kept (r : List Key) (val : Key → Option Value) (s : HashCache Key Value) : Prop where
  recent : s.keys = r
  once : s.keys.Nodup
  places : (s.list_.map CacheNode.place).Nodup
  below : ∀ n ∈ s.list_, n.place < s.made
  mapped : ∀ key i, s.map_.lookup key = some i ↔ ∃ n ∈ s.list_, n.first = key ∧ n.place = i
  values : ∀ n ∈ s.list_, val n.first = some n.second
  absent : ∀ key ∉ s.keys, val key = none
  creating : ∀ key, s.creating = some key → key ∉ s.keys

variable {r : List Key} {val : Key → Option Value} {s s' : HashCache Key Value} {key : Key}

omit [DecidableEq Key] in
/-- The keys of the list are those of its entries. -/
theorem mem_keys : key ∈ s.keys ↔ ∃ n ∈ s.list_, n.first = key :=
  List.mem_map

/-- The list and the map have the same keys. -/
theorem Kept.cached (hk : Kept r val s) (key : Key) : key ∈ s.keys ↔ key ∈ s.map_ := by
  rw [← AList.lookup_isSome, Option.isSome_iff_exists, mem_keys]
  simp only [hk.mapped]
  constructor
  · rintro ⟨n, hn, hkey⟩
    exact ⟨n.place, n, hn, hkey, rfl⟩
  · rintro ⟨i, n, hn, hkey, -⟩
    exact ⟨n, hn, hkey⟩

/-- The map has as many keys as the list has nodes. -/
theorem Kept.size_eq (hk : Kept r val s) : s.size = s.list_.length := by
  have hperm : s.map_.keys.Perm s.keys :=
    (List.perm_ext_iff_of_nodup s.map_.keys_nodup hk.once).mpr fun key =>
      (hk.cached key).symm
  rw [size, hperm.length_eq, keys, List.length_map]

/-- A list without one of its elements, if no two are the same. -/
theorem filter_ne_middle {α β : Type} [DecidableEq β] {f : α → β} {l₁ l₂ : List α} {a : α}
    (h : ((l₁ ++ a :: l₂).map f).Nodup) :
    (l₁ ++ a :: l₂).filter (fun b => f b ≠ f a) = l₁ ++ l₂ := by
  rw [List.map_append, List.map_cons] at h
  obtain ⟨hnot, -⟩ := List.nodup_cons.mp (List.nodup_middle.mp h)
  rw [← List.map_append] at hnot
  have hkept : (l₁ ++ l₂).filter (fun b => f b ≠ f a) = l₁ ++ l₂ := by
    refine List.filter_eq_self.mpr fun b hb => decide_eq_true fun heq => hnot ?_
    exact heq ▸ List.mem_map_of_mem hb
  rw [List.filter_append, List.filter_cons_of_neg (by simp), ← List.filter_append, hkept]

/-- The node of a cached key, and what is left without it. -/
theorem Kept.split (hk : Kept r val s) {i : ℕ} (hlook : s.map_.lookup key = some i) :
    ∃ l₁ n l₂, s.list_ = l₁ ++ n :: l₂ ∧ n.first = key ∧ s.node i = some n ∧
      s.without i = l₁ ++ l₂ ∧ (l₁ ++ l₂).map CacheNode.first = r.filter (· ≠ key) := by
  obtain ⟨n, hn, hkey, hplace⟩ := (hk.mapped key i).mp hlook
  obtain ⟨l₁, l₂, hsplit⟩ := List.append_of_mem hn
  subst hkey hplace
  have hwithout : s.without n.place = l₁ ++ l₂ := by
    have hplaces := hk.places
    rw [hsplit] at hplaces
    rw [without, hsplit]
    exact filter_ne_middle hplaces
  refine ⟨l₁, n, l₂, hsplit, rfl, ?_, hwithout, ?_⟩
  · obtain ⟨m, hm⟩ : ∃ m, s.node n.place = some m :=
      Option.isSome_iff_exists.mp (List.find?_isSome.mpr ⟨n, hn, by simp⟩)
    have hmem := List.mem_of_find?_eq_some hm
    have hsame : m.place = n.place := by simpa using List.find?_some hm
    rw [hm, List.inj_on_of_nodup_map hk.places hmem hn hsame]
  · have honce : s.keys = (l₁ ++ n :: l₂).map CacheNode.first := congrArg _ hsplit
    have hnodup := hk.once
    rw [honce] at hnodup
    rw [← hk.recent, honce, List.filter_map]
    exact congrArg (List.map CacheNode.first) (filter_ne_middle hnodup).symm

/-- Other fields do not count. -/
theorem Kept.congr (hk : Kept r val s) (hlist : s'.list_ = s.list_) (hmap : s'.map_ = s.map_)
    (hmade : s'.made = s.made) (hcreating : ∀ key, s'.creating = some key → key ∉ s.keys) :
    Kept r val s' := by
  have hkeys : s'.keys = s.keys := congrArg (List.map CacheNode.first) hlist
  exact {
    recent := hkeys.trans hk.recent
    once := hkeys ▸ hk.once
    places := hlist ▸ hk.places
    below := by
      rw [hlist, hmade]
      exact hk.below
    mapped := by
      rw [hlist, hmap]
      exact hk.mapped
    values := hlist ▸ hk.values
    absent := hkeys ▸ hk.absent
    creating := hkeys ▸ hcreating }

/-- The order of the list does not count. -/
theorem Kept.perm (hk : Kept r val s) {l : List (CacheNode Key Value)} (h : l.Perm s.list_) :
    Kept (l.map CacheNode.first) val { s with list_ := l } := by
  have hkeys : (l.map CacheNode.first).Perm s.keys := h.map _
  exact {
    recent := rfl
    once := hkeys.nodup_iff.mpr hk.once
    places := (h.map _).nodup_iff.mpr hk.places
    below := fun n hn => hk.below n (h.mem_iff.mp hn)
    mapped := fun key i => by
      simp only [h.mem_iff]
      exact hk.mapped key i
    values := fun n hn => hk.values n (h.mem_iff.mp hn)
    absent := fun key hkey => hk.absent key fun hmem => hkey (hkeys.mem_iff.mpr hmem)
    creating := fun key hcreating hmem => hk.creating key hcreating (hkeys.mem_iff.mp hmem) }

/-- A key that is not there is not found.
SOURCE: cache.h:49-62 -/
theorem Kept.search_miss (hk : Kept r val s) (h : key ∉ s.map_) :
    s.search key = some (none, s) ∧ val key = none := by
  constructor
  · unfold search
    rw [AList.lookup_eq_none.mpr h]
  · exact hk.absent key fun hmem => h ((hk.cached key).mp hmem)

/-- A key that is found moves to the end. -/
theorem Kept.search_hit (hk : Kept r val s) (h : key ∈ s.map_) :
    ∃ v s', s.search key = some (some v, s') ∧ val key = some v ∧ s'.creating = s.creating ∧
      Kept (r.filter (· ≠ key) ++ [key]) val s' := by
  obtain ⟨i, hlook⟩ := Option.isSome_iff_exists.mp (AList.lookup_isSome.mpr h)
  obtain ⟨l₁, n, l₂, hsplit, hkey, hnode, hwithout, hrest⟩ := hk.split hlook
  refine ⟨n.second, { s with list_ := l₁ ++ l₂ ++ [n] }, ?_, ?_, rfl, ?_⟩
  · unfold search
    rw [hlook]
    dsimp only
    rw [hnode, hwithout]
  · exact hkey ▸ hk.values n (by simp [hsplit])
  · have hperm : (l₁ ++ l₂ ++ [n]).Perm s.list_ := by
      rw [hsplit, List.append_assoc]
      exact (List.perm_append_singleton n l₂).append_left l₁
    have hmoved := hk.perm hperm
    rwa [List.map_append, hrest, List.map_singleton, hkey] at hmoved

/-- Erasing a key that is not there does nothing.
SOURCE: cache.h:64-72 -/
theorem Kept.erase_miss (hk : Kept r val s) (h : key ∉ s.map_) :
    s.erase key = some s ∧ r.filter (· ≠ key) = r ∧ val key = none := by
  have hmem : key ∉ s.keys := fun hmem => h ((hk.cached key).mp hmem)
  refine ⟨?_, ?_, hk.absent key hmem⟩
  · unfold erase
    rw [AList.lookup_eq_none.mpr h]
  · rw [← hk.recent]
    exact List.filter_eq_self.mpr fun k hmem' => decide_eq_true fun heq => hmem (heq ▸ hmem')

/-- What is left when some nodes are gone, and their keys with them. -/
theorem Kept.sublist (hk : Kept r val s) {l : List (CacheNode Key Value)} (h : l.Sublist s.list_)
    {m : AList fun _ : Key => ℕ} {val' : Key → Option Value}
    (hmap : ∀ key, m.lookup key =
      if key ∈ l.map CacheNode.first then s.map_.lookup key else none)
    (hval : ∀ key, val' key = if key ∈ l.map CacheNode.first then val key else none) :
    Kept (l.map CacheNode.first) val' { s with list_ := l, map_ := m } := by
  have hkeys : (l.map CacheNode.first).Sublist s.keys := h.map _
  exact {
    recent := rfl
    once := hk.once.sublist hkeys
    places := hk.places.sublist (h.map _)
    below := fun n hn => hk.below n (h.mem hn)
    mapped := fun key i => by
      dsimp only
      rw [hmap]
      constructor
      · intro hlook
        split at hlook
        · rename_i hmem
          obtain ⟨n, hn, rfl, rfl⟩ := (hk.mapped key i).mp hlook
          obtain ⟨n', hn', hsame⟩ := List.mem_map.mp hmem
          obtain rfl := List.inj_on_of_nodup_map hk.once (h.mem hn') hn hsame
          exact ⟨n', hn', rfl, rfl⟩
        · cases hlook
      · rintro ⟨n, hn, rfl, rfl⟩
        rw [if_pos (List.mem_map_of_mem hn)]
        exact (hk.mapped _ _).mpr ⟨n, h.mem hn, rfl, rfl⟩
    values := fun n hn => by
      rw [hval, if_pos (List.mem_map_of_mem hn)]
      exact hk.values n (h.mem hn)
    absent := fun key hkey => by
      rw [hval]
      exact if_neg hkey
    creating := fun key hcreating hmem => hk.creating key hcreating (hkeys.mem hmem) }

/-- Erasing a key that is there takes its entry away.
SOURCE: cache.h:64-72 -/
theorem Kept.erase_hit (hk : Kept r val s) (h : key ∈ s.map_) :
    ∃ s', s.erase key = some s' ∧
      Kept (r.filter (· ≠ key)) (fun k => if key = k then none else val k) s' := by
  obtain ⟨i, hlook⟩ := Option.isSome_iff_exists.mp (AList.lookup_isSome.mpr h)
  obtain ⟨l₁, n, l₂, hsplit, hkey, hnode, hwithout, hrest⟩ := hk.split hlook
  have hsub : (l₁ ++ l₂).Sublist s.list_ := by
    rw [hsplit]
    exact (List.sublist_cons_self n l₂).append_left l₁
  have hkeys (k : Key) : k ∈ (l₁ ++ l₂).map CacheNode.first ↔ k ∈ s.keys ∧ k ≠ key := by
    rw [hrest, hk.recent, List.mem_filter, decide_eq_true_eq]
  refine ⟨{ s with list_ := l₁ ++ l₂, map_ := s.map_.erase key }, ?_, ?_⟩
  · unfold erase
    rw [hlook]
    dsimp only
    rw [hnode, hwithout]
  · rw [← hrest]
    refine hk.sublist hsub (fun k => ?_) fun k => ?_
    · by_cases hk' : k = key
      · rw [hk', AList.lookup_erase, if_neg fun hmem => ((hkeys key).mp hmem).2 rfl]
      · rw [AList.lookup_erase_ne hk']
        split
        · rfl
        · rename_i hmem
          refine AList.lookup_eq_none.mpr fun hin => hmem ((hkeys k).mpr ⟨?_, hk'⟩)
          exact (hk.cached k).mpr hin
    · by_cases hk' : key = k
      · rw [if_pos hk', if_neg fun hmem => ((hkeys k).mp hmem).2 hk'.symm]
      · rw [if_neg hk']
        split
        · rfl
        · rename_i hmem
          exact hk.absent k fun hin => hmem ((hkeys k).mpr ⟨hin, fun heq => hk' heq.symm⟩)

/-- A posted replacement changes no entry.
SOURCE: cache.h:82-85 -/
theorem Kept.post (hk : Kept r val s) : Kept r val s.post := by
  unfold HashCache.post
  split
  · exact hk.congr rfl rfl rfl hk.creating
  · exact hk

/-- A key that is not cached gets a node at the end. -/
theorem Kept.insert (hk : Kept r val s) (h : key ∉ s.map_) (hcreating : s.creating = none)
    (v : Value) :
    Kept (r.filter (· ≠ key) ++ [key]) (fun k => if key = k then some v else val k)
      (s.insert key v) := by
  have hmem : key ∉ s.keys := fun hmem => h ((hk.cached key).mp hmem)
  have hr : r.filter (· ≠ key) = r := by
    rw [← hk.recent]
    exact List.filter_eq_self.mpr fun k hmem' => decide_eq_true fun heq => hmem (heq ▸ hmem')
  refine Kept.post ?_
  rw [hr]
  exact {
    recent := by
      rw [← hk.recent]
      exact List.map_append
    once := by
      show ((s.list_ ++ [_]).map CacheNode.first).Nodup
      rw [List.map_append]
      exact List.nodup_append_comm.mp (List.nodup_cons.mpr ⟨hmem, hk.once⟩)
    places := by
      show ((s.list_ ++ [_]).map CacheNode.place).Nodup
      rw [List.map_append]
      refine List.nodup_append_comm.mp (List.nodup_cons.mpr ⟨fun hplace => ?_, hk.places⟩)
      obtain ⟨n, hn, hsame⟩ := List.mem_map.mp hplace
      exact absurd hsame (Nat.ne_of_lt (hk.below n hn))
    below := fun n hn => by
      rcases List.mem_append.mp hn with hn | hn
      · exact Nat.lt_succ_of_lt (hk.below n hn)
      · obtain rfl := List.mem_singleton.mp hn
        exact Nat.lt_succ_self _
    mapped := fun k i => by
      simp only [List.mem_append, List.mem_singleton]
      by_cases hkey : k = key
      · subst hkey
        rw [AList.lookup_insert, Option.some_inj]
        constructor
        · rintro rfl
          exact ⟨_, .inr rfl, rfl, rfl⟩
        · rintro ⟨n, hn | rfl, hname, rfl⟩
          · exact absurd (mem_keys.mpr ⟨n, hn, hname⟩) hmem
          · rfl
      · rw [AList.lookup_insert_ne hkey, hk.mapped]
        constructor
        · rintro ⟨n, hn, hname, hplace⟩
          exact ⟨n, .inl hn, hname, hplace⟩
        · rintro ⟨n, hn | rfl, hname, hplace⟩
          · exact ⟨n, hn, hname, hplace⟩
          · exact absurd hname.symm hkey
    values := fun n hn => by
      rcases List.mem_append.mp hn with hn | hn
      · rw [if_neg fun heq => hmem (mem_keys.mpr ⟨n, hn, heq.symm⟩)]
        exact hk.values n hn
      · obtain rfl := List.mem_singleton.mp hn
        exact if_pos rfl
    absent := fun k hk' => by
      have hkeys : ({ s with list_ := s.list_ ++ [⟨s.made, key, v⟩] } : HashCache Key Value).keys =
          s.keys ++ [key] := List.map_append
      have hout : k ∉ s.keys ++ [key] := fun hin => hk' (hkeys ▸ hin)
      rw [List.mem_append, not_or, List.mem_singleton] at hout
      rw [if_neg fun heq => hout.2 heq.symm]
      exact hk.absent k hout.1
    creating := fun k hk' => by
      rw [hcreating] at hk'
      cases hk' }

/-- A map without the keys of a list. -/
theorem lookup_foldl_erase (l : List (CacheNode Key Value)) (m : AList fun _ : Key => ℕ)
    (key : Key) :
    (l.foldl (fun m i => m.erase i.first) m).lookup key =
      if key ∈ l.map CacheNode.first then none else m.lookup key := by
  induction l generalizing m with
  | nil => rfl
  | cons n l ih =>
      rw [List.foldl_cons, ih, List.map_cons]
      by_cases hkey : key = n.first
      · rw [hkey, AList.lookup_erase, ite_self, if_pos List.mem_cons_self]
      · rw [AList.lookup_erase_ne hkey]
        simp only [List.mem_cons, hkey, false_or]

/-- A `Replace` takes away the first keys, as many as there are too many. -/
theorem Kept.replace (hk : Kept r val s) (h : s.max_size_ ≤ s.size) :
    ∃ s', s.replace = some (s.size - s.max_size_, s') ∧
      Kept (r.drop (s.size - s.max_size_))
        (fun k => if k ∈ r.take (s.size - s.max_size_) then none else val k) s' := by
  have hcount : s.excess = s.size - s.max_size_ := if_pos h
  generalize hn : s.size - s.max_size_ = n at hcount
  have hfits : ¬ s.list_.length < n := by
    rw [← hk.size_eq]
    omega
  have hdrop : (s.list_.drop n).map CacheNode.first = r.drop n := by
    rw [List.map_drop]
    exact congrArg (List.drop n) hk.recent
  have htake : (s.list_.take n).map CacheNode.first = r.take n := by
    rw [List.map_take]
    exact congrArg (List.take n) hk.recent
  have hleft (k : Key) : k ∈ r.drop n ↔ k ∈ s.keys ∧ k ∉ r.take n := by
    have hnodup := hk.once
    rw [hk.recent, ← List.take_append_drop n r] at hnodup
    rw [hk.recent]
    constructor
    · intro hk'
      exact ⟨List.mem_of_mem_drop hk', fun htaken =>
        (List.nodup_append.mp hnodup).2.2 k htaken k hk' rfl⟩
    · rintro ⟨hin, hout⟩
      rw [← List.take_append_drop n r, List.mem_append] at hin
      exact hin.resolve_left hout
  refine ⟨{ s with
    list_ := s.list_.drop n
    map_ := (s.list_.take n).foldl (fun m i => m.erase i.first) s.map_
    replacing_ := false
    posted := s.posted - 1 }, ?_, ?_⟩
  · unfold HashCache.replace
    dsimp only
    rw [hcount, if_neg hfits]
  · rw [← hdrop]
    refine (hk.sublist (List.drop_sublist n s.list_) (fun k => ?_) fun k => ?_).congr rfl rfl rfl
      fun k hcreating hin =>
        hk.creating k hcreating (((List.drop_sublist n s.list_).map CacheNode.first).mem hin)
    · rw [lookup_foldl_erase, hdrop, htake]
      by_cases htaken : k ∈ r.take n
      · rw [if_pos htaken, if_neg fun hin => ((hleft k).mp hin).2 htaken]
      · rw [if_neg htaken]
        split
        · rfl
        · rename_i hout
          refine AList.lookup_eq_none.mpr fun hin => hout ((hleft k).mpr ⟨?_, htaken⟩)
          exact (hk.cached k).mpr hin
    · rw [hdrop]
      by_cases htaken : k ∈ r.take n
      · rw [if_pos htaken, if_neg fun hin => ((hleft k).mp hin).2 htaken]
      · rw [if_neg htaken]
        split
        · rfl
        · rename_i hout
          exact hk.absent k fun hin => hout ((hleft k).mpr ⟨hin, htaken⟩)

/-! ## Runs -/

/-- The recent keys after some have been removed. -/
theorem recency_removed (h : List (Event Key Value)) (ks : List Key) :
    recency (h ++ ks.map .removed) = (recency h).filter (· ∉ ks) := by
  induction ks using List.reverseRecOn with
  | nil => simp
  | append_singleton ks k ih =>
      rw [List.map_append, ← List.append_assoc, recency, List.foldl_append]
      refine (congrArg (List.filter (· ≠ k)) ih).trans ?_
      rw [List.filter_filter]
      refine List.filter_congr fun b _ => ?_
      simp [not_or, and_comm]

/-- The last inserted values after some keys have been removed. -/
theorem lastInserted_removed (h : List (Event Key Value)) (ks : List Key) (key : Key) :
    lastInserted (h ++ ks.map .removed) key = if key ∈ ks then none else lastInserted h key := by
  induction ks using List.reverseRecOn with
  | nil => simp
  | append_singleton ks k ih =>
      rw [List.map_append, ← List.append_assoc, lastInserted, List.foldl_append]
      refine (congrArg (valueStep key · (.removed k)) ih).trans ?_
      by_cases hkey : k = key
      · simp [valueStep, hkey]
      · have hkey' : ¬ key = k := fun heq => hkey heq.symm
        simp [valueStep, hkey, hkey']

/-- A list that is cut in two is told by what is in its parts. -/
theorem filter_not_mem_drop {l : List Key} (h : l.Nodup) (n : ℕ) :
    l.filter (· ∉ l.drop n) = l.take n ∧ l.filter (· ∉ l.take n) = l.drop n := by
  generalize htake : l.take n = t
  generalize hdrop : l.drop n = d
  have hl : l = t ++ d := by
    rw [← htake, ← hdrop, List.take_append_drop]
  subst hl
  have hdisjoint := (List.nodup_append.mp h).2.2
  constructor
  · rw [List.filter_append, List.filter_eq_self.mpr, List.filter_eq_nil_iff.mpr, List.append_nil]
    · intro k hk
      simpa using hk
    · intro k hk
      exact decide_eq_true fun hk' => hdisjoint k hk k hk' rfl
  · rw [List.filter_append, List.filter_eq_nil_iff.mpr, List.filter_eq_self.mpr, List.nil_append]
    · intro k hk
      exact decide_eq_true fun hk' => hdisjoint k hk' k hk rfl
    · intro k hk
      simpa using hk

variable {h : List (Event Key Value)} {max_size : ℕ}

/-- The list and the map agree with what has happened. -/
abbrev KeptBy (h : List (Event Key Value)) (s : HashCache Key Value) : Prop :=
  Kept (recency h) (lastInserted h) s

/-- The recent keys after one more event. -/
theorem recency_concat (h : List (Event Key Value)) (e : Event Key Value) :
    recency (h ++ [e]) = recencyStep (recency h) e := by
  simp [recency]

/-- The last inserted values after one more event. -/
theorem lastInserted_concat (h : List (Event Key Value)) (e : Event Key Value) :
    lastInserted (h ++ [e]) = fun key => valueStep key (lastInserted h key) e := by
  funext key
  simp [lastInserted]

/-- What a search finds is what was inserted last. -/
theorem KeptBy.search (hk : KeptBy h s) (key : Key) :
    ∃ s', s.search key = some (lastInserted h key, s') ∧ s'.creating = s.creating ∧
      KeptBy (h ++ if key ∈ s.map_ then [.used key] else []) s' ∧
      (lastInserted h key = none → key ∉ s'.keys) := by
  by_cases hin : key ∈ s.map_
  · obtain ⟨v, s', hsearch, hval, hcreating, hk'⟩ := Kept.search_hit hk hin
    refine ⟨s', by rw [hsearch, hval], hcreating, ?_, fun hnone => ?_⟩
    · rw [if_pos hin, KeptBy, recency_concat, lastInserted_concat]
      exact hk'
    · rw [hval] at hnone
      cases hnone
  · obtain ⟨hsearch, hval⟩ := Kept.search_miss hk hin
    refine ⟨s, by rw [hsearch, hval], rfl, ?_, fun _ hmem => hin ((Kept.cached hk key).mp hmem)⟩
    rwa [if_neg hin, List.append_nil]

/-- A cache that is kept erases a key and is kept.
SOURCE: cache.h:64-72 -/
theorem KeptBy.erase (hk : KeptBy h s) (key : Key) :
    ∃ s', s.erase key = some s' ∧ KeptBy (h ++ [.removed key]) s' := by
  by_cases hin : key ∈ s.map_
  · obtain ⟨s', herase, hk'⟩ := Kept.erase_hit hk hin
    refine ⟨s', herase, ?_⟩
    rw [KeptBy, recency_concat, lastInserted_concat]
    exact hk'
  · obtain ⟨herase, hr, hval⟩ := Kept.erase_miss hk hin
    refine ⟨s, herase, ?_⟩
    have hsame : (fun k => valueStep k (lastInserted h k) (.removed key)) = lastInserted h := by
      funext k
      by_cases hkey : key = k
      · rw [valueStep, if_pos hkey, ← hkey, hval]
      · rw [valueStep, if_neg hkey]
    have hkeys : recencyStep (recency h) (.removed key : Event Key Value) = recency h := hr
    rw [KeptBy, recency_concat, lastInserted_concat, hsame, hkeys]
    exact hk

/-- A cache that is kept inserts a key that is not there and is kept.
SOURCE: cache.h:74-86 -/
theorem KeptBy.insert (hk : KeptBy h s) (hin : key ∉ s.map_) (hcreating : s.creating = none)
    (v : Value) : KeptBy (h ++ [.inserted key v]) (s.insert key v) := by
  rw [KeptBy, recency_concat, lastInserted_concat]
  exact Kept.insert hk hin hcreating v

/-- A cache that is kept replaces its oldest entries and is kept.
SOURCE: cache.h:88-105 -/
theorem KeptBy.replace (hk : KeptBy h s) (hsize : s.max_size_ ≤ s.size) :
    ∃ s', s.replace = some (s.size - s.max_size_, s') ∧
      s'.keys = (recency h).drop (s.size - s.max_size_) ∧
      KeptBy (h ++ (s.keys.filter (· ∉ s'.keys)).map .removed) s' := by
  obtain ⟨s', hreplace, hk'⟩ := Kept.replace hk hsize
  refine ⟨s', hreplace, hk'.recent, ?_⟩
  have honce : (recency h).Nodup := hk.recent ▸ hk.once
  obtain ⟨htake, hdrop⟩ := filter_not_mem_drop honce (s.size - s.max_size_)
  rw [hk'.recent, hk.recent, htake, KeptBy, recency_removed, hdrop]
  have hval : lastInserted (h ++ ((recency h).take (s.size - s.max_size_)).map .removed) =
      fun k => if k ∈ (recency h).take (s.size - s.max_size_) then none else lastInserted h k := by
    funext k
    exact lastInserted_removed h _ k
  rw [hval]
  exact hk'

/-- An empty cache is kept. -/
theorem keptBy_start (max_size : ℕ) :
    KeptBy ([] : List (Event Key Value)) (start max_size) where
  recent := rfl
  once := List.nodup_nil
  places := List.nodup_nil
  below := fun n hn => absurd hn List.not_mem_nil
  mapped := fun key i => by simp [start]
  values := fun n hn => absurd hn List.not_mem_nil
  absent := fun key _ => rfl
  creating := fun key hcreating => nomatch hcreating

variable [Inhabited Value]

/-- What is kept after one more step that meets the condition. -/
theorem KeptBy.step (hk : KeptBy h s) {m : Move Key Value} (henabled : s.Enabled m)
    (hmeets : s.Meets m) :
    ∃ s', s.step m = some s' ∧ KeptBy (h ++ events s s' m) s' := by
  cases m with
  | find key =>
      obtain ⟨s', hsearch, -, hk', -⟩ := hk.search key
      refine ⟨s', ?_, hk'⟩
      simp [HashCache.step, HashCache.find, hsearch]
  | erase key => exact hk.erase key
  | insert key v => exact ⟨_, rfl, hk.insert hmeets henabled v⟩
  | locate key =>
      obtain ⟨s', hsearch, hcreating, hk', habsent⟩ := hk.search key
      unfold HashCache.step HashCache.locate
      dsimp only
      rw [hsearch]
      cases hval : lastInserted h key with
      | none =>
          refine ⟨_, rfl, Kept.congr hk' rfl rfl rfl fun k hsome => ?_⟩
          obtain rfl := Option.some.inj hsome
          exact habsent hval
      | some v => exact ⟨s', rfl, hk'⟩
  | created v =>
      obtain ⟨key, hcreating⟩ := Option.ne_none_iff_exists'.mp henabled
      have hin : key ∉ s.map_ := fun hin =>
        hk.creating key hcreating ((Kept.cached hk key).mpr hin)
      have hdone : KeptBy h { s with creating := none } :=
        Kept.congr hk rfl rfl rfl fun k hk' => nomatch hk'
      refine ⟨_, rfl, ?_⟩
      unfold created events
      rw [hcreating]
      cases v with
      | none => exact (List.append_nil h).symm ▸ hdone
      | some v => exact hdone.insert hin rfl v
  | replace =>
      obtain ⟨s', hreplace, -, hk'⟩ := hk.replace hmeets
      exact ⟨s', congrArg (Option.map Prod.snd) hreplace, hk'⟩

/-- A cache that is reached is kept, by induction on the run. -/
theorem keptBy_of_reached (hreached : Reached Meets max_size h s) : KeptBy h s := by
  induction hreached with
  | start => exact keptBy_start max_size
  | step _ henabled hmeets hstep ih =>
      obtain ⟨s', hstep', hk⟩ := ih.step henabled hmeets
      rw [hstep] at hstep'
      obtain rfl := Option.some.inj hstep'
      exact hk

/-- **The list, the map, `Find` and `Replace` agree in every run that inserts no key that is cached
and runs no `Replace` when there are too few.**
SOURCE: cache.h:27-123 -/
theorem cache_agrees (hreached : Reached Meets max_size h s) : Holds Meets h s := by
  have hk := keptBy_of_reached hreached
  exact {
    once := hk.once
    cached := Kept.cached hk
    mapped := hk.mapped
    found := fun key => by
      obtain ⟨s', hsearch, -⟩ := hk.search key
      exact ⟨s', by simp [find, hsearch]⟩
    replaced := fun _ hmeets => by
      obtain ⟨s', hreplace, hkeys, -⟩ := hk.replace hmeets
      exact ⟨s', hreplace, hkeys⟩
    defined := fun m henabled hmeets => by
      obtain ⟨s', hstep, -⟩ := hk.step henabled hmeets
      exact Option.isSome_iff_exists.mpr ⟨s', hstep⟩ }

/-! ## Two runs -/

instance decidableEnabled (s : HashCache Key Value) (m : Move Key Value) :
    Decidable (s.Enabled m) :=
  match m with
  | .created _ => decidable_of_iff (s.creating.isSome = true) Option.isSome_iff_ne_none
  | .replace => inferInstanceAs (Decidable (0 < s.posted))
  | .find _ | .erase _ | .insert _ _ | .locate _ =>
      decidable_of_iff (s.creating.isNone = true) Option.isNone_iff_eq_none

instance decidableMeets (s : HashCache Key Value) (m : Move Key Value) : Decidable (s.Meets m) :=
  match m with
  | .insert key _ => inferInstanceAs (Decidable (key ∉ s.map_))
  | .replace => inferInstanceAs (Decidable (s.max_size_ ≤ s.size))
  | .find _ | .erase _ | .locate _ | .created _ => .isTrue trivial

/-- One more move of a run that meets the condition, with what has happened. -/
def play (run : List (Event Key Value) × HashCache Key Value) (m : Move Key Value) :
    Option (List (Event Key Value) × HashCache Key Value) :=
  if run.2.Enabled m ∧ run.2.Meets m then
    (run.2.step m).map fun s' => (run.1 ++ events run.2 s' m, s')
  else none

/-- What is played is reached. -/
theorem Reached.play {moves : List (Move Key Value)}
    {run run' : List (Event Key Value) × HashCache Key Value}
    (hreached : Reached Meets max_size run.1 run.2)
    (hplay : moves.foldlM HashCache.play run = some run') :
    Reached Meets max_size run'.1 run'.2 := by
  induction moves generalizing run with
  | nil =>
      obtain rfl := Option.some.inj hplay
      exact hreached
  | cons m moves ih =>
      rw [List.foldlM_cons, Option.bind_eq_bind, Option.bind_eq_some_iff] at hplay
      obtain ⟨next, hnext, hplay⟩ := hplay
      unfold HashCache.play at hnext
      split at hnext
      · rename_i hok
        obtain ⟨s', hstep, rfl⟩ := Option.map_eq_some_iff.mp hnext
        exact ih (.step hreached hok.1 hok.2 hstep) hplay
      · cases hnext

/-- Two insertions, a `Locate` that finds its key, one that makes its value and has a `Replace`
posted, and the `Replace`. -/
def mixedMoves : List (Move ℕ ℕ) :=
  [.insert 1 10, .insert 2 20, .locate 1, .locate 3, .created (some 30), .replace]

/-- The key that was located has been used since, so the other one has gone. -/
theorem cache_agrees_mixed :
    ∃ h s, mixedMoves.foldlM HashCache.play ([], start 2) = some (h, s) ∧ s.keys = [1, 3] ∧
      Holds Meets h s := by
  obtain ⟨⟨h, s⟩, hplay⟩ :=
    Option.isSome_iff_exists.mp
      (show (mixedMoves.foldlM HashCache.play ([], start 2)).isSome by decide)
  have hkeys : (mixedMoves.foldlM HashCache.play ([], start 2)).map (fun run => run.2.keys) =
      some [1, 3] := by decide
  rw [hplay] at hkeys
  exact ⟨h, s, hplay, Option.some.inj hkeys, cache_agrees (Reached.play .start hplay)⟩

/-- A cache with one key. -/
def one : HashCache ℕ ℕ :=
  (start 5).insert 1 10

/-- The cache of the example after its first entry. -/
theorem reached_one (ok : HashCache ℕ ℕ → Move ℕ ℕ → Prop) (hok : ok (start 5) (.insert 1 10)) :
    Reached ok 5 ([] ++ events (start 5) one (.insert 1 10)) one :=
  .step .start rfl hok rfl

/-- A key that is inserted again is in the list twice. -/
theorem not_cache_agrees :
    ¬ ∀ (max_size : ℕ) (h : List (Event ℕ ℕ)) (s : HashCache ℕ ℕ),
      Reached (fun _ _ => True) max_size h s → Holds (fun _ _ => True) h s := by
  intro hall
  have hidle : one.Enabled (.insert 1 20) := by
    show one.creating = none
    decide
  have htwice : Reached (fun _ _ => True) 5 _ (one.insert 1 20) :=
    .step (reached_one (fun _ _ => True) trivial) hidle trivial rfl
  exact absurd (hall 5 _ _ htwice).once (by decide)

end HashCache

end BundleStore
