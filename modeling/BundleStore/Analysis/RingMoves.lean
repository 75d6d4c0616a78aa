import BundleStore.Analysis.Continuum
import Mathlib.Data.List.Nodup

set_option autoImplicit false

/-!
# Which hashes move when a server is added

Locating a hash means going on from it until the first point, so the point that is found is the
one at the least distance, where distances are taken modulo `2 ^ 32`. A new point draws a hash to
itself when it is nearer than the others, and else leaves it where it is.
-/

namespace BundleStore.Continuum

/-! ## Going round the circle -/

/-- How far it is from a hash to a point, going round behind the last. -/
def distance (hash point : UInt32) : ℕ :=
  (point - hash).toNat

/-- The distance from a hash to a point, going round the circle. -/
theorem distance_eq (hash point : UInt32) :
    distance hash point =
      if hash ≤ point then point.toNat - hash.toNat else 2 ^ 32 + point.toNat - hash.toNat := by
  have hpoint := point.toNat_lt
  have hhash := hash.toNat_lt
  rw [distance, UInt32.toNat_sub]
  split
  · rename_i hle
    rw [UInt32.le_iff_toNat_le] at hle
    omega
  · rename_i hgt
    rw [UInt32.le_iff_toNat_le] at hgt
    omega

/-- Points at one distance are one. -/
theorem distance_injective (hash : UInt32) : Function.Injective (distance hash) := by
  intro p q h
  have heq : p - hash = q - hash := UInt32.toNat_inj.mp h
  simpa using congrArg (· + hash) heq

/-- What `lower_bound` finds is the first of all that are not before the hash. -/
theorem le_of_find?_eq_some {ps : List Point} {hash : UInt32} {i : Point}
    (hsorted : ps.Pairwise fun a b => a.point_ ≤ b.point_)
    (hfind : (ps.find? fun p => !compareByPoint p ⟨hash, []⟩) = some i) :
    hash ≤ i.point_ ∧ ∀ q ∈ ps, hash ≤ q.point_ → i.point_ ≤ q.point_ := by
  have hbefore : ∀ q : Point, (!compareByPoint q ⟨hash, []⟩) = true ↔ hash ≤ q.point_ := by
    intro q
    simp [compareByPoint]
  obtain ⟨hi, front, back, rfl, hfront⟩ := List.find?_eq_some_iff_append.mp hfind
  refine ⟨(hbefore i).mp hi, fun q hq hle => ?_⟩
  rcases List.mem_append.mp hq with hq | hq
  · have hnot := hfront q hq
    rw [(hbefore q).mpr hle] at hnot
    exact absurd hnot (by decide)
  · rcases List.mem_cons.mp hq with rfl | hq
    · exact UInt32.le_refl _
    · exact (List.pairwise_cons.mp (List.pairwise_append.mp hsorted).2.1).1 q hq

/-- Among the points of a ring, the one that is located is nearest. -/
theorem locate_nearest {c : Continuum}
    (hsorted : c.points_.Pairwise fun a b => a.point_ ≤ b.point_) (hsome : c.points_ ≠ [])
    (hash : UInt32) :
    ∃ p ∈ c.points_, p.desc_ = c.locate hash ∧
      ∀ q ∈ c.points_, distance hash p.point_ ≤ distance hash q.point_ := by
  unfold locate
  split
  · rename_i i hfind
    obtain ⟨hle, hfirst⟩ := le_of_find?_eq_some hsorted hfind
    refine ⟨i, List.mem_of_find?_eq_some hfind, rfl, fun q hq => ?_⟩
    rw [distance_eq, distance_eq, if_pos hle]
    have hi := i.point_.toNat_lt
    split
    · rename_i hq'
      have hiq := UInt32.le_iff_toNat_le.mp (hfirst q hq hq')
      omega
    · omega
  · rename_i hnone
    have hbehind : ∀ q ∈ c.points_, ¬ hash ≤ q.point_ := by
      intro q hq
      have hnot := List.find?_eq_none.mp hnone q hq
      simpa [compareByPoint] using hnot
    cases hpoints : c.points_ with
    | nil => exact absurd hpoints hsome
    | cons p rest =>
        rw [hpoints] at hbehind hsorted
        refine ⟨p, List.mem_cons_self, rfl, fun q hq => ?_⟩
        have hpq : p.point_ ≤ q.point_ := by
          rcases List.mem_cons.mp hq with rfl | hq
          · exact UInt32.le_refl _
          · exact (List.pairwise_cons.mp hsorted).1 q hq
        rw [distance_eq, distance_eq, if_neg (hbehind p List.mem_cons_self),
          if_neg (hbehind q hq)]
        have hpq' := UInt32.le_iff_toNat_le.mp hpq
        omega

/-! ## The turn that is located -/

variable (func : Bytes → UInt32)

/-- The hash of the label of a turn. -/
def labelHash (e : Bytes × ℕ) : UInt32 :=
  func (pointLabel e.1 e.2)

/-- A turn whose point is as near as those of all others. -/
def Nearest (turns : List (Bytes × ℕ)) (hash : UInt32) (e : Bytes × ℕ) : Prop :=
  e ∈ turns ∧ ∀ e' ∈ turns, distance hash (labelHash func e) ≤ distance hash (labelHash func e')

variable {func}

/-- With distinct hashes one turn is nearest. -/
theorem Nearest.unique {turns : List (Bytes × ℕ)} {hash : UInt32} {e e' : Bytes × ℕ}
    (hdistinct : (turns.map (labelHash func)).Nodup) (he : Nearest func turns hash e)
    (he' : Nearest func turns hash e') : e = e' := by
  refine List.inj_on_of_nodup_map hdistinct he.1 he'.1 ?_
  exact distance_injective hash (le_antisymm (he.2 e' he'.1) (he'.2 e he.1))

/-- The nearest of more turns is a new one, or nearest among the old. -/
theorem Nearest.of_append {old new : List (Bytes × ℕ)} {hash : UInt32} {e : Bytes × ℕ}
    (h : Nearest func (new ++ old) hash e) : e ∈ new ∨ Nearest func old hash e := by
  rcases List.mem_append.mp h.1 with hnew | hold
  · exact .inl hnew
  · exact .inr ⟨hold, fun e' he' => h.2 e' (List.mem_append_right _ he')⟩

/-- The labels fit into the buffer, and there is something to build a ring of. -/
structure Buildable (c : Continuum) : Prop where
  labels : ∀ e ∈ c.turns, (pointLabel e.1 e.2).length ≤ 20
  capacity_pos : 0 < capacity c.desc_map_
  capacity_lt : capacity c.desc_map_ < 2 ^ 32

/-- A ring that can be built has a turn. -/
theorem Buildable.turns_ne_nil {c : Continuum} (h : c.Buildable) : c.turns ≠ [] := by
  intro hnil
  have hzero : capacity c.desc_map_ = 0 := by
    rw [capacity, List.sum_eq_zero_iff_forall_eq_nat, List.forall_mem_map]
    intro i hi
    exact (toNat_eq_zero_iff i.2).mpr (turns_eq_nil_iff.mp hnil i hi)
  exact absurd h.capacity_pos (by omega)

/-- A `Rebuild` sorts the points of all turns. -/
theorem Buildable.rebuild_points {c : Continuum} (h : c.Buildable) (std : SortByPoint)
    (st : BufStack) :
    (c.rebuild std func st).ring =
      { c with points_ := std.sort (c.turns.map fun e => ⟨labelHash func e, e.1⟩) } := by
  have htotal : ¬ c.totalPoint = 0 := by
    rw [totalPoint_eq_zero_iff h.capacity_lt, ← turns_eq_nil_iff]
    exact h.turns_ne_nil
  have hlabels : ∀ e ∈ c.turns, (pointLabel e.1 e.2).length ≤ kBigEnough := by
    intro e he
    have hle := h.labels e he
    unfold kBigEnough
    omega
  have hpushed : (pushPoints func st c.turns).1 =
      c.turns.map fun e => ⟨labelHash func e, e.1⟩ := by
    rw [pushPoints_eq func st hlabels]
    refine List.map_congr_left fun e he => ?_
    have hle := h.labels e he
    rw [hashed, if_neg (by unfold kBigEnough; omega)]
    rfl
  rw [← hpushed]
  exact congrArg Rebuilt.ring (if_neg htotal)

variable (func) in
/-- After a `Rebuild` the nearest turn is located. -/
theorem Buildable.locate_rebuild {c : Continuum} (h : c.Buildable) (std : SortByPoint)
    (st : BufStack) (hash : UInt32) :
    ∃ e, Nearest func c.turns hash e ∧ (c.rebuild std func st).ring.locate hash = e.1 := by
  rw [h.rebuild_points std st]
  have hperm := std.perm (c.turns.map fun e => (⟨labelHash func e, e.1⟩ : Point))
  have hsorted := (std.sorted (c.turns.map fun e => (⟨labelHash func e, e.1⟩ : Point))).imp
    fun hle => UInt32.not_lt.mp (of_decide_eq_false hle)
  have hsome : std.sort (c.turns.map fun e => (⟨labelHash func e, e.1⟩ : Point)) ≠ [] := by
    intro hnil
    rw [hnil, List.nil_perm, List.map_eq_nil_iff] at hperm
    exact h.turns_ne_nil hperm
  obtain ⟨p, hp, hdesc, hnearest⟩ := locate_nearest
    (c := { c with points_ := std.sort (c.turns.map fun e => ⟨labelHash func e, e.1⟩) })
    hsorted hsome hash
  obtain ⟨e, he, rfl⟩ := List.mem_map.mp (hperm.mem_iff.mp hp)
  refine ⟨e, ⟨he, fun e' he' => ?_⟩, hdesc.symm⟩
  exact hnearest _ (hperm.mem_iff.mpr (List.mem_map_of_mem he'))

/-! ## Adding and removing a server -/

/-- A server that is not registered cannot be removed. -/
theorem entries_erase {m : DescMap} {desc : Bytes} (h : desc ∉ m.descs) :
    (m.erase desc).entries = m.entries := by
  unfold DescMap.erase
  rw [List.filter_eq_self]
  intro e he
  have hne : e.1 ≠ desc := by
    rintro rfl
    exact h (List.mem_map_of_mem he)
  simpa using hne

/-- A server that is not registered is added in front. -/
theorem entries_set {m : DescMap} {desc : Bytes} (h : desc ∉ m.descs) (capacity : UInt32) :
    (m.set desc capacity).entries = (desc, capacity) :: m.entries :=
  congrArg _ (entries_erase h)

/-- A server that is added and removed again leaves the registrations as they were. -/
theorem erase_set {m : DescMap} {desc : Bytes} (h : desc ∉ m.descs) (capacity : UInt32) :
    (m.set desc capacity).erase desc = m := by
  have hentries : ((m.set desc capacity).erase desc).entries = m.entries := by
    calc ((m.set desc capacity).erase desc).entries
        = ((m.set desc capacity).entries).filter fun e => e.1 ≠ desc := rfl
      _ = m.entries.filter fun e => e.1 ≠ desc := by
          rw [entries_set h, List.filter_cons_of_neg (by simp)]
      _ = m.entries := entries_erase h
  cases hm : (m.set desc capacity).erase desc with
  | mk entries nodup =>
      rw [hm] at hentries
      subst hentries
      rfl

/-- The turns after a server is added. -/
theorem turns_add {c : Continuum} {desc : Bytes} (h : desc ∉ c.desc_map_.descs)
    (capacity : UInt32) :
    (c.add desc capacity).turns =
      (List.range capacity.toNat).map (fun k => (desc, k)) ++ c.turns := by
  calc (c.add desc capacity).turns
      = (c.desc_map_.set desc capacity).entries.flatMap
          fun i => (List.range i.2.toNat).map fun k => (i.1, k) := rfl
    _ = _ := by
        rw [entries_set h, List.flatMap_cons]
        rfl

/-- The capacity after a server is added. -/
theorem capacity_set {m : DescMap} {desc : Bytes} (h : desc ∉ m.descs) (cap : UInt32) :
    capacity (m.set desc cap) = cap.toNat + capacity m := by
  rw [capacity, entries_set h]
  rfl

/-- What is registered in a larger ring is registered before. -/
theorem Buildable.of_add {c : Continuum} {desc : Bytes} (h : desc ∉ c.desc_map_.descs)
    {cap : UInt32} (hadd : (c.add desc cap).Buildable) (hpos : 0 < capacity c.desc_map_) :
    c.Buildable where
  labels e he := by
    refine hadd.labels e ?_
    rw [turns_add h]
    exact List.mem_append_right _ he
  capacity_pos := hpos
  capacity_lt := by
    have hlt := hadd.capacity_lt
    change capacity (c.desc_map_.set desc cap) < _ at hlt
    rw [capacity_set h] at hlt
    omega

/-- Registrations alone determine a `Rebuild` that goes through. -/
theorem Buildable.locate_congr {c c' : Continuum} (h : c.Buildable)
    (hdistinct : (c.turns.map (labelHash func)).Nodup) (hsame : c'.desc_map_ = c.desc_map_)
    (std : SortByPoint) (st st' : BufStack) (hash : UInt32) :
    (c'.rebuild std func st').ring.locate hash = (c.rebuild std func st).ring.locate hash := by
  have hturns : c'.turns = c.turns := by
    unfold turns
    rw [hsame]
  have h' : c'.Buildable :=
    ⟨hturns ▸ h.labels, hsame ▸ h.capacity_pos, hsame ▸ h.capacity_lt⟩
  obtain ⟨e, he, hlocate⟩ := h.locate_rebuild func std st hash
  obtain ⟨e', he', hlocate'⟩ := h'.locate_rebuild func std st' hash
  rw [hturns] at he'
  rw [hlocate, hlocate', Nearest.unique hdistinct he' he]

/-- **A new server draws hashes to itself and moves no other, and when it is removed again every
hash is where it was.**
SOURCE: consistenthash.h:23-106 -/
theorem locate_moves {c : Continuum} {desc : Bytes} {cap : UInt32} (func : Bytes → UInt32)
    (hnew : desc ∉ c.desc_map_.descs)
    (hlabels : ∀ e ∈ (c.add desc cap).turns, (pointLabel e.1 e.2).length ≤ 20)
    (hdistinct : ((c.add desc cap).turns.map fun e => func (pointLabel e.1 e.2)).Nodup)
    (hcapacity : capacity (c.add desc cap).desc_map_ < 2 ^ 32)
    (hpos : 0 < capacity c.desc_map_) (std : SortByPoint) (st₁ st₂ st₃ : BufStack)
    (hash : UInt32) :
    let before := (c.rebuild std func st₁).ring
    let added := ((before.add desc cap).rebuild std func st₂).ring
    let removed := ((added.remove desc).rebuild std func st₃).ring
    (added.locate hash = before.locate hash ∨ added.locate hash = desc) ∧
      removed.locate hash = before.locate hash := by
  intro before added removed
  have hadd : (c.add desc cap).Buildable := by
    refine ⟨hlabels, ?_, hcapacity⟩
    change 0 < capacity (c.desc_map_.set desc cap)
    rw [capacity_set hnew]
    omega
  have hc := hadd.of_add hnew hpos
  have hdistinct_old : (c.turns.map (labelHash func)).Nodup := by
    rw [turns_add hnew, List.map_append] at hdistinct
    exact (List.nodup_append.mp hdistinct).2.1
  have hbefore : before.desc_map_ = c.desc_map_ := by
    change (c.rebuild std func st₁).ring.desc_map_ = _
    rw [hc.rebuild_points]
  have hadded : added.desc_map_ = c.desc_map_.set desc cap := by
    have hsame : (before.add desc cap).desc_map_ = (c.add desc cap).desc_map_ := by
      change before.desc_map_.set desc cap = _
      rw [hbefore]
      rfl
    have hbuild : (before.add desc cap).Buildable := by
      have hturns : (before.add desc cap).turns = (c.add desc cap).turns := by
        unfold turns
        rw [hsame]
      exact ⟨hturns ▸ hadd.labels, hsame ▸ hadd.capacity_pos, hsame ▸ hadd.capacity_lt⟩
    change ((before.add desc cap).rebuild std func st₂).ring.desc_map_ = _
    rw [hbuild.rebuild_points]
    exact hsame
  constructor
  · have hlocate : added.locate hash = ((c.add desc cap).rebuild std func st₂).ring.locate hash :=
      hadd.locate_congr hdistinct (congrArg (DescMap.set · desc cap) hbefore) std st₂ st₂ hash
    obtain ⟨e, he, hold⟩ := hc.locate_rebuild func std st₁ hash
    obtain ⟨e', he', hnow⟩ := hadd.locate_rebuild func std st₂ hash
    rw [turns_add hnew] at he'
    rw [hlocate, hnow]
    rcases he'.of_append with hmem | hnearest
    · obtain ⟨k, -, rfl⟩ := List.mem_map.mp hmem
      exact .inr rfl
    · left
      rw [Nearest.unique hdistinct_old hnearest he]
      exact hold.symm
  · refine hc.locate_congr hdistinct_old ?_ std st₁ st₃ hash
    change added.desc_map_.erase desc = _
    rw [hadded]
    exact erase_set hnew cap

/-- A second server takes keys from the first, and gives them back.
SOURCE: consistenthash.h:23-106 -/
theorem locate_moves_second :
    let before := ((empty.add (Text.ascii "a:1") 2).rebuild stableSort hash cleanStack).ring
    let added := ((before.add (Text.ascii "b:1") 2).rebuild stableSort hash cleanStack).ring
    let removed := ((added.remove (Text.ascii "b:1")).rebuild stableSort hash cleanStack).ring
    (added.locate 7 = before.locate 7 ∨ added.locate 7 = Text.ascii "b:1") ∧
      removed.locate 7 = before.locate 7 :=
  locate_moves hash (by decide) (by decide) (by decide) (by decide) (by decide) stableSort
    cleanStack cleanStack cleanStack 7

end BundleStore.Continuum
