import BundleStore.Model.Continuum
import Mathlib.Data.List.Induction
import Mathlib.Data.List.Perm.Basic

set_option autoImplicit false

/-!
# The ring after a `Rebuild`

The ring should have a point for every turn of every registered server, and a `Locate` should find a
registered server. The hash function is handed the length of the whole label, of which 20 bytes fit
into the buffer, and without a capacity the ring stays what it was.
-/

namespace BundleStore

/-! ## Lists up to their order -/

section Perm

variable {α β γ : Type}

/-- Where two functions agree does not count. -/
theorem perm_map_filter_iff {g h : α → β} {p : α → Bool} {l : List α}
    (hagree : ∀ a ∈ l, p a = false → g a = h a) :
    (l.map g).Perm (l.map h) ↔ ((l.filter p).map g).Perm ((l.filter p).map h) := by
  have hsplit (f : α → β) :
      ((l.filter p).map f ++ (l.filter fun a => !p a).map f).Perm (l.map f) := by
    rw [← List.map_append]
    exact (List.filter_append_perm p l).map f
  have hrest : (l.filter fun a => !p a).map g = (l.filter fun a => !p a).map h := by
    refine List.map_congr_left fun a ha => ?_
    obtain ⟨ha, hp⟩ := List.mem_filter.mp ha
    exact hagree a ha (by simpa using hp)
  rw [← (hsplit g).congr_left, ← (hsplit h).congr_right, hrest, List.perm_append_right_iff]

variable [DecidableEq α]

/-- What stands under one key. -/
theorem filterMap_labelled {l : List (α × γ)} (hnodup : (l.map Prod.fst).Nodup)
    {g : α × γ → List β} {e : α × γ} (he : e ∈ l) :
    (l.flatMap fun i => (g i).map fun b => (i.1, b)).filterMap
      (fun p => if p.1 = e.1 then some p.2 else none) = g e := by
  induction l with
  | nil => cases he
  | cons i l ih =>
      obtain ⟨hhead, htail⟩ := List.nodup_cons.mp hnodup
      rw [List.flatMap_cons, List.filterMap_append, List.filterMap_map]
      by_cases hkey : i.1 = e.1
      · obtain rfl : e = i := by
          rcases List.mem_cons.mp he with rfl | he
          · rfl
          · exact absurd (hkey ▸ List.mem_map_of_mem he) hhead
        have hrest : (l.flatMap fun i => (g i).map fun b => (i.1, b)).filterMap
            (fun p => if p.1 = e.1 then some p.2 else none) = [] := by
          refine List.filterMap_eq_nil_iff.mpr fun p hp => if_neg ?_
          obtain ⟨j, hj, hp⟩ := List.mem_flatMap.mp hp
          obtain ⟨b, -, rfl⟩ := List.mem_map.mp hp
          exact fun heq => hhead (heq ▸ List.mem_map_of_mem hj)
        rw [hrest, List.append_nil]
        exact (List.filterMap_congr fun b _ => if_pos rfl).trans List.filterMap_some
      · have hnone : (g i).filterMap
            ((fun p => if p.1 = e.1 then some p.2 else none) ∘ fun b => (i.1, b)) = [] :=
          List.filterMap_eq_nil_iff.mpr fun b _ => if_neg hkey
        rw [hnone, List.nil_append]
        refine ih htail ?_
        rcases List.mem_cons.mp he with rfl | he
        · exact absurd rfl hkey
        · exact he

/-- Lists under distinct keys are permuted key by key. -/
theorem perm_labelled_iff {l : List (α × γ)} (hnodup : (l.map Prod.fst).Nodup)
    {g h : α × γ → List β} :
    (l.flatMap fun i => (g i).map fun b => (i.1, b)).Perm
        (l.flatMap fun i => (h i).map fun b => (i.1, b)) ↔
      ∀ i ∈ l, (g i).Perm (h i) := by
  constructor
  · intro hperm i hi
    have hone := hperm.filterMap fun p => if p.1 = i.1 then some p.2 else none
    rwa [filterMap_labelled hnodup hi, filterMap_labelled hnodup hi] at hone
  · intro hperm
    exact List.Perm.flatMap_left l fun i hi => (hperm i hi).map _

end Perm

/-! ## The ring that the registrations describe -/

namespace Continuum

/-- The point of a turn: the hash of `desc-` and the turn in hexadecimal. -/
def pointOf (func : Bytes → UInt32) (e : Bytes × ℕ) : Point :=
  ⟨func (e.1 ++ 45 :: Text.hexadecimal e.2), e.1⟩

/-- The sum of the capacities. -/
def capacity (m : DescMap) : ℕ :=
  (m.entries.map fun i => i.2.toNat).sum

/-- The ring shows the registrations, and `buf` is not read beyond its end. -/
structure Reflects (func : Bytes → UInt32) (c : Continuum) (r : Rebuilt) : Prop where
  points : r.ring.points_.Perm (c.turns.map (pointOf func))
  sorted : r.ring.points_.Pairwise fun a b => a.point_ ≤ b.point_
  located : ∀ hash, r.ring.locate hash ∈ c.desc_map_.descs ∨
    c.desc_map_.descs = [] ∧ r.ring.locate hash = []
  inside : r.overread = false

/-- The turns of a server whose label has as many characters as `buf` has bytes. -/
def fullTurns (desc : Bytes) (capacity : ℕ) : List ℕ :=
  (List.range capacity).filter fun k => (pointLabel desc k).length = kBigEnough

/-- The labels of a server fit, or only lack their last character, and then its points are the same
ones with a NUL in its place. -/
structure Labelled (func : Bytes → UInt32) (desc : Bytes) (capacity : ℕ) : Prop where
  fits : ∀ k < capacity, (pointLabel desc k).length ≤ kBigEnough
  collide : ((fullTurns desc capacity).map fun k => func (storedLabel (pointLabel desc k))).Perm
    ((fullTurns desc capacity).map fun k => func (pointLabel desc k))

/-- Labels that are shorter than `buf` are hashed as they are. -/
theorem labelled_of_short {func : Bytes → UInt32} {desc : Bytes} {capacity : ℕ}
    (h : ∀ k < capacity, (pointLabel desc k).length < kBigEnough) :
    Labelled func desc capacity := by
  have hnone : fullTurns desc capacity = [] := by
    refine List.filter_eq_nil_iff.mpr fun k hk => ?_
    simpa using (h k (List.mem_range.mp hk)).ne
  refine ⟨fun k hk => (h k hk).le, ?_⟩
  rw [hnone]
  exact .refl []

/-- A server has a capacity, or there is none and never was. -/
def Placed (c : Continuum) : Prop :=
  (∃ i ∈ c.desc_map_.entries, i.2 ≠ 0) ∨ c.desc_map_.entries = [] ∧ c.points_ = []

/-- An address: not empty, and without a NUL. -/
def IsDesc (desc : Bytes) : Prop :=
  desc ≠ [] ∧ 0 ∉ desc

/-! ## What is hashed -/

/-- The bytes that are hashed for a label that is not longer than `buf`. -/
def hashed (text : Bytes) : Bytes :=
  if text.length = kBigEnough then storedLabel text else text

/-- A label that fits is hashed as it is.
SOURCE: consistenthash.h:83-90 -/
theorem read_snprintf (st : BufStack) {text : Bytes} (h : text.length ≤ kBigEnough) :
    (st.snprintf text).read text.length = hashed text := by
  have hbuf : (st.snprintf text).buf =
      storedLabel text ++ st.buf.drop (storedLabel text).length := by
    refine (ByteSeq.overwrite_of_ne_nil 0 st.buf 0 (storedLabel_ne_nil text)).trans ?_
    simp only [List.take_zero, Nat.zero_sub, List.replicate_zero, List.nil_append, Nat.zero_add]
  rw [BufStack.read, hbuf, hashed, List.append_assoc]
  by_cases hfull : text.length = kBigEnough
  · have hlength : (storedLabel text).length = text.length := by
      simp only [storedLabel, List.length_append, List.length_take, List.length_singleton, hfull]
      decide
    rw [if_pos hfull, ← hlength, List.take_left]
  · have hshort : text.length ≤ kBigEnough - 1 := by
      unfold kBigEnough at *
      omega
    rw [if_neg hfull, storedLabel, List.take_of_length_le hshort, List.append_assoc, List.take_left]

/-- The points that are pushed when no label is longer than `buf`. -/
theorem pushPoints_eq (func : Bytes → UInt32) {turns : List (Bytes × ℕ)} (st : BufStack)
    (h : ∀ e ∈ turns, (pointLabel e.1 e.2).length ≤ kBigEnough) :
    pushPoints func st turns =
      (turns.map fun e => ⟨func (hashed (pointLabel e.1 e.2)), e.1⟩, false) := by
  induction turns generalizing st with
  | nil => rfl
  | cons e turns ih =>
      obtain ⟨hhead, htail⟩ := List.forall_mem_cons.mp h
      rw [pushPoints, ih _ htail, read_snprintf st hhead, decide_eq_false (Nat.not_lt.mpr hhead)]
      rfl

/-- A ring whose bytes were all initialised has labels that fit. -/
theorem pushPoints_overread (func : Bytes → UInt32) {turns : List (Bytes × ℕ)} (st : BufStack)
    (h : (pushPoints func st turns).2 = false) :
    ∀ e ∈ turns, (pointLabel e.1 e.2).length ≤ kBigEnough := by
  induction turns generalizing st with
  | nil => exact fun e he => absurd he List.not_mem_nil
  | cons e turns ih =>
      obtain ⟨hhead, htail⟩ := Bool.or_eq_false_iff.mp h
      exact List.forall_mem_cons.mpr ⟨Nat.not_lt.mp (of_decide_eq_false hhead), ih _ htail⟩

/-- The turns are the points of the registrations. -/
theorem mem_turns {c : Continuum} {e : Bytes × ℕ} :
    e ∈ c.turns ↔ ∃ i ∈ c.desc_map_.entries, e.1 = i.1 ∧ e.2 < i.2.toNat := by
  simp only [turns, List.mem_flatMap, List.mem_map, List.mem_range]
  constructor
  · rintro ⟨i, hi, k, hk, rfl⟩
    exact ⟨i, hi, rfl, hk⟩
  · rintro ⟨i, hi, hdesc, hk⟩
    exact ⟨i, hi, e.2, hk, by rw [← hdesc]⟩

/-- A word is zero if its value is. -/
theorem toNat_eq_zero_iff (x : UInt32) : x.toNat = 0 ↔ x = 0 := by
  rw [← UInt32.toNat_inj, UInt32.toNat_zero]

/-- There are no turns if every capacity is zero. -/
theorem turns_eq_nil_iff {c : Continuum} : c.turns = [] ↔ ∀ i ∈ c.desc_map_.entries, i.2 = 0 := by
  simp [turns, List.flatMap_eq_nil_iff, toNat_eq_zero_iff]

/-- A sum of words is the sum of their values, wrapped. -/
theorem toNat_foldl_add {α : Type} (f : α → UInt32) (l : List α) (x : UInt32) :
    (l.foldl (fun total i => total + f i) x).toNat =
      (x.toNat + (l.map fun i => (f i).toNat).sum) % 2 ^ 32 := by
  induction l generalizing x with
  | nil => exact (Nat.mod_eq_of_lt x.toNat_lt).symm
  | cons i l ih =>
      rw [List.foldl_cons, ih, UInt32.toNat_add, Nat.mod_add_mod, List.map_cons, List.sum_cons,
        Nat.add_assoc]

/-- A total without overflow is zero if every capacity is.
SOURCE: consistenthash.h:66-77 -/
theorem totalPoint_eq_zero_iff {c : Continuum} (h : capacity c.desc_map_ < 2 ^ 32) :
    c.totalPoint = 0 ↔ ∀ i ∈ c.desc_map_.entries, i.2 = 0 := by
  have htotal : c.totalPoint.toNat = capacity c.desc_map_ := by
    unfold totalPoint
    rw [toNat_foldl_add]
    exact (congrArg (· % 2 ^ 32) (Nat.zero_add _)).trans (Nat.mod_eq_of_lt h)
  rw [← toNat_eq_zero_iff, htotal, capacity, List.sum_eq_zero_iff_forall_eq_nat,
    List.forall_mem_map]
  simp only [toNat_eq_zero_iff]

/-! ## When the ring is right -/

/-- Two rings are the same up to their order if every server's points are. -/
theorem points_perm_iff {c : Continuum} (f g : Bytes → ℕ → UInt32) :
    (c.turns.map fun e => (⟨f e.1 e.2, e.1⟩ : Point)).Perm
        (c.turns.map fun e => ⟨g e.1 e.2, e.1⟩) ↔
      ∀ i ∈ c.desc_map_.entries,
        ((List.range i.2.toNat).map (f i.1)).Perm ((List.range i.2.toNat).map (g i.1)) := by
  have hturns (f : Bytes → ℕ → UInt32) : (c.turns.map fun e => (⟨f e.1 e.2, e.1⟩ : Point)) =
      (c.desc_map_.entries.flatMap fun i =>
        ((List.range i.2.toNat).map (f i.1)).map fun b => (i.1, b)).map fun p => ⟨p.2, p.1⟩ := by
    simp only [turns, List.map_flatMap, List.map_map, Function.comp_def]
  have hinj : Function.Injective fun p : Bytes × UInt32 => (⟨p.2, p.1⟩ : Point) := by
    rintro ⟨d, x⟩ ⟨d', x'⟩ h
    cases h
    rfl
  rw [hturns f, hturns g, List.map_perm_map_iff hinj]
  exact perm_labelled_iff c.desc_map_.nodup

/-- Only the labels that fill `buf` are hashed otherwise. -/
theorem hashes_perm_iff {func : Bytes → UInt32} {desc : Bytes} {capacity : ℕ} :
    ((List.range capacity).map fun k => func (hashed (pointLabel desc k))).Perm
        ((List.range capacity).map fun k => func (pointLabel desc k)) ↔
      ((fullTurns desc capacity).map fun k => func (storedLabel (pointLabel desc k))).Perm
        ((fullTurns desc capacity).map fun k => func (pointLabel desc k)) := by
  have hstored : ((fullTurns desc capacity).map fun k => func (hashed (pointLabel desc k))) =
      (fullTurns desc capacity).map fun k => func (storedLabel (pointLabel desc k)) := by
    refine List.map_congr_left fun k hk => ?_
    rw [hashed, if_pos (of_decide_eq_true (List.mem_filter.mp hk).2)]
  rw [← hstored]
  refine perm_map_filter_iff fun k _ hk => ?_
  rw [hashed, if_neg (of_decide_eq_false hk)]

/-- The points of labels that are not longer than `buf`. -/
theorem pushed_perm_iff {c : Continuum} (func : Bytes → UInt32) :
    (c.turns.map fun e => (⟨func (hashed (pointLabel e.1 e.2)), e.1⟩ : Point)).Perm
        (c.turns.map fun e => ⟨func (pointLabel e.1 e.2), e.1⟩) ↔
      ∀ i ∈ c.desc_map_.entries,
        ((fullTurns i.1 i.2.toNat).map fun k => func (storedLabel (pointLabel i.1 k))).Perm
          ((fullTurns i.1 i.2.toNat).map fun k => func (pointLabel i.1 k)) := by
  refine (points_perm_iff (fun d k => func (hashed (pointLabel d k)))
    fun d k => func (pointLabel d k)).trans ?_
  simp only [hashes_perm_iff]

/-- What is located is the server of a point.
SOURCE: consistenthash.h:23-38 -/
theorem locate_mem (c : Continuum) (hash : UInt32) (h : c.points_ ≠ []) :
    ∃ p ∈ c.points_, p.desc_ = c.locate hash := by
  unfold locate
  split
  · rename_i i hfind
    exact ⟨i, List.mem_of_find?_eq_some hfind, rfl⟩
  · split
    · rename_i p rest hpoints
      exact ⟨p, hpoints ▸ List.mem_cons_self, rfl⟩
    · rename_i hnil
      exact absurd hnil h

/-- Nothing is located on an empty ring. -/
theorem locate_nil {c : Continuum} (h : c.points_ = []) (hash : UInt32) : c.locate hash = [] := by
  simp [locate, h]

variable {c : Continuum} (std : SortByPoint) (func : Bytes → UInt32) (st : BufStack)

/-- The points of servers with short descriptions. -/
theorem map_pointOf (hdesc : ∀ i ∈ c.desc_map_.entries, IsDesc i.1) :
    c.turns.map (pointOf func) = c.turns.map fun e => ⟨func (pointLabel e.1 e.2), e.1⟩ := by
  refine List.map_congr_left fun e he => ?_
  obtain ⟨i, hi, hname, -⟩ := mem_turns.mp he
  rw [pointOf, pointLabel, cstr_of_nul_free (hname ▸ (hdesc i hi).2)]

/-- Without a capacity nothing is rebuilt. -/
theorem reflects_refused (hdesc : ∀ i ∈ c.desc_map_.entries, IsDesc i.1)
    (hzero : ∀ i ∈ c.desc_map_.entries, i.2 = 0) :
    Reflects func c ⟨false, c, false⟩ ↔ c.desc_map_.entries = [] ∧ c.points_ = [] := by
  have hturns := turns_eq_nil_iff.mpr hzero
  constructor
  · intro h
    have hnone : c.points_ = [] := by
      have hpoints := h.points
      rwa [hturns, List.map_nil, List.perm_nil] at hpoints
    refine ⟨?_, hnone⟩
    rcases h.located 0 with hmem | ⟨hempty, -⟩
    · rw [locate_nil hnone] at hmem
      obtain ⟨i, hi, hname⟩ := List.mem_map.mp hmem
      exact absurd hname (hdesc i hi).1
    · exact List.map_eq_nil_iff.mp hempty
  · rintro ⟨hempty, hnone⟩
    exact {
      points := by
        rw [hturns, List.map_nil, hnone]
      sorted := by
        rw [hnone]
        exact List.Pairwise.nil
      located := fun hash => .inr ⟨List.map_eq_nil_iff.mpr hempty, locate_nil hnone hash⟩
      inside := rfl }

/-- With a capacity the ring is what the loops have pushed. -/
theorem reflects_rebuilt (hdesc : ∀ i ∈ c.desc_map_.entries, IsDesc i.1) (hturns : c.turns ≠ []) :
    Reflects func c ⟨true,
        { c with points_ := std.sort (pushPoints func st c.turns).1 },
        (pushPoints func st c.turns).2⟩ ↔
      ∀ i ∈ c.desc_map_.entries, Labelled func i.1 i.2.toNat := by
  have hperm := std.perm (pushPoints func st c.turns).1
  have hfits : (∀ i ∈ c.desc_map_.entries, ∀ k < i.2.toNat,
      (pointLabel i.1 k).length ≤ kBigEnough) ↔
      ∀ e ∈ c.turns, (pointLabel e.1 e.2).length ≤ kBigEnough := by
    constructor
    · intro h e he
      obtain ⟨i, hi, hname, hk⟩ := mem_turns.mp he
      rw [hname]
      exact h i hi e.2 hk
    · intro h i hi k hk
      exact h (i.1, k) (mem_turns.mpr ⟨i, hi, rfl, hk⟩)
  constructor
  · intro h
    have hshort := pushPoints_overread func st h.inside
    have hpoints := hperm.symm.trans h.points
    rw [pushPoints_eq func st hshort, map_pointOf func hdesc, pushed_perm_iff] at hpoints
    exact fun i hi => ⟨hfits.mpr hshort i hi, hpoints i hi⟩
  · intro h
    have hshort := hfits.mp fun i hi => (h i hi).fits
    have hpoints : (std.sort (pushPoints func st c.turns).1).Perm (c.turns.map (pointOf func)) := by
      refine hperm.trans ?_
      rw [pushPoints_eq func st hshort, map_pointOf func hdesc, pushed_perm_iff]
      exact fun i hi => (h i hi).collide
    have hsome : std.sort (pushPoints func st c.turns).1 ≠ [] := by
      intro hnil
      rw [hnil, List.nil_perm, List.map_eq_nil_iff] at hpoints
      exact hturns hpoints
    exact {
      points := hpoints
      sorted := (std.sorted _).imp fun hle => UInt32.not_lt.mp (of_decide_eq_false hle)
      located := fun hash => by
        obtain ⟨p, hp, hname⟩ := locate_mem
          { c with points_ := std.sort (pushPoints func st c.turns).1 } hash hsome
        obtain ⟨e, he, rfl⟩ := List.mem_map.mp (hpoints.mem_iff.mp hp)
        obtain ⟨i, hi, hdescs, -⟩ := mem_turns.mp he
        refine .inl (List.mem_map.mpr ⟨i, hi, ?_⟩)
        rw [← hdescs]
        exact hname
      inside := congrArg Prod.snd (pushPoints_eq func st hshort) }

/-- When a `Rebuild` gives the ring of the registrations. -/
theorem reflects_iff (hdesc : ∀ i ∈ c.desc_map_.entries, IsDesc i.1)
    (hcapacity : capacity c.desc_map_ < 2 ^ 32) :
    Reflects func c (c.rebuild std func st) ↔
      Placed c ∧ ∀ i ∈ c.desc_map_.entries, Labelled func i.1 i.2.toNat := by
  by_cases hzero : ∀ i ∈ c.desc_map_.entries, i.2 = 0
  · have hrebuild : c.rebuild std func st = ⟨false, c, false⟩ :=
      if_pos ((totalPoint_eq_zero_iff hcapacity).mpr hzero)
    rw [hrebuild, reflects_refused func hdesc hzero]
    constructor
    · intro h
      exact ⟨.inr h, fun i hi => absurd hi (h.1 ▸ List.not_mem_nil)⟩
    · rintro ⟨⟨i, hi, hne⟩ | hnone, -⟩
      · exact absurd (hzero i hi) hne
      · exact hnone
  · have hturns : c.turns ≠ [] := fun hnil => hzero (turns_eq_nil_iff.mp hnil)
    have hplaced : Placed c := by
      simp only [not_forall] at hzero
      obtain ⟨i, hi, hne⟩ := hzero
      exact .inl ⟨i, hi, hne⟩
    have hrebuild : c.rebuild std func st = ⟨true,
        { c with points_ := std.sort (pushPoints func st c.turns).1 },
        (pushPoints func st c.turns).2⟩ :=
      if_neg fun htotal => hzero ((totalPoint_eq_zero_iff hcapacity).mp htotal)
    rw [hrebuild, reflects_rebuilt std func st hdesc hturns]
    exact ⟨fun h => ⟨hplaced, h⟩, fun h => h.2⟩

/-! ## After any calls -/

/-- Servers are registered by their address. -/
def Call.Plain : Call → Prop
  | .add desc _ => IsDesc desc
  | _ => True

/-- A call leaves the descriptions short. -/
theorem isDesc_call {call : Call} (hplain : call.Plain)
    (hdesc : ∀ i ∈ c.desc_map_.entries, IsDesc i.1) :
    ∀ i ∈ (c.call std func call).desc_map_.entries, IsDesc i.1 := by
  cases call with
  | add desc capacity =>
      intro i hi
      rcases List.mem_cons.mp hi with rfl | hi
      · exact hplain
      · exact hdesc i (List.mem_filter.mp hi).1
  | remove desc => exact fun i hi => hdesc i (List.mem_filter.mp hi).1
  | clear => exact fun i hi => absurd hi List.not_mem_nil
  | rebuild st =>
      have hkept : (c.rebuild std func st).ring.desc_map_ = c.desc_map_ := by
        unfold rebuild
        split
        · rfl
        · rfl
      exact fun i hi => hdesc i (hkept ▸ hi)

/-- Any calls leave the descriptions short. -/
theorem isDesc_run {calls : List Call} (hplain : ∀ call ∈ calls, call.Plain) :
    ∀ i ∈ (run std func calls).desc_map_.entries, IsDesc i.1 := by
  induction calls using List.reverseRecOn with
  | nil => exact fun i hi => absurd hi List.not_mem_nil
  | append_singleton calls call ih =>
      obtain ⟨hcalls, hcall⟩ := List.forall_mem_append.mp hplain
      rw [run, List.foldl_append]
      exact isDesc_call std func (hcall call List.mem_cons_self) (ih hcalls)

/-- **After any calls a `Rebuild` gives the ring of the registrations exactly when there is a
capacity, or nothing is registered and the ring was empty, and no label is cut.**
SOURCE: consistenthash.h:47-111 -/
theorem ring_reflects_iff {calls : List Call} (hplain : ∀ call ∈ calls, call.Plain)
    (hcapacity : capacity (run std func calls).desc_map_ < 2 ^ 32) :
    Reflects func (run std func calls) ((run std func calls).rebuild std func st) ↔
      Placed (run std func calls) ∧
        ∀ i ∈ (run std func calls).desc_map_.entries, Labelled func i.1 i.2.toNat :=
  reflects_iff std func st (isDesc_run std func hplain) hcapacity

/-- A `std::sort` that keeps the order of points with one hash. -/
def stableSort : SortByPoint where
  sort l := l.mergeSort fun a b => !compareByPoint b a
  perm l := List.mergeSort_perm l _
  sorted l := by
    refine (List.pairwise_mergeSort ?_ ?_ l).imp fun h => by simpa using h
    · intro a b c hab hbc
      simp only [compareByPoint, Bool.not_eq_true', decide_eq_false_iff_not, UInt32.not_lt] at *
      exact UInt32.le_trans hab hbc
    · intro a b
      simp only [compareByPoint, Bool.or_eq_true, Bool.not_eq_true', decide_eq_false_iff_not,
        UInt32.not_lt]
      exact UInt32.le_total _ _

def cleanStack : BufStack :=
  ⟨List.replicate kBigEnough 0, [], List.length_replicate⟩

/-- Two servers, a ring of them, one of them removed, and a third one. -/
def threeServers : List Call :=
  [.add (Text.ascii "10.0.0.1:11211") 2, .add (Text.ascii "10.0.0.2:11211") 1,
    .rebuild cleanStack, .remove (Text.ascii "10.0.0.1:11211"),
    .add (Text.ascii "10.0.0.3:11211") 3]

/-- The ring has the points of the servers that are left. -/
theorem ring_reflects_iff_threeServers :
    Reflects hash (run stableSort hash threeServers)
      ((run stableSort hash threeServers).rebuild stableSort hash cleanStack) := by
  have hplain : ∀ call ∈ threeServers, call.Plain := by
    simp only [threeServers, List.forall_mem_cons]
    exact ⟨⟨by decide, by decide⟩, ⟨by decide, by decide⟩, trivial, trivial,
      ⟨by decide, by decide⟩, fun _ h => absurd h List.not_mem_nil⟩
  refine (ring_reflects_iff stableSort hash cleanStack hplain (by decide)).mpr ⟨.inl ?_, ?_⟩
  · exact ⟨_, List.mem_cons_self, by decide⟩
  · have hentries : (run stableSort hash threeServers).desc_map_.entries =
        [⟨Text.ascii "10.0.0.3:11211", 3⟩, ⟨Text.ascii "10.0.0.2:11211", 1⟩] := rfl
    rw [hentries]
    simp only [List.forall_mem_cons]
    exact ⟨labelled_of_short (by decide), labelled_of_short (by decide),
      fun _ h => absurd h List.not_mem_nil⟩

/-- The label of a long address does not fit into `buf`. -/
theorem not_ring_reflects :
    ¬ ∀ (std : SortByPoint) (st : BufStack) (calls : List Call), (∀ call ∈ calls, call.Plain) →
      capacity (run std hash calls).desc_map_ < 2 ^ 32 →
      Reflects hash (run std hash calls) ((run std hash calls).rebuild std hash st) := by
  intro hall
  have hplain : ∀ call ∈ [Call.add (Text.ascii "192.168.100.200:11211") 1], call.Plain := by
    intro call hcall
    obtain rfl := List.mem_singleton.mp hcall
    exact ⟨by decide, by decide⟩
  have hreflects := hall stableSort cleanStack _ hplain (by decide)
  have hdesc := isDesc_run stableSort hash hplain
  rw [reflects_iff stableSort hash cleanStack hdesc (by decide)] at hreflects
  exact absurd ((hreflects.2 _ List.mem_cons_self).fits 0 (by decide)) (by decide)

end Continuum

end BundleStore
