import BundleStore.Lib.Text
import BundleStore.Model.MurmurHash
import BundleStore.Model.Url

set_option autoImplicit false

/-!
# The ring of the consistent hash

SOURCE: src/base3/consistenthash.h:21-188

The points are sorted by their hash alone, so the order of points with one hash, and with it the
order in which `desc_map_` is gone through, is left open: `std::sort` is any function that sorts.
-/

namespace BundleStore

/-- A point of the ring with the server it belongs to. -/
structure Point where
  point_ : UInt32
  desc_ : Bytes
deriving DecidableEq, Repr

def compareByPoint (a b : Point) : Bool :=
  decide (a.point_ < b.point_)

/-- `std::sort` by `CompareByPoint`. -/
structure SortByPoint where
  sort : List Point → List Point
  perm : ∀ l, (sort l).Perm l
  sorted : ∀ l, (sort l).Pairwise fun a b => compareByPoint b a = false

/-- A `std::map` from the servers to their capacities. -/
structure DescMap where
  entries : List (Bytes × UInt32)
  nodup : (entries.map Prod.fst).Nodup

namespace DescMap

def empty : DescMap :=
  ⟨[], List.nodup_nil⟩

def erase (m : DescMap) (desc : Bytes) : DescMap where
  entries := m.entries.filter fun e => e.1 ≠ desc
  nodup := m.nodup.sublist (List.filter_sublist.map _)

/-- A server that was erased is not registered. -/
theorem not_mem_erase (m : DescMap) (desc : Bytes) :
    desc ∉ (m.erase desc).entries.map Prod.fst := by
  simp [erase]

/-- `m[desc] = capacity` -/
def set (m : DescMap) (desc : Bytes) (capacity : UInt32) : DescMap where
  entries := (desc, capacity) :: (m.erase desc).entries
  nodup := List.nodup_cons.mpr ⟨m.not_mem_erase desc, (m.erase desc).nodup⟩

def descs (m : DescMap) : List Bytes :=
  m.entries.map Prod.fst

end DescMap

/-- `big_enough` -/
def kBigEnough : ℕ := 16 + 5

/-- The stack under a `Rebuild`: what `buf` holds, and what stands behind it. -/
structure BufStack where
  buf : Bytes
  behind : Bytes
  length_buf : buf.length = kBigEnough

/-- What `snprintf` is asked to print, as long as the number that it returns. -/
def pointLabel (desc : Bytes) (k : ℕ) : Bytes :=
  cstr desc ++ 45 :: Text.hexadecimal k

/-- What `snprintf` stores: the text as far as it fits, and a NUL. -/
def storedLabel (text : Bytes) : Bytes :=
  text.take (kBigEnough - 1) ++ [0]

/-- What is stored of a label fits into `buf`. -/
theorem length_storedLabel_le (text : Bytes) : (storedLabel text).length ≤ kBigEnough := by
  simp only [storedLabel, kBigEnough, List.length_append, List.length_take, List.length_singleton]
  omega

/-- What is stored of a label has its NUL. -/
theorem storedLabel_ne_nil (text : Bytes) : storedLabel text ≠ [] := by
  simp [storedLabel]

def BufStack.snprintf (st : BufStack) (text : Bytes) : BufStack where
  buf := ByteSeq.overwrite 0 st.buf 0 (storedLabel text)
  behind := st.behind
  length_buf := by
    rw [ByteSeq.length_overwrite 0 st.buf 0 (storedLabel_ne_nil text), st.length_buf, Nat.zero_add,
      max_eq_left (length_storedLabel_le text)]

/-- The `len` bytes that are found at `buf`. -/
def BufStack.read (st : BufStack) (len : ℕ) : Bytes :=
  (st.buf ++ st.behind).take len

structure Continuum where
  desc_map_ : DescMap
  points_ : List Point

/-- What a `Rebuild` leaves, and whether the hash function has read behind `buf`. -/
structure Rebuilt where
  ret : Bool
  ring : Continuum
  overread : Bool

namespace Continuum

def empty : Continuum :=
  ⟨.empty, []⟩

def hash (text : Bytes) : UInt32 :=
  Base.murmurHash2 text (UInt32.ofNat text.length) 0

/-- `lower_bound`, and the first point behind the last. -/
def locate (c : Continuum) (hash : UInt32) : Bytes :=
  match c.points_.find? fun p => !compareByPoint p ⟨hash, []⟩ with
  | some i => i.desc_
  | none =>
      match c.points_ with
      | p :: _ => p.desc_
      | [] => []

def add (c : Continuum) (desc : Bytes) (capacity : UInt32) : Continuum :=
  { c with desc_map_ := c.desc_map_.set desc capacity }

def remove (c : Continuum) (desc : Bytes) : Continuum :=
  { c with desc_map_ := c.desc_map_.erase desc }

def clear (c : Continuum) : Continuum :=
  { c with desc_map_ := .empty }

def totalPoint (c : Continuum) : UInt32 :=
  c.desc_map_.entries.foldl (fun total_point i => total_point + i.2) 0

/-- The turns of the two loops of `Rebuild`. -/
def turns (c : Continuum) : List (Bytes × ℕ) :=
  c.desc_map_.entries.flatMap fun i => (List.range i.2.toNat).map fun k => (i.1, k)

/-- The loops, with the points they push and whether they have read behind `buf`. -/
def pushPoints (func : Bytes → UInt32) : BufStack → List (Bytes × ℕ) → List Point × Bool
  | _, [] => ([], false)
  | st, (desc, k) :: rest =>
      let text := pointLabel desc k
      let st := st.snprintf text
      let (target, overread) := pushPoints func st rest
      (⟨func (st.read text.length), desc⟩ :: target, decide (kBigEnough < text.length) || overread)

def rebuild (c : Continuum) (std : SortByPoint) (func : Bytes → UInt32) (st : BufStack) : Rebuilt :=
  if c.totalPoint = 0 then ⟨false, c, false⟩
  else
    let (target, overread) := pushPoints func st c.turns
    ⟨true, { c with points_ := std.sort target }, overread⟩

/-- The calls that change the ring. -/
inductive Call
  | add (desc : Bytes) (capacity : UInt32)
  | remove (desc : Bytes)
  | clear
  | rebuild (st : BufStack)

def call (std : SortByPoint) (func : Bytes → UInt32) (c : Continuum) : Call → Continuum
  | .add desc capacity => c.add desc capacity
  | .remove desc => c.remove desc
  | .clear => c.clear
  | .rebuild st => (c.rebuild std func st).ring

def run (std : SortByPoint) (func : Bytes → UInt32) (calls : List Call) : Continuum :=
  calls.foldl (call std func) empty

end Continuum

end BundleStore
