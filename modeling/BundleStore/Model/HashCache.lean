import Mathlib.Data.List.AList
import Mathlib.Tactic.NormNum

set_option autoImplicit false

/-!
# The cache with a list and a map

SOURCE: src/base3/cache.h:16-140

Every section under `mutex_` is one step. `Locate` has two of them, and calls its `Creator` in
between. An iterator is the number of its node here: which of the nodes made so far it is. Where
there is no such node in the list, or `advance` goes behind the end, nothing is returned.
-/

namespace BundleStore

/-- A node of `list_`. -/
structure CacheNode (Key Value : Type) where
  place : ℕ
  first : Key
  second : Value

structure HashCache (Key Value : Type) where
  list_ : List (CacheNode Key Value)
  map_ : AList fun _ : Key => ℕ
  max_size_ : ℕ
  replacing_ : Bool
  /-- The nodes made so far. -/
  made : ℕ
  /-- The `Replace`s that have been posted and have not run. -/
  posted : ℕ
  /-- The key a `Locate` has called its `Creator` with. -/
  creating : Option Key

namespace HashCache

variable {Key Value : Type} [DecidableEq Key] [Inhabited Value]

def start (max_size : ℕ) : HashCache Key Value where
  list_ := []
  map_ := ∅
  max_size_ := max_size
  replacing_ := false
  made := 0
  posted := 0
  creating := none

def size (s : HashCache Key Value) : ℕ :=
  s.map_.keys.length

def ebaseed (s : HashCache Key Value) : Bool :=
  decide (s.size > s.max_size_ ∧ s.size - s.max_size_ > s.max_size_ / 10)

/-- What an iterator points to. -/
def node (s : HashCache Key Value) (i : ℕ) : Option (CacheNode Key Value) :=
  s.list_.find? fun n => n.place = i

/-- The list without a node. -/
def without (s : HashCache Key Value) (i : ℕ) : List (CacheNode Key Value) :=
  s.list_.filter fun n => n.place ≠ i

/-- The section of `Find`, and the first one of `Locate`: what is found, if the key is in the
map. -/
def search (s : HashCache Key Value) (key : Key) :
    Option (Option Value × HashCache Key Value) :=
  match s.map_.lookup key with
  | none => some (none, s)
  | some i =>
      match s.node i with
      | none => none
      | some n => some (some n.second, { s with list_ := s.without i ++ [n] })

def find (s : HashCache Key Value) (key : Key) : Option (Value × HashCache Key Value) :=
  match s.search key with
  | none => none
  | some (v, s) => some (v.getD default, s)

/-- `Locate` up to its `Creator`. -/
def locate (s : HashCache Key Value) (key : Key) : Option (HashCache Key Value) :=
  match s.search key with
  | none => none
  | some (some _, s) => some s
  | some (none, s) => some { s with creating := some key }

def erase (s : HashCache Key Value) (key : Key) : Option (HashCache Key Value) :=
  match s.map_.lookup key with
  | none => some s
  | some i =>
      match s.node i with
      | none => none
      | some _ => some { s with list_ := s.without i, map_ := s.map_.erase key }

/-- The end of `Insert`. -/
def post (s : HashCache Key Value) : HashCache Key Value :=
  if !s.replacing_ && s.ebaseed then { s with replacing_ := true, posted := s.posted + 1 } else s

def insert (s : HashCache Key Value) (key : Key) (v : Value) : HashCache Key Value :=
  post { s with
    list_ := s.list_ ++ [⟨s.made, key, v⟩]
    map_ := s.map_.insert key s.made
    made := s.made + 1 }

/-- `Locate` behind its `Creator`. -/
def created (s : HashCache Key Value) (v : Option Value) : HashCache Key Value :=
  match s.creating, v with
  | some key, some v => { s with creating := none }.insert key v
  | _, _ => { s with creating := none }

/-- `map_.size() - max_size_`, in `size_t`. -/
def excess (s : HashCache Key Value) : ℕ :=
  if s.max_size_ ≤ s.size then s.size - s.max_size_ else s.size + 2 ^ 64 - s.max_size_

/-- A posted `Replace`, with the number that it returns. -/
def replace (s : HashCache Key Value) : Option (ℕ × HashCache Key Value) :=
  let count := s.excess
  if s.list_.length < count then none
  else
    some (count, { s with
      list_ := s.list_.drop count
      map_ := (s.list_.take count).foldl (fun m i => m.erase i.first) s.map_
      replacing_ := false
      posted := s.posted - 1 })

/-- What happens next: a call, the rest of a `Locate`, or a posted `Replace`. -/
inductive Move (Key Value : Type)
  | find (key : Key)
  | erase (key : Key)
  | insert (key : Key) (v : Value)
  | locate (key : Key)
  | created (v : Option Value)
  | replace

/-- The calls come one after the other; a `Replace` is run once for each time it was posted. -/
def Enabled (s : HashCache Key Value) : Move Key Value → Prop
  | .created _ => s.creating ≠ none
  | .replace => 0 < s.posted
  | _ => s.creating = none

def step (s : HashCache Key Value) : Move Key Value → Option (HashCache Key Value)
  | .find key => (s.find key).map Prod.snd
  | .erase key => s.erase key
  | .insert key v => some (s.insert key v)
  | .locate key => s.locate key
  | .created v => some (s.created v)
  | .replace => s.replace.map Prod.snd

end HashCache

end BundleStore
