import BundleStore.Lib.Parties
import BundleStore.Model.MooseData

set_option autoImplicit false

/-!
# The pool of connections to chunk servers

SOURCE: src/mooseclient/moose.cc:766-810

An object is a number here: which of the objects made so far it is. A pointer
stays what it was when its object is deleted; what is found behind it then, and
in a node that has been erased from the map, is anything.
-/

namespace BundleStore

namespace Moose

/-- `Cached::map_`, and what has become of the objects: how many there have been,
which are deleted, once for each `delete`, and which a caller holds. -/
structure Pool where
  map_ : ℕ → Option ChunkServer := fun _ => none
  made : ℕ := 0
  deleted : List ℕ := []
  inUse : List ℕ := []

namespace Pool

/-- SOURCE: moose.cc:787-789 -/
def key (ip port : ℕ) (is_read : Bool) : ℕ :=
  ip <<< 32 ||| port <<< 16 ||| is_read.toNat

/-- `map_.erase(i); return i->second;`, where the erased node holds `cs`. -/
def handOut (s : Pool) (key : ℕ) (cs : ChunkServer) : Pool :=
  { s with map_ := Function.update s.map_ key none, inUse := cs.id :: s.inUse }

/-- `new ChunkServer`, and it connects. -/
def connected (s : Pool) : Pool :=
  { s with made := s.made + 1, inUse := s.made :: s.inUse }

/-- `new ChunkServer`, and it does not connect: `delete cs`. -/
def unconnected (s : Pool) : Pool :=
  { s with made := s.made + 1, deleted := s.made :: s.deleted }

def delete (s : Pool) (cs : ChunkServer) : Pool :=
  { s with deleted := cs.id :: s.deleted, inUse := s.inUse.erase cs.id }

/-- `map_.insert(std::make_pair(key, cs))` -/
def insert (s : Pool) (key : ℕ) (cs : ChunkServer) : Pool :=
  { s with map_ := Function.update s.map_ key (some cs), inUse := s.inUse.erase cs.id }

/-- What a call of a file does to the pool. -/
def Sem (s : Pool) : (o : FileCall) → o.Answer → Pool → Prop
  | .create ip port is_read, a, s' =>
      (∃ pooled found, is_read = true ∧ s.map_ (key ip port is_read) = some pooled ∧
        a = some found ∧ s' = s.handOut (key ip port is_read) found) ∨
      ((is_read = true → s.map_ (key ip port is_read) = none) ∧
        ((a = none ∧ s' = s.unconnected) ∨
          ∃ socket_, a = some ⟨s.made, socket_, ip, port⟩ ∧ s' = s.connected))
  | .giveBack cs is_read, _, s' =>
      ∃ ip port, (cs.id ∉ s.deleted → ip = cs.ip_ ∧ port = cs.port_) ∧
        s' =
          if is_read = true ∧ s.map_ (key ip port is_read) = none then
            s.insert (key ip port is_read) cs
          else s.delete cs
  | .delete cs, _, s' => s' = s.delete cs
  | _, _, s' => s' = s

end Pool

/-- A call on a file, with what its locals happen to hold. -/
inductive FileUse
  | read (rounds : ℕ) (stale : ℕ → ℕ) (self : File) (buf : Buffer) (count : ℕ)
  | write (rounds : ℕ) (self : File) (data : Bytes)

/-- A process that reads and writes files, one call after the other. -/
def poolSystem (crc_32 : Bytes → UInt32) :
    System FileCall FileCall.Answer Unit Pool Unit FileUse where
  sem _ o s a s' := s.Sem o a s'
  enabled _ _ _ _ := true
  body _ _ use :=
    match use with
    | .read rounds stale self buf count => do
        let _ ← self.read crc_32 rounds stale buf count
        pure ()
    | .write rounds self data => do
        let _ ← self.write crc_32 rounds data
        pure ()

/-- At first the pool is empty and nothing runs. -/
def PoolInit (c : Config FileCall FileCall.Answer Unit Pool Unit) : Prop :=
  c.shared = {} ∧ ∀ i, c.thread i = .ret ()

end Moose

end BundleStore
