import BundleStore.Lib.Attempts
import BundleStore.Model.MasterServer

set_option autoImplicit false

/-!
# The loop of `Lookup` over its buffer

SOURCE: src/mooseclient/moose.cc:495-531

`MasterServer.lookupPath` goes over the components of a path. The source goes over a copy of the
path with two pointers, and stores a NUL at each slash. Here a pointer is an index of the copy, and
no index is `NULL`.
-/

namespace BundleStore

namespace Moose

namespace MasterServer

/-- The string of C that begins at `p`. -/
def cString (to_free : Bytes) (p : ℕ) : Bytes :=
  (to_free.drop p).takeWhile (· != 0)

/-- `strchr` for a byte other than NUL. -/
def strchr (to_free : Bytes) (p : ℕ) (c : UInt8) : Option ℕ :=
  ((cString to_free p).findIdx? (· == c)).map (p + ·)

def strdup (name : Bytes) : Bytes :=
  name.takeWhile (· != 0) ++ [0]

/-- The variables of `Lookup`. `attr_temp` has no value before it is stored. -/
structure PathCursor where
  to_free : Bytes
  copy : ℕ
  inode_temp : ℕ
  attr_temp : FileAttribute

/-- `copy = slash + 1`, and whether `slash` ends the loop. -/
def PathCursor.next (cursor : PathCursor) (slash : Option ℕ) :
    PathCursor ⊕ (ℤ × ℕ × FileAttribute) :=
  match slash with
  | some slash => .inl { cursor with copy := slash + 1 }
  | none => .inr (STATUS_OK, cursor.inode_temp, cursor.attr_temp)

/-- `if (slash) *slash = 0` -/
def storeNul (to_free : Bytes) (slash : Option ℕ) : Bytes :=
  match slash with
  | some slash => to_free.set slash 0
  | none => to_free

/-- One pass of the loop. -/
def lookupRound (cursor : PathCursor) : Master (PathCursor ⊕ (ℤ × ℕ × FileAttribute)) :=
  let slash := strchr cursor.to_free cursor.copy 47
  let to_free := storeNul cursor.to_free slash
  let cursor := { cursor with to_free := to_free }
  if slash ≠ some cursor.copy ∧ to_free.getD cursor.copy 0 ≠ 0 then do
    let inode_parent := cursor.inode_temp
    let (ret, out) ← lookup inode_parent (cString to_free cursor.copy) true true
    let inode_temp := out.inode.getD cursor.inode_temp
    let attr_temp := out.attr.getD cursor.attr_temp
    if ret ≠ STATUS_OK then pure (.inr (ret, inode_temp, attr_temp))
    else pure ({ cursor with inode_temp := inode_temp, attr_temp := attr_temp }.next slash)
  else pure (cursor.next slash)

/-- The outputs of `Lookup(name, inode, attr)` are stored on success. -/
def pathOutputs (inode attr : Bool) (result : ℤ × ℕ × FileAttribute) : RpcResult :=
  if result.1 ≠ STATUS_OK then (result.1, {})
  else
    (STATUS_OK,
      { inode := if inode then some result.2.1 else none
        attr := if attr then some result.2.2 else none })

/-- `Lookup(name, inode, attr)`, with a number of passes of its loop; `uninit` is what
`attr_temp` holds at the start. -/
def lookupName (name : Bytes) (inode attr : Bool) (uninit : FileAttribute) (rounds : ℕ) :
    Master (Option RpcResult) := do
  let cursor : PathCursor :=
    { to_free := strdup name, copy := 0, inode_temp := MFS_ROOT_ID, attr_temp := uninit }
  let result ← Prog.attempts lookupRound rounds cursor
  pure (result.map (pathOutputs inode attr))

end MasterServer

end Moose

end BundleStore
