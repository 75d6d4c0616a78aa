import BundleStore.Model.Cached
import Mathlib.Data.List.Nodup

set_option autoImplicit false

/-!
# Who owns a connection to a chunk server

A connection is in the pool, with a caller, or deleted. `File::Read` breaks this
on one of its paths: when `ReadBlock` has failed it deletes the object, and
unless the client has registered within the last ten seconds it goes on to give
the object back. `Cached::Create` reads the pointer from a node that it has erased.
-/

namespace BundleStore

namespace Moose

open Machine

namespace Pool

/-- What is asked of the pool in every state. -/
structure Sound (s : Pool) : Prop where
  alive : ∀ key cs, s.map_ key = some cs → cs.id ∉ s.deleted
  not_in_use : ∀ key cs, s.map_ key = some cs → cs.id ∉ s.inUse
  deleted_once : s.deleted.Nodup

/-- What is asked of a `Create` that gives a connection: it is a new one, or it
was alive in the pool and the pool has it no more. -/
def CreateSound (s : Pool) (cs : ChunkServer) (s' : Pool) : Prop :=
  cs.id = s.made ∨
    (∃ key, s.map_ key = some cs) ∧ cs.id ∉ s.deleted ∧
      ∀ key pooled, s'.map_ key = some pooled → pooled.id ≠ cs.id

/-- Every object made so far is in one place at most. -/
structure Owned (s : Pool) : Prop extends Sound s where
  one_key : ∀ key key' cs cs', s.map_ key = some cs → s.map_ key' = some cs' →
    cs.id = cs'.id → key = key'
  pooled_made : ∀ key cs, s.map_ key = some cs → cs.id < s.made
  used_made : ∀ id ∈ s.inUse, id < s.made
  deleted_made : ∀ id ∈ s.deleted, id < s.made
  used_alive : ∀ id ∈ s.inUse, id ∉ s.deleted
  used_once : s.inUse.Nodup

/-- No `ReadBlock` fails but within ten seconds of the registration, and the erased
node still holds its pointer when `Create` reads it. -/
def Undisturbed (_ : Unit) : (o : FileCall) → Pool → o.Answer → Pool → Prop
  | .create ip port is_read, s, a, _ =>
      is_read = true → ∀ pooled, s.map_ (key ip port is_read) = some pooled → a = some pooled
  | .sinceRegistered .readFailed, _, elapsed, _ => elapsed < 10
  | _, _, _, _ => True

variable {s s' : Pool} {cs : ChunkServer} {key : ℕ}

/-- At the start nothing is pooled and nothing is lost. -/
theorem owned_empty : Owned {} := by
  constructor
  · constructor <;> simp
  all_goals simp

/-! ## What a call does -/

namespace Owned

/-- A connection handed out of the pool is in use and pooled no more.
SOURCE: moose.cc:768-786 -/
theorem handOut (h : Owned s) (hpooled : s.map_ key = some cs) : Owned (s.handOut key cs) := by
  have hother : ∀ key' cs', (s.handOut key cs).map_ key' = some cs' →
      key' ≠ key ∧ s.map_ key' = some cs' := by
    intro key' cs' hk
    by_cases heq : key' = key
    · subst heq
      simp [Pool.handOut] at hk
    · simpa [Pool.handOut, heq] using hk
  constructor
  · constructor
    · intro key' cs' hk
      exact h.alive key' cs' (hother key' cs' hk).2
    · intro key' cs' hk hused
      obtain ⟨hne, hmap⟩ := hother key' cs' hk
      obtain heq | hold := List.mem_cons.mp hused
      · exact hne (h.one_key key' key cs' cs hmap hpooled heq)
      · exact h.not_in_use key' cs' hmap hold
    · exact h.deleted_once
  · intro key₁ key₂ cs₁ cs₂ h₁ h₂
    exact h.one_key key₁ key₂ cs₁ cs₂ (hother _ _ h₁).2 (hother _ _ h₂).2
  · intro key' cs' hk
    exact h.pooled_made key' cs' (hother _ _ hk).2
  · intro id hid
    obtain rfl | hid := List.mem_cons.mp hid
    · exact h.pooled_made key cs hpooled
    · exact h.used_made id hid
  · exact h.deleted_made
  · intro id hid
    obtain rfl | hid := List.mem_cons.mp hid
    · exact h.alive key cs hpooled
    · exact h.used_alive id hid
  · exact List.nodup_cons.mpr ⟨h.not_in_use key cs hpooled, h.used_once⟩

/-- A new connection is in use.
SOURCE: moose.cc:768-786 -/
theorem connected (h : Owned s) : Owned s.connected := by
  have hnew : ∀ id, id < s.made → id ≠ s.made := fun id hid => hid.ne
  constructor
  · constructor
    · exact h.alive
    · intro key cs hk hused
      obtain heq | hold := List.mem_cons.mp hused
      · exact hnew _ (h.pooled_made key cs hk) heq
      · exact h.not_in_use key cs hk hold
    · exact h.deleted_once
  · exact h.one_key
  · intro key cs hk
    exact (h.pooled_made key cs hk).trans (Nat.lt_succ_self _)
  · intro id hid
    obtain rfl | hid := List.mem_cons.mp hid
    · exact Nat.lt_succ_self _
    · exact (h.used_made id hid).trans (Nat.lt_succ_self _)
  · intro id hid
    exact (h.deleted_made id hid).trans (Nat.lt_succ_self _)
  · intro id hid hdel
    obtain rfl | hid := List.mem_cons.mp hid
    · exact hnew _ (h.deleted_made _ hdel) rfl
    · exact h.used_alive id hid hdel
  · refine List.nodup_cons.mpr ⟨?_, h.used_once⟩
    intro hused
    exact hnew _ (h.used_made _ hused) rfl

/-- A connection that fails leaves nothing behind.
SOURCE: moose.cc:768-786 -/
theorem unconnected (h : Owned s) : Owned s.unconnected := by
  have hnew : ∀ id, id < s.made → id ≠ s.made := fun id hid => hid.ne
  constructor
  · constructor
    · intro key cs hk hdel
      obtain heq | hold := List.mem_cons.mp hdel
      · exact hnew _ (h.pooled_made key cs hk) heq
      · exact h.alive key cs hk hold
    · exact h.not_in_use
    · refine List.nodup_cons.mpr ⟨?_, h.deleted_once⟩
      intro hdel
      exact hnew _ (h.deleted_made _ hdel) rfl
  · exact h.one_key
  · intro key cs hk
    exact (h.pooled_made key cs hk).trans (Nat.lt_succ_self _)
  · intro id hid
    exact (h.used_made id hid).trans (Nat.lt_succ_self _)
  · intro id hid
    obtain rfl | hid := List.mem_cons.mp hid
    · exact Nat.lt_succ_self _
    · exact (h.deleted_made id hid).trans (Nat.lt_succ_self _)
  · intro id hid hdel
    obtain rfl | hold := List.mem_cons.mp hdel
    · exact hnew _ (h.used_made _ hid) rfl
    · exact h.used_alive id hid hold
  · exact h.used_once

/-- A deleted connection is in use no more. -/
theorem delete (h : Owned s) (hused : cs.id ∈ s.inUse) : Owned (s.delete cs) := by
  constructor
  · constructor
    · intro key pooled hk hdel
      obtain heq | hold := List.mem_cons.mp hdel
      · exact h.not_in_use key pooled hk (heq ▸ hused)
      · exact h.alive key pooled hk hold
    · intro key pooled hk hin
      exact h.not_in_use key pooled hk (List.mem_of_mem_erase hin)
    · exact List.nodup_cons.mpr ⟨h.used_alive cs.id hused, h.deleted_once⟩
  · exact h.one_key
  · exact h.pooled_made
  · intro id hid
    exact h.used_made id (List.mem_of_mem_erase hid)
  · intro id hid
    obtain rfl | hid := List.mem_cons.mp hid
    · exact h.used_made _ hused
    · exact h.deleted_made id hid
  · intro id hid hdel
    obtain rfl | hold := List.mem_cons.mp hdel
    · exact h.used_once.not_mem_erase hid
    · exact h.used_alive id (List.mem_of_mem_erase hid) hold
  · exact h.used_once.erase _

/-- A connection put into the pool is in use no more.
SOURCE: moose.cc:792-806 -/
theorem insert (h : Owned s) (hused : cs.id ∈ s.inUse) : Owned (s.insert key cs) := by
  have hpooled : ∀ key' cs', (s.insert key cs).map_ key' = some cs' →
      (key' = key ∧ cs' = cs) ∨ (key' ≠ key ∧ s.map_ key' = some cs') := by
    intro key' cs' hk
    by_cases heq : key' = key
    · subst heq
      exact .inl ⟨rfl, by simpa [Pool.insert, eq_comm] using hk⟩
    · exact .inr ⟨heq, by simpa [Pool.insert, heq] using hk⟩
  have hother : ∀ key' cs', s.map_ key' = some cs' → cs'.id ≠ cs.id := by
    intro key' cs' hk heq
    exact h.not_in_use key' cs' hk (heq ▸ hused)
  constructor
  · constructor
    · intro key' cs' hk
      obtain ⟨-, rfl⟩ | ⟨-, hmap⟩ := hpooled key' cs' hk
      · exact h.used_alive _ hused
      · exact h.alive key' cs' hmap
    · intro key' cs' hk hin
      obtain ⟨-, rfl⟩ | ⟨-, hmap⟩ := hpooled key' cs' hk
      · exact h.used_once.not_mem_erase hin
      · exact h.not_in_use key' cs' hmap (List.mem_of_mem_erase hin)
    · exact h.deleted_once
  · intro key₁ key₂ cs₁ cs₂ h₁ h₂ heq
    obtain ⟨rfl, rfl⟩ | ⟨-, hmap₁⟩ := hpooled key₁ cs₁ h₁
    · obtain ⟨rfl, -⟩ | ⟨-, hmap₂⟩ := hpooled key₂ cs₂ h₂
      · rfl
      · exact absurd heq.symm (hother key₂ cs₂ hmap₂)
    · obtain ⟨rfl, rfl⟩ | ⟨-, hmap₂⟩ := hpooled key₂ cs₂ h₂
      · exact absurd heq (hother key₁ cs₁ hmap₁)
      · exact h.one_key key₁ key₂ cs₁ cs₂ hmap₁ hmap₂ heq
  · intro key' cs' hk
    obtain ⟨-, rfl⟩ | ⟨-, hmap⟩ := hpooled key' cs' hk
    · exact h.used_made _ hused
    · exact h.pooled_made key' cs' hmap
  · intro id hid
    exact h.used_made id (List.mem_of_mem_erase hid)
  · exact h.deleted_made
  · intro id hid
    exact h.used_alive id (List.mem_of_mem_erase hid)
  · exact h.used_once.erase _

/-- What `Create` hands out is then in use, and it is new or was pooled. -/
theorem create {ip port : ℕ} {is_read : Bool} {a : Option ChunkServer} (h : Owned s)
    (hsem : s.Sem (.create ip port is_read) a s')
    (hkept : Undisturbed () (.create ip port is_read) s a s') :
    Owned s' ∧ ∀ cs, a = some cs → cs.id ∈ s'.inUse ∧ s.CreateSound cs s' := by
  obtain ⟨pooled, found, hread, hmap, rfl, rfl⟩ | ⟨-, ⟨rfl, rfl⟩ | ⟨socket_, rfl, rfl⟩⟩ := hsem
  · obtain rfl : found = pooled := Option.some.inj (hkept hread pooled hmap)
    have howned := h.handOut hmap
    refine ⟨howned, ?_⟩
    rintro cs ⟨⟩
    have hin : found.id ∈ (s.handOut (Pool.key ip port is_read) found).inUse :=
      List.mem_cons_self
    refine ⟨hin, .inr ⟨⟨_, hmap⟩, h.alive _ _ hmap, ?_⟩⟩
    intro key' pooled hk heq
    exact howned.not_in_use key' pooled hk (heq ▸ hin)
  · refine ⟨h.unconnected, ?_⟩
    rintro cs ⟨⟩
  · refine ⟨h.connected, ?_⟩
    rintro cs ⟨⟩
    exact ⟨List.mem_cons_self, .inl rfl⟩

/-- A connection that is given back is pooled or deleted.
SOURCE: moose.cc:792-806 -/
theorem giveBack {is_read : Bool} (h : Owned s) (hused : cs.id ∈ s.inUse)
    (hsem : s.Sem (.giveBack cs is_read) () s') : Owned s' := by
  obtain ⟨ip, port, -, rfl⟩ := hsem
  split
  · exact h.insert hused
  · exact h.delete hused

end Owned

/-! ## The calls of a file -/

/-- The pool has one owner at a time: nobody else steps while a call is under way. -/
def discipline : Discipline Unit Pool where
  Inv := Owned
  Frame _ s s' := s = s'
  frame_refl _ _ := rfl
  frame_trans _ _ _ _ h h' := h.trans h'

variable {crc_32 : Bytes → UInt32}

/-- The runs that meet the condition. -/
abbrev undisturbed (crc_32 : Bytes → UInt32) :
    System FileCall FileCall.Answer Unit Pool Unit FileUse :=
  (poolSystem crc_32).restrict Undisturbed fun _ _ _ _ => true

/-- Every fact is stable where nobody else is at work. -/
theorem stable (P : Pool → Prop) : discipline.Stable () P := by
  rintro s s' - - rfl hP
  exact hP

/-- Every step to a state that is owned is allowed. -/
theorem allowed (h : Owned s') : discipline.Allowed () s s' :=
  ⟨h, fun _ hj => absurd rfl hj⟩

/-- The calls that have nothing to do with the pool. -/
def Elsewhere : FileCall → Prop
  | .master _ | .net _ | .sleep => True
  | _ => False

variable {α : Type} {P : Pool → Prop} {Q : α → Pool → Prop}

/-- Calls that touch no pool keep what is true of it. -/
theorem triple_elsewhere {p : Client α} (hcalls : p.Calls Elsewhere) :
    discipline.Triple (undisturbed crc_32).sem () P p fun _ => P := by
  refine (Discipline.Triple.of_calls hcalls p.returns_true (stable P) ?_).post fun _ _ _ h => h.2
  intro o ho s a s' hs hP hsem
  have hsame : s' = s := by
    cases o <;> first | exact hsem.1 | cases ho
  subst hsame
  exact ⟨allowed hs, hP⟩

/-- A call of the master keeps what is true of the pool. -/
theorem triple_onMaster (p : Master α) :
    discipline.Triple (undisturbed crc_32).sem () P (onMaster p) fun _ => P :=
  triple_elsewhere (Prog.calls_embed p.calls_true)

/-- A call on the network keeps what is true of the pool. -/
theorem triple_onNet (p : Net α) :
    discipline.Triple (undisturbed crc_32).sem () P (onNet p) fun _ => P :=
  triple_elsewhere (Prog.calls_embed p.calls_true)

/-- A pause keeps what is true of the pool. -/
theorem triple_sleep :
    discipline.Triple (undisturbed crc_32).sem () P (Prog.op FileCall.sleep) fun _ => P :=
  triple_elsewhere ⟨trivial, fun _ => trivial⟩

/-- Nothing follows a loop that does not end. -/
theorem triple_forever :
    discipline.Triple (undisturbed crc_32).sem () P
      (.call (.net .forever) Empty.elim : Client α) Q := by
  intro s hs hP s₁ hs₁ hf a
  cases a

/-- A connection that `Create` returns is in use. -/
theorem triple_create (ip port : ℕ) (is_read : Bool) :
    discipline.Triple (undisturbed crc_32).sem () P (Prog.op (FileCall.create ip port is_read))
      fun a s => ∀ cs, a = some cs → cs.id ∈ s.inUse := by
  refine Discipline.Triple.op (stable P) ?_
  rintro s a s' hs - hsem
  obtain ⟨howned, hcreated⟩ := Owned.create hs hsem.1 hsem.2
  exact ⟨allowed howned, fun cs hcs => (hcreated cs hcs).1⟩

/-- A connection in use may be given back. -/
theorem triple_giveBack (cs : ChunkServer) (is_read : Bool) :
    discipline.Triple (undisturbed crc_32).sem () (fun s => cs.id ∈ s.inUse)
      (Prog.op (FileCall.giveBack cs is_read)) fun _ _ => True := by
  refine Discipline.Triple.op (stable _) ?_
  intro s a s' hs hused hsem
  exact ⟨allowed (Owned.giveBack hs hused hsem.1), trivial⟩

/-- A connection in use may be deleted. -/
theorem triple_delete (cs : ChunkServer) :
    discipline.Triple (undisturbed crc_32).sem () (fun s => cs.id ∈ s.inUse)
      (Prog.op (FileCall.delete cs)) fun _ _ => True := by
  refine Discipline.Triple.op (stable _) ?_
  rintro s a s' hs hused ⟨rfl, -⟩
  exact ⟨allowed (Owned.delete hs hused), trivial⟩

/-- The seconds since the registration leave the pool as it is. -/
theorem triple_sinceRegistered (site : ClockSite) :
    discipline.Triple (undisturbed crc_32).sem () P (Prog.op (FileCall.sinceRegistered site))
      fun elapsed s => (site = .readFailed → (elapsed : ℤ) < 10) ∧ P s := by
  refine Discipline.Triple.op (stable P) ?_
  rintro s a s' hs hP ⟨rfl, hkept⟩
  refine ⟨allowed hs, ?_, hP⟩
  rintro rfl
  exact hkept

/-! ### Reading -/

/-- The server that is found for a read is in use.
SOURCE: moose.cc:1482-1491 -/
theorem triple_findServer (locations : List Location) :
    discipline.Triple (undisturbed crc_32).sem () P (File.findServer locations)
      fun r s => ∀ cs, r = some cs → cs.id ∈ s.inUse := by
  induction locations generalizing P with
  | nil => exact Discipline.Triple.ret fun s _ _ cs hcs => by cases hcs
  | cons loc rest ih =>
      refine Discipline.Triple.bind (triple_create loc.ip loc.port true) ?_
      intro a
      cases a with
      | none => exact ih
      | some cs => exact Discipline.Triple.ret fun s _ h => h

/-- A read gives back every connection it takes, by induction on the rounds that are left.
SOURCE: moose.cc:1451-1523 -/
theorem triple_readLoop (stale : ℕ → ℕ) (self : File) (rounds : ℕ) :
    ∀ end_ write_position chunk_index buf pos,
      discipline.Triple (undisturbed crc_32).sem () (fun _ => True)
        (File.readLoop crc_32 stale self rounds end_ write_position chunk_index buf pos)
        fun _ _ => True := by
  induction rounds with
  | zero => exact fun _ _ _ _ _ => triple_forever
  | succ rounds ih =>
      intro end_ write_position chunk_index buf pos
      refine Discipline.Triple.bind (triple_onMaster _) ?_
      rintro ⟨status, out⟩
      refine Discipline.Triple.ite (fun _ => .ret fun _ _ _ => trivial) fun _ => ?_
      refine Discipline.Triple.ite (fun _ => .ret fun _ _ _ => trivial) fun _ => ?_
      refine Discipline.Triple.ite (fun _ => ?_) fun _ => ?_
      · refine Discipline.Triple.bind (triple_sinceRegistered .noLocation) fun elapsed => ?_
        refine Discipline.Triple.ite (fun _ => ?_) fun _ => .ret fun _ _ _ => trivial
        exact Discipline.Triple.bind triple_sleep fun _ => (ih _ _ _ _ _).pre fun _ _ _ => trivial
      · refine Discipline.Triple.bind (triple_findServer _) ?_
        rintro (_ | cs)
        · exact .ret fun _ _ _ => trivial
        · have hnext : ∀ (buf : Buffer) (end_ write_position chunk_size : ℕ),
              discipline.Triple (undisturbed crc_32).sem () (fun s => cs.id ∈ s.inUse)
                (do
                  Prog.op (FileCall.giveBack cs true)
                  let write_position := uint64 (write_position + chunk_size)
                  if end_ ≤ write_position then pure (some write_position, buf)
                  else
                    File.readLoop crc_32 stale self rounds end_ write_position
                      (int32 (chunk_index + 1))
                      buf (pos + chunk_size))
                fun _ _ => True := by
            intro buf end_ write_position chunk_size
            refine Discipline.Triple.bind (triple_giveBack cs true) fun _ => ?_
            exact Discipline.Triple.ite (fun _ => .ret fun _ _ _ => trivial) fun _ => ih _ _ _ _ _
          refine Discipline.Triple.bind ((triple_onNet _).pre fun s _ h => h cs rfl) ?_
          rintro ⟨ret, buf⟩
          refine Discipline.Triple.ite (fun _ => ?_) fun _ => hnext _ _ _ _
          refine Discipline.Triple.bind (triple_delete cs) fun _ => ?_
          refine Discipline.Triple.bind (triple_sinceRegistered .readFailed) fun elapsed => ?_
          refine Discipline.Triple.ite (fun _ => ?_) fun hlate => ?_
          · exact Discipline.Triple.bind triple_sleep fun _ =>
              (ih _ _ _ _ _).pre fun _ _ _ => trivial
          · -- outside the ten seconds the deleted object would be given back
            rintro s - ⟨hearly, -⟩
            exact absurd (hearly rfl) hlate

/-- A read keeps the pool owned.
SOURCE: moose.cc:1442-1529 -/
theorem triple_read (rounds : ℕ) (stale : ℕ → ℕ) (self : File) (buf : Buffer) (count : ℕ) :
    discipline.Triple (undisturbed crc_32).sem () (fun _ => True)
      (self.read crc_32 rounds stale buf count) fun _ _ => True := by
  refine Discipline.Triple.ite (fun _ => .ret fun _ _ _ => trivial) fun _ => ?_
  refine Discipline.Triple.bind (triple_readLoop stale self rounds _ _ _ _ _) ?_
  rintro ⟨_ | write_position, buf⟩ <;> exact .ret fun _ _ _ => trivial

/-! ### Writing -/

/-- The server that is found for a write is in use.
SOURCE: moose.cc:1373-1383 -/
theorem triple_findWriter (loc : Location) :
    discipline.Triple (undisturbed crc_32).sem () P (File.writeLoop.findWriter loc)
      fun r s => ∀ cs, r = some cs → cs.id ∈ s.inUse := by
  refine Discipline.Triple.bind (triple_create loc.ip loc.port false) ?_
  rintro (_ | cs)
  · exact triple_create loc.ip loc.port false
  · exact .ret fun s _ h => h

/-- When the blocks have been written the server is still the caller's. -/
theorem triple_writeBlocks (cs : ChunkServer) (chunk : Chunk) (chunk_offset chunk_size : ℕ)
    (data : Bytes) (rounds : ℕ) :
    ∀ chunk_pos blockno writeid pos,
      discipline.Triple (undisturbed crc_32).sem () (fun s => cs.id ∈ s.inUse)
        (File.writeBlocks crc_32 cs chunk chunk_offset chunk_size data rounds chunk_pos blockno
          writeid
          pos)
        fun r s => r.isSome = true → cs.id ∈ s.inUse := by
  induction rounds with
  | zero => exact fun _ _ _ _ => triple_forever
  | succ rounds ih =>
      intro chunk_pos blockno writeid pos
      refine Discipline.Triple.bind (triple_onNet _) fun ret => ?_
      refine Discipline.Triple.ite (fun _ => ?_) fun _ => ?_
      · refine Discipline.Triple.bind (triple_delete cs) fun _ => .ret ?_
        intro s _ _ hsome
        cases hsome
      · exact Discipline.Triple.ite (fun _ => .ret fun _ _ h _ => h) fun _ => ih _ _ _ _

/-- A write gives back every connection it takes, by induction on the rounds that are left.
SOURCE: moose.cc:1358-1437 -/
theorem triple_writeLoop (self : File) (end_ : ℕ) (data : Bytes) (rounds : ℕ) :
    ∀ write_position chunk_index pos,
      discipline.Triple (undisturbed crc_32).sem () (fun _ => True)
        (File.writeLoop crc_32 self end_ data rounds write_position chunk_index pos)
        fun _ _ => True := by
  induction rounds with
  | zero => exact fun _ _ _ => triple_forever
  | succ rounds ih =>
      intro write_position chunk_index pos
      refine Discipline.Triple.bind (triple_onMaster _) ?_
      rintro ⟨status, out⟩
      refine Discipline.Triple.ite (fun _ => .ret fun _ _ _ => trivial) fun _ => ?_
      dsimp only
      cases (out.chunk.getD {}).location with
      | nil => exact triple_forever
      | cons loc rest =>
          refine Discipline.Triple.bind (triple_findWriter loc) ?_
          rintro (_ | cs)
          · exact .ret fun _ _ _ => trivial
          refine Discipline.Triple.bind ((triple_onNet _).pre fun s _ h => h cs rfl) ?_
          rintro ⟨ret, writeid⟩
          refine Discipline.Triple.ite (fun _ => .ret fun _ _ _ => trivial) fun _ => ?_
          refine Discipline.Triple.bind (triple_writeBlocks cs _ _ _ _ _ _ _ _ _) ?_
          rintro (_ | pos)
          · exact .ret fun _ _ _ => trivial
          refine Discipline.Triple.bind
            ((triple_giveBack cs false).pre fun s _ h => h rfl) fun _ => ?_
          refine Discipline.Triple.bind (triple_onMaster _) ?_
          rintro ⟨ret, out⟩
          refine Discipline.Triple.ite (fun _ => .ret fun _ _ _ => trivial) fun _ => ?_
          exact Discipline.Triple.ite (fun _ => .ret fun _ _ _ => trivial) fun _ => ih _ _ _

/-- A write keeps the pool owned.
SOURCE: moose.cc:1351-1440 -/
theorem triple_write (rounds : ℕ) (self : File) (data : Bytes) :
    discipline.Triple (undisturbed crc_32).sem () (fun _ => True) (self.write crc_32 rounds data)
      fun _ _ => True := by
  refine Discipline.Triple.bind (triple_writeLoop self _ data rounds _ _ _) ?_
  rintro (_ | write_position) <;> exact .ret fun _ _ _ => trivial

/-! ## Whole runs -/

/-- Every use of a file keeps the pool owned. -/
theorem triple_body (use : FileUse) :
    discipline.Triple (undisturbed crc_32).sem ()
      (fun s => (undisturbed crc_32).enabled () () use s = true ∧ True)
      ((undisturbed crc_32).body () () use) fun _ _ => True := by
  cases use with
  | read rounds stale self buf count =>
      exact Discipline.Triple.bind ((triple_read rounds stale self buf count).pre
        fun _ _ _ => trivial) fun _ => .ret fun _ _ _ => trivial
  | write rounds self data =>
      exact Discipline.Triple.bind ((triple_write rounds self data).pre
        fun _ _ _ => trivial) fun _ => .ret fun _ _ _ => trivial

/-- In every reachable state of undisturbed runs the pool is owned. -/
theorem reachable_owned {c : Config FileCall FileCall.Answer Unit Pool Unit}
    (hc : (undisturbed crc_32).Reachable PoolInit c) : c.shared.Owned := by
  refine (Discipline.reachable_safe (D := discipline) (J := fun _ _ _ => True) ?_ ?_ ?_ hc).1
  · intro _ _
    exact stable _
  · intro _ _ use
    exact triple_body use
  · rintro c ⟨hshared, hidle⟩
    refine ⟨hshared ▸ owned_empty, fun i => ?_⟩
    rw [hidle i]
    trivial

/-- What is asked of every state that a run reaches, and of every `Create` there. -/
structure Kept (S : System FileCall FileCall.Answer Unit Pool Unit FileUse)
    (c : Config FileCall FileCall.Answer Unit Pool Unit) : Prop where
  sound : c.shared.Sound
  create : ∀ ip port is_read k cs s', c.thread () = .call (.create ip port is_read) k →
    S.sem () (.create ip port is_read) c.shared (some cs) s' → c.shared.CreateSound cs s'

/-- **While no `ReadBlock` fails but soon after a registration, the pool is sound.**
SOURCE: moose.cc:766-810, 1351-1529 -/
theorem pool_kept {c : Config FileCall FileCall.Answer Unit Pool Unit}
    (hc : ((poolSystem crc_32).restrict Undisturbed fun _ _ _ _ => true).Reachable PoolInit c) :
    Kept ((poolSystem crc_32).restrict Undisturbed fun _ _ _ _ => true) c := by
  have howned := reachable_owned hc
  refine ⟨howned.toSound, ?_⟩
  intro ip port is_read k cs s' _ hsem
  exact ((Owned.create howned hsem.1 hsem.2).2 cs rfl).2

/-! ## Two runs -/

/-- A reply that names one chunk, on one server. -/
def oneLocation : Reply := ⟨26, fun _ => 0⟩

def server : ChunkServer := ⟨0, 3, 0, 0⟩

def newMemory : { mem : Bytes // mem.length = 20 } := ⟨List.replicate 20 0, rfl⟩

/-- The end of the blocks, of chunk zero. -/
def statusHeader : Received 8 :=
  ⟨8, put32bit CSTOCU_READ_STATUS ++ put32bit 9, rfl, by decide⟩

def statusOk : Received 9 := ⟨9, List.replicate 9 0, rfl, by decide⟩

def emptyRead : FileUse := .read 2 (fun _ => 0) ⟨0, 1, false⟩ {} 0

def noCalls : Config FileCall FileCall.Answer Unit Pool Unit := ⟨{}, fun _ => .ret ()⟩

/-- The example's network starts with an empty pool. -/
theorem noCalls_init : PoolInit noCalls := ⟨rfl, fun _ => rfl⟩

/-- After a read that was answered by a status the connection is in the pool, and
the next read takes it out again. -/
theorem pool_kept_pooled :
    ∃ c, Kept ((poolSystem bitwiseCrc).restrict Undisturbed fun _ _ _ _ => true) c ∧
      c.shared.map_ (Pool.key 0 0 true) = some server ∧
        ∃ k, c.thread () = .call (.create 0 0 true) k := by
  have h : ((poolSystem bitwiseCrc).restrict Undisturbed fun _ _ _ _ => true).Reachable PoolInit
      noCalls :=
    ⟨noCalls, noCalls_init, .refl⟩
  have h := h.start (i := ()) emptyRead rfl rfl
  have h := h.act (i := ()) (some oneLocation) _ rfl ⟨rfl, trivial⟩
  have h := h.act (i := ()) (some server) (Pool.connected {}) rfl
    ⟨.inr ⟨fun _ => rfl, .inr ⟨3, rfl, rfl⟩⟩, fun _ _ hp => by cases hp⟩
  have h := h.act (i := ()) (28 : ℤ) _ rfl ⟨rfl, trivial⟩
  have h := h.act (i := ()) (o := FileCall.net (.alloc 20)) newMemory _ rfl ⟨rfl, trivial⟩
  have h := h.act (i := ()) (o := FileCall.net (.read 3 0 8)) statusHeader _ rfl ⟨rfl, trivial⟩
  have h := h.act (i := ()) (o := FileCall.net (.read 3 0 9)) statusOk _ rfl ⟨rfl, trivial⟩
  have h := h.act (i := ()) () _ rfl ⟨⟨0, 0, fun _ => ⟨rfl, rfl⟩, rfl⟩, trivial⟩
  have h := h.start (i := ()) emptyRead rfl rfl
  have h := h.act (i := ()) (some oneLocation) _ rfl ⟨rfl, trivial⟩
  refine ⟨_, pool_kept h, ?_, _, rfl⟩
  decide

/-- A read whose `ReadBlock` fails ten seconds after the registration leaves a
deleted object in the pool. -/
theorem not_pool_kept : ¬ ∀ c, (poolSystem bitwiseCrc).Reachable PoolInit c →
    Kept (poolSystem bitwiseCrc) c := by
  intro hkept
  have h : (poolSystem bitwiseCrc).Reachable PoolInit noCalls := ⟨noCalls, noCalls_init, .refl⟩
  have h := h.start (i := ()) emptyRead rfl rfl
  have h := h.act (i := ()) (some oneLocation) _ rfl rfl
  have h := h.act (i := ()) (some server) (Pool.connected {}) rfl
    (.inr ⟨fun _ => rfl, .inr ⟨3, rfl, rfl⟩⟩)
  have h := h.act (i := ()) (-1 : ℤ) _ rfl rfl
  have h := h.act (i := ()) () _ rfl rfl
  have h := h.act (i := ()) (10 : ℤ) _ rfl rfl
  have h := h.act (i := ()) () _ rfl ⟨0, 0, fun _ => ⟨rfl, rfl⟩, rfl⟩
  exact (hkept _ h).sound.alive (Pool.key 0 0 true) server (by decide) (by decide)

end Pool

end Moose

end BundleStore
