import Mathlib.Logic.Function.Basic

set_option autoImplicit false

/-!
# The message queue

SOURCE: src/base3/messagequeue.h

What is done under the mutex is one step, and so is each access to a member without it: the test
of `quit_` and its assignment, the notification, running and deleting a message, and the two halves
of `++ processed_`. A waiting thread may wake without a notification. What a message posts while
it runs is posted by a thread of its own.
-/

namespace BundleStore

/-- The members; a message is what its pointer points at. -/
structure MessageQueue (M : Type) where
  message_queue_ : List M := []
  queue_size_ : UInt64 := 0
  busy_ : UInt64 := 0
  quit_ : Bool := false
  processed_ : UInt64 := 0
  deriving DecidableEq

namespace MessageQueue

variable {ι M : Type}

/-- Where a thread stands: outside, behind the block of `Post`, behind the assignment of `Close`,
in `Process` before its test, before its block, in its `wait`, and before `ProcessAll`, and in
`ProcessAll` with the mutex released. -/
inductive Pc (M : Type)
  | outside
  | posted
  | closing
  | testing
  | entering
  | waiting
  | woken
  | processing
  | holding (p : M)
  | ran (p : M)
  | deleted
  | counting (processed : UInt64)
  | relocking
  deriving DecidableEq

/-- What is told of the messages, and when a `Close` returns. -/
inductive Event (M : Type)
  | posted (m : M)
  | taken (m : M)
  | ran (m : M)
  | deleted (m : M)
  | closed
  deriving DecidableEq

inductive Call (M : Type)
  | post (m : M)
  | postRange (ms : List M)
  | close
  | process

/-- What a step of a thread leaves behind. -/
structure Effect (M : Type) where
  self : MessageQueue M
  pc : Pc M
  events : List (Event M) := []
  notifyAll : Bool := false

/-- `message_queue_.push_back(m); ++ queue_size_;` -/
def push (self : MessageQueue M) (m : M) : MessageQueue M :=
  { self with
    message_queue_ := self.message_queue_ ++ [m]
    queue_size_ := self.queue_size_ + 1 }

/-- The first step of a call. -/
def call (self : MessageQueue M) : Call M → Effect M
  | .post m => { self := self.push m, pc := .posted, events := [.posted m] }
  | .postRange ms => { self := ms.foldl push self, pc := .posted, events := ms.map .posted }
  | .close => { self := { self with quit_ := true }, pc := .closing }
  | .process => { self := self, pc := .testing }

/-- The loop of `ProcessAll` from its condition to the release of the mutex. -/
def take (self : MessageQueue M) : Effect M :=
  match self.message_queue_ with
  | [] => { self := { self with busy_ := self.queue_size_ }, pc := .testing }
  | p :: rest =>
      { self := { self with message_queue_ := rest, queue_size_ := self.queue_size_ - 1 }
        pc := .holding p
        events := [.taken p] }

/-- The next step of a thread inside a call; there is none outside and in `wait`. -/
def go (self : MessageQueue M) : Pc M → Option (Effect M)
  | .outside => none
  | .posted => some { self := self, pc := .outside, notifyAll := true }
  | .closing => some { self := self, pc := .outside, events := [.closed], notifyAll := true }
  | .testing => some { self := self, pc := if self.quit_ then .outside else .entering }
  | .entering =>
      some { self := self, pc := if self.message_queue_.isEmpty then .waiting else .processing }
  | .waiting => none
  | .woken => some { self := self, pc := .processing }
  | .processing => some { self with busy_ := self.queue_size_ }.take
  | .holding p => some { self := self, pc := .ran p, events := [.ran p] }
  | .ran p => some { self := self, pc := .deleted, events := [.deleted p] }
  | .deleted => some { self := self, pc := .counting self.processed_ }
  | .counting n => some { self := { self with processed_ := n + 1 }, pc := .relocking }
  | .relocking => some self.take

/-- A notification reaches those who wait. -/
def Pc.wake : Pc M → Pc M
  | .waiting => .woken
  | pc => pc

/-- The queue, its threads, and what has happened so far. -/
structure Config (ι M : Type) where
  self : MessageQueue M
  pc : ι → Pc M
  history : List (ι × Event M)

/-- A new queue, and nobody uses it. -/
def initial (ι M : Type) : Config ι M :=
  ⟨{}, fun _ => .outside, []⟩

/-- What a thread can do: call, go on, or wake without a notification. -/
inductive Move (M : Type)
  | call (c : Call M)
  | go
  | wake

namespace Config

variable [DecidableEq ι]

def apply (s : Config ι M) (i : ι) (e : Effect M) : Config ι M where
  self := e.self
  pc := Function.update (if e.notifyAll then fun j => (s.pc j).wake else s.pc) i e.pc
  history := s.history ++ e.events.map fun event => (i, event)

def move (s : Config ι M) (i : ι) : Move M → Option (Config ι M)
  | .call c =>
      match s.pc i with
      | .outside => some (s.apply i (s.self.call c))
      | _ => none
  | .go => (s.self.go (s.pc i)).map (s.apply i)
  | .wake =>
      match s.pc i with
      | .waiting => some { s with pc := Function.update s.pc i .woken }
      | _ => none

/-- One step of any thread. -/
def Step (s s' : Config ι M) : Prop :=
  ∃ i m, s.move i m = some s'

/-- A run by its moves, each with the thread that makes it; what a thread cannot do is left out. -/
def run (s : Config ι M) (moves : List (ι × Move M)) : Config ι M :=
  moves.foldl (fun s m => (s.move m.1 m.2).getD s) s

end Config

end MessageQueue

end BundleStore
