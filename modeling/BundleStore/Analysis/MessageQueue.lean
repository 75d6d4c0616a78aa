import BundleStore.Model.MessageQueue
import Mathlib.Data.List.Induction
import Mathlib.Logic.Relation

set_option autoImplicit false

/-!
# What happens to the messages, and to the threads that wait for them

A message is in the queue, in the hands of the thread that has taken it, or deleted. Whoever has
found `quit_` unset may still begin to wait, and a `Close` wakes only those who wait already.
-/

namespace BundleStore.MessageQueue

variable {ι M : Type}

/-! ## The history of the messages -/

section History

def Event.posted? : Event M → Option M
  | .posted m => some m
  | _ => none

def Event.taken? : Event M → Option M
  | .taken m => some m
  | _ => none

def Event.ran? : Event M → Option M
  | .ran m => some m
  | _ => none

def Event.deleted? : Event M → Option M
  | .deleted m => some m
  | _ => none

/-- The messages that have been posted, in their order. -/
def posted (h : List (ι × Event M)) : List M :=
  h.filterMap fun e => e.2.posted?

/-- The messages that have been taken out, in their order. -/
def taken (h : List (ι × Event M)) : List M :=
  h.filterMap fun e => e.2.taken?

variable [DecidableEq ι]

/-- What one thread has done. -/
def own (i : ι) (h : List (ι × Event M)) : List (Event M) :=
  h.filterMap fun e => if e.1 = i then some e.2 else none

/-- The events of a thread in two histories are those in the first and those in the second. -/
theorem own_append (i : ι) (h h' : List (ι × Event M)) : own i (h ++ h') = own i h ++ own i h' :=
  List.filterMap_append ..

/-- Events that a thread has logged are its own. -/
theorem own_self (i : ι) (events : List (Event M)) :
    own i (events.map fun event => (i, event)) = events := by
  simp only [own, List.filterMap_map, Function.comp_def, if_true, List.filterMap_some]

/-- Events that a thread has logged are not another's. -/
theorem own_other {i j : ι} (hij : i ≠ j) (events : List (Event M)) :
    own j (events.map fun event => (i, event)) = [] := by
  simp [own, hij]

end History

/-- The message that a thread has taken and not run. -/
def Pc.unrun : Pc M → List M
  | .holding p => [p]
  | _ => []

/-- The message that a thread has run and not deleted. -/
def Pc.undeleted : Pc M → List M
  | .ran p => [p]
  | _ => []

/-- A thread that is woken has the same message to run. -/
@[simp] theorem unrun_wake (pc : Pc M) : pc.wake.unrun = pc.unrun := by
  cases pc <;> rfl

/-- A thread that is woken has the same message to delete. -/
@[simp] theorem undeleted_wake (pc : Pc M) : pc.wake.undeleted = pc.undeleted := by
  cases pc <;> rfl

/-! ## What a step does to the messages -/

/-- The counter is the length of the list, as a `size_t`. -/
def Counted (self : MessageQueue M) : Prop :=
  self.queue_size_ = UInt64.ofNat self.message_queue_.length

/-- A step of a thread moves messages and duplicates none. -/
structure Effect.Moves (q : MessageQueue M) (pc : Pc M) (e : Effect M) : Prop where
  queue : q.message_queue_ ++ e.events.filterMap Event.posted? =
    e.events.filterMap Event.taken? ++ e.self.message_queue_
  counted : Counted q → Counted e.self
  run : pc.unrun ++ e.events.filterMap Event.taken? =
    e.events.filterMap Event.ran? ++ e.pc.unrun
  delete : pc.undeleted ++ e.events.filterMap Event.ran? =
    e.events.filterMap Event.deleted? ++ e.pc.undeleted

/-- `Post` counts the message that it adds.
SOURCE: messagequeue.h:20-27 -/
theorem push_counted {self : MessageQueue M} (m : M) (h : Counted self) :
    Counted (self.push m) := by
  unfold Counted push at *
  rw [List.length_append, List.length_singleton, UInt64.ofNat_add, h]
  rfl

/-- Messages that are posted stand at the end of the queue in their order. -/
theorem foldl_push (self : MessageQueue M) (ms : List M) :
    (ms.foldl push self).message_queue_ = self.message_queue_ ++ ms := by
  induction ms generalizing self with
  | nil => exact (List.append_nil _).symm
  | cons m ms ih =>
      rw [List.foldl_cons, ih]
      exact List.append_assoc ..

/-- Messages that are posted are counted. -/
theorem foldl_push_counted {self : MessageQueue M} (ms : List M) (h : Counted self) :
    Counted (ms.foldl push self) := by
  induction ms generalizing self with
  | nil => exact h
  | cons m ms ih => exact ih (push_counted m h)

/-- A call from outside adds messages to the end and takes none.
SOURCE: messagequeue.h:20-50 -/
theorem call_moves (self : MessageQueue M) (c : Call M) :
    (self.call c).Moves self .outside := by
  cases c with
  | post m => exact ⟨rfl, push_counted m, rfl, rfl⟩
  | postRange ms =>
      refine ⟨?_, foldl_push_counted ms, ?_, ?_⟩
      · have hposted : (ms.map Event.posted).filterMap Event.posted? = ms := by
          rw [List.filterMap_map]
          exact List.filterMap_some
        have htaken : (ms.map Event.posted).filterMap Event.taken? = [] := by
          simp [List.filterMap_map, Function.comp_def, Event.taken?]
        change _ ++ (ms.map Event.posted).filterMap Event.posted? =
          (ms.map Event.posted).filterMap Event.taken? ++ (ms.foldl push self).message_queue_
        rw [hposted, htaken, foldl_push, List.nil_append]
      · simp [call, Pc.unrun, List.filterMap_map, Function.comp_def, Event.taken?, Event.ran?]
      · simp [call, Pc.undeleted, List.filterMap_map, Function.comp_def, Event.ran?,
          Event.deleted?]
  | close => exact ⟨by simp [call], id, rfl, rfl⟩
  | process => exact ⟨by simp [call], id, rfl, rfl⟩

/-- A worker takes the message at the front, or none.
SOURCE: messagequeue.h:72-80 -/
theorem take_moves (self : MessageQueue M) (pc : Pc M) (hrun : pc.unrun = [])
    (hdelete : pc.undeleted = []) : self.take.Moves self pc := by
  unfold take
  cases hqueue : self.message_queue_ with
  | nil =>
      refine ⟨?_, fun h => ?_, ?_, ?_⟩
      · exact (List.append_nil _).trans hqueue
      · unfold Counted at *
        rwa [hqueue] at h
      · rw [hrun]
        rfl
      · rw [hdelete]
        rfl
  | cons p rest =>
      refine ⟨?_, fun h => ?_, ?_, ?_⟩
      · exact (List.append_nil _).trans hqueue
      · unfold Counted at *
        rw [hqueue, List.length_cons, UInt64.ofNat_add] at h
        change self.queue_size_ - 1 = UInt64.ofNat rest.length
        rw [h]
        exact UInt64.add_sub_cancel ..
      · rw [hrun]
        rfl
      · rw [hdelete]
        rfl

/-- Every move of a worker adds, takes, runs or deletes messages as its place says.
SOURCE: messagequeue.h:52-92 -/
theorem go_moves {self : MessageQueue M} {pc : Pc M} {e : Effect M} (h : self.go pc = some e) :
    e.Moves self pc := by
  cases pc <;> simp only [go, reduceCtorEq, Option.some.injEq] at h
  case processing =>
    subst h
    obtain ⟨hqueue, hcounted, hrun, hdelete⟩ := take_moves
      { self with busy_ := self.queue_size_ } .processing rfl rfl
    exact ⟨hqueue, hcounted, hrun, hdelete⟩
  case relocking =>
    subst h
    exact take_moves self .relocking rfl rfl
  case testing =>
    subst h
    refine ⟨by simp, id, ?_, ?_⟩
    · cases self.quit_ <;> rfl
    · cases self.quit_ <;> rfl
  case entering =>
    subst h
    refine ⟨by simp, id, ?_, ?_⟩
    · cases self.message_queue_.isEmpty <;> rfl
    · cases self.message_queue_.isEmpty <;> rfl
  all_goals
    subst h
    exact ⟨List.append_nil _, id, rfl, rfl⟩

/-! ## Every message is delivered once -/

variable [DecidableEq ι]

/-- What a run does to the messages. -/
structure Delivered (s : Config ι M) : Prop where
  queue : posted s.history = taken s.history ++ s.self.message_queue_
  counted : Counted s.self
  run : ∀ i, (own i s.history).filterMap Event.taken? =
    (own i s.history).filterMap Event.ran? ++ (s.pc i).unrun
  delete : ∀ i, (own i s.history).filterMap Event.ran? =
    (own i s.history).filterMap Event.deleted? ++ (s.pc i).undeleted

/-- Nothing has been posted at the start. -/
theorem delivered_initial : Delivered (initial ι M) :=
  ⟨rfl, rfl, fun _ => rfl, fun _ => rfl⟩

/-- After a move a thread is where the move has brought it. -/
theorem apply_pc_self (s : Config ι M) (i : ι) (e : Effect M) : (s.apply i e).pc i = e.pc :=
  Function.update_self ..

/-- The other threads stand where they stood, or wake. -/
theorem apply_pc_of_ne (s : Config ι M) {i j : ι} (e : Effect M) (hij : j ≠ i) :
    (s.apply i e).pc j = s.pc j ∨ (s.apply i e).pc j = (s.pc j).wake := by
  unfold Config.apply
  dsimp only
  rw [Function.update_of_ne hij]
  split
  · exact .inr rfl
  · exact .inl rfl

/-- A woken thread is where it was, or has been woken. -/
theorem update_woken {f : ι → Pc M} {i : ι} (h : f i = .waiting) (j : ι) :
    Function.update f i .woken j = f j ∨ Function.update f i .woken j = (f j).wake := by
  by_cases hj : j = i
  · subst hj
    rw [h]
    exact .inr (Function.update_self ..)
  · exact .inl (Function.update_of_ne hj ..)

/-- An effect of one thread keeps the deliveries, for every kind of effect. -/
theorem apply_delivered {s : Config ι M} (h : Delivered s) {i : ι} {e : Effect M}
    (he : e.Moves s.self (s.pc i)) : Delivered (s.apply i e) := by
  have hown : ∀ j, own j (s.apply i e).history =
      own j s.history ++ if j = i then e.events else [] := by
    intro j
    rw [Config.apply, own_append]
    split
    · rename_i heq
      rw [heq, own_self]
    · rename_i hne
      rw [own_other (Ne.symm hne)]
  refine ⟨?_, he.counted h.counted, fun j => ?_, fun j => ?_⟩
  · have hposted : posted (s.apply i e).history =
        posted s.history ++ e.events.filterMap Event.posted? := by
      simp only [posted, Config.apply, List.filterMap_append, List.filterMap_map,
        Function.comp_def]
    have htaken : taken (s.apply i e).history =
        taken s.history ++ e.events.filterMap Event.taken? := by
      simp only [taken, Config.apply, List.filterMap_append, List.filterMap_map, Function.comp_def]
    rw [hposted, htaken, h.queue, List.append_assoc, he.queue, List.append_assoc]
    rfl
  · rw [hown]
    by_cases hj : j = i
    · subst hj
      rw [if_pos rfl, List.filterMap_append, List.filterMap_append, h.run, List.append_assoc,
        he.run, apply_pc_self, List.append_assoc]
    · rw [if_neg hj, List.append_nil, h.run]
      obtain hpc | hpc := apply_pc_of_ne s e hj
      · rw [hpc]
      · rw [hpc, unrun_wake]
  · rw [hown]
    by_cases hj : j = i
    · subst hj
      rw [if_pos rfl, List.filterMap_append, List.filterMap_append, h.delete, List.append_assoc,
        he.delete, apply_pc_self, List.append_assoc]
    · rw [if_neg hj, List.append_nil, h.delete]
      obtain hpc | hpc := apply_pc_of_ne s e hj
      · rw [hpc]
      · rw [hpc, undeleted_wake]

/-- What a step of a thread can be. -/
theorem move_cases {s s' : Config ι M} {i : ι} {m : Move M} (h : s.move i m = some s') :
    (∃ c, m = .call c ∧ s.pc i = .outside ∧ s' = s.apply i (s.self.call c)) ∨
    (m = .go ∧ ∃ e, s.self.go (s.pc i) = some e ∧ s' = s.apply i e) ∨
    (m = .wake ∧ s.pc i = .waiting ∧ s' = { s with pc := Function.update s.pc i .woken }) := by
  cases m with
  | call c =>
      simp only [Config.move] at h
      split at h
      · rename_i hpc
        exact .inl ⟨c, rfl, hpc, (Option.some.inj h).symm⟩
      · cases h
  | go =>
      obtain ⟨e, he, heq⟩ := Option.map_eq_some_iff.mp h
      exact .inr (.inl ⟨rfl, e, he, heq.symm⟩)
  | wake =>
      simp only [Config.move] at h
      split at h
      · rename_i hpc
        exact .inr (.inr ⟨rfl, hpc, (Option.some.inj h).symm⟩)
      · cases h

/-- A step keeps the deliveries. -/
theorem step_delivered {s s' : Config ι M} (h : Delivered s) (hstep : s.Step s') :
    Delivered s' := by
  obtain ⟨i, m, hmove⟩ := hstep
  rcases move_cases hmove with ⟨c, -, hpc, rfl⟩ | ⟨-, e, he, rfl⟩ | ⟨-, hpc, rfl⟩
  · exact apply_delivered h (hpc ▸ call_moves s.self c)
  · exact apply_delivered h (go_moves he)
  · refine ⟨h.queue, h.counted, fun j => ?_, fun j => ?_⟩
    · rw [h.run]
      dsimp only
      obtain hsame | hwoken := update_woken hpc j
      · rw [hsame]
      · rw [hwoken, unrun_wake]
    · rw [h.delete]
      dsimp only
      obtain hsame | hwoken := update_woken hpc j
      · rw [hsame]
      · rw [hwoken, undeleted_wake]

/-- **Messages are taken in the order in which they are posted, none is lost, each is run and
deleted once by the thread that has taken it, and the counter is the length of the list.**
SOURCE: messagequeue.h:20-92 -/
theorem delivered_of_reachable {s : Config ι M}
    (h : Relation.ReflTransGen Config.Step (initial ι M) s) : Delivered s := by
  induction h with
  | refl => exact delivered_initial
  | tail _ hstep ih => exact step_delivered ih hstep

/-- A run with a further move is the run and then the move, if it can be made. -/
theorem run_snoc (s : Config ι M) (front : List (ι × Move M)) (m : ι × Move M) :
    s.run (front ++ [m]) = ((s.run front).move m.1 m.2).getD (s.run front) := by
  simp [Config.run, List.foldl_append]

/-- What a run comes to is reachable. -/
theorem run_reachable (s : Config ι M) (moves : List (ι × Move M)) :
    Relation.ReflTransGen Config.Step s (s.run moves) := by
  induction moves using List.reverseRecOn with
  | nil => exact .refl
  | append_singleton front m ih =>
      rw [run_snoc]
      cases hmove : (s.run front).move m.1 m.2 with
      | none => exact ih
      | some s' => exact ih.tail ⟨m.1, m.2, hmove⟩

/-- One thread posts two messages; another one has run the first. -/
def postedTwo : List (Bool × Move ℕ) :=
  [(true, .call (.postRange [7, 8])), (true, .go), (false, .call .process), (false, .go),
    (false, .go), (false, .go), (false, .go)]

/-- Two messages that are posted and run are delivered in their order. -/
theorem delivered_postedTwo : Delivered ((initial Bool ℕ).run postedTwo) :=
  delivered_of_reachable (run_reachable _ _)

/-! ## Who waits when the queue is closed -/

namespace Config

/-- A `Close` has returned. -/
def Closed (s : Config ι M) : Prop :=
  ∃ i, (i, .closed) ∈ s.history

/-- A thread waits, and no `Close` is to wake it. -/
def Stranded (s : Config ι M) : Prop :=
  s.Closed ∧ ∃ i, s.pc i = .waiting

/-- A thread that has found `quit_` unset comes to look at the queue when it is closed, and finds it
empty. -/
def LooksLate (s : Config ι M) (i : ι) (m : Move M) : Prop :=
  m = .go ∧ s.pc i = .entering ∧ s.self.message_queue_ = [] ∧ s.Closed

/-- No thread stands between the test of `quit_` and its look at the queue. -/
def Settled (s : Config ι M) : Prop :=
  ∀ i, s.pc i ≠ .entering

end Config

/-- No thread waits after it is woken. -/
theorem wake_ne_waiting (pc : Pc M) : pc.wake ≠ .waiting := by
  cases pc <;> simp [Pc.wake]

/-- A thread that enters after it is woken entered before. -/
theorem wake_eq_entering {pc : Pc M} (h : pc.wake = .entering) : pc = .entering := by
  cases pc <;> simp_all [Pc.wake]

/-- A thread that closes after it is woken closed before. -/
theorem wake_eq_closing {pc : Pc M} (h : pc.wake = .closing) : pc = .closing := by
  cases pc <;> simp_all [Pc.wake]

/-- What a step of a thread has to do with closing the queue. -/
structure Effect.Shuts (q : MessageQueue M) (pc : Pc M) (e : Effect M) : Prop where
  waits : e.pc = .waiting → pc = .entering ∧ q.message_queue_ = []
  enters : e.pc = .entering → q.quit_ = false
  closing : e.pc = .closing → e.self.quit_ = true
  closed : .closed ∈ e.events → pc = .closing ∧ e.pc = .outside ∧ e.notifyAll = true
  quit : q.quit_ = true → e.self.quit_ = true

/-- Messages that are posted do not close the queue. -/
theorem foldl_push_quit (self : MessageQueue M) (ms : List M) :
    (ms.foldl push self).quit_ = self.quit_ := by
  induction ms generalizing self with
  | nil => rfl
  | cons m ms ih => exact ih (self.push m)

/-- A call from outside closes the queue if it is `Close`.
SOURCE: messagequeue.h:47-50 -/
theorem call_shuts (self : MessageQueue M) (c : Call M) :
    (self.call c).Shuts self .outside := by
  cases c with
  | post m => constructor <;> simp [call, push]
  | postRange ms => constructor <;> simp [call, foldl_push_quit]
  | close => constructor <;> simp [call]
  | process => constructor <;> simp [call]

/-- A worker that takes a message does not close the queue. -/
theorem take_shuts (self : MessageQueue M) (pc : Pc M) : self.take.Shuts self pc := by
  unfold take
  cases self.message_queue_ <;> constructor <;> simp

/-- No move of a worker closes the queue but the one of `Close`. -/
theorem go_shuts {self : MessageQueue M} {pc : Pc M} {e : Effect M} (h : self.go pc = some e) :
    e.Shuts self pc := by
  cases pc <;> simp only [go, reduceCtorEq, Option.some.injEq] at h
  case processing =>
    subst h
    obtain ⟨hwaits, henters, hclosing, hclosed, hquit⟩ :=
      take_shuts { self with busy_ := self.queue_size_ } .processing
    exact ⟨hwaits, henters, hclosing, hclosed, hquit⟩
  case relocking =>
    subst h
    exact take_shuts self .relocking
  case testing =>
    subst h
    cases hquit : self.quit_ <;> constructor <;> simp [hquit]
  case entering =>
    subst h
    cases hqueue : self.message_queue_ <;> constructor <;> simp [hqueue]
  all_goals
    subst h
    constructor <;> simp

/-- A queue is closed after an effect if it was closed before or the effect closes it. -/
theorem closed_apply (s : Config ι M) (i : ι) (e : Effect M) :
    (s.apply i e).Closed ↔ s.Closed ∨ .closed ∈ e.events := by
  simp only [Config.Closed, Config.apply, List.mem_append, List.mem_map, Prod.mk.injEq]
  constructor
  · rintro ⟨j, hold | ⟨event, hmem, -, rfl⟩⟩
    · exact .inl ⟨j, hold⟩
    · exact .inr hmem
  · rintro (⟨j, hold⟩ | hmem)
    · exact ⟨j, .inl hold⟩
    · exact ⟨i, .inr ⟨_, hmem, rfl, rfl⟩⟩

/-- Who waits after a step has waited before, or has found the queue empty. -/
theorem waiting_of_apply {s : Config ι M} {i j : ι} {e : Effect M}
    (he : e.Shuts s.self (s.pc i)) (hj : (s.apply i e).pc j = .waiting) :
    (e.notifyAll = false ∧ s.pc j = .waiting) ∨
      (j = i ∧ s.pc i = .entering ∧ s.self.message_queue_ = []) := by
  unfold Config.apply at hj
  dsimp only at hj
  by_cases hji : j = i
  · subst hji
    rw [Function.update_self] at hj
    exact .inr ⟨rfl, he.waits hj⟩
  · rw [Function.update_of_ne hji] at hj
    split at hj
    · exact absurd hj (wake_ne_waiting _)
    · exact .inl ⟨by simpa using ‹¬ e.notifyAll = true›, hj⟩

/-- A thread is left behind by a step in which it looks late. -/
theorem stranded_iff_looksLate {s s' : Config ι M} {i : ι} {m : Move M} (hs : ¬ s.Stranded)
    (hmove : s.move i m = some s') : s'.Stranded ↔ s.LooksLate i m := by
  constructor
  · rintro ⟨hclosed, j, hj⟩
    rcases move_cases hmove with ⟨c, -, hpc, rfl⟩ | ⟨rfl, e, he, rfl⟩ | ⟨-, hpc, rfl⟩
    · have hcall := call_shuts s.self c
      rw [← hpc] at hcall
      rcases waiting_of_apply hcall hj with ⟨-, hold⟩ | ⟨-, hentering, -⟩
      · rcases (closed_apply s i _).mp hclosed with hbefore | hnow
        · exact absurd ⟨hbefore, j, hold⟩ hs
        · rw [hpc] at hcall
          exact absurd (hcall.closed hnow).1 (by simp)
      · rw [hpc] at hentering
        cases hentering
    · have hgo := go_shuts he
      rcases (closed_apply s i _).mp hclosed with hbefore | hnow
      · rcases waiting_of_apply hgo hj with ⟨-, hold⟩ | ⟨-, hentering, hempty⟩
        · exact absurd ⟨hbefore, j, hold⟩ hs
        · exact ⟨rfl, hentering, hempty, hbefore⟩
      · obtain ⟨hclosing, -, hnotify⟩ := hgo.closed hnow
        rcases waiting_of_apply hgo hj with ⟨hnone, -⟩ | ⟨-, hentering, -⟩
        · rw [hnotify] at hnone
          cases hnone
        · rw [hclosing] at hentering
          cases hentering
    · change Function.update s.pc i .woken j = _ at hj
      obtain hsame | hwoken := update_woken hpc j
      · exact absurd ⟨hclosed, j, hsame ▸ hj⟩ hs
      · exact absurd (hwoken.symm.trans hj) (wake_ne_waiting _)
  · rintro ⟨hm, hentering, hempty, hclosed⟩
    rcases move_cases hmove with ⟨c, rfl, -, -⟩ | ⟨-, e, he, rfl⟩ | ⟨rfl, -, -⟩
    · cases hm
    · rw [hentering] at he
      obtain rfl : _ = e := Option.some.inj he
      refine ⟨(closed_apply s i _).mpr (.inl hclosed), i, ?_⟩
      rw [apply_pc_self, hempty]
      rfl
    · cases hm

/-- A worker that looks late can move. -/
theorem move_of_looksLate {s : Config ι M} {i : ι} {m : Move M} (h : s.LooksLate i m) :
    ∃ s', s.move i m = some s' := by
  obtain ⟨hm, hentering, -, -⟩ := h
  cases m with
  | go => exact ⟨_, by rw [Config.move, hentering]; rfl⟩
  | call c => cases hm
  | wake => cases hm

/-- Nobody is left behind in a run in which nobody looks late. -/
theorem never_stranded_iff (moves : List (ι × Move M)) :
    (∀ front, front <+: moves → ¬ ((initial ι M).run front).Stranded) ↔
      ∀ front i m, front ++ [(i, m)] <+: moves → ¬ ((initial ι M).run front).LooksLate i m := by
  constructor
  · intro h front i m hprefix hlate
    obtain ⟨s', hmove⟩ := move_of_looksLate hlate
    have hbefore := h front ((List.prefix_append front _).trans hprefix)
    refine h (front ++ [(i, m)]) hprefix ?_
    rw [run_snoc, hmove]
    exact (stranded_iff_looksLate hbefore hmove).mpr hlate
  · intro h front
    induction front using List.reverseRecOn with
    | nil =>
        rintro - ⟨⟨i, hi⟩, -⟩
        cases hi
    | append_singleton front m ih =>
        intro hprefix
        have hbefore := ih ((List.prefix_append front _).trans hprefix)
        rw [run_snoc]
        cases hmove : ((initial ι M).run front).move m.1 m.2 with
        | none => exact hbefore
        | some s' =>
            rw [Option.getD_some, stranded_iff_looksLate hbefore hmove]
            exact h front m.1 m.2 hprefix

/-! ## Closing while no worker is about to wait -/

/-- When a queue has been closed, nobody is about to wait any more. -/
structure Sealed (s : Config ι M) : Prop where
  closing : ∀ i, s.pc i = .closing → s.self.quit_ = true
  closed : s.Closed → s.self.quit_ = true ∧ s.Settled

omit [DecidableEq ι] in
/-- No queue is closed at the start. -/
theorem sealed_initial : Sealed (initial ι M) where
  closing i hi := by cases hi
  closed := by
    rintro ⟨i, hi⟩
    cases hi

/-- An effect keeps the queue sealed, if nobody is about to wait when it is closed. -/
theorem apply_sealed {s : Config ι M} (h : Sealed s) {i : ι} {e : Effect M}
    (he : e.Shuts s.self (s.pc i)) (hsettled : s.pc i = .closing → s.Settled) :
    Sealed (s.apply i e) := by
  constructor
  · intro j hj
    by_cases hji : j = i
    · subst hji
      exact he.closing ((apply_pc_self s j e).symm.trans hj)
    · refine he.quit (h.closing j ?_)
      rcases apply_pc_of_ne s e hji with hsame | hwoken
      · exact hsame ▸ hj
      · exact wake_eq_closing (hwoken ▸ hj)
  · intro hclosed
    have hbefore : s.self.quit_ = true ∧ s.Settled := by
      rcases (closed_apply s i e).mp hclosed with hold | hnow
      · exact h.closed hold
      · have hclosing := (he.closed hnow).1
        exact ⟨h.closing i hclosing, hsettled hclosing⟩
    refine ⟨he.quit hbefore.1, fun j hj => ?_⟩
    by_cases hji : j = i
    · subst hji
      have hquit := he.enters ((apply_pc_self s j e).symm.trans hj)
      rw [hbefore.1] at hquit
      cases hquit
    · rcases apply_pc_of_ne s e hji with hsame | hwoken
      · exact hbefore.2 j (hsame ▸ hj)
      · exact hbefore.2 j (wake_eq_entering (hwoken ▸ hj))

/-- A move keeps the queue sealed, if nobody is about to wait when it is closed. -/
theorem move_sealed {s s' : Config ι M} {i : ι} {m : Move M} (h : Sealed s)
    (hmove : s.move i m = some s') (hsettled : m = .go → s.pc i = .closing → s.Settled) :
    Sealed s' := by
  rcases move_cases hmove with ⟨c, -, hpc, rfl⟩ | ⟨rfl, e, he, rfl⟩ | ⟨-, hpc, rfl⟩
  · refine apply_sealed h (hpc ▸ call_shuts s.self c) fun hclosing => ?_
    rw [hpc] at hclosing
    cases hclosing
  · exact apply_sealed h (go_shuts he) (hsettled rfl)
  · constructor
    · intro j hj
      rcases update_woken hpc j with hsame | hwoken
      · exact h.closing j (hsame ▸ hj)
      · exact h.closing j (wake_eq_closing (hwoken ▸ hj))
    · intro hclosed
      refine ⟨(h.closed hclosed).1, fun j hj => ?_⟩
      rcases update_woken hpc j with hsame | hwoken
      · exact (h.closed hclosed).2 j (hsame ▸ hj)
      · exact (h.closed hclosed).2 j (wake_eq_entering (hwoken ▸ hj))

/-- In a run in which every `Close` notifies while no worker is about to wait, nobody looks late. -/
theorem not_looksLate_of_settled {moves : List (ι × Move M)}
    (h : ∀ front i, front ++ [(i, .go)] <+: moves → ((initial ι M).run front).pc i = .closing →
      ((initial ι M).run front).Settled) :
    ∀ front i m, front ++ [(i, m)] <+: moves → ¬ ((initial ι M).run front).LooksLate i m := by
  have hsealed : ∀ front, front <+: moves → Sealed ((initial ι M).run front) := by
    intro front
    induction front using List.reverseRecOn with
    | nil => exact fun _ => sealed_initial
    | append_singleton front m ih =>
        intro hprefix
        have hbefore := ih ((List.prefix_append front _).trans hprefix)
        rw [run_snoc]
        cases hmove : ((initial ι M).run front).move m.1 m.2 with
        | none => exact hbefore
        | some s' =>
            refine move_sealed hbefore hmove fun hgo => h front m.1 ?_
            rw [← hgo]
            exact hprefix
  rintro front i m hprefix ⟨-, hentering, -, hclosed⟩
  have hfront := hsealed front ((List.prefix_append front _).trans hprefix)
  exact (hfront.closed hclosed).2 i hentering

/-- **Closing strands nobody in exactly the runs in which no worker that has found `quit_` unset
finds the queue empty behind a `Close`; these are in particular the runs in which no worker is about
to wait when a `Close` notifies.**
SOURCE: messagequeue.h:47-62 -/
theorem close_strands_nobody_iff (moves : List (ι × Move M)) :
    ((∀ front, front <+: moves → ¬ ((initial ι M).run front).Stranded) ↔
      ∀ front i m, front ++ [(i, m)] <+: moves → ¬ ((initial ι M).run front).LooksLate i m) ∧
    ((∀ front i, front ++ [(i, .go)] <+: moves → ((initial ι M).run front).pc i = .closing →
        ((initial ι M).run front).Settled) →
      ∀ front, front <+: moves → ¬ ((initial ι M).run front).Stranded) := by
  refine ⟨never_stranded_iff moves, fun h => ?_⟩
  exact (never_stranded_iff moves).mpr (not_looksLate_of_settled h)

/-- A worker finds `quit_` unset, the queue is closed, and the worker begins to wait. -/
def lateWorker : List (Bool × Move Unit) :=
  [(true, .call .process), (true, .go), (false, .call .close), (false, .go), (true, .go)]

/-- A worker that has read `quit_` and then waits is stranded by a `Close` between the two. -/
theorem not_close_strands_nobody :
    ¬ ∀ s : Config Bool Unit, Relation.ReflTransGen Config.Step (initial Bool Unit) s →
      ¬ s.Stranded := by
  intro h
  refine h ((initial Bool Unit).run lateWorker) (run_reachable _ _) ⟨⟨false, ?_⟩, true, rfl⟩
  exact List.mem_singleton.mpr rfl

end BundleStore.MessageQueue
