import Xcache.Lib.TicketRing

/-! The circular queue of the server (`server/circular_queue.cpp`) under any interleaving of the
atomic steps of its calls. -/

namespace Xcache.CircularQueue

open TicketRing (Event Take)

def queueSize : Nat := 10000000

/-- `FAA` of `util/atomic.h`: the old value, returned as an `unsigned int`, and the new one. -/
def faa (mem add : BitVec 64) : BitVec 32 × BitVec 64 := (mem.setWidth 32, mem + add)

/-- An `enqueue` that has drawn its ticket; `cur` is the index of its node. -/
structure EnqueueCall (α : Type*) where
  value : α
  cur : Nat
  finished : Bool

structure DequeueCall (α : Type*) where
  cur : Nat
  progress : Take α

/-- The queue and the calls on it, in the order of their tickets. -/
structure System (α : Type*) where
  buffer : Nat → Option α
  front : BitVec 64
  rear : BitVec 64
  enqueues : List (EnqueueCall α)
  dequeues : List (DequeueCall α)

section
variable {α : Type*}

def createQueue : System α := ⟨fun _ => none, 0, 0, [], []⟩

section
variable [DecidableEq α]

/-- One atomic step of a call. A failed `CAS1` lets its loop go round. -/
def step (q : System α) : Event α → Option (System α)
  | .drawRear value =>
    some { q with
      rear := (faa q.rear 1).2
      enqueues := q.enqueues ++ [⟨value, (faa q.rear 1).1.toNat % queueSize, false⟩] }
  | .store t =>
    match q.enqueues[t]? with
    | some ⟨value, cur, false⟩ =>
      if q.buffer cur = none then
        some { q with
          buffer := Function.update q.buffer cur (some value)
          enqueues := q.enqueues.set t ⟨value, cur, true⟩ }
      else some q
    | _ => none
  | .drawFront =>
    some { q with
      front := (faa q.front 1).2
      dequeues := q.dequeues ++ [⟨(faa q.front 1).1.toNat % queueSize, .reading⟩] }
  | .load t =>
    match q.dequeues[t]? with
    | some ⟨cur, .reading⟩ =>
      match q.buffer cur with
      | none => some q
      | some value => some { q with dequeues := q.dequeues.set t ⟨cur, .holding value⟩ }
    | _ => none
  | .clear t =>
    match q.dequeues[t]? with
    | some ⟨cur, .holding value⟩ =>
      if q.buffer cur = some value then
        some { q with
          buffer := Function.update q.buffer cur none
          dequeues := q.dequeues.set t ⟨cur, .returned value⟩ }
      else some { q with dequeues := q.dequeues.set t ⟨cur, .reading⟩ }
    | _ => none

end

/-- A `dequeue` returns the value of the `enqueue` with its ticket. -/
def Fifo (q : System α) : Prop :=
  ∀ (t : Nat) (value : α), (q.dequeues[t]?).map DequeueCall.progress = some (.returned value) →
    (q.enqueues[t]?).map EnqueueCall.value = some value

/-- A call with ticket `t` of one of the counters has not finished. -/
def Unfinished (q : System α) (t : Nat) : Prop :=
  (∃ c, q.enqueues[t]? = some c ∧ c.finished = false) ∨ ∃ c, q.dequeues[t]? = some c ∧
    ∀ value, c.progress ≠ .returned value

/-- No ticket is drawn while a call has not finished whose ticket is smaller by `QUEUE_SIZE` or
more. -/
def Windowed (q : System α) : Event α → Prop
  | .drawRear _ => ∀ t, Unfinished q t → q.enqueues.length < t + queueSize
  | .drawFront => ∀ t, Unfinished q t → q.dequeues.length < t + queueSize
  | _ => True

/-- No ticket is drawn while another call of the same kind has not finished with the same node. -/
def NodeFree (q : System α) : Event α → Prop
  | .drawRear _ => ∀ c ∈ q.enqueues, c.cur = (faa q.rear 1).1.toNat % queueSize → c.finished = true
  | .drawFront =>
    ∀ c ∈ q.dequeues, c.cur = (faa q.front 1).1.toNat % queueSize →
      ∃ value, c.progress = .returned value
  | _ => True

/-- The node of a ticket: the counter has lost its upper half before the modulo. -/
def nodeOf (t : Nat) : Nat := t % 2 ^ 32 % queueSize

theorem faa_ofNat (t : Nat) : (faa (BitVec.ofNat 64 t) 1).1.toNat % queueSize = nodeOf t ∧
    (faa (BitVec.ofNat 64 t) 1).2 = BitVec.ofNat 64 (t + 1) := by
  constructor
  · simp only [faa, nodeOf, BitVec.toNat_setWidth, BitVec.toNat_ofNat]
    rw [Nat.mod_mod_of_dvd t (by decide : 2 ^ 32 ∣ 2 ^ 64)]
  · exact (BitVec.ofNat_add ..).symm

/-- The counters count the tickets, and every call works on the node of its ticket. -/
structure Ticketed (q : System α) : Prop where
  rear : q.rear = BitVec.ofNat 64 q.enqueues.length
  front : q.front = BitVec.ofNat 64 q.dequeues.length
  enqueues : ∀ t c, q.enqueues[t]? = some c → c.cur = nodeOf t
  dequeues : ∀ t c, q.dequeues[t]? = some c → c.cur = nodeOf t

/-- The queue as a ring with tickets. -/
def ring (q : System α) : TicketRing.State Nat α :=
  ⟨q.buffer, q.enqueues.map fun c => (c.value, c.finished), q.dequeues.map DequeueCall.progress⟩

theorem Ticketed.createQueue : Ticketed (createQueue : System α) := by
  constructor <;> simp [CircularQueue.createQueue]

variable [DecidableEq α] {q q' : System α}

theorem Ticketed.step (ticketed : Ticketed q) {e : Event α}
    (next : step q e = some q') : Ticketed q' := by
  obtain ⟨rear, front, enqueues, dequeues⟩ := ticketed
  cases e with
  | drawRear value =>
    cases next
    refine ⟨?_, front, ?_, dequeues⟩
    · rw [rear, (faa_ofNat _).2, List.length_append, List.length_singleton]
    · rw [rear, (faa_ofNat _).1]
      intro t c
      grind
  | drawFront =>
    cases next
    refine ⟨rear, ?_, enqueues, ?_⟩
    · rw [front, (faa_ofNat _).2, List.length_append, List.length_singleton]
    · rw [front, (faa_ofNat _).1]
      intro t c
      grind
  | store t =>
    simp only [CircularQueue.step] at next
    constructor <;> grind
  | load t =>
    simp only [CircularQueue.step] at next
    constructor <;> grind
  | clear t =>
    simp only [CircularQueue.step] at next
    constructor <;> grind

theorem Ticketed.ring_step (ticketed : Ticketed q) (e : Event α) :
    (CircularQueue.step q e).map ring = TicketRing.step nodeOf (ring q) e := by
  cases e with
  | drawRear value => simp [CircularQueue.step, TicketRing.step, ring]
  | drawFront => simp [CircularQueue.step, TicketRing.step, ring]
  | store t =>
    simp only [CircularQueue.step, TicketRing.step, ring, List.getElem?_map]
    cases call : q.enqueues[t]? with
    | none => rfl
    | some c =>
      obtain ⟨value, cur, finished⟩ := c
      obtain rfl : cur = nodeOf t := ticketed.enqueues t _ call
      cases finished with
      | false => by_cases empty : q.buffer (nodeOf t) = none <;> simp [empty, ring, List.map_set]
      | true => rfl
  | load t =>
    simp only [CircularQueue.step, TicketRing.step, ring, List.getElem?_map]
    cases call : q.dequeues[t]? with
    | none => rfl
    | some c =>
      obtain ⟨cur, progress⟩ := c
      obtain rfl : cur = nodeOf t := ticketed.dequeues t _ call
      cases progress with
      | reading => cases full : q.buffer (nodeOf t) <;> simp [full, ring, List.map_set]
      | holding value => rfl
      | returned value => rfl
  | clear t =>
    simp only [CircularQueue.step, TicketRing.step, ring, List.getElem?_map]
    cases call : q.dequeues[t]? with
    | none => rfl
    | some c =>
      obtain ⟨cur, progress⟩ := c
      obtain rfl : cur = nodeOf t := ticketed.dequeues t _ call
      cases progress with
      | reading => rfl
      | holding value =>
        by_cases same : q.buffer (nodeOf t) = some value <;> simp [same, ring, List.map_set]
      | returned value => rfl

/-- The queue is a ring with tickets. -/
theorem simulates : Runs.Simulates (step : System α → Event α → Option (System α))
    (TicketRing.step nodeOf) ring Ticketed where
  kept _ _ _ ticketed next := ticketed.step next
  follows _ e ticketed := ticketed.ring_step e

omit [DecidableEq α] in
theorem fifo_iff (q : System α) : Fifo q ↔ TicketRing.Fifo (ring q) := by
  simp [Fifo, TicketRing.Fifo, TicketRing.Taken, ring, Function.comp_def]

omit [DecidableEq α] in
theorem stored_iff (q : System α) (t : Nat) : (∃ v, TicketRing.Stored (ring q).puts t v) ↔
    ∃ c, q.enqueues[t]? = some c ∧ c.finished = true := by
  simp [TicketRing.Stored, ring]

omit [DecidableEq α] in
theorem taken_iff (q : System α) (t : Nat) : (∃ v, TicketRing.Taken (ring q).takes t v) ↔
    ∃ c, q.dequeues[t]? = some c ∧ ∃ v, c.progress = .returned v := by
  simp [TicketRing.Taken, ring]
  grind

section
variable {β : Type*} {calls : List β} {p : β → Prop}

theorem call_not_iff (t : Nat) :
    (∃ c, calls[t]? = some c ∧ ¬ p c) ↔ t < calls.length ∧ ¬ ∃ c, calls[t]? = some c ∧ p c := by
  constructor
  · rintro ⟨c, call, not⟩
    refine ⟨(List.getElem?_eq_some_iff.mp call).1, ?_⟩
    rintro ⟨c', call', holds⟩
    cases call.symm.trans call'
    exact not holds
  · rintro ⟨lt, none_⟩
    exact ⟨calls[t], List.getElem?_eq_getElem lt,
      fun holds => none_ ⟨_, List.getElem?_eq_getElem lt, holds⟩⟩

/-- Calls of a node are those of the tickets of the node. -/
theorem calls_of_node_iff {cur : β → Nat} (node : ∀ t c, calls[t]? = some c → cur c = nodeOf t)
    (x : Nat) :
    (∀ c ∈ calls, cur c = x → p c) ↔ ∀ t < calls.length, nodeOf t = x → ∃ c, calls[t]? = some c ∧
      p c := by
  constructor
  · intro all t lt here
    have call := List.getElem?_eq_getElem lt
    exact ⟨calls[t], call, all _ (List.getElem_mem lt) ((node t _ call).trans here)⟩
  · intro all c mem here
    obtain ⟨t, lt, rfl⟩ := List.getElem_of_mem mem
    have call := List.getElem?_eq_getElem lt
    obtain ⟨c', call', holds⟩ := all t lt ((node t _ call).symm.trans here)
    cases call.symm.trans call'
    exact holds

end

omit [DecidableEq α] in
theorem unfinished_iff (q : System α) (t : Nat) :
    Unfinished q t ↔ TicketRing.Pending (ring q) t := by
  unfold Unfinished TicketRing.Pending
  refine or_congr ?_ ?_
  · rw [← not_exists, stored_iff, ring, List.length_map, ← call_not_iff]
    simp only [Bool.not_eq_true]
  · rw [← not_exists, taken_iff, ring, List.length_map, ← call_not_iff]
    simp only [not_exists, ne_eq]

omit [DecidableEq α] in
theorem windowed_iff (q : System α) (e : Event α) :
    Windowed q e ↔ TicketRing.Windowed queueSize (ring q) e := by
  cases e <;> simp [Windowed, TicketRing.Windowed, unfinished_iff, ring]

omit [DecidableEq α] in
theorem Ticketed.nodeFree_iff (ticketed : Ticketed q) (e : Event α) :
    NodeFree q e ↔ TicketRing.CellFree nodeOf (ring q) e := by
  cases e with
  | drawRear value =>
    simp only [NodeFree, TicketRing.CellFree, stored_iff]
    rw [ticketed.rear, (faa_ofNat _).1, ring, List.length_map]
    exact calls_of_node_iff ticketed.enqueues _
  | drawFront =>
    simp only [NodeFree, TicketRing.CellFree, taken_iff]
    rw [ticketed.front, (faa_ofNat _).1, ring, List.length_map]
    exact calls_of_node_iff ticketed.dequeues _
  | _ => rfl

/-- In every run in which no ticket is drawn while another call of the same kind has not finished
with the same node, each `dequeue` returns the value of its own ticket. -/
theorem fifo_of_nodeFree (events : List (Event α))
    (met : Runs.Meets step NodeFree createQueue events) :
    Runs.Always step Fifo createQueue events := by
  rw [simulates.always_iff Ticketed.createQueue fun q _ => fifo_iff q]
  rw [simulates.meets_iff Ticketed.createQueue fun q e ticketed => ticketed.nodeFree_iff e] at met
  exact TicketRing.fifo_of_cellFree met

/-- Two calls that overlap: the `dequeue` draws its ticket and reads the node first. -/
theorem fifo_of_nodeFree_overlapping :
    Runs.Meets step NodeFree (createQueue : System Nat) [.drawRear 7, .drawFront, .load 0, .store 0,
      .load 0, .clear 0] ∧
      Runs.Always step Fifo (createQueue : System Nat) [.drawRear 7, .drawFront, .load 0, .store 0,
        .load 0, .clear 0] := by
  have met : Runs.Meets step NodeFree (createQueue : System Nat)
      [.drawRear 7, .drawFront, .load 0, .store 0, .load 0, .clear 0] := by
    simp [Runs.meets_cons, Runs.meets_nil, step, NodeFree, createQueue]
  exact ⟨met, fifo_of_nodeFree _ met⟩

theorem nodeOf_apart {t t' : Nat} (lt : t < t') (near : t' < t + queueSize) (small : t' < 2 ^ 32) :
    nodeOf t ≠ nodeOf t' := by
  unfold nodeOf queueSize at *
  rw [Nat.mod_eq_of_lt small, Nat.mod_eq_of_lt (lt.trans small)]
  omega

/-- As long as the tickets fit an `unsigned int`, it is enough that no call falls `QUEUE_SIZE`
behind. -/
theorem fifo_of_windowed (events : List (Event α))
    (met : Runs.Meets step (fun q e => Windowed q e ∧ q.enqueues.length < 2 ^ 32 ∧
      q.dequeues.length < 2 ^ 32) createQueue events) :
    Runs.Always step Fifo createQueue events := by
  rw [simulates.always_iff Ticketed.createQueue fun q _ => fifo_iff q]
  refine TicketRing.fifo_of_cellFree ?_
  intro done e s le reached
  obtain ⟨q, reached', rfl⟩ :=
    Option.map_eq_some_iff.mp ((simulates.run_eq Ticketed.createQueue done).trans reached)
  obtain ⟨windowed, puts, takes⟩ := met done e q le reached'
  refine ((windowed_iff q e).mp windowed).cellFree (fun t t' lt near small =>
    nodeOf_apart lt near small) ?_ ?_
  · rwa [ring, List.length_map]
  · rwa [ring, List.length_map]

end

/-- 429 times around the buffer: the last ticket of node 0 before `FAA` starts again at 0, and the
first one after. -/
def wrapRun : List (Event Nat) := TicketRing.overlap 1 2 3 4290000000 (2 ^ 32)

theorem wrapped_ticket_takes_older_value :
    Runs.Meets step Windowed (createQueue : System Nat) wrapRun ∧
      ¬ Runs.Always step Fifo (createQueue : System Nat) wrapRun := by
  have apart : ∀ t, 4290000000 < t → t < 2 ^ 32 → nodeOf t ≠ nodeOf 4290000000 := by
    intro t gt lt
    rw [nodeOf, Nat.mod_eq_of_lt lt, nodeOf, queueSize]
    omega
  have found : ∃ s, Runs.Leads (TicketRing.step nodeOf) (TicketRing.Windowed queueSize)
    TicketRing.State.empty wrapRun s ∧ ¬ TicketRing.Fifo s :=
    TicketRing.overlap_not_fifo 1 (by decide) (by decide) (by decide) (by decide) apart
  obtain ⟨s, leads, wrong⟩ := found
  rw [simulates.always_iff Ticketed.createQueue fun q _ => fifo_iff q,
    simulates.meets_iff Ticketed.createQueue fun q e _ => windowed_iff q e]
  exact ⟨leads.met, fun always => wrong (always _ s (List.prefix_refl _) leads.run_eq)⟩

end Xcache.CircularQueue
