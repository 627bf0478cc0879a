import Xcache.Client.Wire
import Xcache.Lib.Range

/-! The metadata slots of the server's memory (`client/rdpma.h`, `server/rdma_svr.h`): which
bytes a request of a cpu uses, and when the slots of different queues are apart. -/

namespace Xcache.Remote

def pageSize : Nat := 4096
def maxBatch : Nat := 1
def numQueues : Nat := 8
def numClient : Nat := 4

abbrev Client := Fin numClient

instance : NeZero numClient := ⟨by decide⟩

def metadataSize : Nat := 8 * batchSize
def entrySize : Nat := metadataSize + pageSize * maxBatch
def clientMetaRegionSize : Nat := numQueues * numEntry * entrySize

/-- The server's value; the client's header has no factor for the clients. -/
def localMetaRegionSize : Nat := numClient * clientMetaRegionSize

def getOffsetFromBase (qid mid : Nat) : Nat := numEntry * entrySize * qid + entrySize * mid

/-- A call that a cpu has in flight. -/
inductive Request
  | get (cpuid : Nat)
  | put (cpuid : Nat)

namespace Request

def cpuid : Request → Nat
  | get cpuid | put cpuid => cpuid

def queueId (numqueues : Nat) : Request → Nat
  | get cpuid => getReadQueueId numqueues cpuid
  | put cpuid => getWriteQueueId numqueues cpuid

/-- The put writes its message number back to zero. -/
def msgId (numqueues : Nat) : Request → Nat
  | get cpuid => getMsgId numqueues cpuid
  | put _ => 0

/-- A get writes a `struct rdpma_metadata`, a put the keys of a batch. -/
def length : Request → Nat
  | get _ => 24
  | put _ => 8 * batchSize

def range (numqueues : Nat) (r : Request) : Range :=
  ⟨getOffsetFromBase (r.queueId numqueues) (r.msgId numqueues), r.length⟩

theorem length_le (r : Request) : r.length ≤ entrySize := by
  cases r with
  | get cpuid => exact (by decide : 24 ≤ entrySize)
  | put cpuid => exact (by decide : 8 * batchSize ≤ entrySize)

end Request

/-- The slots are numbered through, four for each queue. -/
theorem getOffsetFromBase_eq (qid mid : Nat) :
    getOffsetFromBase qid mid = 0 + entrySize * (numEntry * qid + mid) := by
  unfold getOffsetFromBase
  ring

section
variable {numqueues cpus : Nat}

theorem msgId_lt (few : cpus ≤ numEntry * (numqueues / 2)) {r : Request} (lt : r.cpuid < cpus) :
    r.msgId numqueues < numEntry := by
  cases r with
  | get cpuid => exact Nat.div_lt_of_lt_mul (Nat.mul_comm numEntry _ ▸ lt.trans_le few)
  | put cpuid => exact (by decide : 0 < numEntry)

theorem queueId_lt (pos : 2 ≤ numqueues) (r : Request) : r.queueId numqueues < numqueues := by
  have half : 0 < numqueues / 2 := Nat.div_pos pos (by decide)
  have lt := Nat.mod_lt r.cpuid half
  cases r with
  | get cpuid =>
    simp only [Request.cpuid, Request.queueId, getReadQueueId] at lt ⊢
    omega
  | put cpuid =>
    simp only [Request.cpuid, Request.queueId, getWriteQueueId] at lt ⊢
    omega

/-- The slots of all requests are in the region of the client, and those of requests on
different queues are apart. -/
def SlotsApart (numqueues cpus : Nat) : Prop :=
  (∀ r : Request, r.cpuid < cpus → (r.range numqueues).Inside ⟨0, clientMetaRegionSize⟩) ∧
  ∀ r s : Request, r.cpuid < cpus → s.cpuid < cpus → r.queueId numqueues ≠ s.queueId numqueues →
    (r.range numqueues).Apart (s.range numqueues)

theorem slotsApart_of_few (pos : 2 ≤ numqueues) (small : numqueues ≤ numQueues)
    (few : cpus ≤ numEntry * (numqueues / 2)) : SlotsApart numqueues cpus := by
  constructor
  · intro r lt
    have queue := (queueId_lt pos r).trans_le small
    have slot : numEntry * r.queueId numqueues + r.msgId numqueues < numQueues * numEntry := by
      have := msgId_lt few lt
      unfold numEntry numQueues at *
      omega
    unfold Request.range clientMetaRegionSize
    rw [getOffsetFromBase_eq, Nat.mul_comm _ entrySize]
    exact Range.inside_of_stride slot r.length_le
  · intro r s first second ne
    unfold Request.range
    rw [getOffsetFromBase_eq, getOffsetFromBase_eq]
    refine Range.apart_of_stride (fun eq => ne ?_) r.length_le s.length_le
    have := msgId_lt few first
    have := msgId_lt few second
    unfold numEntry at *
    omega

/-- The first cpu with message number 4 gets the first slot of the next queue. -/
theorem few_of_slotsApart (pos : 2 ≤ numqueues) (apart : SlotsApart numqueues cpus) :
    cpus ≤ numEntry * (numqueues / 2) := by
  by_contra many
  rw [not_le] at many
  have half : 0 < numqueues / 2 := Nat.div_pos pos (by decide)
  have slot : (Request.get (numEntry * (numqueues / 2))).range numqueues =
      ⟨getOffsetFromBase 1 0, 24⟩ := by
    simp only [Request.range, Request.queueId, Request.msgId, getReadQueueId, getMsgId,
      Nat.mul_mod_left, Nat.mul_div_cancel _ half, Request.length]
    rfl
  have queue : (Request.get (numEntry * (numqueues / 2))).queueId numqueues = 0 :=
    Nat.mul_mod_left _ _
  rcases Nat.lt_or_ge 1 (numqueues / 2) with two | one
  · -- the get of cpu 1, on the next read queue
    have next : (Request.get 1).queueId numqueues = 1 := Nat.mod_eq_of_lt two
    have message : (Request.get 1).msgId numqueues = 0 := Nat.div_eq_of_lt two
    have := apart.2 (.get (numEntry * (numqueues / 2))) (.get 1) many
      (by simp only [Request.cpuid]; unfold numEntry at many; omega) (by rw [queue, next]; decide)
    rw [slot, Request.range, next, message] at this
    revert this
    decide
  · -- a put of cpu 0, on the only write queue
    have next : (Request.put 0).queueId numqueues = 1 := by
      simp only [Request.queueId, getWriteQueueId, Nat.zero_mod, Nat.zero_add]
      omega
    have := apart.2 (.get (numEntry * (numqueues / 2))) (.put 0) many
      (by simp only [Request.cpuid]; omega) (by rw [queue, next]; decide)
    rw [slot, Request.range, next, Request.msgId] at this
    revert this
    decide

/-- The slots of requests on different queues are apart exactly when no queue serves more
cpus than it has slots. -/
theorem slots_apart_iff (pos : 2 ≤ numqueues) (small : numqueues ≤ numQueues) :
    SlotsApart numqueues cpus ↔ cpus ≤ numEntry * (numqueues / 2) :=
  ⟨few_of_slotsApart pos, slotsApart_of_few pos small⟩

theorem slots_apart_iff_eight :
    (2 ≤ 8 ∧ 8 ≤ numQueues) ∧ (SlotsApart 8 16 ↔ 16 ≤ numEntry * (8 / 2)) :=
  ⟨by decide, slots_apart_iff (by decide) (by decide)⟩

/-- With 8 queues the gets of the cpus 16 and 1 share their slot. -/
theorem slots_overlap_many_cpus : ¬ SlotsApart 8 17 := by
  intro apart
  have := apart.2 (.get 16) (.get 1) (by decide) (by decide) (by decide)
  revert this
  decide

end

end Xcache.Remote
