import Xcache.Client.Wire

/-! The page get of the two-sided client, followed through every exit
(`rdpma_get` in `client/rdpma.c`), and its two callers. The outcomes of the calls
into the kernel and the verbs library are inputs. The helpers at the beginning are
those of the page put as well. -/

namespace Xcache.Client

/-- How a kernel function can end: with a value, in a `BUG_ON` or a NULL dereference,
or not at all. -/
inductive Outcome (α : Type)
  | ret (value : α)
  | oops
  | spins
  deriving DecidableEq

def eNoMem : Int := -12

/-- One `ib_poll_cq` call for a single completion. -/
inductive Poll
  | failed
  | empty
  | completion (success : Bool) (immData : BitVec 32)
  deriving DecidableEq

/-- The request allocation, its mapping and the mapped address. -/
structure Req where
  alloc : Bool
  mappingError : Bool
  dma : BitVec 64
  deriving DecidableEq

/-- `get_req_for_page` and `get_req_for_buf`, with the test of the result and the
`BUG_ON` after the call. The NULL test looks at the wrong pointer, so a failed
allocation is dereferenced. -/
def getReq {α : Type} (ret : Int → α) (r : Req) (next : Outcome α) : Outcome α :=
  if r.alloc = false then .oops
  else if r.mappingError then .ret (ret eNoMem)
  else if r.dma = 0 then .oops
  else next

/-- The loop `do ... while (ne < 1)`: `none` while nothing has arrived. -/
def pollCq : List Poll → Option Poll
  | [] => none
  | .empty :: rest => pollCq rest
  | p :: _ => some p

def Req.Ready (r : Req) : Prop := r.alloc = true ∧ r.mappingError = false ∧ r.dma ≠ 0

def Req.Unmapped (r : Req) : Prop := r.alloc = true ∧ r.mappingError = true

def Completed (polls : List Poll) : Prop :=
  ∃ immData, pollCq polls = some (.completion true immData)

section
variable {α : Type} {ret : Int → α} {r : Req}

theorem getReq_of_ready (ready : r.Ready) (next : Outcome α) : getReq ret r next = next := by
  obtain ⟨alloc, mapped, dma⟩ := ready
  rw [getReq, if_neg (by simp [alloc]), if_neg (by simp [mapped]), if_neg dma]

theorem getReq_of_unmapped (unmapped : r.Unmapped) (next : Outcome α) :
    getReq ret r next = .ret (ret eNoMem) := by
  obtain ⟨alloc, failed⟩ := unmapped
  simp [getReq, alloc, failed]

theorem getReq_cases (ret : Int → α) (r : Req) :
    r.Ready ∨ r.Unmapped ∨ ∀ next, getReq ret r next = .oops := by
  by_cases alloc : r.alloc = true
  · by_cases failed : r.mappingError = true
    · exact Or.inr (Or.inl ⟨alloc, failed⟩)
    · by_cases dma : r.dma = 0
      · exact Or.inr (Or.inr fun next => by simp [getReq, alloc, failed, dma])
      · exact Or.inl ⟨alloc, by simpa using failed, dma⟩
  · exact Or.inr (Or.inr fun next => by simp [getReq, alloc])

theorem not_ready_of_unmapped (unmapped : r.Unmapped) : ¬ r.Ready := by
  rintro ⟨_, mapped, _⟩
  exact absurd unmapped.2 (by simp [mapped])

end

/-- Everything the environment decides during one call. -/
structure GetEnv where
  isIn : Bool
  pageReq : Req
  metaAlloc : Bool
  metaReq : Req
  postSend : Int
  sendPolls : List Poll
  recvPolls : List Poll
  postRecv : Bool
  deriving DecidableEq

/-- The label `out`: `ret` is overwritten, only `tx_state` decides. -/
def getOut (e : GetEnv) (txState : BitVec 32) : Outcome Int :=
  if e.postRecv = false then .oops
  else if txState = TxState.readAborted.code then .ret (-1)
  else .ret 0

/-- The part under `global_lock`. The result of `ib_post_send` is only printed, and the
error exits leave `tx_state` at its initial 0. -/
def getExchange (e : GetEnv) : Outcome Int :=
  match pollCq e.sendPolls with
  | none => .spins
  | some (.completion true _) =>
    match pollCq e.recvPolls with
    | none => .spins
    | some (.completion true immData) => getOut e (bitUnmask (ntohl immData)).state
    | some _ => getOut e 0
  | some _ => getOut e 0

def rdpmaGet (e : GetEnv) : Outcome Int :=
  if e.isIn = false then .ret (-1)
  else getReq id e.pageReq
    (if e.metaAlloc = false then .ret eNoMem else getReq id e.metaReq (getExchange e))

/-- The caller for cleancache looks for the one value -1. -/
def juleeCleancacheGetPage (e : GetEnv) : Outcome Int :=
  match rdpmaGet e with
  | .ret value => if value = -1 then .ret (-1) else .ret 0
  | other => other

/-- The caller for frontswap tests for any nonzero value. -/
def ckswapLoad (e : GetEnv) : Outcome Int :=
  match rdpmaGet e with
  | .ret value => if value ≠ 0 then .ret (-1) else .ret 0
  | other => other

/-- The word the server answers with for a found page on slot (`qid`, `mid`). -/
def IsCommitted (qid mid : Nat) (immData : BitVec 32) : Prop :=
  (bitUnmask (ntohl immData)).type = MsgType.readReply.code ∧
    (bitUnmask (ntohl immData)).state = TxState.readCommitted.code ∧
    (bitUnmask (ntohl immData)).msgNum.toNat = mid ∧ (bitUnmask (ntohl immData)).qid.toNat = qid

/-- The call reaches `ib_post_send`. -/
def Issued (e : GetEnv) : Prop :=
  e.isIn = true ∧ e.pageReq.Ready ∧ e.metaAlloc = true ∧ e.metaReq.Ready

/-- One of the three exits with -ENOMEM is taken. -/
def OutOfMemory (e : GetEnv) : Prop :=
  e.isIn = true ∧ (e.pageReq.Unmapped ∨
    e.pageReq.Ready ∧ (e.metaAlloc = false ∨ e.metaReq.Unmapped))

def SendCompleted (e : GetEnv) : Prop := Completed e.sendPolls

/-- A committed reply for the request (`qid`, `mid`) was taken off the receive queue. -/
def Received (qid mid : Nat) (e : GetEnv) : Prop :=
  Issued e ∧ SendCompleted e ∧
    ∃ immData, pollCq e.recvPolls = some (.completion true immData) ∧ IsCommitted qid mid immData

/-- Whatever arrives on the two completion queues is a success, and the reply is an
abort or the committed reply for this request. -/
def CleanCompletions (qid mid : Nat) (e : GetEnv) : Prop :=
  (∀ p, pollCq e.sendPolls = some p → ∃ immData, p = .completion true immData) ∧
    (SendCompleted e → ∀ p, pollCq e.recvPolls = some p → ∃ immData, p = .completion true immData ∧
      ((bitUnmask (ntohl immData)).state = TxState.readAborted.code ∨ IsCommitted qid mid immData))

theorem rdpmaGet_of_issued {e : GetEnv} (issued : Issued e) : rdpmaGet e = getExchange e := by
  obtain ⟨isIn, page, alloc, buf⟩ := issued
  simp [rdpmaGet, isIn, alloc, getReq_of_ready page, getReq_of_ready buf]

theorem rdpmaGet_of_outOfMemory {e : GetEnv} (out : OutOfMemory e) : rdpmaGet e = .ret eNoMem := by
  obtain ⟨isIn, page | ⟨page, alloc | buf⟩⟩ := out
  · simp [rdpmaGet, isIn, getReq_of_unmapped page]
  · simp [rdpmaGet, isIn, getReq_of_ready page, alloc]
  · cases alloc : e.metaAlloc <;>
      simp [rdpmaGet, isIn, getReq_of_ready page, alloc, getReq_of_unmapped buf]

theorem not_issued_of_outOfMemory {e : GetEnv} (out : OutOfMemory e) : ¬ Issued e := by
  rintro ⟨_, pageReady, alloc, bufReady⟩
  obtain ⟨_, page | ⟨_, noAlloc | buf⟩⟩ := out
  · exact not_ready_of_unmapped page pageReady
  · exact absurd alloc (by simp [noAlloc])
  · exact not_ready_of_unmapped buf bufReady

theorem rdpmaGet_cases (e : GetEnv) :
    Issued e ∨ OutOfMemory e ∨ rdpmaGet e = .ret (-1) ∨ rdpmaGet e = .oops := by
  cases isIn : e.isIn with
  | false => exact Or.inr (Or.inr (Or.inl (by simp [rdpmaGet, isIn])))
  | true =>
    rcases getReq_cases id e.pageReq with page | page | page
    · cases alloc : e.metaAlloc with
      | false => exact Or.inr (Or.inl ⟨isIn, Or.inr ⟨page, Or.inl alloc⟩⟩)
      | true =>
        rcases getReq_cases id e.metaReq with buf | buf | buf
        · exact Or.inl ⟨isIn, page, alloc, buf⟩
        · exact Or.inr (Or.inl ⟨isIn, Or.inr ⟨page, Or.inr buf⟩⟩)
        · exact Or.inr (Or.inr (Or.inr (by
            simp [rdpmaGet, isIn, getReq_of_ready page, alloc, buf])))
    · exact Or.inr (Or.inl ⟨isIn, Or.inl page⟩)
    · exact Or.inr (Or.inr (Or.inr (by simp [rdpmaGet, isIn, page])))

theorem juleeCleancacheGetPage_eq_zero {e : GetEnv} :
    juleeCleancacheGetPage e = .ret 0 ↔ ∃ value, rdpmaGet e = .ret value ∧ value ≠ -1 := by
  unfold juleeCleancacheGetPage
  cases rdpmaGet e with
  | ret value => by_cases minus : value = -1 <;> simp [minus]
  | oops => simp
  | spins => simp

theorem getOut_ne_other {e : GetEnv} {txState : BitVec 32} {value : Int}
    (returned : getOut e txState = .ret value) (ne : value ≠ -1) :
    e.postRecv = true ∧ txState ≠ TxState.readAborted.code ∧ value = 0 := by
  unfold getOut at returned
  split at returned
  · cases returned
  · split at returned
    · cases returned
      exact absurd rfl ne
    · cases returned
      exact ⟨by simpa using ‹¬ e.postRecv = false›, ‹_›, rfl⟩

theorem received_of_clean {qid mid : Nat} {e : GetEnv} (issued : Issued e)
    (clean : e.postRecv = true → CleanCompletions qid mid e) {value : Int}
    (returned : getExchange e = .ret value) (ne : value ≠ -1) : Received qid mid e := by
  have posted : e.postRecv = true := by
    unfold getExchange at returned
    repeat' split at returned
    all_goals first | cases returned | exact (getOut_ne_other returned ne).1
  obtain ⟨cleanSend, cleanRecv⟩ := clean posted
  unfold getExchange at returned
  cases sent : pollCq e.sendPolls with
  | none => rw [sent] at returned; cases returned
  | some p =>
    obtain ⟨sendImm, rfl⟩ := cleanSend p sent
    rw [sent] at returned
    cases got : pollCq e.recvPolls with
    | none => rw [got] at returned; cases returned
    | some q =>
      obtain ⟨immData, rfl, reply⟩ := cleanRecv ⟨sendImm, sent⟩ q got
      rw [got] at returned
      rcases reply with aborted | committed
      · exact absurd aborted (getOut_ne_other returned ne).2.1
      · exact ⟨issued, ⟨sendImm, sent⟩, immData, got, committed⟩

theorem getOut_zero {e : GetEnv} (posted : e.postRecv = true) : getOut e 0 = .ret 0 := by
  rw [getOut, if_neg (by simp [posted]), if_neg (by decide)]

theorem clean_of_received {qid mid : Nat} {e : GetEnv} (posted : e.postRecv = true)
    (sound : getExchange e = .ret 0 → Received qid mid e) : CleanCompletions qid mid e := by
  constructor
  · intro p sent
    by_contra unclean
    have zero : getExchange e = .ret 0 := by
      unfold getExchange
      rw [sent]
      cases p with
      | failed => exact getOut_zero posted
      | empty => exact getOut_zero posted
      | completion success immData =>
        cases success with
        | false => exact getOut_zero posted
        | true => exact absurd ⟨immData, rfl⟩ unclean
    obtain ⟨_, ⟨sendImm, sent'⟩, _⟩ := sound zero
    exact unclean ⟨sendImm, by simpa [sent] using sent'⟩
  · rintro ⟨sendImm, sent⟩ q got
    by_contra unclean
    have zero : getExchange e = .ret 0 := by
      unfold getExchange
      rw [sent, got]
      cases q with
      | failed => exact getOut_zero posted
      | empty => exact getOut_zero posted
      | completion success immData =>
        cases success with
        | false => exact getOut_zero posted
        | true =>
          have notAborted : (bitUnmask (ntohl immData)).state ≠ TxState.readAborted.code :=
            fun aborted => unclean ⟨immData, rfl, Or.inl aborted⟩
          simp [getOut, posted, notAborted]
    obtain ⟨_, _, immData, got', committed⟩ := sound zero
    exact unclean ⟨immData, by simpa [got] using got', Or.inr committed⟩

/-- Success of the get and of its cleancache caller means data exactly when no exit with
-ENOMEM is taken and the completions of an issued request are clean. -/
theorem get_success_has_data_iff (qid mid : Nat) (e : GetEnv) :
    ((rdpmaGet e = .ret 0 → Received qid mid e) ∧
      (juleeCleancacheGetPage e = .ret 0 → Received qid mid e)) ↔
    ¬ OutOfMemory e ∧ (Issued e → e.postRecv = true → CleanCompletions qid mid e) := by
  constructor
  · rintro ⟨sound, soundPage⟩
    refine ⟨fun out => ?_, fun issued posted => ?_⟩
    · have zero := juleeCleancacheGetPage_eq_zero.mpr ⟨_, rdpmaGet_of_outOfMemory out, by decide⟩
      exact not_issued_of_outOfMemory out (soundPage zero).1
    · exact clean_of_received posted fun zero =>
        sound ((rdpmaGet_of_issued issued).trans zero)
  · rintro ⟨memory, clean⟩
    have data : ∀ value, rdpmaGet e = .ret value → value ≠ -1 → Received qid mid e := by
      intro value returned ne
      rcases rdpmaGet_cases e with issued | out | minus | oops
      · exact received_of_clean issued (clean issued) (rdpmaGet_of_issued issued ▸ returned) ne
      · exact absurd out memory
      · cases minus.symm.trans returned
        exact absurd rfl ne
      · cases oops.symm.trans returned
    refine ⟨fun zero => data 0 zero (by decide), fun zero => ?_⟩
    obtain ⟨value, returned, ne⟩ := juleeCleancacheGetPage_eq_zero.mp zero
    exact data value returned ne

/-- The first poll of the send queue fails: both functions still return 0, and no reply
was ever looked at. -/
theorem get_succeeds_after_failed_poll :
    let ready : Req := ⟨true, false, 4096⟩
    let e : GetEnv := ⟨true, ready, true, ready, 0, [.failed], [], true⟩
    rdpmaGet e = .ret 0 ∧ juleeCleancacheGetPage e = .ret 0 ∧ ckswapLoad e = .ret 0 ∧
      ∀ qid mid, ¬ Received qid mid e := by
  refine ⟨by decide, by decide, by decide, ?_⟩
  rintro qid mid ⟨_, ⟨_, sent⟩, _⟩
  exact absurd sent (by simp [pollCq])

end Xcache.Client
