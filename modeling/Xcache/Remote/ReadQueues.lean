import Xcache.Lib.SpinLock
import Xcache.Remote.Moves

/-! One read queue on its own: the exchange of the owner of its lock, from the request to the
result. What a call returns is fixed by the lookup of the server's thread; the results it may
have are a parameter. -/

namespace Xcache.Remote
open Function
open Memory

def GetPc.inside : GetPc → Bool
  | .test _ | .lock | .out _ => false
  | _ => true

namespace ReadQueue

def Inside (call : GetCall) : Bool := call.pc.inside

/-- The requests and replies on their way, and the thread between them. -/
abbrev Parts := List ReadOp × List (BitVec 32) × Reader × List Reply × List (BitVec 32)

def parts (r : ReadQueue) : Parts := (r.wire, r.requests, r.reader, r.replies, r.recvCq)

def quiet : Parts := ([], [], .idle, [], [])

/-- The word that tells a result: the address of a page, or none. -/
def resultImm (q : Queue) (call : GetCall) (result : Option Value) : BitVec 32 :=
  replyImm call.msgId q (if result.isSome then .readCommitted else .readAborted)

def txState (result : Option Value) : BitVec 32 :=
  if result.isSome then TxState.readCommitted.code else TxState.readAborted.code

/-- The page of a result is where the call wants it. -/
def Delivered (mem : Nat → Byte) (frames : BitVec 64 → Page) (call : GetCall)
    (result : Option Value) : Prop :=
  ∀ value ∈ result, frames call.raddr = read pageSize mem value.toNat

/-- How far an exchange is once the request has been transmitted. -/
inductive Sent (q : Queue) (slot : Nat → Nat → Nat) (mem : Nat → Byte) (frames : BitVec 64 → Page)
    (may : Option Value → Prop) (call : GetCall) (p : Parts) : Prop
  | requested (at_ : p = ([], [getImm q call.msgId], .idle, [], []))
      (key : load mem (slot q call.msgId) = call.key)
        (raddr : load mem (slot q call.msgId + 16) = call.raddr)
  | atKey (at_ : p = ([], [], .atKey q call.msgId, [], []))
      (key : load mem (slot q call.msgId) = call.key)
        (raddr : load mem (slot q call.msgId + 16) = call.raddr)
  | atAddress (at_ : p = ([], [], .atAddress q call.msgId call.key, [], []))
      (raddr : load mem (slot q call.msgId + 16) = call.raddr)
  | lookup (at_ : p = ([], [], .lookup q call.msgId call.key call.raddr, [], []))
  | replied (result : Option Value)
      (at_ : p = ([], [], .idle, [⟨resultImm q call result, result.map (·, call.raddr)⟩], []))
      (allowed : may result)
  | answered (result : Option Value) (at_ : p = ([], [], .idle, [], [resultImm q call result]))
      (allowed : may result) (delivered : Delivered mem frames call result)

def posted (q : Queue) (call : GetCall) : Parts :=
  ([⟨call.msgId, call.key, call.raddr, getImm q call.msgId⟩], [], .idle, [], [])

/-- The exchange, by the place of the owner. -/
def Phase (q : Queue) (slot : Nat → Nat → Nat) (mem : Nat → Byte) (frames : BitVec 64 → Page)
    (may : Option Value → Prop) (call : GetCall) (p : Parts) (sendCq : Nat) : GetPc → Prop
  | .post => p = quiet ∧ sendCq = 0
  | .pollSend => p = posted q call ∧ sendCq = 0 ∨ Sent q slot mem frames may call p ∧ sendCq = 1
  | .pollRecv => Sent q slot mem frames may call p ∧ sendCq = 0
  | .unlock state =>
    p = quiet ∧ sendCq = 0 ∧ ∃ result, may result ∧ state = txState result ∧
      Delivered mem frames call result
  | _ => False

/-- One exchange at a time, and every call behind it knows its result. -/
structure Exchange (q : Queue) (slot : Nat → Nat → Nat) (mem : Nat → Byte)
    (frames : BitVec 64 → Page) (may : Nat → Key → Option Value → Prop) (r : ReadQueue) : Prop where
  held : SpinLock.Held Inside r.lock r.calls
  free : r.lock = none → r.parts = quiet ∧ r.sendCq = 0
  phase : ∀ n call, r.calls n = some call → call.pc.inside = true →
    Phase q slot mem frames (may n call.key) call r.parts r.sendCq call.pc
  out : ∀ n call state, r.calls n = some call → call.pc = .out state →
    ∃ result, may n call.key result ∧ state = txState result ∧ Delivered mem frames call result
  small : ∀ n call, r.calls n = some call → call.msgId < numEntry

/-- No two calls share the place for their page. -/
def Placed (r : ReadQueue) : Prop :=
  ∀ n n' call call', r.calls n = some call → r.calls n' = some call' →
    call.raddr = call'.raddr → n = n'

section
variable {q : Queue} {slot : Nat → Nat → Nat} {mem mem' : Nat → Byte}
  {frames frames' : BitVec 64 → Page}
  {may may' : Nat → Key → Option Value → Prop} {r r' : ReadQueue}

theorem exchange_start : start.Exchange q slot mem frames may :=
  ⟨SpinLock.held_free, fun _ => ⟨rfl, rfl⟩, nofun, nofun, nofun⟩

section
variable {ok ok' : Option Value → Prop} {call : GetCall} {p : Parts}

/-- What others do to an exchange: the slot of the call, the page of its result and the place for
it stay, and more results may be allowed. -/
structure Kept (q : Queue) (slot : Nat → Nat → Nat) (mem mem' : Nat → Byte)
    (frames frames' : BitVec 64 → Page) (ok ok' : Option Value → Prop) (call : GetCall) : Prop where
  allowed : ∀ result, ok result → ok' result
  key : load mem' (slot q call.msgId) = load mem (slot q call.msgId)
  raddr : load mem' (slot q call.msgId + 16) = load mem (slot q call.msgId + 16)
  page : ∀ value, ok (some value) → read pageSize mem' value.toNat = read pageSize mem value.toNat
  place : frames' call.raddr = frames call.raddr

theorem Sent.goto (pc : GetPc) (stage : Sent q slot mem frames ok call p) :
    Sent q slot mem frames ok { call with pc := pc } p := by
  cases stage with
  | requested at_ key raddr => exact .requested at_ key raddr
  | atKey at_ key raddr => exact .atKey at_ key raddr
  | atAddress at_ raddr => exact .atAddress at_ raddr
  | lookup at_ => exact .lookup at_
  | replied result at_ may => exact .replied result at_ may
  | answered result at_ may there => exact .answered result at_ may there

theorem Phase.goto {sendCq : Nat} {pc : GetPc}
    (phase : Phase q slot mem frames ok call p sendCq pc) :
    Phase q slot mem frames ok { call with pc := pc } p sendCq pc := by
  cases pc with
  | pollSend => exact phase.imp id fun ⟨stage, cq⟩ => ⟨stage.goto _, cq⟩
  | pollRecv => exact ⟨phase.1.goto _, phase.2⟩
  | _ => exact phase

variable (kept : Kept q slot mem mem' frames frames' ok ok' call)
include kept

theorem Kept.delivered {result : Option Value} (allowed : ok result)
    (there : Delivered mem frames call result) :
    Delivered mem' frames' call result := by
  intro value eq
  obtain rfl : result = some value := eq
  rw [kept.place, kept.page value allowed]
  exact there value rfl

theorem Kept.sent (stage : Sent q slot mem frames ok call p) :
    Sent q slot mem' frames' ok' call p := by
  cases stage with
  | requested at_ key raddr => exact .requested at_ (kept.key.trans key) (kept.raddr.trans raddr)
  | atKey at_ key raddr => exact .atKey at_ (kept.key.trans key) (kept.raddr.trans raddr)
  | atAddress at_ raddr => exact .atAddress at_ (kept.raddr.trans raddr)
  | lookup at_ => exact .lookup at_
  | replied result at_ may => exact .replied result at_ (kept.allowed _ may)
  | answered result at_ may there =>
    exact .answered result at_ (kept.allowed _ may) (kept.delivered may there)

theorem Kept.phase {sendCq : Nat} {pc : GetPc}
    (phase : Phase q slot mem frames ok call p sendCq pc) :
    Phase q slot mem' frames' ok' call p sendCq pc := by
  cases pc with
  | post => exact phase
  | pollSend => exact phase.imp id fun ⟨stage, cq⟩ => ⟨kept.sent stage, cq⟩
  | pollRecv => exact ⟨kept.sent phase.1, phase.2⟩
  | unlock state =>
    obtain ⟨quiet, cq, result, may, eq, there⟩ := phase
    exact ⟨quiet, cq, result, kept.allowed _ may, eq, kept.delivered may there⟩
  | _ => exact phase.elim

end

theorem Exchange.frame (x : r.Exchange q slot mem frames may)
    (kept : ∀ n call, r.calls n = some call →
      Kept q slot mem mem' frames frames' (may n call.key) (may' n call.key) call) :
    r.Exchange q slot mem' frames' may' := by
  refine ⟨x.held, x.free, fun n call here inside => ?_, fun n call state here eq => ?_, x.small⟩
  · exact (kept n call here).phase (x.phase n call here inside)
  · obtain ⟨result, may, eq, there⟩ := x.out n call state here eq
    exact ⟨result, (kept n call here).allowed _ may, eq, (kept n call here).delivered may there⟩

theorem unmask_getImm (q : Queue) {mid : Nat} (lt : mid < numEntry) :
    (bitUnmask (ntohl (getImm q mid))).type = MsgType.read.code ∧
      (bitUnmask (ntohl (getImm q mid))).qid.toNat = q ∧
      (bitUnmask (ntohl (getImm q mid))).msgNum.toNat = mid := by
  have all : ∀ (q : Queue) (mid : Fin numEntry), (bitUnmask (ntohl (getImm q mid))).type =
    MsgType.read.code ∧
      (bitUnmask (ntohl (getImm q mid))).qid.toNat = q ∧
        (bitUnmask (ntohl (getImm q mid))).msgNum.toNat = mid := by
    decide
  exact all q ⟨mid, lt⟩

theorem state_resultImm (q : Queue) {call : GetCall} (lt : call.msgId < numEntry)
    (result : Option Value) :
    (bitUnmask (ntohl (resultImm q call result))).state = txState result := by
  have all : ∀ (q : Queue) (mid : Fin numEntry) (found : Bool),
      (bitUnmask (ntohl (replyImm mid q (if found then .readCommitted else .readAborted)))).state =
        if found then TxState.readCommitted.code else TxState.readAborted.code := by
    decide
  exact all q ⟨call.msgId, lt⟩ result.isSome

section
variable {n : Nat} {call : GetCall}

theorem Exchange.outside {next : Option GetCall} {results : List (Key × Option Page)}
    (x : r.Exchange q slot mem frames may)
    (before : ∀ call, r.calls n = some call → Inside call = false)
    (after : ∀ call ∈ next, Inside call = false ∧ call.msgId < numEntry ∧
      ∀ state, call.pc ≠ .out state) :
    Exchange q slot mem frames may
      { r with calls := update r.calls n next, results := results } := by
  have other : ∀ {n' call'}, update r.calls n next n' = some call' → call' ∈ next ∨
      r.calls n' = some call' := by
    intro n' call' there
    by_cases same : n' = n
    · rw [same, update_self] at there
      exact Or.inl there
    · rw [update_of_ne same] at there
      exact Or.inr there
  refine ⟨x.held.outside before fun call eq => (after call eq).1, x.free, ?_, ?_, ?_⟩
  · intro n' call' there inside
    rcases other there with new | old
    · exact absurd inside (Bool.not_eq_true _ ▸ (after call' new).1)
    · exact x.phase n' call' old inside
  · intro n' call' state there eq
    rcases other there with new | old
    · exact absurd eq ((after call' new).2.2 state)
    · exact x.out n' call' state old eq
  · intro n' call' there
    rcases other there with new | old
    · exact (after call' new).2.1
    · exact x.small n' call' old

theorem Exchange.goto {pc : GetPc} {r₁ : ReadQueue} (x : r.Exchange q slot mem frames may)
    (here : r.calls n = some call) (free : r.lock = none ∨ r.lock = some n)
    (mine : r₁.lock = some n) (calls : r₁.calls = r.calls) (inside : pc.inside = true)
    (phase : Phase q slot mem frames (may n call.key) call r₁.parts r₁.sendCq pc) :
    (r₁.goto n call pc).Exchange q slot mem frames may := by
  have held : SpinLock.Held Inside (r₁.goto n call pc).lock (r₁.goto n call pc).calls := by
    unfold ReadQueue.goto
    rw [mine, calls]
    exact x.held.enter free inside
  have other : ∀ {n' call'}, (r₁.goto n call pc).calls n' = some call' →
      n' = n ∧ call' = { call with pc := pc } ∨ n' ≠ n ∧ r.calls n' = some call' := by
    intro n' call' there
    unfold ReadQueue.goto at there
    dsimp only at there
    rw [calls] at there
    by_cases same : n' = n
    · rw [same, update_self] at there
      exact Or.inl ⟨same, (Option.some_inj.mp there).symm⟩
    · rw [update_of_ne same] at there
      exact Or.inr ⟨same, there⟩
  refine ⟨held, ?_, ?_, ?_, ?_⟩
  · intro none
    exact absurd (mine.symm.trans none) (Option.some_ne_none _)
  · intro n' call' there within
    rcases other there with ⟨rfl, rfl⟩ | ⟨ne, _⟩
    · exact phase.goto
    · -- only the owner is inside
      have owner : some n = some n' := mine.symm.trans (held.mine n' call' there within)
      exact absurd (Option.some_inj.mp owner).symm ne
  · intro n' call' state there eq
    rcases other there with ⟨rfl, rfl⟩ | ⟨_, old⟩
    · dsimp only at eq
      rw [eq] at inside
      cases inside
    · exact x.out n' call' state old eq
  · intro n' call' there
    rcases other there with ⟨rfl, rfl⟩ | ⟨_, old⟩
    · exact x.small n' call here
    · exact x.small n' call' old

theorem Exchange.unlock {state : BitVec 32} (x : r.Exchange q slot mem frames may)
    (here : r.calls n = some call) (before : call.pc = .unlock state) :
    (ReadQueue.goto { r with lock := none } n call (.out state)).Exchange q slot mem frames
      may := by
  have inside : Inside call = true := by
    unfold Inside
    rw [before]
    rfl
  have phase := x.phase n call here inside
  rw [before] at phase
  obtain ⟨quiet, cq, known⟩ := phase
  have mine := x.held.mine n call here inside
  have held : SpinLock.Held Inside none (update r.calls n
      (some { call with pc := .out state })) := by
    refine x.held.release mine ?_
    rintro _ ⟨⟩
    rfl
  refine ⟨held, fun _ => ⟨quiet, cq⟩, ?_, ?_, ?_⟩
  · intro n' call' there within
    cases held.mine n' call' there within
  · intro n' call' state' there eq
    change update r.calls n _ n' = _ at there
    by_cases same : n' = n
    · subst same
      rw [update_self] at there
      cases there
      cases eq
      exact known
    · rw [update_of_ne same] at there
      exact x.out n' call' state' there eq
  · intro n' call' there
    change update r.calls n _ n' = _ at there
    by_cases same : n' = n
    · subst same
      rw [update_self] at there
      cases there
      exact x.small n' call here
    · rw [update_of_ne same] at there
      exact x.small n' call' there

theorem Exchange.active (x : r.Exchange q slot mem frames may) (busy : r.parts ≠ quiet) :
    ∃ n call, r.lock = some n ∧
    r.calls n = some call ∧ (call.pc = .pollSend ∧ r.parts = posted q call ∧ r.sendCq = 0 ∨
      Sent q slot mem frames (may n call.key) call r.parts ∧
        (call.pc = .pollSend ∧ r.sendCq = 1 ∨ call.pc = .pollRecv ∧ r.sendCq = 0)) := by
  cases locked : r.lock with
  | none => exact absurd (x.free locked).1 busy
  | some n =>
    obtain ⟨call, here, inside⟩ := x.held.owner n locked
    have phase := x.phase n call here inside
    refine ⟨n, call, rfl, here, ?_⟩
    cases pc : call.pc with
    | pollSend =>
      rw [pc] at phase
      rcases phase with ⟨posted, cq⟩ | ⟨sent, cq⟩
      · exact Or.inl ⟨rfl, posted, cq⟩
      · exact Or.inr ⟨sent, Or.inl ⟨rfl, cq⟩⟩
    | pollRecv =>
      rw [pc] at phase
      exact Or.inr ⟨phase.1, Or.inr ⟨rfl, phase.2⟩⟩
    | post | unlock state =>
      rw [pc] at phase
      exact absurd phase.1 busy
    | _ =>
      rw [pc] at phase
      exact phase.elim

theorem Exchange.advance (x : r.Exchange q slot mem frames may) (mine : r.lock = some n)
    (here : r.calls n = some call) (lock : r'.lock = r.lock) (calls : r'.calls = r.calls)
    (others : ∀ n' call' result, n' ≠ n → r.calls n' = some call' → may n' call'.key result →
      Delivered mem frames call' result → Delivered mem' frames' call' result)
    (stage : Sent q slot mem' frames' (may n call.key) call r'.parts)
    (at_ : call.pc = .pollSend ∧ r'.sendCq = 1 ∨ call.pc = .pollRecv ∧ r'.sendCq = 0) :
    r'.Exchange q slot mem' frames' may := by
  have outside : ∀ n' call', r.calls n' = some call' → n' ≠ n → call'.pc.inside = false := by
    intro n' call' there ne
    by_contra within
    have owner := x.held.mine n' call' there (Bool.not_eq_false _ ▸ within)
    exact ne (Option.some_inj.mp (owner.symm.trans mine))
  refine ⟨?_, ?_, ?_, ?_, ?_⟩
  · rw [lock, calls]
    exact x.held
  · rw [lock, mine]
    nofun
  · intro n' call' there inside
    rw [calls] at there
    by_cases same : n' = n
    · subst same
      cases here.symm.trans there
      rcases at_ with ⟨eq, cq⟩ | ⟨eq, cq⟩ <;> rw [eq]
      · exact Or.inr ⟨stage, cq⟩
      · exact ⟨stage, cq⟩
    · rw [outside n' call' there same] at inside
      cases inside
  · intro n' call' state there eq
    rw [calls] at there
    have ne : n' ≠ n := by
      rintro rfl
      cases here.symm.trans there
      rw [eq] at at_
      rcases at_ with ⟨⟨⟩, _⟩ | ⟨⟨⟩, _⟩
    obtain ⟨result, may, eq, delivered⟩ := x.out n' call' state there eq
    exact ⟨result, may, eq, others n' call' result ne there may delivered⟩
  · intro n' call' there
    rw [calls] at there
    exact x.small n' call' there

end

def found (value : Value) : Option Value := if value ≠ noneValue then some value else none

theorem reply_eq (q : Queue) (call : GetCall) (value : Value) :
    (if value ≠ noneValue then (⟨replyImm call.msgId q .readCommitted,
      some (value, call.raddr)⟩ : Reply)
      else ⟨replyImm call.msgId q .readAborted, none⟩) =
      ⟨resultImm q call (found value), (found value).map (·, call.raddr)⟩ := by
  unfold resultImm found
  split <;> rfl

theorem load_request (mem : Nat → Byte) (place : Nat) (x y z : BitVec 64) :
    load (store (store (store mem place x) (place + 8) y) (place + 16) z) place = x ∧
      load (store (store (store mem place x) (place + 8) y) (place + 16) z) (place + 16) = z := by
  have apart : ∀ o, 8 ≤ o → (Range.mk place 8).Apart ⟨place + o, 8⟩ :=
    fun o le => Or.inl (Nat.add_le_add_left le place)
  constructor
  · rw [load_store_apart _ _ (apart 16 (by decide)), load_store_apart _ _ (apart 8 le_rfl),
      load_store]
  · rw [load_store]

theorem parts_iff {a : List ReadOp} {b : List (BitVec 32)} {c : Reader} {d : List Reply}
    {e : List (BitVec 32)} :
    r.parts = (a, b, c, d, e) ↔ r.wire = a ∧ r.requests = b ∧ r.reader = c ∧ r.replies = d ∧
      r.recvCq = e := by
  unfold parts
  simp only [Prod.mk.injEq]

theorem Exchange.request {op : ReadOp} {rest : List ReadOp} (x : r.Exchange q slot mem frames may)
    (first : r.wire = op :: rest)
    (eq : mem' = store (store (store mem (slot q op.msgId) op.key) (slot q op.msgId + 8) 1)
      (slot q op.msgId + 16) op.raddr)
    (pages : ∀ n call value, r.calls n = some call → may n call.key (some value) →
      read pageSize mem' value.toNat = read pageSize mem value.toNat) :
    Exchange q slot mem' frames may
      { r with wire := rest, sendCq := r.sendCq + 1, requests := r.requests ++ [op.imm] } := by
  have busy : r.parts ≠ quiet := by
    intro idle
    rw [(parts_iff.mp idle).1] at first
    cases first
  obtain ⟨n, call, mine, here, ⟨at_, posted, cq⟩ | ⟨sent, _⟩⟩ := x.active busy
  · obtain ⟨wire, requests, reader, replies, recvCq⟩ := parts_iff.mp posted
    rw [wire] at first
    cases first
    obtain ⟨key, raddr⟩ := load_request mem (slot q call.msgId) call.key 1 call.raddr
    rw [← eq] at key raddr
    refine x.advance mine here rfl rfl ?_ (.requested ?_ key raddr) (Or.inl ⟨at_, ?_⟩)
    · intro n' call' result ne there may delivered value eq
      obtain rfl : result = some value := eq
      rw [pages n' call' value there may]
      exact delivered value rfl
    · rw [parts_iff]
      exact ⟨rfl, by rw [requests]; rfl, reader, replies, recvCq⟩
    · show r.sendCq + 1 = 1
      rw [cq]
  · -- a request that has been sent is not posted any more
    exfalso
    cases sent with
    | requested at_ | atKey at_ | atAddress at_ | lookup at_ | replied _ at_ | answered _ at_ =>
      rw [(parts_iff.mp at_).1] at first
      cases first

theorem Exchange.receive {imm : BitVec 32} {rest : List (BitVec 32)}
    (x : r.Exchange q slot mem frames may) (first : r.requests = imm :: rest) :
    Exchange q slot mem frames may { r with
      requests := rest
      reader := if (bitUnmask (ntohl imm)).type = MsgType.read.code then
          .atKey (bitUnmask (ntohl imm)).qid.toNat (bitUnmask (ntohl imm)).msgNum.toNat
        else .idle } := by
  have busy : r.parts ≠ quiet := by
    intro idle
    rw [(parts_iff.mp idle).2.1] at first
    cases first
  obtain ⟨n, call, mine, here, ⟨_, posted, _⟩ | ⟨sent, at_⟩⟩ := x.active busy
  · rw [(parts_iff.mp posted).2.1] at first
    cases first
  · refine x.advance mine here rfl rfl (fun _ _ _ _ _ _ => id) ?_ at_
    cases sent with
    | requested at_ key raddr =>
      obtain ⟨wire, requests, reader, replies, recvCq⟩ := parts_iff.mp at_
      rw [requests] at first
      cases first
      obtain ⟨type, qid, mid⟩ := unmask_getImm q (x.small n call here)
      refine .atKey (parts_iff.mpr ⟨wire, rfl, ?_, replies, recvCq⟩) key raddr
      rw [if_pos type, qid, mid]
    | atKey at_ | atAddress at_ | lookup at_ | replied _ at_ | answered _ at_ =>
      rw [(parts_iff.mp at_).2.1] at first
      cases first

theorem Exchange.serving (x : r.Exchange q slot mem frames may) (busy : r.reader ≠ .idle) :
    ∃ n call, r.lock = some n ∧ r.calls n = some call ∧
      Sent q slot mem frames (may n call.key) call r.parts ∧
      (call.pc = .pollSend ∧ r.sendCq = 1 ∨ call.pc = .pollRecv ∧ r.sendCq = 0) := by
  obtain ⟨n, call, mine, here, ⟨_, posted, _⟩ | ⟨sent, at_⟩⟩ :=
    x.active fun idle => busy (parts_iff.mp idle).2.2.1
  · exact absurd (parts_iff.mp posted).2.2.1 busy
  · exact ⟨n, call, mine, here, sent, at_⟩

theorem Exchange.readKey {qid mid : Nat} (x : r.Exchange q slot mem frames may)
    (stage : r.reader = .atKey qid mid) :
    Exchange q slot mem frames may
      { r with reader := .atAddress qid mid (load mem (slot qid mid)) } := by
  obtain ⟨n, call, mine, here, sent, at_⟩ := x.serving (by rw [stage]; nofun)
  refine x.advance mine here rfl rfl (fun _ _ _ _ _ _ => id) ?_ at_
  cases sent with
  | atKey at_ key raddr =>
    obtain ⟨wire, requests, reader, replies, recvCq⟩ := parts_iff.mp at_
    rw [reader] at stage
    cases stage
    exact .atAddress (parts_iff.mpr ⟨wire, requests, by rw [key], replies, recvCq⟩) raddr
  | requested at_ | atAddress at_ | lookup at_ | replied _ at_ | answered _ at_ =>
    rw [(parts_iff.mp at_).2.2.1] at stage
    cases stage

theorem Exchange.readAddress {qid mid : Nat} {key : Key} (x : r.Exchange q slot mem frames may)
    (stage : r.reader = .atAddress qid mid key) :
    Exchange q slot mem frames may
      { r with reader := .lookup qid mid key (load mem (slot qid mid + 16)) } := by
  obtain ⟨n, call, mine, here, sent, at_⟩ := x.serving (by rw [stage]; nofun)
  refine x.advance mine here rfl rfl (fun _ _ _ _ _ _ => id) ?_ at_
  cases sent with
  | atAddress at_ raddr =>
    obtain ⟨wire, requests, reader, replies, recvCq⟩ := parts_iff.mp at_
    rw [reader] at stage
    cases stage
    exact .lookup (parts_iff.mpr ⟨wire, requests, by rw [raddr], replies, recvCq⟩)
  | requested at_ | atKey at_ | lookup at_ | replied _ at_ | answered _ at_ =>
    rw [(parts_iff.mp at_).2.2.1] at stage
    cases stage

theorem Exchange.lookup {qid mid : Nat} {key : Key} {raddr : BitVec 64} {value : Value}
    (x : r.Exchange q slot mem frames may) (stage : r.reader = .lookup qid mid key raddr)
    (finds : ∀ n call, r.calls n = some call → call.key = key → may n call.key (found value)) :
    Exchange q slot mem frames may { r with
      reader := .idle
      replies := r.replies ++ [if value ≠ noneValue then
          ⟨replyImm mid qid .readCommitted, some (value, raddr)⟩
        else ⟨replyImm mid qid .readAborted, none⟩] } := by
  obtain ⟨n, call, mine, here, sent, at_⟩ := x.serving (by rw [stage]; nofun)
  refine x.advance mine here rfl rfl (fun _ _ _ _ _ _ => id) ?_ at_
  cases sent with
  | lookup at_ =>
    obtain ⟨wire, requests, reader, replies, recvCq⟩ := parts_iff.mp at_
    rw [reader] at stage
    cases stage
    refine .replied (found value) (parts_iff.mpr ⟨wire, requests, rfl, ?_, recvCq⟩)
      (finds n call here rfl)
    rw [replies, reply_eq]
    rfl
  | requested at_ | atKey at_ | atAddress at_ | replied _ at_ | answered _ at_ =>
    rw [(parts_iff.mp at_).2.2.1] at stage
    cases stage

theorem Exchange.reply {answer : Reply} {rest : List Reply} (x : r.Exchange q slot mem frames may)
    (placed : r.Placed) (first : r.replies = answer :: rest)
    (copied : ∀ value raddr, answer.page = some (value, raddr) →
      frames' = update frames raddr (read pageSize mem value.toNat))
    (none : answer.page = none → frames' = frames) :
    Exchange q slot mem frames' may
      { r with replies := rest, recvCq := r.recvCq ++ [answer.imm] } := by
  have busy : r.parts ≠ quiet := by
    intro idle
    rw [(parts_iff.mp idle).2.2.2.1] at first
    cases first
  obtain ⟨n, call, mine, here, ⟨_, posted, _⟩ | ⟨sent, at_⟩⟩ := x.active busy
  · rw [(parts_iff.mp posted).2.2.2.1] at first
    cases first
  · cases sent with
    | replied result at' may =>
      obtain ⟨wire, requests, reader, replies, recvCq⟩ := parts_iff.mp at'
      rw [replies] at first
      cases first
      have changed : ∀ raddr ≠ call.raddr, frames' raddr = frames raddr := by
        intro raddr ne
        cases result with
        | none => rw [none rfl]
        | some value => rw [copied value call.raddr rfl, update_of_ne ne]
      have delivered : Delivered mem frames' call result := by
        rintro value rfl
        rw [copied value call.raddr rfl, update_self]
      refine x.advance mine here rfl rfl ?_ (.answered result
        (parts_iff.mpr ⟨wire, requests, reader, rfl, ?_⟩) may delivered) at_
      · intro n' call' result' ne there _ old value eq
        rw [changed _ fun same => ne (placed n' n call' call there here same)]
        exact old value eq
      · rw [recvCq]
        rfl
    | requested at_ | atKey at_ | atAddress at_ | lookup at_ | answered _ at_ =>
      rw [(parts_iff.mp at_).2.2.2.1] at first
      cases first

theorem Exchange.pollRecv {n : Nat} {call : GetCall} {imm : BitVec 32} {rest : List (BitVec 32)}
    (x : r.Exchange q slot mem frames may) (here : r.calls n = some call)
    (before : call.pc = .pollRecv) (first : r.recvCq = imm :: rest) :
    (ReadQueue.goto { r with recvCq := rest } n call
      (.unlock (bitUnmask (ntohl imm)).state)).Exchange q slot mem frames may := by
  have inside : call.pc.inside = true := by
    rw [before]
    rfl
  have mine := x.held.mine n call here inside
  have phase := x.phase n call here inside
  rw [before] at phase
  obtain ⟨sent, cq⟩ := phase
  cases sent with
  | answered result at_ may delivered =>
    obtain ⟨wire, requests, reader, replies, recvCq⟩ := parts_iff.mp at_
    rw [recvCq] at first
    cases first
    refine x.goto here (Or.inr mine) mine rfl rfl
      ⟨parts_iff.mpr ⟨wire, requests, reader, replies, rfl⟩, cq, result, may, ?_, delivered⟩
    exact state_resultImm q (x.small n call here) result
  | requested at_ | atKey at_ | atAddress at_ | lookup at_ | replied _ at_ =>
    rw [(parts_iff.mp at_).2.2.2.2] at first
    cases first

section
variable {find : Key → Option Value} {f : BloomFilter}

theorem Exchange.move (x : r.Exchange q slot mem frames may) (placed : r.Placed)
    (move : r.Move q slot find f mem frames mem' frames' r')
    (finds : ∀ n call value, r.calls n = some call → find call.key = some value →
      may n call.key (found value))
    (pages : ∀ n call value, r.calls n = some call → may n call.key (some value) →
      read pageSize mem' value.toNat = read pageSize mem value.toNat) :
    r'.Exchange q slot mem' frames' may := by
  have passes : ∀ {n : Nat} {call : GetCall} {pc : GetPc}, r.calls n = some call →
    call.pc.inside = false →
      pc.inside = false → (∀ state, pc ≠ .out state) →
        (r.goto n call pc).Exchange q slot mem frames may := by
    intro n call pc here before after notOut
    refine x.outside (by rw [here]; rintro _ ⟨⟩; exact before) ?_
    rintro _ ⟨⟩
    exact ⟨after, x.small n call here, notOut⟩
  have ends : ∀ {n : Nat} {call : GetCall} (result : Option Page), r.calls n = some call →
    call.pc.inside = false → (r.finish n call result).Exchange q slot mem frames may := by
    intro n call result here before
    exact x.outside (by rw [here]; rintro _ ⟨⟩; exact before) nofun
  have inside : ∀ {n : Nat} {call : GetCall} {pc : GetPc}, r.calls n = some call → call.pc = pc →
    pc.inside = true →
      r.lock = some n ∧ Phase q slot mem frames (may n call.key) call r.parts r.sendCq pc := by
    intro n call pc here before within
    subst before
    exact ⟨x.held.mine n call here within, x.phase n call here within⟩
  cases move with
  | pass here before => exact passes here (by rw [before]; rfl) rfl nofun
  | miss here before => exact ends none here (by rw [before]; rfl)
  | passed here before => exact passes here (by rw [before]; rfl) rfl nofun
  | lock here before free => exact x.goto here (Or.inl free) rfl rfl rfl (x.free free)
  | post here before =>
    obtain ⟨mine, quiet, cq⟩ := inside here before rfl
    obtain ⟨wire, requests, reader, replies, recvCq⟩ := parts_iff.mp quiet
    refine x.goto here (Or.inr mine) mine rfl rfl
      (Or.inl ⟨parts_iff.mpr ⟨?_, requests, reader, replies, recvCq⟩, cq⟩)
    show r.wire ++ _ = _
    rw [wire]
    rfl
  | pollSend here before done =>
    obtain ⟨mine, ⟨_, cq⟩ | ⟨sent, cq⟩⟩ := inside here before rfl
    · rw [cq] at done
      cases done
    · refine x.goto here (Or.inr mine) mine rfl rfl ⟨sent, ?_⟩
      show r.sendCq - 1 = 0
      rw [cq]
  | pollRecv here before first => exact x.pollRecv here before first
  | unlock here before => exact x.unlock here before
  | out here before => exact ends _ here (by rw [before]; rfl)
  | request first => exact x.request first rfl pages
  | receive idle first => exact x.receive first
  | readKey stage => exact x.readKey stage
  | readAddress stage => exact x.readAddress stage
  | lookup stage found =>
    refine x.lookup stage fun n call here eq => ?_
    rw [← eq] at found
    exact finds n call _ here found
  | abort first => exact x.reply placed first nofun fun _ => rfl
  | deliver first =>
    refine x.reply placed first (fun value raddr eq => ?_) nofun
    cases eq
    rfl

end

end

end ReadQueue

end Xcache.Remote
