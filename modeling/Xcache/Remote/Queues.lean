import Xcache.Filter.Client
import Xcache.Lib.Memory
import Xcache.Remote.Pages
import Xcache.Remote.Push
import Xcache.Store.KV

/-! Puts and gets between clients and server: the calls `rdpma_put` and `rdpma_get` of
`client/rdpma.c`, the queue threads of `server/rdma_svr.cpp` (`process_write_twosided`,
`process_read_odp`, `rdpma_bf_sender`) and the transport between them, in runs without
errors. A step makes at most one access to data that another call or thread may use at the same
time; only the insertion of a pair into the store, with the counters of the filter, and the
transfers of the network are one step each. -/

namespace Xcache.Remote
open Function
open Memory (Byte load store read write)

abbrev Queue := Fin numQueues

instance : NeZero numQueues := ⟨by decide⟩

abbrev Page := Fin pageSize → Byte

structure Config where
  numqueues : Nat
  two_le : 2 ≤ numqueues
  le : numqueues ≤ numQueues

namespace Config
variable (cfg : Config) (cpuid : Nat)

def readQueue : Queue :=
  ⟨getReadQueueId cfg.numqueues cpuid, (queueId_lt cfg.two_le (.get cpuid)).trans_le cfg.le⟩

def writeQueue : Queue :=
  ⟨getWriteQueueId cfg.numqueues cpuid, (queueId_lt cfg.two_le (.put cpuid)).trans_le cfg.le⟩

end Config

/-- Both callers pass a batch of 1. -/
def putImm (qid : Nat) : BitVec 32 :=
  htonl (bitMask ⟨1, 0, MsgType.write.code, TxState.writeBegin.code, BitVec.ofNat 32 qid⟩)

def getImm (qid mid : Nat) : BitVec 32 :=
  htonl (bitMask ⟨1, BitVec.ofNat 32 mid, MsgType.read.code, TxState.readBegin.code,
    BitVec.ofNat 32 qid⟩)

/-- The place of a put: the word of a hash function is read, then written; the page is
buffered; the call that fills the buffer sends it and waits for both completions. -/
inductive PutPc
  | load (i : Nat)
  | mark (i word : Nat)
  | lock
  | fetchAdd
  | copy (bufId : Nat)
  | post
  | pollSend
  | pollRecv
  | reset
  | unlock
  | bug
  deriving DecidableEq

structure PutCall where
  key : Key
  page : Page
  pc : PutPc

/-- The two work requests of a batch; their data is read when they are carried out. -/
inductive WriteOp
  | writeKeys
  | sendPages (imm : BitVec 32)
  deriving DecidableEq

/-- The server's thread of a write queue, inside `process_write_twosided` or outside. -/
inductive Writer
  | idle
  | copying (target : BitVec 64) (qid i : Nat) (localKeys : Nat → Key)
  | inserting (target : BitVec 64) (localKeys : Nat → Key) (i : Nat)

/-- A write queue at both ends. The receives are kept in posting order, of which the first
`used` are consumed; `acks` counts the replies of the server, `polled` those the client has
taken. `puts` and `inserts` record what was buffered and what was inserted. -/
structure WriteQueue where
  lock : Option Nat
  nrBuffered : Nat
  buffer : Nat → Byte
  keys : Nat → Byte
  wire : List WriteOp
  sendCq : Nat
  acks : Nat
  polled : Nat
  recvs : List (BitVec 64)
  used : Nat
  arrived : List (BitVec 64 × BitVec 32)
  writer : Writer
  calls : Nat → Option PutCall
  puts : List (Key × Page)
  inserts : List (Key × Value)

namespace WriteQueue

def start : WriteQueue :=
  ⟨none, 0, fun _ => 0, fun _ => 0, [], 0, 0, 0, [], 0, [], .idle, fun _ => none, [], []⟩

def goto (w : WriteQueue) (t : Nat) (call : PutCall) (pc : PutPc) : WriteQueue :=
  { w with calls := update w.calls t (some { call with pc := pc }) }

/-- `memcpy` of the page, and the key beside it. -/
def fill (w : WriteQueue) (bufId : Nat) (key : Key) (page : Page) : WriteQueue :=
  { w with
    buffer := write w.buffer (pageSize * bufId) page
    keys := store w.keys (8 * bufId) key
    puts := w.puts ++ [(key, page)] }

/-- The part of `rdpma_put` behind the filter. -/
def rdpmaPut (w : WriteQueue) (q : Queue) (t : Nat) (call : PutCall) : Option WriteQueue :=
  match call.pc with
  | .lock =>
    if w.lock = none then some (goto { w with lock := some t } t call .fetchAdd) else none
  | .fetchAdd =>
    let pc := if w.nrBuffered ≥ batchSize then .bug else .copy w.nrBuffered
    some (goto { w with nrBuffered := w.nrBuffered + 1 } t call pc)
  | .copy bufId =>
    some ((w.fill bufId call.key call.page).goto t call
      (if bufId < batchSize - 1 then .unlock else .post))
  | .post => some (goto { w with wire := w.wire ++ [.writeKeys, .sendPages (putImm q)] } t
    call .pollSend)
  | .pollSend =>
    if 0 < w.sendCq then some (goto { w with sendCq := w.sendCq - 1 } t call .pollRecv) else none
  | .pollRecv =>
    if w.polled < w.acks then some (goto { w with polled := w.polled + 1 } t call .reset) else none
  | .reset => some (goto { w with nrBuffered := 0 } t call .unlock)
  | .unlock => some { w with lock := none, calls := update w.calls t none }
  | _ => none

end WriteQueue

inductive GetPc
  | test (i : Nat)
  | lock
  | post
  | pollSend
  | pollRecv
  | unlock (txState : BitVec 32)
  | out (txState : BitVec 32)
  deriving DecidableEq

/-- `raddr` is the mapped address of the caller's page. -/
structure GetCall where
  key : Key
  raddr : BitVec 64
  msgId : Nat
  pc : GetPc

/-- The write of a `struct rdpma_metadata` with its immediate word. -/
structure ReadOp where
  msgId : Nat
  key : Key
  raddr : BitVec 64
  imm : BitVec 32

/-- The server's thread of a read queue, inside `process_read_odp` or outside. -/
inductive Reader
  | idle
  | atKey (qid mid : Nat)
  | atAddress (qid mid : Nat) (localKey : Key)
  | lookup (qid mid : Nat) (localKey : Key) (localRemoteAddr : BitVec 64)

/-- A reply, with the page to copy and the place for it unless the read is aborted. -/
structure Reply where
  imm : BitVec 32
  page : Option (Value × BitVec 64)

/-- A read queue at both ends; `results` records what the calls returned. -/
structure ReadQueue where
  lock : Option Nat
  wire : List ReadOp
  sendCq : Nat
  requests : List (BitVec 32)
  reader : Reader
  replies : List Reply
  recvCq : List (BitVec 32)
  calls : Nat → Option GetCall
  results : List (Key × Option Page)

namespace ReadQueue

def start : ReadQueue := ⟨none, [], 0, [], .idle, [], [], fun _ => none, []⟩

def goto (r : ReadQueue) (t : Nat) (call : GetCall) (pc : GetPc) : ReadQueue :=
  { r with calls := update r.calls t (some { call with pc := pc }) }

def finish (r : ReadQueue) (t : Nat) (call : GetCall) (result : Option Page) : ReadQueue :=
  { r with calls := update r.calls t none, results := r.results ++ [(call.key, result)] }

/-- `rdpma_get`: a bit that is clear in the filter ends the call. -/
def rdpmaGet (r : ReadQueue) (q : Queue) (f : BloomFilter) (page : Page) (t : Nat)
    (call : GetCall) :
    Option ReadQueue :=
  match call.pc with
  | .test i =>
    if i < f.nrHash then
      if Bitmap.marked f.bitmap (f.index call.key i) then some (r.goto t call (.test (i + 1)))
      else some (r.finish t call none)
    else some (r.goto t call .lock)
  | .lock => if r.lock = none then some (goto { r with lock := some t } t call .post) else none
  | .post =>
    let op : ReadOp := ⟨call.msgId, call.key, call.raddr, getImm q call.msgId⟩
    some (goto { r with wire := r.wire ++ [op] } t call .pollSend)
  | .pollSend =>
    if 0 < r.sendCq then some (goto { r with sendCq := r.sendCq - 1 } t call .pollRecv) else none
  | .pollRecv =>
    match r.recvCq with
    | [] => none
    | imm :: rest =>
      some (goto { r with recvCq := rest } t call (.unlock (bitUnmask (ntohl imm)).state))
  | .unlock txState => some (goto { r with lock := none } t call (.out txState))
  | .out txState =>
    some (r.finish t call (if txState = TxState.readAborted.code then none else some page))

end ReadQueue

structure System (σ : Type) where
  server : Server
  mem : Nat → Byte
  kv : KV σ
  writeQs : Client × Queue → WriteQueue
  readQs : Client × Queue → ReadQueue
  filters : Client → BloomFilter
  /-- The clients' pages, by their mapped addresses. -/
  frames : Client → BitVec 64 → Page
  senders : Client → Sender

inductive Event
  | setUp (c : Client) (q : Queue)
  | startPut (c : Client) (cpuid t : Nat) (key : Key) (page : Page)
  | put (c : Client) (q : Queue) (t : Nat)
  | transmit (c : Client) (q : Queue)
  | serveWrite (c : Client) (q : Queue)
  | startGet (c : Client) (cpuid t : Nat) (key : Key) (raddr : BitVec 64)
  | get (c : Client) (q : Queue) (t : Nat)
  | request (c : Client) (q : Queue)
  | serveRead (c : Client) (q : Queue)
  | reply (c : Client) (q : Queue)
  | send (c : Client)

def Server.savePage (s : Server) : BitVec 64 :=
  s.getFreePageRegion + BitVec.ofNat 64 pageSize * s.pageOffset

namespace System
variable {σ : Type}

def start (bufferSize globalMr : BitVec 64) (mem : Nat → Byte) (kv : KV σ)
    (nrHash bitmapSize : Nat) : System σ where
  server := Server.start bufferSize globalMr
  mem := mem
  kv := kv
  writeQs := fun _ => WriteQueue.start
  readQs := fun _ => ReadQueue.start
  filters := fun _ => ⟨nrHash, bitmapSize, fun _ => 0⟩
  frames := fun _ _ _ => 0
  senders := fun _ => .idle

def setWrite (s : System σ) (ix : Client × Queue) (w : WriteQueue) : System σ :=
  { s with writeQs := update s.writeQs ix w }

def setRead (s : System σ) (ix : Client × Queue) (r : ReadQueue) : System σ :=
  { s with readQs := update s.readQs ix r }

def setBitmap (s : System σ) (c : Client) (bitmap : Nat → Nat) : System σ :=
  let f := s.filters c
  { s with filters := update s.filters c { f with bitmap := bitmap } }

def slot (s : System σ) (c : Client) (qid mid : Nat) : Nat :=
  (s.server.localMm c + BitVec.ofNat 64 (getOffsetFromBase qid mid)).toNat

def postRecv (s : System σ) (ix : Client × Queue) : System σ :=
  let w := s.writeQs ix
  { s with
    server := s.server.handOut
    writeQs := update s.writeQs ix { w with recvs := w.recvs ++ [s.server.savePage] } }

def setUp (s : System σ) (ix : Client × Queue) : Option (System σ) :=
  if (s.writeQs ix).recvs = [] then some ((postRecv · ix)^[(Server.Event.setUp ix.2).count] s)
    else none

def startPut (cfg : Config) (s : System σ) (c : Client) (cpuid t : Nat) (key : Key) (page : Page) :
    Option (System σ) :=
  let ix := (c, cfg.writeQueue cpuid)
  let w := s.writeQs ix
  match w.calls t with
  | none => some (s.setWrite ix
    { w with calls := update w.calls t (some ⟨key, page, .load 0⟩) })
  | some _ => none

/-- `rdpma_put` with `bloom_filter_add` before it. -/
def rdpmaPut (s : System σ) (ix : Client × Queue) (t : Nat) : Option (System σ) :=
  let w := s.writeQs ix
  let f := s.filters ix.1
  match w.calls t with
  | none => none
  | some call =>
    match call.pc with
    | .load i =>
      let pc := if i < f.nrHash then .mark i (f.bitmap (f.index call.key i / 64)) else .lock
      some (s.setWrite ix (w.goto t call pc))
    | .mark i word =>
      let bit := 1 <<< (64 - 1 - f.index call.key i % 64)
      let bitmap := update f.bitmap (f.index call.key i / 64) (word ||| bit)
      some ((s.setWrite ix (w.goto t call (.load (i + 1)))).setBitmap ix.1 bitmap)
    | _ => (w.rdpmaPut ix.2 t call).map (s.setWrite ix)

/-- The oldest work request of a write queue is carried out. -/
def transmit (s : System σ) (ix : Client × Queue) : Option (System σ) :=
  let w := s.writeQs ix
  match w.wire with
  | [] => none
  | .writeKeys :: rest =>
    let mem := write s.mem (s.slot ix.1 ix.2 0) (read (8 * batchSize) w.keys 0)
    some (setWrite { s with mem := mem } ix { w with wire := rest })
  | .sendPages imm :: rest =>
    match w.recvs[w.used]? with
    | none => none
    | some target =>
      let w' : WriteQueue := { w with
        wire := rest
        used := w.used + 1
        arrived := w.arrived ++ [(target, imm)]
        sendCq := w.sendCq + 1 }
      let mem := write s.mem target.toNat (read (pageSize * batchSize) w.buffer 0)
      some (setWrite { s with mem := mem } ix w')

/-- `server_recv_poll_cq` for a received batch, with `process_write_twosided`. -/
def serveWrite (H : IHash σ) (s : System σ) (ix : Client × Queue) : Option (System σ) :=
  let w := s.writeQs ix
  match w.writer with
  | .idle =>
    match w.arrived with
    | [] => none
    | (target, imm) :: rest =>
      let qid := (bitUnmask (ntohl imm)).qid.toNat
      let writer := if target ≠ 0 then .copying target qid 0 fun _ => 0 else .idle
      some (s.setWrite ix { w with arrived := rest, writer := writer })
  | .copying target qid i localKeys =>
    if i < batchSize then
      let localKeys := update localKeys i (load s.mem (s.slot ix.1 qid 0 + 8 * i))
      some (s.setWrite ix { w with writer := .copying target qid (i + 1) localKeys })
    else some (s.setWrite ix { w with acks := w.acks + 1, writer := .inserting target localKeys 0 })
  | .inserting target localKeys i =>
    if i < batchSize then
      let curPage := target + BitVec.ofNat 64 (pageSize * i)
      match s.kv.insert H (localKeys i) curPage with
      | none => none
      | some (kv, _) =>
        let w' : WriteQueue := { w with
          writer := .inserting target localKeys (i + 1)
          inserts := w.inserts ++ [(localKeys i, curPage)] }
        some (setWrite { s with kv := kv } ix w')
    else some ((s.setWrite ix { w with writer := .idle }).postRecv ix)

def startGet (cfg : Config) (s : System σ) (c : Client) (cpuid t : Nat) (key : Key)
    (raddr : BitVec 64) :
    Option (System σ) :=
  let ix := (c, cfg.readQueue cpuid)
  let r := s.readQs ix
  match r.calls t with
  | none =>
    let call : GetCall := ⟨key, raddr, getMsgId cfg.numqueues cpuid, .test 0⟩
    some (s.setRead ix { r with calls := update r.calls t (some call) })
  | some _ => none

def rdpmaGet (s : System σ) (ix : Client × Queue) (t : Nat) : Option (System σ) :=
  let r := s.readQs ix
  match r.calls t with
  | none => none
  | some call =>
    (r.rdpmaGet ix.2 (s.filters ix.1) (s.frames ix.1 call.raddr) t call).map (s.setRead ix)

/-- The metadata of a get is written; the batch number is 1. -/
def request (s : System σ) (ix : Client × Queue) : Option (System σ) :=
  let r := s.readQs ix
  match r.wire with
  | [] => none
  | op :: rest =>
    let place := s.slot ix.1 ix.2 op.msgId
    let r' : ReadQueue :=
      { r with wire := rest, sendCq := r.sendCq + 1, requests := r.requests ++ [op.imm] }
    let mem := store (store (store s.mem place op.key) (place + 8) 1) (place + 16) op.raddr
    some (setRead { s with mem := mem } ix r')

/-- `server_recv_poll_cq` for a read, with `process_read_odp`. -/
def serveRead (H : IHash σ) (s : System σ) (ix : Client × Queue) : Option (System σ) :=
  let r := s.readQs ix
  match r.reader with
  | .idle =>
    match r.requests with
    | [] => none
    | imm :: rest =>
      let m := bitUnmask (ntohl imm)
      let reader := if m.type = MsgType.read.code then .atKey m.qid.toNat m.msgNum.toNat else .idle
      some (s.setRead ix { r with requests := rest, reader := reader })
  | .atKey qid mid =>
    some (s.setRead ix { r with reader := .atAddress qid mid (load s.mem (s.slot ix.1 qid mid)) })
  | .atAddress qid mid key =>
    some (s.setRead ix
      { r with reader := .lookup qid mid key (load s.mem (s.slot ix.1 qid mid + 16)) })
  | .lookup qid mid key raddr =>
    match s.kv.get H key with
    | none => none
    | some value =>
      let reply : Reply :=
        if value ≠ noneValue then ⟨replyImm mid qid .readCommitted, some (value, raddr)⟩
        else ⟨replyImm mid qid .readAborted, none⟩
      some (s.setRead ix { r with reader := .idle, replies := r.replies ++ [reply] })

/-- The oldest reply is carried out: the page is copied as it is now. -/
def reply (s : System σ) (ix : Client × Queue) : Option (System σ) :=
  let r := s.readQs ix
  match r.replies with
  | [] => none
  | answer :: rest =>
    let r' : ReadQueue := { r with replies := rest, recvCq := r.recvCq ++ [answer.imm] }
    match answer.page with
    | none => some (s.setRead ix r')
    | some (value, raddr) =>
      let frames := update (s.frames ix.1) raddr (read pageSize s.mem value.toNat)
      some (setRead { s with frames := update s.frames ix.1 frames } ix r')

/-- One access of `rdpma_bf_sender`; all senders use the words of the one filter. -/
def send (s : System σ) (c : Client) : Option (System σ) :=
  match s.kv.bf with
  | none => none
  | some bf =>
    let next := (s.senders c).step bf (s.filters c).bitmap
    some (setBitmap { s with
      kv := ⟨s.kv.hash, some { bf with words := next.words }⟩
      senders := update s.senders c next.pc } c next.bitmap)

def step (H : IHash σ) (cfg : Config) (s : System σ) : Event → Option (System σ)
  | .setUp c q => s.setUp (c, q)
  | .startPut c cpuid t key page => s.startPut cfg c cpuid t key page
  | .put c q t => s.rdpmaPut (c, q) t
  | .transmit c q => s.transmit (c, q)
  | .serveWrite c q => s.serveWrite H (c, q)
  | .startGet c cpuid t key raddr => s.startGet cfg c cpuid t key raddr
  | .get c q t => s.rdpmaGet (c, q) t
  | .request c q => s.request (c, q)
  | .serveRead c q => s.serveRead H (c, q)
  | .reply c q => s.reply (c, q)
  | .send c => s.send c

end System

end Xcache.Remote
