import Xcache.Remote.Queues

/-! What one step can do: the moves of a write queue and of a read queue, by a call, by the
transport or by the server's thread, each with its guard. Every step of the system but the
set-up of a queue and the pushes of the filter is one move of one queue. -/

namespace Xcache.Remote
open Function
open Memory (Byte load store read write)

def PutPc.inside : PutPc → Bool
  | .load _ | .mark _ _ | .lock => false
  | _ => true

namespace WriteQueue

/-- The moves of queue `q` with its slots at `slot`, and the memory after them. Calls begin on
the queues from `half` on. -/
inductive Move (half : Nat) (q : Queue) (slot : Nat → Nat) (mem : Nat → Byte) (w : WriteQueue) :
    (Nat → Byte) → WriteQueue → Prop
  | begin {t : Nat} (key : Key) (page : Page) (upper : half ≤ q) (free : w.calls t = none) :
      Move half q slot mem w mem
        { w with calls := update w.calls t (some ⟨key, page, .load 0⟩) }
  | filter {t : Nat} {call : PutCall} {pc : PutPc} (here : w.calls t = some call)
      (before : call.pc.inside = false) (after : pc.inside = false) :
        Move half q slot mem w mem (w.goto t call pc)
  | lock {t : Nat} {call : PutCall} (here : w.calls t = some call) (before : call.pc = .lock)
    (free : w.lock = none) :
      Move half q slot mem w mem (goto { w with lock := some t } t call .fetchAdd)
  | fetchAdd {t : Nat} {call : PutCall} (here : w.calls t = some call)
    (before : call.pc = .fetchAdd) :
      Move half q slot mem w mem (goto { w with nrBuffered := w.nrBuffered + 1 } t call
        (if w.nrBuffered ≥ batchSize then .bug else .copy w.nrBuffered))
  | copy {t : Nat} {call : PutCall} {bufId : Nat} (here : w.calls t = some call)
    (before : call.pc = .copy bufId) :
      Move half q slot mem w mem ((w.fill bufId call.key call.page).goto t call
        (if bufId < batchSize - 1 then .unlock else .post))
  | post {t : Nat} {call : PutCall} (here : w.calls t = some call) (before : call.pc = .post) :
      Move half q slot mem w mem (goto
        { w with wire := w.wire ++ [.writeKeys, .sendPages (putImm q)] } t call .pollSend)
  | pollSend {t : Nat} {call : PutCall} (here : w.calls t = some call)
    (before : call.pc = .pollSend)
      (done : 0 < w.sendCq) : Move half q slot mem w mem
        (goto { w with sendCq := w.sendCq - 1 } t call .pollRecv)
  | pollRecv {t : Nat} {call : PutCall} (here : w.calls t = some call)
    (before : call.pc = .pollRecv)
      (done : w.polled < w.acks) : Move half q slot mem w mem
        (goto { w with polled := w.polled + 1 } t call .reset)
  | reset {t : Nat} {call : PutCall} (here : w.calls t = some call) (before : call.pc = .reset) :
      Move half q slot mem w mem (goto { w with nrBuffered := 0 } t call .unlock)
  | unlock {t : Nat} {call : PutCall} (here : w.calls t = some call) (before : call.pc = .unlock) :
      Move half q slot mem w mem { w with lock := none, calls := update w.calls t none }
  | writeKeys {rest : List WriteOp} (first : w.wire = .writeKeys :: rest) :
      Move half q slot mem w (write mem (slot q) (read (8 * batchSize) w.keys 0))
        { w with wire := rest }
  | sendPages {imm : BitVec 32} {rest : List WriteOp} {target : BitVec 64}
    (first : w.wire = .sendPages imm :: rest) (next : w.recvs[w.used]? = some target) :
      Move half q slot mem w (write mem target.toNat (read (pageSize * batchSize) w.buffer 0))
        { w with
          wire := rest
          used := w.used + 1
          arrived := w.arrived ++ [(target, imm)]
          sendCq := w.sendCq + 1 }
  | receive {target : BitVec 64} {imm : BitVec 32} {rest : List (BitVec 64 × BitVec 32)}
      (idle : w.writer = .idle) (first : w.arrived = (target, imm) :: rest) :
      Move half q slot mem w mem { w with
        arrived := rest
        writer := if target ≠ 0 then .copying target (bitUnmask (ntohl imm)).qid.toNat 0 fun _ =>
          0 else .idle }
  | copyKey {target : BitVec 64} {qid i : Nat} {localKeys : Nat → Key}
      (stage : w.writer = .copying target qid i localKeys) (lt : i < batchSize) :
      Move half q slot mem w mem { w with
        writer := .copying target qid (i + 1)
          (update localKeys i (load mem (slot qid + 8 * i))) }
  | acknowledge {target : BitVec 64} {qid i : Nat} {localKeys : Nat → Key}
      (stage : w.writer = .copying target qid i localKeys) (le : batchSize ≤ i) :
      Move half q slot mem w mem
        { w with acks := w.acks + 1, writer := .inserting target localKeys 0 }
  | insert {target : BitVec 64} {localKeys : Nat → Key} {i : Nat}
      (stage : w.writer = .inserting target localKeys i) (lt : i < batchSize) :
      Move half q slot mem w mem { w with
        writer := .inserting target localKeys (i + 1)
        inserts := w.inserts ++ [(localKeys i, target + BitVec.ofNat 64 (pageSize * i))] }
  | repost {target : BitVec 64} {localKeys : Nat → Key} {i : Nat} (next : BitVec 64)
      (stage : w.writer = .inserting target localKeys i) (le : batchSize ≤ i) :
      Move half q slot mem w mem { w with writer := .idle, recvs := w.recvs ++ [next] }

end WriteQueue

namespace ReadQueue

/-- The moves of queue `q` with its slots at `slot`, the pages it may copy and those it may
write. A lookup gives what `find` says. -/
inductive Move (q : Queue) (slot : Nat → Nat → Nat) (find : Key → Option Value) (f : BloomFilter)
    (mem : Nat → Byte) (frames : BitVec 64 → Page) (r : ReadQueue) :
    (Nat → Byte) → (BitVec 64 → Page) → ReadQueue → Prop
  | pass {t i : Nat} {call : GetCall} (here : r.calls t = some call) (before : call.pc = .test i)
    (lt : i < f.nrHash) (set : Bitmap.marked f.bitmap (f.index call.key i) = true) :
      Move q slot find f mem frames r mem frames (r.goto t call (.test (i + 1)))
  | miss {t i : Nat} {call : GetCall} (here : r.calls t = some call) (before : call.pc = .test i)
    (lt : i < f.nrHash) (clear : Bitmap.marked f.bitmap (f.index call.key i) = false) :
      Move q slot find f mem frames r mem frames (r.finish t call none)
  | passed {t i : Nat} {call : GetCall} (here : r.calls t = some call) (before : call.pc = .test i)
      (le : f.nrHash ≤ i) : Move q slot find f mem frames r mem frames (r.goto t call .lock)
  | lock {t : Nat} {call : GetCall} (here : r.calls t = some call) (before : call.pc = .lock)
    (free : r.lock = none) :
      Move q slot find f mem frames r mem frames (goto { r with lock := some t } t call .post)
  | post {t : Nat} {call : GetCall} (here : r.calls t = some call) (before : call.pc = .post) :
      Move q slot find f mem frames r mem frames
        (goto { r with wire := r.wire ++ [⟨call.msgId, call.key, call.raddr, getImm q call.msgId⟩] }
          t call .pollSend)
  | pollSend {t : Nat} {call : GetCall} (here : r.calls t = some call)
    (before : call.pc = .pollSend) (done : 0 < r.sendCq) :
      Move q slot find f mem frames r mem frames
        (goto { r with sendCq := r.sendCq - 1 } t call .pollRecv)
  | pollRecv {t : Nat} {call : GetCall} {imm : BitVec 32} {rest : List (BitVec 32)}
    (here : r.calls t = some call) (before : call.pc = .pollRecv) (first : r.recvCq = imm :: rest) :
      Move q slot find f mem frames r mem frames
        (goto { r with recvCq := rest } t call (.unlock (bitUnmask (ntohl imm)).state))
  | unlock {t : Nat} {call : GetCall} {txState : BitVec 32} (here : r.calls t = some call)
      (before : call.pc = .unlock txState) :
      Move q slot find f mem frames r mem frames
        (goto { r with lock := none } t call (.out txState))
  | out {t : Nat} {call : GetCall} {txState : BitVec 32} (here : r.calls t = some call)
      (before : call.pc = .out txState) :
      Move q slot find f mem frames r mem frames
        (r.finish t call (if txState = TxState.readAborted.code then none else some
          (frames call.raddr)))
  | request {op : ReadOp} {rest : List ReadOp} (first : r.wire = op :: rest) :
      Move q slot find f mem frames r
        (store (store (store mem (slot q op.msgId) op.key) (slot q op.msgId + 8) 1)
          (slot q op.msgId + 16) op.raddr)
        frames { r with wire := rest, sendCq := r.sendCq + 1, requests := r.requests ++ [op.imm] }
  | receive {imm : BitVec 32} {rest : List (BitVec 32)} (idle : r.reader = .idle)
    (first : r.requests = imm :: rest) : Move q slot find f mem frames r mem frames { r with
        requests := rest
        reader := if (bitUnmask (ntohl imm)).type = MsgType.read.code then
            .atKey (bitUnmask (ntohl imm)).qid.toNat (bitUnmask (ntohl imm)).msgNum.toNat
          else .idle }
  | readKey {qid mid : Nat} (stage : r.reader = .atKey qid mid) :
      Move q slot find f mem frames r mem frames
        { r with reader := .atAddress qid mid (load mem (slot qid mid)) }
  | readAddress {qid mid : Nat} {key : Key} (stage : r.reader = .atAddress qid mid key) :
      Move q slot find f mem frames r mem frames
        { r with reader := .lookup qid mid key (load mem (slot qid mid + 16)) }
  | lookup {qid mid : Nat} {key : Key} {raddr : BitVec 64} {value : Value}
      (stage : r.reader = .lookup qid mid key raddr) (found : find key = some value) :
      Move q slot find f mem frames r mem frames { r with
        reader := .idle
        replies := r.replies ++ [if value ≠ noneValue then
            ⟨replyImm mid qid .readCommitted, some (value, raddr)⟩
          else ⟨replyImm mid qid .readAborted, none⟩] }
  | abort {imm : BitVec 32} {rest : List Reply} (first : r.replies = ⟨imm, none⟩ :: rest) :
      Move q slot find f mem frames r mem frames
        { r with replies := rest, recvCq := r.recvCq ++ [imm] }
  | deliver {imm : BitVec 32} {value : Value} {raddr : BitVec 64} {rest : List Reply}
      (first : r.replies = ⟨imm, some (value, raddr)⟩ :: rest) :
      Move q slot find f mem frames r mem (update frames raddr
        (read pageSize mem value.toNat)) { r with replies := rest, recvCq := r.recvCq ++ [imm] }

end ReadQueue

namespace System
variable {σ : Type} {H : IHash σ} {cfg : Config} {s t : System σ} {ix : Client × Queue}

/-- A step that is a move of the write queue `ix`: a receive is posted or not, a pair is
inserted or not, and everything else of the server and of the other queues stays. -/
structure WriteStep (H : IHash σ) (cfg : Config) (s : System σ) (ix : Client × Queue)
    (t : System σ) : Prop where
  move : (s.writeQs ix).Move (cfg.numqueues / 2) ix.2 (fun qid => s.slot ix.1 qid 0) s.mem t.mem
    (t.writeQs ix)
  others : ∀ ix' ≠ ix, t.writeQs ix' = s.writeQs ix'
  readQs : t.readQs = s.readQs
  frames : t.frames = s.frames
  posted : t.server = s.server ∧ (t.writeQs ix).recvs = (s.writeQs ix).recvs ∨
    t.server = s.server.handOut ∧ (t.writeQs ix).recvs = (s.writeQs ix).recvs ++ [s.server.savePage]
  inserted : t.kv = s.kv ∧ (t.writeQs ix).inserts = (s.writeQs ix).inserts ∨
    ∃ key value evicted, s.kv.insert H key value = some (t.kv, evicted) ∧
      (t.writeQs ix).inserts = (s.writeQs ix).inserts ++ [(key, value)]

@[simp] theorem setWrite_writeQs (w : WriteQueue) : (s.setWrite ix w).writeQs ix = w :=
  update_self ..

theorem setWrite_others {ix' : Client × Queue} (w : WriteQueue) (ne : ix' ≠ ix) :
    (s.setWrite ix w).writeQs ix' = s.writeQs ix' := update_of_ne ne ..

theorem WriteStep.quiet {w : WriteQueue} {mem : Nat → Byte}
    (rest : t = setWrite { s with mem := mem } ix w)
    (move : (s.writeQs ix).Move (cfg.numqueues / 2) ix.2 (fun qid => s.slot ix.1 qid 0) s.mem mem w)
    (recvs : w.recvs = (s.writeQs ix).recvs) (inserts : w.inserts = (s.writeQs ix).inserts) :
    WriteStep H cfg s ix t := by
  subst rest
  refine ⟨?_, fun _ ne => setWrite_others w ne, rfl, rfl, Or.inl ⟨rfl, ?_⟩, Or.inl ⟨rfl, ?_⟩⟩ <;>
    rw [setWrite_writeQs]
  · exact move
  · exact recvs
  · exact inserts

theorem WriteStep.setBitmap (step : WriteStep H cfg s ix t) (c : Client) (bitmap : Nat → Nat) :
    WriteStep H cfg s ix (t.setBitmap c bitmap) :=
  ⟨step.move, step.others, step.readQs, step.frames, step.posted, step.inserted⟩

theorem writeStep_startPut {c : Client} {cpuid n : Nat} {key : Key} {page : Page}
    (step : s.startPut cfg c cpuid n key page = some t) :
    WriteStep H cfg s (c, cfg.writeQueue cpuid) t := by
  unfold startPut at step
  dsimp only at step
  split at step
  · rename_i free
    cases step
    exact .quiet rfl (.begin key page (Nat.le_add_left ..) free) rfl rfl
  · cases step

theorem move_rdpmaPut {w w' : WriteQueue} {half : Nat} {q : Queue} {slot : Nat → Nat}
    {mem : Nat → Byte} {n : Nat} {call : PutCall} (here : w.calls n = some call)
    (step : w.rdpmaPut q n call = some w') :
    w.Move half q slot mem mem w' ∧ w'.recvs = w.recvs ∧ w'.inserts = w.inserts := by
  unfold WriteQueue.rdpmaPut at step
  split at step
  · rename_i at_
    split at step
    · rename_i free
      cases step
      exact ⟨.lock here at_ free, rfl, rfl⟩
    · cases step
  · rename_i at_
    cases step
    exact ⟨.fetchAdd here at_, rfl, rfl⟩
  · rename_i at_
    cases step
    exact ⟨.copy here at_, rfl, rfl⟩
  · rename_i at_
    cases step
    exact ⟨.post here at_, rfl, rfl⟩
  · rename_i at_
    split at step
    · rename_i done
      cases step
      exact ⟨.pollSend here at_ done, rfl, rfl⟩
    · cases step
  · rename_i at_
    split at step
    · rename_i done
      cases step
      exact ⟨.pollRecv here at_ done, rfl, rfl⟩
    · cases step
  · rename_i at_
    cases step
    exact ⟨.reset here at_, rfl, rfl⟩
  · rename_i at_
    cases step
    exact ⟨.unlock here at_, rfl, rfl⟩
  · cases step

theorem writeStep_rdpmaPut {n : Nat} (step : s.rdpmaPut ix n = some t) :
    WriteStep H cfg s ix t := by
  unfold rdpmaPut at step
  dsimp only at step
  split at step
  · cases step
  · rename_i call here
    split at step
    · rename_i i at_
      cases step
      refine .quiet rfl (.filter here (by rw [at_]; rfl) ?_) rfl rfl
      split <;> rfl
    · rename_i i word at_
      cases step
      refine WriteStep.setBitmap (.quiet rfl (.filter here (by rw [at_]; rfl) ?_) rfl rfl) ..
      rfl
    · obtain ⟨w, inside, rfl⟩ := Option.map_eq_some_iff.mp step
      obtain ⟨move, recvs, inserts⟩ := move_rdpmaPut here inside
      exact .quiet rfl move recvs inserts

theorem writeStep_transmit (step : s.transmit ix = some t) : WriteStep H cfg s ix t := by
  unfold transmit at step
  dsimp only at step
  split at step
  · cases step
  · rename_i rest first
    cases step
    exact .quiet rfl (.writeKeys first) rfl rfl
  · rename_i imm rest first
    split at step
    · cases step
    · rename_i target next
      cases step
      exact .quiet rfl (.sendPages first next) rfl rfl

theorem writeStep_serveWrite (step : s.serveWrite H ix = some t) : WriteStep H cfg s ix t := by
  unfold serveWrite at step
  dsimp only at step
  split at step
  · rename_i idle
    split at step
    · cases step
    · rename_i target imm rest first
      cases step
      exact .quiet rfl (.receive idle first) rfl rfl
  · rename_i target qid i localKeys stage
    split at step
    · rename_i lt
      cases step
      exact .quiet rfl (.copyKey stage lt) rfl rfl
    · rename_i ge
      cases step
      exact .quiet rfl (.acknowledge stage (not_lt.mp ge)) rfl rfl
  · rename_i target localKeys i stage
    split at step
    · rename_i lt
      split at step
      · cases step
      · rename_i kv evicted inserted
        cases step
        refine ⟨?_, fun _ ne => setWrite_others _ ne, rfl, rfl, Or.inl ⟨rfl, ?_⟩,
          Or.inr ⟨_, _, evicted, inserted, ?_⟩⟩ <;> rw [setWrite_writeQs]
        exact .insert stage lt
    · rename_i ge
      cases step
      have moved : ((s.setWrite ix { s.writeQs ix with writer := .idle }).postRecv ix).writeQs ix =
          { s.writeQs ix with
            writer := .idle, recvs := (s.writeQs ix).recvs ++ [s.server.savePage] } := by
        unfold postRecv
        dsimp only
        rw [update_self, setWrite_writeQs]
        rfl
      refine ⟨?_, fun _ ne => ?_, rfl, rfl, Or.inr ⟨rfl, by rw [moved]⟩,
        Or.inl ⟨rfl, by rw [moved]⟩⟩
      · rw [moved]
        exact .repost _ stage (not_lt.mp ge)
      · exact (update_of_ne ne ..).trans (setWrite_others _ ne)

/-- A step that is a move of the read queue `ix`. -/
structure ReadStep (H : IHash σ) (s : System σ) (ix : Client × Queue) (t : System σ) : Prop where
  move : (s.readQs ix).Move ix.2 (s.slot ix.1) (s.kv.get H) (s.filters ix.1) s.mem (s.frames ix.1)
    t.mem (t.frames ix.1) (t.readQs ix)
  others : ∀ ix' ≠ ix, t.readQs ix' = s.readQs ix'
  frames : ∀ c ≠ ix.1, t.frames c = s.frames c
  writeQs : t.writeQs = s.writeQs
  server : t.server = s.server
  kv : t.kv = s.kv
  filters : t.filters = s.filters
  senders : t.senders = s.senders

@[simp] theorem setRead_readQs (r : ReadQueue) : (s.setRead ix r).readQs ix = r :=
  update_self ..

theorem setRead_others {ix' : Client × Queue} (r : ReadQueue) (ne : ix' ≠ ix) :
    (s.setRead ix r).readQs ix' = s.readQs ix' := update_of_ne ne ..

theorem ReadStep.of_move {r : ReadQueue} {mem : Nat → Byte}
    (rest : t = setRead { s with mem := mem } ix r)
    (move : (s.readQs ix).Move ix.2 (s.slot ix.1) (s.kv.get H) (s.filters ix.1) s.mem
      (s.frames ix.1) mem (s.frames ix.1) r) : ReadStep H s ix t := by
  subst rest
  refine ⟨?_, fun _ ne => setRead_others r ne, fun _ _ => rfl, rfl, rfl, rfl, rfl, rfl⟩
  rw [setRead_readQs]
  exact move

theorem move_rdpmaGet {r r' : ReadQueue} {q : Queue} {slot : Nat → Nat → Nat}
    {find : Key → Option Value} {f : BloomFilter} {mem : Nat → Byte} {frames : BitVec 64 → Page}
    {n : Nat} {call : GetCall} (here : r.calls n = some call)
    (step : r.rdpmaGet q f (frames call.raddr) n call = some r') :
    r.Move q slot find f mem frames mem frames r' := by
  unfold ReadQueue.rdpmaGet at step
  split at step
  · rename_i i before
    split at step
    · rename_i lt
      split at step
      · rename_i set
        cases step
        exact .pass here before lt set
      · rename_i clear
        cases step
        exact .miss here before lt (Bool.not_eq_true _ ▸ clear)
    · rename_i ge
      cases step
      exact .passed here before (not_lt.mp ge)
  · rename_i before
    split at step
    · rename_i free
      cases step
      exact .lock here before free
    · cases step
  · rename_i before
    cases step
    exact .post here before
  · rename_i before
    split at step
    · rename_i done
      cases step
      exact .pollSend here before done
    · cases step
  · rename_i before
    split at step
    · cases step
    · rename_i imm rest first
      cases step
      exact .pollRecv here before first
  · rename_i txState before
    cases step
    exact .unlock here before
  · rename_i txState before
    cases step
    exact .out here before

theorem readStep_rdpmaGet {n : Nat} (step : s.rdpmaGet ix n = some t) : ReadStep H s ix t := by
  unfold rdpmaGet at step
  dsimp only at step
  split at step
  · cases step
  · rename_i call here
    obtain ⟨r, inside, rfl⟩ := Option.map_eq_some_iff.mp step
    exact .of_move rfl (move_rdpmaGet here inside)

theorem readStep_request (step : s.request ix = some t) : ReadStep H s ix t := by
  unfold request at step
  dsimp only at step
  split at step
  · cases step
  · rename_i op rest first
    cases step
    exact .of_move rfl (.request first)

theorem readStep_serveRead (step : s.serveRead H ix = some t) : ReadStep H s ix t := by
  unfold serveRead at step
  dsimp only at step
  split at step
  · rename_i idle
    split at step
    · cases step
    · rename_i imm rest first
      cases step
      exact .of_move rfl (.receive idle first)
  · rename_i qid mid stage
    cases step
    exact .of_move rfl (.readKey stage)
  · rename_i qid mid key stage
    cases step
    exact .of_move rfl (.readAddress stage)
  · rename_i qid mid key raddr stage
    split at step
    · cases step
    · rename_i value found
      cases step
      exact .of_move rfl (.lookup stage found)

theorem readStep_reply (step : s.reply ix = some t) : ReadStep H s ix t := by
  unfold reply at step
  dsimp only at step
  split at step
  · cases step
  · rename_i answer rest first
    obtain ⟨imm, page⟩ := answer
    split at step
    · rename_i none
      cases none
      cases step
      exact .of_move rfl (.abort first)
    · rename_i value raddr copied
      cases copied
      cases step
      refine ⟨?_, fun _ ne => setRead_others _ ne, fun _ ne => update_of_ne ne .., rfl,
        rfl, rfl, rfl, rfl⟩
      simp only [setRead, update_self]
      exact .deliver first

/-- A step that posts receives. -/
structure Posts (s t : System σ) : Prop where
  server : ∃ k, t.server = Server.handOut^[k] s.server
  writeQs : ∀ ix, ∃ recvs, t.writeQs ix = { s.writeQs ix with recvs := recvs }
  readQs : t.readQs = s.readQs
  mem : t.mem = s.mem
  frames : t.frames = s.frames
  kv : t.kv = s.kv
  filters : t.filters = s.filters
  senders : t.senders = s.senders

theorem posts_postRecv (s : System σ) (ix : Client × Queue) (k : Nat) :
    Posts s ((postRecv · ix)^[k] s) := by
  induction k with
  | zero => exact ⟨⟨0, rfl⟩, fun ix' => ⟨_, rfl⟩, rfl, rfl, rfl, rfl, rfl, rfl⟩
  | succ k ih =>
    rw [Function.iterate_succ_apply']
    generalize (postRecv · ix)^[k] s = u at ih
    obtain ⟨⟨n, server⟩, writeQs, readQs, mem, frames, kv, filters, senders⟩ := ih
    refine ⟨⟨n + 1, ?_⟩, fun ix' => ?_, readQs, mem, frames, kv, filters, senders⟩
    · rw [Function.iterate_succ_apply', ← server]
      rfl
    · unfold postRecv
      dsimp only
      by_cases same : ix' = ix
      · obtain ⟨recvs, eq⟩ := writeQs ix
        rw [same, update_self, eq]
        exact ⟨_, rfl⟩
      · rw [update_of_ne same]
        exact writeQs ix'

theorem posts_setUp (step : s.setUp ix = some t) : Posts s t := by
  unfold setUp at step
  split at step
  · cases step
    exact posts_postRecv s ix _
  · cases step

/-- A get begins. -/
structure Begins (cfg : Config) (s : System σ) (c : Client) (cpuid n : Nat) (key : Key)
    (raddr : BitVec 64) (t : System σ) : Prop where
  free : (s.readQs (c, cfg.readQueue cpuid)).calls n = none
  eq : t = s.setRead (c, cfg.readQueue cpuid) { s.readQs (c, cfg.readQueue cpuid) with
    calls := update (s.readQs (c, cfg.readQueue cpuid)).calls n
      (some ⟨key, raddr, getMsgId cfg.numqueues cpuid, .test 0⟩) }

theorem begins_startGet {c : Client} {cpuid n : Nat} {key : Key} {raddr : BitVec 64}
    (step : s.startGet cfg c cpuid n key raddr = some t) : Begins cfg s c cpuid n key raddr t := by
  unfold startGet at step
  dsimp only at step
  split at step
  · rename_i free
    exact ⟨free, (Option.some_inj.mp step).symm⟩
  · cases step

/-- A step of a filter thread. -/
structure Notifies (s t : System σ) : Prop where
  server : t.server = s.server
  writeQs : t.writeQs = s.writeQs
  readQs : t.readQs = s.readQs
  mem : t.mem = s.mem
  frames : t.frames = s.frames
  hash : t.kv.hash = s.kv.hash

theorem notifies_send {c : Client} (step : s.send c = some t) : Notifies s t := by
  unfold send at step
  split at step
  · cases step
  · cases step
    exact ⟨rfl, rfl, rfl, rfl, rfl, rfl⟩

/-- The filter threads of the system, as `Push` has them. -/
def pushes (s : System σ) (bf : CountingBloomFilter) (due : Client → Nat → Bool) : Push :=
  ⟨bf, s.senders, fun c => (s.filters c).bitmap, due⟩

/-- A step of a filter thread is one of `Push`. -/
theorem pushes_send {c : Client} {bf : CountingBloomFilter} (due : Client → Nat → Bool)
    (filter : s.kv.bf = some bf) (step : s.send c = some t) : ∃ bf', t.kv.bf = some bf' ∧
      t.pushes bf' ((s.pushes bf due).send c).due = (s.pushes bf due).send c := by
  rw [send, filter] at step
  cases step
  refine ⟨_, rfl, ?_⟩
  unfold pushes Push.send
  congr 1
  funext c'
  show (update s.filters c _ c').bitmap = _
  by_cases same : c' = c
  · rw [same, update_self]
    exact (update_self c _ fun c => (s.filters c).bitmap).symm
  · rw [update_of_ne same]
    exact (update_of_ne same _ fun c => (s.filters c).bitmap).symm

/-- The kinds of steps. -/
inductive Turn (H : IHash σ) (cfg : Config) (s t : System σ) : Event → Prop
  | posts {e : Event} (step : Posts s t) : Turn H cfg s t e
  | writes {e : Event} (ix : Client × Queue) (step : WriteStep H cfg s ix t) : Turn H cfg s t e
  | begins {c : Client} {cpuid n : Nat} {key : Key} {raddr : BitVec 64}
    (step : Begins cfg s c cpuid n key raddr t) : Turn H cfg s t (.startGet c cpuid n key raddr)
  | reads {e : Event} (ix : Client × Queue) (step : ReadStep H s ix t) : Turn H cfg s t e
  | notifies {e : Event} (step : Notifies s t) : Turn H cfg s t e

theorem turn_of_step {e : Event} (step : s.step H cfg e = some t) : Turn H cfg s t e := by
  cases e with
  | setUp c q => exact .posts (posts_setUp step)
  | startPut c cpuid n key page => exact .writes _ (writeStep_startPut step)
  | put c q n => exact .writes _ (writeStep_rdpmaPut step)
  | transmit c q => exact .writes _ (writeStep_transmit step)
  | serveWrite c q => exact .writes _ (writeStep_serveWrite step)
  | startGet c cpuid n key raddr => exact .begins (begins_startGet step)
  | get c q n => exact .reads _ (readStep_rdpmaGet step)
  | request c q => exact .reads _ (readStep_request step)
  | serveRead c q => exact .reads _ (readStep_serveRead step)
  | reply c q => exact .reads _ (readStep_reply step)
  | send c => exact .notifies (notifies_send step)

end System

end Xcache.Remote
