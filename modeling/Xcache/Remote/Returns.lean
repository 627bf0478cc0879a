import Xcache.Remote.Entries

/-! Every get can return: while a call waits for a lock, the exchange of the owner can go on, and
each of its steps leaves less to do. -/

namespace Xcache.Remote

def Event.reads : Event → Bool
  | .get .. | .request .. | .serveRead .. | .reply .. => true
  | _ => false

def GetPc.effort : GetPc → Nat
  | .post => 12
  | .pollSend => 3
  | .pollRecv => 2
  | .unlock _ => 1
  | .test _ | .lock | .out _ => 0

def Reader.effort : Reader → Nat
  | .idle => 0
  | .atKey .. => 5
  | .atAddress .. => 4
  | .lookup .. => 3

namespace ReadQueue

/-- A bound on the steps up to the unlock of a call at the place. -/
def effort (r : ReadQueue) (pc : GetPc) : Nat :=
  pc.effort + 7 * r.wire.length + 6 * r.requests.length + r.reader.effort + 2 * r.replies.length +
    r.recvCq.length

/-- The owner comes nearer to its unlock, and the other calls stay. -/
structure Works (m : Nat) (call : GetCall) (r r' : ReadQueue) : Prop where
  others : ∀ n ≠ m, r'.calls n = r.calls n
  mine : ∃ pc, r'.calls m = some { call with pc := pc } ∧
    (pc.inside = true ∨ ∃ state, pc = .out state) ∧ r'.effort pc < r.effort call.pc

section
variable {m : Nat} {call : GetCall} {r r' : ReadQueue}

theorem works_goto {pc : GetPc} (calls : r'.calls = r.calls)
    (inside : pc.inside = true ∨ ∃ state, pc = .out state)
    (less : (r'.goto m call pc).effort pc < r.effort call.pc) :
    Works m call r (r'.goto m call pc) := by
  refine ⟨fun n ne => ?_, pc, Function.update_self .., inside, less⟩
  show Function.update r'.calls m _ n = _
  rw [Function.update_of_ne ne, calls]

theorem works_still (here : r.calls m = some call) (inside : call.pc.inside = true)
    (calls : r'.calls = r.calls)
    (less : r'.effort call.pc < r.effort call.pc) : Works m call r r' :=
  ⟨fun n _ => congrFun calls n, call.pc, by rw [calls, here], Or.inl inside, less⟩

end

end ReadQueue

namespace System

section
variable {σ : Type} {H : IHash σ} {cfg : Config} {s t u : System σ} {ix : Client × Queue}
  {m n : Nat} {call : GetCall} {e : Event}

theorem readStep_of_reads (reads : e.reads = true) (moved : s.step H cfg e = some t) :
    ∃ ix, ReadStep H s ix t := by
  cases e with
  | get c q n => exact ⟨(c, q), readStep_rdpmaGet moved⟩
  | request c q => exact ⟨(c, q), readStep_request moved⟩
  | serveRead c q => exact ⟨(c, q), readStep_serveRead moved⟩
  | reply c q => exact ⟨(c, q), readStep_reply moved⟩
  | _ => cases reads

theorem get_of_call {r : ReadQueue} (here : (s.readQs ix).calls n = some call)
    (moved : (s.readQs ix).rdpmaGet ix.2 (s.filters ix.1) (s.frames ix.1 call.raddr) n call =
      some r) :
    s.step H cfg (.get ix.1 ix.2 n) = some (s.setRead ix r) := by
  show s.rdpmaGet ix n = _
  unfold System.rdpmaGet
  simp only [here, moved, Option.map_some]

theorem request_of_wire (H : IHash σ) (cfg : Config) {op : ReadOp} {rest : List ReadOp}
    (first : (s.readQs ix).wire = op :: rest) :
    ∃ t, s.step H cfg (.request ix.1 ix.2) = some t ∧ t.readQs ix =
      { s.readQs ix with
        wire := rest, sendCq := (s.readQs ix).sendCq + 1,
        requests := (s.readQs ix).requests ++ [op.imm] } := by
  show ∃ t, s.request ix = some t ∧ _
  unfold System.request
  simp only [first]
  exact ⟨_, rfl, setRead_readQs _⟩

theorem reply_of_replies (H : IHash σ) (cfg : Config) {answer : Reply} {rest : List Reply}
    (first : (s.readQs ix).replies = answer :: rest) :
    ∃ t, s.step H cfg (.reply ix.1 ix.2) = some t ∧ t.readQs ix =
      { s.readQs ix with replies := rest, recvCq := (s.readQs ix).recvCq ++ [answer.imm] } := by
  show ∃ t, s.reply ix = some t ∧ _
  unfold System.reply
  simp only [first]
  cases answer.page with
  | none => exact ⟨_, rfl, setRead_readQs _⟩
  | some copied => exact ⟨_, rfl, setRead_readQs _⟩

theorem works_serve (here : (s.readQs ix).calls m = some call) (inside : call.pc.inside = true)
    (serves : ∃ r, s.serveRead H ix = some (s.setRead ix r) ∧ r.calls = (s.readQs ix).calls ∧
      r.effort call.pc < (s.readQs ix).effort call.pc) :
    ∃ e t, e.reads = true ∧ s.step H cfg e = some t ∧ (s.readQs ix).Works m call (t.readQs ix) := by
  obtain ⟨r, moved, calls, less⟩ := serves
  refine ⟨.serveRead ix.1 ix.2, _, rfl, moved, ?_⟩
  rw [setRead_readQs]
  exact ReadQueue.works_still here inside calls less

theorem works_get {r : ReadQueue} {pc : GetPc} (here : (s.readQs ix).calls m = some call)
    (moved : (s.readQs ix).rdpmaGet ix.2 (s.filters ix.1) (s.frames ix.1 call.raddr) m call =
      some (r.goto m call pc))
    (calls : r.calls = (s.readQs ix).calls) (inside : pc.inside = true ∨ ∃ state, pc = .out state)
    (less : (r.goto m call pc).effort pc < (s.readQs ix).effort call.pc) :
    ∃ e t, e.reads = true ∧ s.step H cfg e = some t ∧ (s.readQs ix).Works m call (t.readQs ix) := by
  refine ⟨.get ix.1 ix.2 m, _, rfl, get_of_call here moved, ?_⟩
  rw [setRead_readQs]
  exact ReadQueue.works_goto calls inside less

theorem works (cfg : Config) {may : Nat → Key → Option Value → Prop}
    (x : (s.readQs ix).Exchange ix.2 (s.slot ix.1) s.mem (s.frames ix.1) may)
    (total : ∀ key, ∃ value, s.kv.get H key = some value) (here : (s.readQs ix).calls m = some call)
    (inside : call.pc.inside = true) :
    ∃ e t, e.reads = true ∧ s.step H cfg e = some t ∧ (s.readQs ix).Works m call (t.readQs ix) := by
  have phase := x.phase m call here inside
  cases pc : call.pc with
  | post =>
    refine works_get (r := { s.readQs ix with
      wire := (s.readQs ix).wire ++ [⟨call.msgId, call.key, call.raddr, getImm ix.2 call.msgId⟩] })
      here (by unfold ReadQueue.rdpmaGet; rw [pc]) rfl (Or.inl rfl) ?_
    rw [pc]
    simp only [ReadQueue.effort, ReadQueue.goto, GetPc.effort,
      List.length_append, List.length_singleton]
    omega
  | pollSend =>
    rw [pc] at phase
    rcases phase with ⟨posted, _⟩ | ⟨_, sent⟩
    · obtain ⟨wire, -⟩ := ReadQueue.parts_iff.mp posted
      obtain ⟨t, moved, eq⟩ := request_of_wire H cfg wire
      refine ⟨_, t, rfl, moved, ?_⟩
      rw [eq]
      refine ReadQueue.works_still here inside rfl ?_
      simp only [ReadQueue.effort, wire, List.length_append, List.length_cons, List.length_nil]
      omega
    · refine works_get (r := { s.readQs ix with sendCq := 0 }) here
        (by unfold ReadQueue.rdpmaGet; rw [pc, sent]; rfl) rfl (Or.inl rfl) ?_
      rw [pc]
      simp only [ReadQueue.effort, ReadQueue.goto, GetPc.effort]
      omega
  | pollRecv =>
    rw [pc] at phase
    cases phase.1 with
    | requested at_ key raddr =>
      obtain ⟨_, requests, reader, -⟩ := ReadQueue.parts_iff.mp at_
      obtain ⟨type, -⟩ := ReadQueue.unmask_getImm ix.2 (x.small m call here)
      refine works_serve here inside ?_
      unfold System.serveRead
      simp only [reader, requests]
      refine ⟨_, rfl, rfl, ?_⟩
      simp only [ReadQueue.effort, requests, reader, if_pos type, Reader.effort,
        List.length_cons, List.length_nil]
      omega
    | atKey at_ key raddr =>
      obtain ⟨_, _, reader, -⟩ := ReadQueue.parts_iff.mp at_
      refine works_serve here inside ?_
      unfold System.serveRead
      simp only [reader]
      refine ⟨_, rfl, rfl, ?_⟩
      simp only [ReadQueue.effort, reader, Reader.effort]
      omega
    | atAddress at_ raddr =>
      obtain ⟨_, _, reader, -⟩ := ReadQueue.parts_iff.mp at_
      refine works_serve here inside ?_
      unfold System.serveRead
      simp only [reader]
      refine ⟨_, rfl, rfl, ?_⟩
      simp only [ReadQueue.effort, reader, Reader.effort]
      omega
    | lookup at_ =>
      obtain ⟨_, _, reader, -⟩ := ReadQueue.parts_iff.mp at_
      obtain ⟨value, got⟩ := total call.key
      refine works_serve here inside ?_
      unfold System.serveRead
      simp only [reader, got]
      refine ⟨_, rfl, rfl, ?_⟩
      simp only [ReadQueue.effort, reader, Reader.effort, List.length_append,
        List.length_cons, List.length_nil]
      omega
    | replied result at_ may =>
      obtain ⟨_, _, _, replies, -⟩ := ReadQueue.parts_iff.mp at_
      obtain ⟨t, moved, eq⟩ := reply_of_replies H cfg replies
      refine ⟨_, t, rfl, moved, ?_⟩
      rw [eq]
      refine ReadQueue.works_still here inside rfl ?_
      simp only [ReadQueue.effort, replies, List.length_append, List.length_cons, List.length_nil]
      omega
    | answered result at_ may delivered =>
      obtain ⟨_, _, _, _, recvCq⟩ := ReadQueue.parts_iff.mp at_
      refine works_get (r := { s.readQs ix with recvCq := [] }) here
        (by unfold ReadQueue.rdpmaGet; rw [pc, recvCq]) rfl (Or.inl rfl) ?_
      rw [pc]
      simp only [ReadQueue.effort, ReadQueue.goto, GetPc.effort, recvCq,
        List.length_cons, List.length_nil]
      omega
  | unlock state =>
    refine works_get (r := { s.readQs ix with lock := none }) here
      (by unfold ReadQueue.rdpmaGet; rw [pc]) rfl (Or.inr ⟨state, rfl⟩) ?_
    rw [pc]
    simp only [ReadQueue.effort, ReadQueue.goto, GetPc.effort]
    omega
  | _ =>
    rw [pc] at inside
    cases inside

end

/-- The system, with exchanges that go their way. -/
structure Live {σ : Type} (H : IHash σ) (cfg : Config) (bufferSize globalMr : BitVec 64) (empty : σ)
    (s : System σ) : Prop where
  sound : s.Sound cfg bufferSize globalMr
  filled : s.Filled H empty
  serves : s.Serves fun _ _ _ _ => True
  roomy : s.server.Roomy

/-- Steps of gets lead to a state in which the call has returned. -/
def CanReturn {σ : Type} (H : IHash σ) (cfg : Config) (ix : Client × Queue) (n : Nat)
    (s : System σ) : Prop :=
  ∃ events t, Runs.Leads (step H cfg) (fun _ e => e.reads = true) s events t ∧
    (t.readQs ix).calls n = none

section
variable {σ : Type} {H : IHash σ} {cfg : Config} {bufferSize globalMr : BitVec 64} {empty : σ}
  {s t : System σ}
  {ix : Client × Queue} {m n : Nat} {call : GetCall} {e : Event}

theorem Live.step (live : s.Live H cfg bufferSize globalMr empty) (genuine : H.Genuine empty)
    (reads : e.reads = true) (moved : s.step H cfg e = some t) :
    t.Live H cfg bufferSize globalMr empty := by
  obtain ⟨ix, step⟩ := readStep_of_reads reads moved
  refine ⟨live.sound.readStep step, live.filled.step (turn_of_step moved),
    ?_, by rw [step.server]; exact live.roomy⟩
  refine live.serves.readStep live.sound step fun _ n call value _ got =>
    ⟨fun value' found => ?_, trivial⟩
  have known : (s.kv.get H call.key).bind ReadQueue.found = some value' := by
    rw [got, Option.bind_some]
    exact found
  exact live.filled.found_inserted genuine known

theorem Live.exchange (live : s.Live H cfg bufferSize globalMr empty) (ix : Client × Queue) :
    (s.readQs ix).Exchange ix.2 (s.slot ix.1) s.mem (s.frames ix.1)
      (s.May (fun _ _ _ _ => True) ix) :=
  live.serves.exchange live.roomy ix

theorem CanReturn.after {events : List Event}
    (leads : Runs.Leads (System.step H cfg) (fun _ e => e.reads = true) s events t)
    (rest : t.CanReturn H cfg ix n) : s.CanReturn H cfg ix n := by
  obtain ⟨more, u, further, gone⟩ := rest
  exact ⟨events ++ more, u, leads.append further, gone⟩

theorem CanReturn.get {r : ReadQueue} (here : (s.readQs ix).calls n = some call)
    (moved : (s.readQs ix).rdpmaGet ix.2 (s.filters ix.1) (s.frames ix.1 call.raddr) n call =
      some r)
    (rest : (s.setRead ix r).CanReturn H cfg ix n) : s.CanReturn H cfg ix n :=
  rest.after (.cons rfl (get_of_call here moved) .nil)

theorem kv_of_reads (reads : e.reads = true) (moved : s.step H cfg e = some t) : t.kv = s.kv := by
  obtain ⟨ix, step⟩ := readStep_of_reads reads moved
  exact step.kv

section
variable (genuine : H.Genuine empty) (total : ∀ key, ∃ value, s.kv.get H key = some value)
include genuine total

theorem Live.unlocks {k : Nat} (live : s.Live H cfg bufferSize globalMr empty)
    (here : (s.readQs ix).calls m = some call) (inside : call.pc.inside = true)
    (bound : (s.readQs ix).effort call.pc ≤ k) :
    ∃ events t, Runs.Leads (System.step H cfg) (fun _ e => e.reads = true) s events t ∧
      t.Live H cfg bufferSize globalMr empty ∧
      t.kv = s.kv ∧ (∀ n ≠ m, (t.readQs ix).calls n = (s.readQs ix).calls n) ∧
      ∃ state, (t.readQs ix).calls m = some { call with pc := .out state } := by
  induction k generalizing s call with
  | zero =>
    obtain ⟨_, _, _, _, work⟩ := works cfg (live.exchange ix) total here inside
    obtain ⟨_, _, _, less⟩ := work.mine
    omega
  | succ k ih =>
    obtain ⟨e, t, reads, moved, work⟩ := works cfg (live.exchange ix) total here inside
    obtain ⟨pc, there, at_, less⟩ := work.mine
    have live' := live.step genuine reads moved
    have kv := kv_of_reads reads moved
    rcases at_ with inside' | ⟨state, rfl⟩
    · obtain ⟨events, u, leads, last, kv', others, out⟩ :=
        ih (by rw [kv]; exact total) live' there inside'
        (Nat.lt_succ_iff.mp (less.trans_le bound))
      exact ⟨e :: events, u, .cons reads moved leads, last, kv'.trans kv,
        fun n ne => (others n ne).trans (work.others n ne), out⟩
    · exact ⟨[e], t, .cons reads moved .nil, live', kv, work.others, state, there⟩

end

end

end System

end Xcache.Remote
