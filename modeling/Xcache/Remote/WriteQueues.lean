import Xcache.Lib.SpinLock
import Xcache.Remote.Moves

/-! One write queue on its own: its calls exclude each other, and the keys and the pages of its
puts stay together on their way through buffer, slot and receive to the inserts. -/

namespace Xcache.Remote
open Function
open Memory

namespace WriteQueue

def Inside (call : PutCall) : Bool := call.pc.inside

def holder (w : WriteQueue) : Option PutPc := (SpinLock.holder w.lock w.calls).map PutCall.pc

/-- The counter of the buffer, by the place of the owner. -/
def Counted (n : Nat) : Option PutPc → Prop
  | none | some .fetchAdd | some .unlock => n < batchSize
  | some (.copy bufId) => bufId < batchSize ∧ n = bufId + 1
  | some .bug => False
  | some _ => True

/-- One call at a time is between lock and unlock, and it finds room in the buffer. -/
structure Exclusive (w : WriteQueue) : Prop where
  held : SpinLock.Held Inside w.lock w.calls
  counted : Counted w.nrBuffered w.holder

variable {w w' : WriteQueue} {t : Nat} {call : PutCall}

theorem holder_of_free (free : w.lock = none) : w.holder = none := by
  unfold holder
  rw [free]
  rfl

theorem exclusive_start : start.Exclusive := ⟨SpinLock.held_free, (by decide : 0 < batchSize)⟩

theorem Exclusive.at_ (ex : w.Exclusive) (here : w.calls t = some call) {pc : PutPc}
    (eq : call.pc = pc) (inside : pc.inside = true) : w.lock = some t ∧ w.holder = some pc := by
  have within : Inside call = true := by
    unfold Inside
    rw [eq, inside]
  refine ⟨ex.held.mine t call here within, ?_⟩
  unfold holder
  rw [ex.held.holder_eq here within, Option.map_some, eq]

theorem holder_goto {pc : PutPc} (mine : w.lock = some t) : (w.goto t call pc).holder = some pc :=
  congrArg (Option.map PutCall.pc) (SpinLock.holder_of_mine mine (update_self ..))

theorem Exclusive.goto {pc : PutPc} {lock : Option Nat} (held : SpinLock.Held Inside lock w.calls)
    (free : lock = none ∨ lock = some t) (mine : w.lock = some t) (inside : pc.inside = true)
    (counted : Counted w.nrBuffered (some pc)) : (w.goto t call pc).Exclusive := by
  constructor
  · show SpinLock.Held Inside w.lock _
    rw [mine]
    exact held.enter free inside
  · rw [holder_goto mine]
    exact counted

theorem Exclusive.outside (ex : w.Exclusive)
    (before : ∀ call, w.calls t = some call → Inside call = false) (after : Inside call = false) :
    Exclusive { w with calls := update w.calls t (some call) } := by
  refine ⟨ex.held.outside before fun _ eq => Option.some_inj.mp eq ▸ after, ?_⟩
  have same : holder { w with calls := update w.calls t (some call) } = w.holder :=
    congrArg (Option.map PutCall.pc) (ex.held.holder_outside before)
  rw [same]
  exact ex.counted

section
variable {half : Nat} {q : Queue} {slot : Nat → Nat} {mem mem' : Nat → Byte}

theorem Exclusive.move (ex : w.Exclusive)
    (move : w.Move half q slot mem mem' w') : w'.Exclusive := by
  have counted := ex.counted
  cases move with
  | begin key page upper free => exact ex.outside (by rw [free]; nofun) rfl
  | filter here before after => exact ex.outside (by rw [here]; rintro _ ⟨⟩; exact before) after
  | lock here before free =>
    rw [holder_of_free free] at counted
    exact .goto ex.held (Or.inl free) rfl rfl counted
  | fetchAdd here before =>
    obtain ⟨mine, at_⟩ := ex.at_ here before rfl
    rw [at_] at counted
    rw [if_neg (not_le.mpr counted)]
    exact .goto ex.held (Or.inr mine) mine rfl ⟨counted, rfl⟩
  | copy here before =>
    obtain ⟨mine, at_⟩ := ex.at_ here before rfl
    rw [at_] at counted
    split
    · rename_i room
      exact .goto ex.held (Or.inr mine) mine rfl
        (lt_of_eq_of_lt counted.2 (Nat.add_lt_of_lt_sub room))
    · exact .goto ex.held (Or.inr mine) mine rfl trivial
  | post here before =>
    obtain ⟨mine, _⟩ := ex.at_ here before rfl
    exact .goto ex.held (Or.inr mine) mine rfl trivial
  | pollSend here before done =>
    obtain ⟨mine, _⟩ := ex.at_ here before rfl
    exact .goto ex.held (Or.inr mine) mine rfl trivial
  | pollRecv here before done =>
    obtain ⟨mine, _⟩ := ex.at_ here before rfl
    exact .goto ex.held (Or.inr mine) mine rfl trivial
  | reset here before =>
    obtain ⟨mine, _⟩ := ex.at_ here before rfl
    exact .goto ex.held (Or.inr mine) mine rfl (by decide : 0 < batchSize)
  | unlock here before =>
    obtain ⟨mine, at_⟩ := ex.at_ here before rfl
    rw [at_] at counted
    exact ⟨ex.held.release mine nofun, counted⟩
  | _ => exact ⟨ex.held, counted⟩

end

/-- Nothing is on its way, and every batch sent so far is acknowledged. -/
def Quiet (w : WriteQueue) : Prop :=
  w.wire = [] ∧ w.sendCq = 0 ∧ w.polled = w.used ∧ w.acks = w.used

/-- The client's end, by the place of the owner: batches that arrived take four puts each, and
the rest is in the buffer. -/
def Phase (q : Queue) (w : WriteQueue) : Option PutPc → Prop
  | none | some .fetchAdd | some .unlock =>
    w.Quiet ∧ w.puts.length = batchSize * w.used + w.nrBuffered
  | some (.copy bufId) => w.Quiet ∧ w.puts.length = batchSize * w.used + bufId
  | some .post => w.Quiet ∧ w.puts.length = batchSize * w.used + batchSize
  | some .pollSend =>
    (w.wire = [.writeKeys, .sendPages (putImm q)] ∨ w.wire = [.sendPages (putImm q)]) ∧
      w.sendCq = 0 ∧
      w.polled = w.used ∧ w.acks = w.used ∧ w.puts.length = batchSize * w.used + batchSize ∨
    w.wire = [] ∧ w.sendCq = 1 ∧ w.polled + 1 = w.used ∧ w.puts.length = batchSize * w.used
  | some .pollRecv =>
    w.wire = [] ∧ w.sendCq = 0 ∧ w.polled + 1 = w.used ∧ w.puts.length = batchSize * w.used
  | some .reset => w.Quiet ∧ w.puts.length = batchSize * w.used
  | some _ => False

/-- At most one batch waits for the thread. -/
def Waiting (q : Queue) (w : WriteQueue) : Prop :=
  w.arrived = [] ∧ w.used = w.acks ∨
    ∃ target, w.arrived = [(target, putImm q)] ∧ w.used = w.acks + 1 ∧
      w.recvs[w.acks]? = some target

/-- The first `n` local keys are those of batch `b`. -/
def Copied (w : WriteQueue) (localKeys : Nat → Key) (b n : Nat) : Prop :=
  ∀ i < n, ∀ e, w.puts[batchSize * b + i]? = some e → localKeys i = e.1

/-- The server's end. -/
def Serving (q : Queue) (w : WriteQueue) : Writer → Prop
  | .idle => w.inserts.length = batchSize * w.acks ∧ w.Waiting q
  | .copying target qid i localKeys =>
    w.inserts.length = batchSize * w.acks ∧ w.arrived = [] ∧ w.used = w.acks + 1 ∧
      w.recvs[w.acks]? = some target ∧ qid = q ∧ i ≤ batchSize ∧ w.Copied localKeys w.acks i
  | .inserting target localKeys i =>
    i ≤ batchSize ∧ w.Waiting q ∧ ∃ b, w.acks = b + 1 ∧ w.inserts.length = batchSize * b + i ∧
      w.recvs[b]? = some target ∧ w.Copied localKeys b batchSize

/-- The slot holds the keys of the batch that is being handed over. -/
def Keyed (w : WriteQueue) : Prop := (∃ imm, w.wire = [.sendPages imm]) ∨ w.acks < w.used

/-- Keys and pages of all puts, wherever they are. -/
structure Ordered (q : Queue) (slot : Nat) (mem : Nat → Byte) (w : WriteQueue) : Prop where
  phase : w.Phase q w.holder
  serving : w.Serving q w.writer
  used_le : w.used ≤ w.recvs.length
  keyed : w.Keyed → ∀ i < batchSize, ∀ e, w.puts[batchSize * w.acks + i]? = some e →
    load mem (slot + 8 * i) = e.1
  buffered : ∀ i < batchSize, ∀ e, w.puts[batchSize * w.used + i]? = some e →
    load w.keys (8 * i) = e.1 ∧ read pageSize w.buffer (pageSize * i) = e.2
  received : ∀ b < w.used, ∀ target, w.recvs[b]? = some target → ∀ i < batchSize, ∀ e,
    w.puts[batchSize * b + i]? = some e → read pageSize mem (target.toNat + pageSize * i) = e.2
  inserted : ∀ n key value, w.inserts[n]? = some (key, value) → ∃ e target, w.puts[n]? = some e ∧
    e.1 = key ∧
    w.recvs[n / batchSize]? = some target ∧ value =
      target + BitVec.ofNat 64 (pageSize * (n % batchSize))

section
variable {q : Queue} {slot : Nat} {mem : Nat → Byte}

theorem ordered_start : start.Ordered q slot mem where
  phase := ⟨⟨rfl, rfl, rfl, rfl⟩, rfl⟩
  serving := ⟨rfl, Or.inl ⟨rfl, rfl⟩⟩
  used_le := le_rfl
  keyed := by
    rintro - i _ e ⟨⟩
  buffered := by
    rintro i _ e ⟨⟩
  received := nofun
  inserted := nofun

theorem Serving.acks_le (serving : w.Serving q w.writer) :
    w.acks ≤ w.used ∧ w.used ≤ w.acks + 1 := by
  have waits : w.Waiting q → w.acks ≤ w.used ∧ w.used ≤ w.acks + 1 := by
    rintro (⟨_, eq⟩ | ⟨_, _, eq, _⟩) <;> omega
  cases stage : w.writer with
  | idle =>
    rw [stage] at serving
    exact waits serving.2
  | copying target qid i localKeys =>
    rw [stage] at serving
    have := serving.2.2.1
    omega
  | inserting target localKeys i =>
    rw [stage] at serving
    exact waits serving.2.1

theorem Ordered.inserts_le (o : w.Ordered q slot mem) : w.inserts.length ≤ batchSize * w.used := by
  have acked := Nat.mul_le_mul_left batchSize o.serving.acks_le.1
  have serving := o.serving
  cases stage : w.writer with
  | idle =>
    rw [stage] at serving
    exact serving.1.trans_le acked
  | copying target qid i localKeys =>
    rw [stage] at serving
    exact serving.1.trans_le acked
  | inserting target localKeys i =>
    rw [stage] at serving
    obtain ⟨le, _, b, acks, inserts, _⟩ := serving
    rw [acks, Nat.mul_succ] at acked
    omega

theorem Phase.of_wire {pc : Option PutPc} (phase : w.Phase q pc) (ne : w.wire ≠ []) :
    pc = some .pollSend ∧
    (w.wire = [.writeKeys, .sendPages (putImm q)] ∨ w.wire = [.sendPages (putImm q)]) ∧
      w.sendCq = 0 ∧
      w.polled = w.used ∧ w.acks = w.used ∧ w.puts.length = batchSize * w.used + batchSize := by
  unfold Phase at phase
  split at phase
  case h_6 => exact phase.elim (fun posted => ⟨rfl, posted⟩) fun sent => absurd sent.1 ne
  case h_7 => exact absurd phase.1 ne
  case h_9 => exact phase.elim
  all_goals exact absurd phase.1.1 ne

theorem Phase.of_unacked {pc : Option PutPc} (phase : w.Phase q pc) (lt : w.acks < w.used) :
    w.wire = [] ∧ w.polled + 1 = w.used ∧ w.puts.length = batchSize * w.used ∧
      (pc = some .pollSend ∧ w.sendCq = 1 ∨ pc = some .pollRecv ∧ w.sendCq = 0) := by
  unfold Phase at phase
  split at phase
  case h_6 =>
    rcases phase with ⟨_, _, _, eq, _⟩ | ⟨wire, cq, polled, length⟩
    · exact absurd eq lt.ne
    · exact ⟨wire, polled, length, Or.inl ⟨rfl, cq⟩⟩
  case h_7 => exact ⟨phase.1, phase.2.2.1, phase.2.2.2, Or.inr ⟨rfl, phase.2.1⟩⟩
  case h_9 => exact phase.elim
  all_goals exact absurd phase.1.2.2.2 lt.ne

theorem Phase.length_le {pc : Option PutPc} (phase : w.Phase q pc) :
    batchSize * w.used ≤ w.puts.length := by
  unfold Phase at phase
  split at phase
  case h_6 => rcases phase with ⟨_, _, _, _, eq⟩ | ⟨_, _, _, eq⟩ <;> omega
  case h_7 =>
    have := phase.2.2.2
    omega
  case h_9 => exact phase.elim
  all_goals
    have := phase.2
    omega

theorem Phase.goto {pc : PutPc} (mine : w.lock = some t) (phase : w.Phase q (some pc)) :
    (w.goto t call pc).Phase q (w.goto t call pc).holder := by
  rw [holder_goto mine]
  exact phase

theorem Phase.outside (phase : w.Phase q w.holder) (ex : w.Exclusive)
    (before : ∀ call, w.calls t = some call → Inside call = false) (call : PutCall) :
    Phase q { w with calls := update w.calls t (some call) }
      (holder { w with calls := update w.calls t (some call) }) := by
  have same : holder { w with calls := update w.calls t (some call) } = w.holder :=
    congrArg (Option.map PutCall.pc) (ex.held.holder_outside before)
  rw [same]
  exact phase

theorem Ordered.at_ (o : w.Ordered q slot mem) (ex : w.Exclusive) (here : w.calls t = some call)
    {pc : PutPc} (before : call.pc = pc) (inside : pc.inside = true) :
    w.lock = some t ∧ w.Phase q (some pc) ∧ Counted w.nrBuffered (some pc) := by
  obtain ⟨mine, eq⟩ := ex.at_ here before inside
  rw [← eq]
  exact ⟨mine, o.phase, ex.counted⟩

theorem getElem?_of_lt {α : Type*} {l : List α} {x e : α} {n : Nat} (lt : n < l.length)
    (got : (l ++ [x])[n]? = some e) :
    l[n]? = some e := by
  rwa [List.getElem?_append_left lt] at got

theorem getElem?_append_some {α : Type*} {l : List α} {x e : α} {n : Nat} (got : l[n]? = some e) :
    (l ++ [x])[n]? = some e := by
  rw [List.getElem?_append_left (List.getElem?_eq_some_iff.mp got).1]
  exact got

theorem Copied.append {localKeys : Nat → Key} {b n : Nat} {x : Key × Page}
    {calls : Nat → Option PutCall} {buffer keys : Nat → Byte} (copied : w.Copied localKeys b n)
    (le : batchSize * b + n ≤ w.puts.length) :
    Copied { w with puts := w.puts ++ [x], calls := calls, buffer := buffer, keys := keys }
      localKeys b n :=
  fun i lt e got => copied i lt e (getElem?_of_lt (by omega) got)

theorem Ordered.fill {pc : PutPc} (o : w.Ordered q slot mem) {bufId : Nat} (quiet : w.Quiet)
    (length : w.puts.length = batchSize * w.used + bufId) {key : Key} {page : Page}
    (phase : Phase q ((w.fill bufId key page).goto t call pc)
      ((w.fill bufId key page).goto t call pc).holder) :
    ((w.fill bufId key page).goto t call pc).Ordered q slot mem where
  phase := phase
  serving := by
    have settled := quiet.2.2.2
    have serving := o.serving
    show Serving q _ w.writer
    cases stage : w.writer with
    | idle =>
      rw [stage] at serving
      exact serving
    | copying target qid i localKeys =>
      rw [stage] at serving
      have := serving.2.2.1
      omega
    | inserting target localKeys i =>
      rw [stage] at serving
      obtain ⟨le, waiting, b, acks, inserts, got, copied⟩ := serving
      refine ⟨le, waiting, b, acks, inserts, got, copied.append ?_⟩
      unfold batchSize at *
      omega
  used_le := o.used_le
  keyed := by
    rintro (⟨imm, wire⟩ | lt)
    · exact absurd (quiet.1.symm.trans wire) (by simp)
    · exact absurd quiet.2.2.2 lt.ne
  buffered := by
    intro i lt e got
    change load (store w.keys (8 * bufId) key) (8 * i) = e.1 ∧
      read pageSize (write w.buffer (pageSize * bufId) page) (pageSize * i) = e.2
    change (w.puts ++ [(key, page)])[batchSize * w.used + i]? = some e at got
    by_cases here : i = bufId
    · rw [here, ← length, List.getElem?_concat_length, Option.some_inj] at got
      rw [here, load_store, read_write_self, ← got]
      exact ⟨rfl, rfl⟩
    · -- an earlier page of the buffer
      have old : batchSize * w.used + i < w.puts.length := by
        have := (List.getElem?_eq_some_iff.mp got).1
        rw [List.length_append, List.length_singleton] at this
        omega
      have keys : (Range.mk (8 * i) 8).Apart ⟨8 * bufId, 8⟩ := by
        unfold Range.Apart
        dsimp only
        omega
      have pages : (Range.mk (pageSize * i) pageSize).Apart ⟨pageSize * bufId, pageSize⟩ := by
        unfold Range.Apart pageSize
        dsimp only
        omega
      rw [load_store_apart w.keys key keys, read_write_apart w.buffer page pages]
      exact o.buffered i lt e (getElem?_of_lt old got)
  received := by
    intro b lt target posted i small e got
    refine o.received b lt target posted i small e (getElem?_of_lt ?_ got)
    have : b < w.used := lt
    unfold batchSize at *
    omega
  inserted := by
    intro n key value got
    obtain ⟨e, target, put, rest⟩ := o.inserted n key value got
    exact ⟨e, target, getElem?_append_some put, rest⟩

/-- The receives of a queue are apart from its slot and from each other. -/
structure Placed (slot : Nat) (w : WriteQueue) : Prop where
  nonzero : ∀ (b : Nat) (target : BitVec 64), w.recvs[b]? = some target → target ≠ 0
  slots : ∀ (b : Nat) (target : BitVec 64), w.recvs[b]? = some target →
    (Range.mk slot (8 * batchSize)).Apart ⟨target.toNat, pageSize * batchSize⟩
  pages : ∀ (b b' : Nat) (target target' : BitVec 64), b ≠ b' → w.recvs[b]? = some target →
    w.recvs[b']? = some target' →
    (Range.mk target.toNat (pageSize * batchSize)).Apart ⟨target'.toNat, pageSize * batchSize⟩

theorem inside_page {a i : Nat} (lt : i < batchSize) :
    (Range.mk (a + pageSize * i) pageSize).Inside ⟨a, pageSize * batchSize⟩ :=
  Range.inside_of_stride lt le_rfl

theorem inside_key {a i : Nat} (lt : i < batchSize) :
    (Range.mk (a + 8 * i) 8).Inside ⟨a, 8 * batchSize⟩ :=
  Range.inside_of_stride lt le_rfl

theorem Ordered.writeKeys {rest : List WriteOp} (o : w.Ordered q slot mem) (placed : w.Placed slot)
    (first : w.wire = .writeKeys :: rest) :
    Ordered q slot (write mem slot (read (8 * batchSize) w.keys 0)) { w with wire := rest } := by
  obtain ⟨at_, wire, cq, polled, acks, length⟩ :=
    o.phase.of_wire (by rw [first]; exact List.cons_ne_nil _ _)
  have left : rest = [.sendPages (putImm q)] := by
    rcases wire with two | one
    · rw [first] at two
      exact (List.cons.inj two).2
    · rw [first] at one
      exact absurd (List.cons.inj one).1 (by simp)
  refine ⟨?_, o.serving, o.used_le, ?_, o.buffered, ?_, o.inserted⟩
  · show Phase q _ w.holder
    rw [at_]
    exact Or.inl ⟨Or.inr left, cq, polled, acks, length⟩
  · intro _ i lt e got
    rw [load_write_read mem w.keys (by omega), Nat.zero_add]
    have : w.puts[batchSize * w.used + i]? = some e := acks ▸ got
    exact (o.buffered i lt e this).1
  · intro b lt target posted i small e got
    rw [read_write_apart mem _ (((placed.slots b target posted).symm).of_inside
      (inside_page small))]
    exact o.received b lt target posted i small e got

theorem Serving.settled {writer : Writer} (serving : w.Serving q writer) (eq : w.acks = w.used) :
    w.arrived = [] ∧ ∀ target qid i localKeys, writer ≠ .copying target qid i localKeys := by
  have waits : w.Waiting q → w.arrived = [] := by
    rintro (⟨none, _⟩ | ⟨_, _, one, _⟩)
    · exact none
    · omega
  cases writer with
  | idle => exact ⟨waits serving.2, nofun⟩
  | copying target qid i localKeys =>
    have := serving.2.2.1
    omega
  | inserting target localKeys i => exact ⟨waits serving.2.1, nofun⟩

theorem Ordered.sendPages {imm : BitVec 32} {rest : List WriteOp} {target : BitVec 64}
    (o : w.Ordered q slot mem) (placed : w.Placed slot) (first : w.wire = .sendPages imm :: rest)
    (next : w.recvs[w.used]? = some target) :
    Ordered q slot (write mem target.toNat (read (pageSize * batchSize) w.buffer 0))
      { w with
        wire := rest
        used := w.used + 1
        arrived := w.arrived ++ [(target, imm)]
        sendCq := w.sendCq + 1 } := by
  obtain ⟨at_, wire, cq, polled, acks, length⟩ :=
    o.phase.of_wire (by rw [first]; exact List.cons_ne_nil _ _)
  have left : imm = putImm q ∧ rest = [] := by
    rcases wire with two | one
    · rw [first] at two
      exact absurd (List.cons.inj two).1 (by simp)
    · rw [first] at one
      obtain ⟨head, tail⟩ := List.cons.inj one
      exact ⟨WriteOp.sendPages.inj head, tail⟩
  obtain ⟨rfl, rfl⟩ := left
  obtain ⟨none, notCopying⟩ := o.serving.settled acks
  refine ⟨?_, ?_, ?_, ?_, ?_, ?_, o.inserted⟩
  · show Phase q _ w.holder
    rw [at_]
    exact Or.inr ⟨rfl, by rw [cq], by rw [polled], length⟩
  · have waiting : Waiting q { w with
        wire := []
        used := w.used + 1
        arrived := w.arrived ++ [(target, putImm q)]
        sendCq := w.sendCq + 1 } := by
      refine Or.inr ⟨target, ?_, ?_, ?_⟩
      · show w.arrived ++ _ = _
        rw [none, List.nil_append]
      · show w.used + 1 = w.acks + 1
        rw [acks]
      · show w.recvs[w.acks]? = _
        rw [acks, next]
    show Serving q _ w.writer
    have serving := o.serving
    cases stage : w.writer with
    | idle =>
      rw [stage] at serving
      exact ⟨serving.1, waiting⟩
    | copying target qid i localKeys => exact absurd stage (notCopying _ _ _ _)
    | inserting target localKeys i =>
      rw [stage] at serving
      exact ⟨serving.1, waiting, serving.2.2⟩
  · exact (List.getElem?_eq_some_iff.mp next).1
  · intro _ i lt e got
    rw [load_write_apart mem _ ((placed.slots _ _ next).of_inside (inside_key lt))]
    exact o.keyed (Or.inl ⟨_, first⟩) i lt e got
  · intro i lt e got
    have := (List.getElem?_eq_some_iff.mp got).1
    change batchSize * (w.used + 1) + i < w.puts.length at this
    rw [length, Nat.mul_succ] at this
    omega
  · intro b lt target' posted i small e got
    by_cases here : b = w.used
    · -- the batch that has just arrived
      subst here
      cases next.symm.trans posted
      rw [read_write_read mem w.buffer ?_, Nat.zero_add]
      · exact (o.buffered i small e got).2
      · have := Nat.mul_le_mul_left pageSize (Nat.succ_le_of_lt small)
        rwa [Nat.mul_succ] at this
    · rw [read_write_apart mem _ ((placed.pages b w.used target' target here posted next).of_inside
        (inside_page small))]
      exact o.received b (lt_of_le_of_ne (Nat.le_of_lt_succ lt) here) target' posted i small e got

theorem qid_putImm (q : Queue) : (bitUnmask (ntohl (putImm q))).qid.toNat = q := by
  revert q
  decide

theorem Ordered.receive {target : BitVec 64} {imm : BitVec 32} {rest : List (BitVec 64 × BitVec 32)}
    (o : w.Ordered q slot mem) (placed : w.Placed slot) (idle : w.writer = .idle)
    (first : w.arrived = (target, imm) :: rest) :
    Ordered q slot mem { w with
      arrived := rest
      writer := if target ≠ 0 then .copying target (bitUnmask (ntohl imm)).qid.toNat 0 fun _ =>
        0 else .idle } := by
  refine ⟨o.phase, ?_, o.used_le, o.keyed, o.buffered, o.received, o.inserted⟩
  have serving := o.serving
  rw [idle] at serving
  obtain ⟨inserts, ⟨none, _⟩ | ⟨target', one, used, posted⟩⟩ := serving
  · rw [none] at first
    cases first
  · rw [one] at first
    obtain ⟨head, rfl⟩ := List.cons.inj first
    cases head
    show Serving q _ (if target ≠ 0 then _ else _)
    rw [if_pos (placed.nonzero _ _ posted), qid_putImm]
    exact ⟨inserts, rfl, used, posted, rfl, Nat.zero_le _, nofun⟩

theorem Ordered.copyKey {target : BitVec 64} {qid i : Nat} {localKeys : Nat → Key}
    {slots : Nat → Nat} (o : w.Ordered q (slots q) mem)
    (stage : w.writer = .copying target qid i localKeys) (lt : i < batchSize) :
    Ordered q (slots q) mem { w with
      writer := .copying target qid (i + 1) (update localKeys i
        (load mem (slots qid + 8 * i))) } := by
  refine ⟨o.phase, ?_, o.used_le, o.keyed, o.buffered, o.received, o.inserted⟩
  have serving := o.serving
  rw [stage] at serving
  obtain ⟨inserts, none, used, posted, rfl, _, copied⟩ := serving
  refine ⟨inserts, none, used, posted, rfl, lt, fun j small e got => ?_⟩
  by_cases here : j = i
  · rw [here, update_self]
    exact o.keyed (Or.inr (by omega)) i lt e (here ▸ got)
  · rw [update_of_ne here]
    exact copied j (by omega) e got

theorem Ordered.acknowledge {target : BitVec 64} {qid i : Nat} {localKeys : Nat → Key}
    (o : w.Ordered q slot mem) (stage : w.writer = .copying target qid i localKeys)
    (le : batchSize ≤ i) :
    Ordered q slot mem { w with acks := w.acks + 1, writer := .inserting target localKeys 0 } := by
  have serving := o.serving
  rw [stage] at serving
  obtain ⟨inserts, none, used, posted, _, small, copied⟩ := serving
  obtain rfl : i = batchSize := le_antisymm small le
  obtain ⟨wire, polled, length, at_⟩ := o.phase.of_unacked (by omega)
  refine ⟨?_, ⟨Nat.zero_le _, Or.inl ⟨none, used⟩, w.acks, rfl, inserts, posted, copied⟩, o.used_le,
    ?_, o.buffered, o.received, o.inserted⟩
  · show Phase q _ w.holder
    rcases at_ with ⟨eq, cq⟩ | ⟨eq, cq⟩ <;> rw [eq]
    · exact Or.inr ⟨wire, cq, polled, length⟩
    · exact ⟨wire, cq, polled, length⟩
  · rintro (⟨imm, sending⟩ | lt)
    · exact absurd (wire.symm.trans sending) (by simp)
    · exact absurd used (ne_of_gt lt)

theorem Ordered.insert {target : BitVec 64} {localKeys : Nat → Key} {i : Nat}
    (o : w.Ordered q slot mem) (stage : w.writer = .inserting target localKeys i)
    (lt : i < batchSize) :
    Ordered q slot mem { w with
      writer := .inserting target localKeys (i + 1)
      inserts := w.inserts ++ [(localKeys i, target + BitVec.ofNat 64 (pageSize * i))] } := by
  have acked := o.serving.acks_le
  have serving := o.serving
  rw [stage] at serving
  obtain ⟨_, waiting, b, acks, inserts, posted, copied⟩ := serving
  refine ⟨o.phase, ⟨lt, waiting, b, acks, ?_, posted, copied⟩, o.used_le, o.keyed, o.buffered,
    o.received, ?_⟩
  · show (w.inserts ++ _).length = _
    rw [List.length_append, inserts]
    rfl
  · intro n key value got
    change (w.inserts ++ _)[n]? = _ at got
    by_cases here : n < w.inserts.length
    · exact o.inserted n key value (getElem?_of_lt here got)
    · -- the pair that is inserted now
      have last : n = batchSize * b + i := by
        have := (List.getElem?_eq_some_iff.mp got).1
        rw [List.length_append, List.length_singleton] at this
        omega
      rw [last, ← inserts, List.getElem?_concat_length, Option.some_inj, Prod.mk.injEq] at got
      have buffered : batchSize * b + i < w.puts.length := by
        refine lt_of_lt_of_le ?_ o.phase.length_le
        unfold batchSize at *
        omega
      have put := List.getElem?_eq_getElem buffered
      have div : n / batchSize = b := by
        rw [last, Nat.mul_add_div (by decide), Nat.div_eq_of_lt lt, Nat.add_zero]
      have mod : n % batchSize = i := by
        rw [last, Nat.mul_add_mod, Nat.mod_eq_of_lt lt]
      refine ⟨_, target, (congrArg (w.puts[·]?) last).trans put, ?_, ?_, ?_⟩
      · rw [← got.1, copied i lt _ put]
      · show w.recvs[n / batchSize]? = _
        rw [div, posted]
      · rw [mod, ← got.2]

theorem Waiting.append {next : BitVec 64} {writer : Writer} (waiting : w.Waiting q) :
    Waiting q { w with recvs := w.recvs ++ [next], writer := writer } :=
  waiting.imp id fun ⟨target, one, used, posted⟩ => ⟨target, one, used, getElem?_append_some posted⟩

theorem Ordered.append (o : w.Ordered q slot mem) (next : BitVec 64) :
    Ordered q slot mem { w with recvs := w.recvs ++ [next] } := by
  refine ⟨o.phase, ?_, ?_, o.keyed, o.buffered, ?_, ?_⟩
  · have serving := o.serving
    show Serving q _ w.writer
    cases stage : w.writer with
    | idle =>
      rw [stage] at serving
      exact ⟨serving.1, serving.2.append⟩
    | copying target qid i localKeys =>
      rw [stage] at serving
      obtain ⟨inserts, none, used, posted, rest⟩ := serving
      exact ⟨inserts, none, used, getElem?_append_some posted, rest⟩
    | inserting target localKeys i =>
      rw [stage] at serving
      obtain ⟨le, waiting, b, acks, inserts, posted, copied⟩ := serving
      exact ⟨le, waiting.append, b, acks, inserts, getElem?_append_some posted, copied⟩
  · show w.used ≤ (w.recvs ++ [next]).length
    rw [List.length_append]
    exact o.used_le.trans (Nat.le_add_right _ _)
  · intro b lt target posted
    exact o.received b lt target (getElem?_of_lt (lt_of_lt_of_le lt o.used_le) posted)
  · intro n key value got
    obtain ⟨e, target, put, key_eq, posted, rest⟩ := o.inserted n key value got
    exact ⟨e, target, put, key_eq, getElem?_append_some posted, rest⟩

theorem Ordered.finish {target : BitVec 64} {localKeys : Nat → Key} {i : Nat}
    (o : w.Ordered q slot mem) (stage : w.writer = .inserting target localKeys i)
    (le : batchSize ≤ i) :
    Ordered q slot mem { w with writer := .idle } := by
  refine ⟨o.phase, ?_, o.used_le, o.keyed, o.buffered, o.received, o.inserted⟩
  have serving := o.serving
  rw [stage] at serving
  obtain ⟨small, waiting, b, acks, inserts, _⟩ := serving
  refine ⟨?_, waiting⟩
  show w.inserts.length = batchSize * w.acks
  rw [inserts, acks, Nat.mul_succ, le_antisymm small le]

theorem Ordered.move {half : Nat} {slots : Nat → Nat} {mem' : Nat → Byte}
    (o : w.Ordered q (slots q) mem) (ex : w.Exclusive) (placed : w.Placed (slots q))
    (move : w.Move half q slots mem mem' w') : w'.Ordered q (slots q) mem' := by
  cases move with
  | begin key page upper free =>
    refine ⟨o.phase.outside ex ?_ _, o.serving, o.used_le, o.keyed, o.buffered,
      o.received, o.inserted⟩
    rw [free]
    nofun
  | filter here before after =>
    refine ⟨o.phase.outside ex ?_ _, o.serving, o.used_le, o.keyed, o.buffered,
      o.received, o.inserted⟩
    rw [here]
    rintro _ ⟨⟩
    exact before
  | lock here before free =>
    have phase := o.phase
    rw [holder_of_free free] at phase
    exact ⟨.goto rfl phase, o.serving, o.used_le, o.keyed, o.buffered, o.received, o.inserted⟩
  | fetchAdd here before =>
    obtain ⟨mine, phase, room⟩ := o.at_ ex here before rfl
    refine ⟨.goto mine ?_, o.serving, o.used_le, o.keyed, o.buffered, o.received, o.inserted⟩
    rw [if_neg (not_le.mpr room)]
    exact phase
  | @copy t call bufId here before =>
    obtain ⟨mine, ⟨quiet, length⟩, lt, count⟩ := o.at_ ex here before rfl
    refine o.fill quiet length (.goto mine ?_)
    have longer : (w.puts ++ [(call.key, call.page)]).length = batchSize * w.used +
        (bufId + 1) := by
      rw [List.length_append, length]
      rfl
    split
    · exact ⟨quiet, longer.trans (by rw [← count]; rfl)⟩
    · rename_i full
      have last : bufId + 1 = batchSize := by
        unfold batchSize at *
        omega
      exact ⟨quiet, longer.trans (by rw [last]; rfl)⟩
  | post here before =>
    obtain ⟨mine, ⟨⟨wire, cq, polled, acks⟩, length⟩, _⟩ := o.at_ ex here before rfl
    refine ⟨.goto mine ?_, o.serving, o.used_le, ?_, o.buffered, o.received, o.inserted⟩
    · refine Or.inl ⟨Or.inl ?_, cq, polled, acks, length⟩
      show w.wire ++ _ = _
      rw [wire, List.nil_append]
    · rintro (⟨imm, one⟩ | lt)
      · change w.wire ++ _ = _ at one
        rw [wire, List.nil_append] at one
        exact absurd (List.cons.inj one).1 (by simp)
      · exact absurd acks lt.ne
  | pollSend here before done =>
    obtain ⟨mine, phase, _⟩ := o.at_ ex here before rfl
    refine ⟨.goto mine ?_, o.serving, o.used_le, o.keyed, o.buffered, o.received, o.inserted⟩
    rcases phase with ⟨_, zero, _⟩ | ⟨wire, one, polled, length⟩
    · omega
    · refine ⟨wire, ?_, polled, length⟩
      show w.sendCq - 1 = 0
      rw [one]
  | pollRecv here before done =>
    obtain ⟨mine, ⟨wire, cq, polled, length⟩, _⟩ := o.at_ ex here before rfl
    have acks : w.acks = w.used := by
      have := o.serving.acks_le
      omega
    exact ⟨.goto mine ⟨⟨wire, cq, polled, acks⟩, length⟩, o.serving, o.used_le, o.keyed, o.buffered,
      o.received, o.inserted⟩
  | reset here before =>
    obtain ⟨mine, ⟨quiet, length⟩, _⟩ := o.at_ ex here before rfl
    exact ⟨.goto mine ⟨quiet, length⟩, o.serving, o.used_le, o.keyed, o.buffered,
      o.received, o.inserted⟩
  | unlock here before =>
    obtain ⟨mine, phase, _⟩ := o.at_ ex here before rfl
    exact ⟨phase, o.serving, o.used_le, o.keyed, o.buffered, o.received, o.inserted⟩
  | writeKeys first => exact o.writeKeys placed first
  | sendPages first next => exact o.sendPages placed first next
  | receive idle first => exact o.receive placed idle first
  | copyKey stage lt => exact o.copyKey stage lt
  | acknowledge stage le => exact o.acknowledge stage le
  | insert stage lt => exact o.insert stage lt
  | repost next stage le => exact (o.finish stage le).append next

theorem Ordered.frame {mem' : Nat → Byte} (o : w.Ordered q slot mem)
    (keys : w.puts ≠ [] → ∀ i < batchSize, load mem' (slot + 8 * i) = load mem (slot + 8 * i))
    (pages : ∀ b < w.used, ∀ target, w.recvs[b]? = some target →
      ∀ i < batchSize, read pageSize mem' (target.toNat + pageSize * i) =
      read pageSize mem (target.toNat + pageSize * i)) :
    w.Ordered q slot mem' := by
  refine ⟨o.phase, o.serving, o.used_le, ?_, o.buffered, ?_, o.inserted⟩
  · intro keyed i lt e got
    rw [keys (List.ne_nil_of_length_pos (Nat.zero_lt_of_lt (List.getElem?_eq_some_iff.mp got).1))
      i lt]
    exact o.keyed keyed i lt e got
  · intro b lt target posted i small e got
    rw [pages b lt target posted i small]
    exact o.received b lt target posted i small e got

end

end WriteQueue

end Xcache.Remote
