import Mathlib.Algebra.BigOperators.Fin
import Xcache.Lib.Runs
import Xcache.Remote.Layout

/-! How the server attaches the connections of its clients (`on_connect_request` and the
connection loop of `main` in `server/rdma_svr.cpp`, `julee_rdma_init_queues` in
`client/rdpma.c`): by two counters, in the order in which the requests arrive. -/

namespace Xcache.Remote
open Function

/-- The connection of one queue of a client. -/
structure Conn where
  client : Client
  queue : Nat
  deriving DecidableEq

inductive CmEvent
  | connectRequest (id : Conn)
  | established (id : Conn)
  deriving DecidableEq

structure Net where
  queueCtr : Nat
  clientCtr : Nat
  /-- The server queue `gctrl[c]->queues[i]` of a connection. -/
  context : Conn → Option (Nat × Nat)
  connected : Nat × Nat → Bool
  /-- The queue that `main` waits for. -/
  position : Nat × Nat
  /-- The queues whose receives `main` has posted. -/
  posted : List (Nat × Nat)
  dead : Bool
  channel : List CmEvent
  /-- The loop over the queues on a client: the current queue, and whether its connection is
  being waited for. -/
  next : Client → Nat
  waiting : Client → Bool
  /-- The client has seen the reply and its confirmation is on the way. -/
  ready : Conn → Bool

namespace Net

def start : Net where
  queueCtr := 0
  clientCtr := 0
  context := fun _ => none
  connected := fun _ => false
  position := (0, 0)
  posted := []
  dead := false
  channel := []
  next := fun _ => 0
  waiting := fun _ => false
  ready := fun _ => false

inductive Action
  | request (c : Client)
  | established (c : Client)
  | confirm (id : Conn)
  | serve

def onConnectRequest (s : Net) (id : Conn) : Net :=
  let q := (s.clientCtr, s.queueCtr)
  -- gctrl has numClient entries; TEST_Z stops the server when the queue is in use
  if numClient ≤ s.clientCtr ∨ s.connected q = true then { s with dead := true }
  else
    { s with
      queueCtr := if s.queueCtr = numQueues - 1 then 0 else s.queueCtr + 1
      clientCtr := if s.queueCtr = numQueues - 1 then s.clientCtr + 1 else s.clientCtr
      context := update s.context id (some q) }

def onConnection (s : Net) (id : Conn) : Net :=
  match s.context id with
  | none => { s with dead := true }
  | some q =>
    if s.connected q = true then { s with dead := true }
    else { s with connected := update s.connected q true }

def onEvent (s : Net) : CmEvent → Net
  | .connectRequest id => s.onConnectRequest id
  | .established id => s.onConnection id

/-- After an event `main` goes on when the queue it waits for is connected: it posts the
receives of that queue and waits for the next one. -/
def mainLoop (s : Net) : Net :=
  if s.connected s.position = true then
    { s with
      posted := s.posted ++ [s.position]
      position := if s.position.2 = numQueues - 1 then (s.position.1 + 1, 0) else (s.position.1,
        s.position.2 + 1) }
  else s

def step (s : Net) : Action → Option Net
  | .request c =>
    if s.waiting c = false ∧ s.next c < numQueues then
      some { s with
        waiting := update s.waiting c true
        channel := s.channel ++ [.connectRequest ⟨c, s.next c⟩] }
    else none
  | .established c =>
    if s.waiting c = true ∧ (s.context ⟨c, s.next c⟩).isSome then
      some { s with
        next := update s.next c (s.next c + 1)
        waiting := update s.waiting c false
        ready := update s.ready ⟨c, s.next c⟩ true }
    else none
  | .confirm id =>
    if s.ready id = true then
      some { s with
        ready := update s.ready id false
        channel := s.channel ++ [.established id] }
    else none
  | .serve =>
    match s.channel with
    | [] => none
    | e :: rest => some (({ s with channel := rest } : Net).onEvent e).mainLoop

/-- Queue `i` of a client is attached to queue `i` of a controller, to the same one for all its
queues, and not to that of another client. -/
structure Assigned (s : Net) : Prop where
  queue : ∀ id q, s.context id = some q → q.2 = id.queue
  same : ∀ id id' q q', s.context id = some q → s.context id' = some q' → id.client = id'.client →
    q.1 = q'.1
  different : ∀ id id' q q', s.context id = some q → s.context id' = some q' →
    id.client ≠ id'.client → q.1 ≠ q'.1

/-- The next request is that of a client whose connection was attached last, unless a new
controller begins. -/
def Orderly (s : Net) : Action → Prop
  | .serve => ∀ id rest, s.channel = .connectRequest id :: rest → 0 < s.queueCtr →
      ∃ j, s.context ⟨id.client, j⟩ = some (s.clientCtr, s.queueCtr - 1)
  | _ => True

/-- How many connections of a client have been attached. -/
def attached (s : Net) (c : Client) : Nat :=
  s.next c + (s.context ⟨c, s.next c⟩).isSome.toNat

/-- The confirmations of a connection: on the way, in the channel, or taken. -/
def confirmations (s : Net) (id : Conn) : Nat :=
  (s.ready id).toNat + s.channel.count (.established id) + ((s.context id).any s.connected).toNat

/-- What holds whatever the order of the requests. -/
structure Sound (s : Net) : Prop where
  alive : s.dead = false
  queue_lt : s.queueCtr < numQueues
  below : ∀ id q, s.context id = some q → q.2 < numQueues ∧
    numQueues * q.1 + q.2 < numQueues * s.clientCtr + s.queueCtr
  inj : ∀ id id' q, s.context id = some q → s.context id' = some q → id = id'
  begun : ∀ id, (s.context id).isSome →
    id.queue < s.next id.client ∨ id.queue = s.next id.client ∧ s.waiting id.client = true
  finished : ∀ id, id.queue < s.next id.client → (s.context id).isSome
  next_le : ∀ c, s.next c ≤ numQueues ∧ (s.waiting c = true → s.next c < numQueues)
  requests : ∀ id, .connectRequest id ∈ s.channel →
    id.queue = s.next id.client ∧ s.waiting id.client = true ∧ s.context id = none
  once : ∀ id, s.channel.count (.connectRequest id) ≤ 1
  total : ∑ c, s.attached c = numQueues * s.clientCtr + s.queueCtr
  confirmed : ∀ id, s.confirmations id ≤ 1
  unconfirmed : ∀ id, s.next id.client ≤ id.queue → s.confirmations id = 0
  used : ∀ q, s.connected q = true → ∃ id, s.context id = some q

theorem sound_start : start.Sound where
  alive := rfl
  queue_lt := by decide
  below := nofun
  inj := nofun
  begun := nofun
  finished := fun _ lt => absurd lt (Nat.not_lt_zero _)
  next_le := fun _ => ⟨Nat.zero_le _, nofun⟩
  requests := nofun
  once := fun _ => Nat.zero_le _
  total := by decide
  confirmed := fun _ => Nat.zero_le _
  unconfirmed := fun _ _ => rfl
  used := nofun

theorem count_append_of_ne (channel : List CmEvent) {e e' : CmEvent} (ne : e ≠ e') :
    (channel ++ [e']).count e = channel.count e := by
  rw [List.count_append, List.count_cons_of_ne ne.symm, List.count_nil, Nat.add_zero]

variable {s t : Net}

theorem Sound.mainLoop (sound : s.Sound) : s.mainLoop.Sound := by
  unfold Net.mainLoop
  split
  · exact ⟨sound.alive, sound.queue_lt, sound.below, sound.inj, sound.begun, sound.finished,
      sound.next_le,
      sound.requests, sound.once, sound.total, sound.confirmed, sound.unconfirmed, sound.used⟩
  · exact sound

theorem Sound.request (sound : s.Sound) {c : Client}
    (step : s.step (.request c) = some t) : t.Sound := by
  simp only [Net.step, Option.ite_none_right_eq_some, Option.some.injEq] at step
  obtain ⟨⟨idle, lt⟩, rfl⟩ := step
  have fresh : s.context ⟨c, s.next c⟩ = none := by
    by_contra attached
    rcases sound.begun _ (Option.isSome_iff_ne_none.mpr attached) with less | ⟨_, waiting⟩
    · exact absurd less (lt_irrefl _)
    · exact absurd (idle.symm.trans waiting) (by decide)
  have still : ∀ c', s.waiting c' = true → update s.waiting c true c' = true := by
    intro c' waiting
    by_cases same : c' = c
    · rw [same, update_self]
    · rw [update_of_ne same, waiting]
  have same : ∀ id, (s.channel ++ [CmEvent.connectRequest ⟨c, s.next c⟩]).count (.established id) =
      s.channel.count (.established id) := fun id => count_append_of_ne s.channel (by simp)
  refine ⟨sound.alive, sound.queue_lt, sound.below, sound.inj, ?_, sound.finished, ?_, ?_, ?_,
    sound.total, ?_, ?_, sound.used⟩
  · intro id attached
    exact (sound.begun id attached).imp_right fun ⟨eq, waiting⟩ => ⟨eq, still _ waiting⟩
  · intro c'
    refine ⟨(sound.next_le c').1, fun waiting => ?_⟩
    by_cases same : c' = c
    · rw [same]
      exact lt
    · exact (sound.next_le c').2 ((update_of_ne same ..).symm.trans waiting)
  · intro id mem
    rcases List.mem_append.mp mem with old | new
    · obtain ⟨queue, waiting, free⟩ := sound.requests id old
      exact ⟨queue, still _ waiting, free⟩
    · cases List.mem_singleton.mp new
      exact ⟨rfl, update_self .., fresh⟩
  · intro id
    rw [List.count_append]
    by_cases new : id = ⟨c, s.next c⟩
    · have none : CmEvent.connectRequest id ∉ s.channel := by
        intro mem
        have waiting := (sound.requests id mem).2.1
        rw [new] at waiting
        exact absurd (idle.symm.trans waiting) (by decide)
      rw [List.count_eq_zero_of_not_mem none, Nat.zero_add]
      exact List.count_le_length
    · have other : List.count (CmEvent.connectRequest id) [.connectRequest ⟨c, s.next c⟩] = 0 :=
        List.count_eq_zero_of_not_mem fun mem =>
          new (CmEvent.connectRequest.inj (List.mem_singleton.mp mem))
      rw [other]
      exact sound.once id
  · intro id
    unfold confirmations
    dsimp only
    rw [same id]
    exact sound.confirmed id
  · intro id le
    unfold confirmations
    dsimp only
    rw [same id]
    exact sound.unconfirmed id le

theorem Sound.established (sound : s.Sound) {c : Client}
    (step : s.step (.established c) = some t) : t.Sound := by
  simp only [Net.step, Option.ite_none_right_eq_some, Option.some.injEq] at step
  obtain ⟨⟨waits, attached⟩, rfl⟩ := step
  have before : ∀ id : Conn, id.queue < update s.next c (s.next c + 1) id.client ↔
      id.queue < s.next id.client ∨ id = ⟨c, s.next c⟩ := by
    rintro ⟨c', i⟩
    by_cases same : c' = c
    · subst same
      simp only [update_self, Conn.mk.injEq, true_and]
      omega
    · simp only [update_of_ne same, Conn.mk.injEq, same, false_and, or_false]
  have beyond : s.context ⟨c, s.next c + 1⟩ = none := by
    by_contra some
    rcases sound.begun _ (Option.isSome_iff_ne_none.mpr some) with less | ⟨eq, _⟩
    · exact absurd less (by simp)
    · exact absurd eq (by simp)
  refine ⟨sound.alive, sound.queue_lt, sound.below, sound.inj, ?_, ?_, ?_, ?_, sound.once, ?_, ?_,
    ?_, sound.used⟩
  · intro id some
    by_cases same : id.client = c
    · refine Or.inl ((before id).mpr ((sound.begun id some).imp_right fun ⟨eq, _⟩ => ?_))
      rw [← same, ← eq]
    · dsimp only
      rw [update_of_ne same, update_of_ne same]
      exact sound.begun id some
  · intro id lt
    rcases (before id).mp lt with less | rfl
    · exact sound.finished id less
    · exact attached
  · intro c'
    by_cases same : c' = c
    · subst same
      have := (sound.next_le c').2 waits
      simp only [update_self]
      exact ⟨this, nofun⟩
    · simp only [update_of_ne same]
      exact sound.next_le c'
  · intro id mem
    obtain ⟨queue, waiting, free⟩ := sound.requests id mem
    have other : id.client ≠ c := by
      rintro rfl
      rw [← queue] at attached
      exact absurd attached
        (by rw [show (⟨id.client, id.queue⟩ : Conn) = id from rfl, free]; decide)
    simp only [update_of_ne other]
    exact ⟨queue, waiting, free⟩
  · refine Eq.trans (Finset.sum_congr rfl fun c' _ => ?_) sound.total
    unfold Net.attached
    by_cases same : c' = c
    · subst same
      simp only [update_self, beyond, attached]
      rfl
    · simp only [update_of_ne same]
  · intro id
    unfold confirmations
    dsimp only
    by_cases new : id = ⟨c, s.next c⟩
    · have old := sound.unconfirmed id (by rw [new])
      unfold confirmations at old
      rw [new, update_self]
      rw [new] at old
      exact Nat.le_of_eq (by simp only [Bool.toNat_true]; omega)
    · rw [update_of_ne new]
      exact sound.confirmed id
  · intro id le
    have new : id ≠ ⟨c, s.next c⟩ := fun eq => absurd ((before id).mpr (Or.inr eq)) (not_lt.mpr le)
    have old : ¬ id.queue < s.next id.client :=
      fun lt => absurd ((before id).mpr (Or.inl lt)) (not_lt.mpr le)
    unfold confirmations
    dsimp only
    rw [update_of_ne new]
    exact sound.unconfirmed id (not_lt.mp old)

theorem Sound.confirm (sound : s.Sound) {id : Conn}
    (step : s.step (.confirm id) = some t) : t.Sound := by
  simp only [Net.step, Option.ite_none_right_eq_some, Option.some.injEq] at step
  obtain ⟨ready, rfl⟩ := step
  have moved : ∀ id', (update s.ready id false id').toNat +
      (s.channel ++ [CmEvent.established id]).count (CmEvent.established id') =
        (s.ready id').toNat + s.channel.count (CmEvent.established id') := by
    intro id'
    by_cases same : id' = id
    · rw [same, update_self, List.count_append, List.count_singleton_self, ready,
        Bool.toNat_true, Bool.toNat_false]
      omega
    · rw [update_of_ne same, count_append_of_ne s.channel fun eq =>
        same (CmEvent.established.inj eq)]
  refine ⟨sound.alive, sound.queue_lt, sound.below, sound.inj, sound.begun, sound.finished,
    sound.next_le, ?_, ?_, sound.total, ?_, ?_, sound.used⟩
  · intro id' mem
    rcases List.mem_append.mp mem with old | new
    · exact sound.requests id' old
    · cases List.mem_singleton.mp new
  · intro id'
    dsimp only
    rw [count_append_of_ne s.channel (by simp)]
    exact sound.once id'
  · intro id'
    unfold confirmations
    dsimp only
    rw [moved]
    exact sound.confirmed id'
  · intro id' le
    unfold confirmations
    dsimp only
    rw [moved]
    exact sound.unconfirmed id' le

theorem Sound.attached_le (sound : s.Sound) (c : Client) : s.attached c ≤ numQueues := by
  have bound := sound.next_le c
  unfold attached
  cases found : s.context ⟨c, s.next c⟩ with
  | none => exact bound.1
  | some q =>
    rcases sound.begun ⟨c, s.next c⟩ (by rw [found]; rfl) with less | ⟨_, waiting⟩
    · exact absurd less (lt_irrefl _)
    · exact bound.2 waiting

section Serve
variable {id : Conn} {rest : List CmEvent} (sound : s.Sound)
include sound

/-- While a request is in the channel, not all queues are taken. -/
theorem Sound.clientCtr_lt (head : s.channel = .connectRequest id :: rest) :
    s.clientCtr < numClient := by
  obtain ⟨queue, waiting, free⟩ := sound.requests id (by rw [head]; exact List.mem_cons_self)
  have mine : s.attached id.client < numQueues := by
    unfold attached
    rw [← queue, show (⟨id.client, id.queue⟩ : Conn) = id from rfl, free, queue]
    exact (sound.next_le id.client).2 waiting
  have total : ∑ c, s.attached c < ∑ _c : Client, numQueues :=
    Finset.sum_lt_sum (fun c _ => sound.attached_le c) ⟨id.client, Finset.mem_univ _, mine⟩
  rw [sound.total, Finset.sum_const, Finset.card_univ, Fintype.card_fin, smul_eq_mul] at total
  unfold numQueues at total
  omega

theorem Sound.queue_free : s.connected (s.clientCtr, s.queueCtr) = false := by
  by_contra taken
  obtain ⟨id, attached⟩ := sound.used _ (Bool.not_eq_false _ ▸ taken)
  exact absurd (sound.below id _ attached).2 (lt_irrefl _)

theorem Sound.onConnectRequest (head : s.channel = .connectRequest id :: rest) :
    (({ s with channel := rest } : Net).onConnectRequest id).Sound := by
  obtain ⟨queue, waiting, free⟩ := sound.requests id (by rw [head]; exact List.mem_cons_self)
  have room := sound.clientCtr_lt head
  have unused := sound.queue_free
  have counter := sound.queue_lt
  have advance : numQueues * (if s.queueCtr = numQueues - 1 then s.clientCtr + 1 else s.clientCtr) +
      (if s.queueCtr = numQueues - 1 then 0 else s.queueCtr + 1) = numQueues * s.clientCtr +
        s.queueCtr + 1 := by
    split
    · unfold numQueues at *
      omega
    · omega
  unfold Net.onConnectRequest
  rw [if_neg (not_or.mpr ⟨not_le.mpr room, by rw [unused]; decide⟩)]
  have entries : ∀ id' q, update s.context id (some (s.clientCtr, s.queueCtr)) id' =
    some q ↔ id' = id ∧ q = (s.clientCtr, s.queueCtr) ∨ s.context id' = some q := by
    intro id' q
    by_cases same : id' = id
    · rw [same, update_self, free]
      simp [eq_comm]
    · rw [update_of_ne same]
      simp [same]
  have kept : ∀ id', (update s.context id (some (s.clientCtr, s.queueCtr)) id').isSome =
      (decide (id' = id) || (s.context id').isSome) := by
    intro id'
    by_cases same : id' = id
    · rw [same, update_self, free]
      simp
    · rw [update_of_ne same]
      simp [same]
  have none : CmEvent.connectRequest id ∉ rest := by
    have once := sound.once id
    rw [head, List.count_cons_self] at once
    exact List.count_eq_zero.mp (by omega)
  have fewer : ∀ id', rest.count (.connectRequest id') ≤ s.channel.count (.connectRequest id') := by
    intro id'
    rw [head]
    exact List.count_le_count_cons
  have confirmations : ∀ id', (s.ready id').toNat + rest.count (.established id') +
      ((update s.context id (some (s.clientCtr, s.queueCtr)) id').any s.connected).toNat =
        s.confirmations id' := by
    intro id'
    unfold Net.confirmations
    rw [head, List.count_cons_of_ne (by simp)]
    by_cases same : id' = id
    · rw [same, update_self, free, Option.any_some, unused]
      rfl
    · rw [update_of_ne same]
  refine ⟨sound.alive, ?_, ?_, ?_, ?_, ?_, sound.next_le, ?_, ?_, ?_, ?_, ?_, ?_⟩
  · dsimp only
    split
    · decide
    · omega
  · intro id' q found
    dsimp only
    rw [advance]
    rcases (entries id' q).mp found with ⟨_, rfl⟩ | old
    · exact ⟨counter, Nat.lt_succ_self _⟩
    · exact ⟨(sound.below id' q old).1, (sound.below id' q old).2.trans (Nat.lt_succ_self _)⟩
  · intro id₁ id₂ q first second
    rcases (entries id₁ q).mp first with ⟨rfl, rfl⟩ | old₁ <;> rcases (entries id₂ _).mp second with
      ⟨rfl, eq⟩ | old₂
    · rfl
    · exact absurd (sound.below id₂ _ old₂).2 (lt_irrefl _)
    · subst eq
      exact absurd (sound.below id₁ _ old₁).2 (lt_irrefl _)
    · exact sound.inj id₁ id₂ q old₁ old₂
  · intro id' found
    dsimp only at found ⊢
    rw [kept id', Bool.or_eq_true, decide_eq_true_iff] at found
    rcases found with rfl | old
    · exact Or.inr ⟨queue, waiting⟩
    · exact sound.begun id' old
  · intro id' lt
    dsimp only
    rw [kept id', sound.finished id' lt, Bool.or_true]
  · intro id' mem
    obtain ⟨queue', waiting', free'⟩ :=
      sound.requests id' (by rw [head]; exact List.mem_cons_of_mem _ mem)
    refine ⟨queue', waiting', ?_⟩
    have other : id' ≠ id := fun same => none (same ▸ mem)
    exact (update_of_ne other ..).trans free'
  · exact fun id' => (fewer id').trans (sound.once id')
  · dsimp only
    rw [advance, ← sound.total]
    have one : ∑ c : Client, (if c = id.client then 1 else 0) = 1 := by
      rw [Finset.sum_ite_eq' Finset.univ id.client, if_pos (Finset.mem_univ _)]
    rw [← one, ← Finset.sum_add_distrib]
    refine Finset.sum_congr rfl fun c _ => ?_
    unfold attached
    dsimp only
    rw [kept, Nat.add_assoc]
    by_cases same : c = id.client
    · have this : (⟨c, s.next c⟩ : Conn) = id := by rw [same, ← queue]
      rw [this, free, if_pos same]
      simp
    · have other : (⟨c, s.next c⟩ : Conn) ≠ id := fun eq => same (congrArg Conn.client eq)
      rw [if_neg same]
      simp [other]
  · intro id'
    exact (confirmations id').trans_le (sound.confirmed id')
  · intro id' le
    exact (confirmations id').trans (sound.unconfirmed id' le)
  · intro q taken
    obtain ⟨id', attached⟩ := sound.used q taken
    exact ⟨id', (entries id' q).mpr (Or.inr attached)⟩

theorem Sound.onConnection (head : s.channel = .established id :: rest) :
    (({ s with channel := rest } : Net).onConnection id).Sound := by
  have count : s.channel.count (.established id) = rest.count (.established id) + 1 := by
    rw [head, List.count_cons_self]
  have one := sound.confirmed id
  unfold confirmations at one
  have early : id.queue < s.next id.client := by
    by_contra late
    have := sound.unconfirmed id (not_lt.mp late)
    unfold confirmations at this
    omega
  obtain ⟨q, attached⟩ := Option.isSome_iff_exists.mp (sound.finished id early)
  have idle : s.connected q = false := by
    by_contra taken
    rw [Bool.not_eq_false] at taken
    rw [attached, Option.any_some, taken, Bool.toNat_true] at one
    omega
  unfold Net.onConnection
  dsimp only
  rw [attached]
  dsimp only
  rw [if_neg (by rw [idle]; decide)]
  have moved : ∀ id', rest.count (.established id') +
      ((s.context id').any (update s.connected q true)).toNat =
        s.channel.count (.established id') + ((s.context id').any s.connected).toNat := by
    intro id'
    by_cases same : id' = id
    · rw [same, count, attached, Option.any_some, Option.any_some, update_self, idle]
      rfl
    · rw [head, List.count_cons_of_ne fun eq => same (CmEvent.established.inj eq).symm]
      cases found : s.context id' with
      | none => rfl
      | some q' =>
        have other : q' ≠ q := fun eq => same (sound.inj id' id q (eq ▸ found) attached)
        rw [Option.any_some, Option.any_some, update_of_ne other]
  have confirmations : ∀ id', (s.ready id').toNat + rest.count (.established id') +
      ((s.context id').any (update s.connected q true)).toNat = s.confirmations id' := by
    intro id'
    unfold Net.confirmations
    rw [Nat.add_assoc, moved, Nat.add_assoc]
  refine ⟨sound.alive, sound.queue_lt, sound.below, sound.inj, sound.begun, sound.finished,
    sound.next_le, ?_, ?_,
    sound.total, fun id' => (confirmations id').trans_le (sound.confirmed id'),
    fun id' le => (confirmations id').trans (sound.unconfirmed id' le), ?_⟩
  · intro id' mem
    exact sound.requests id' (by rw [head]; exact List.mem_cons_of_mem _ mem)
  · intro id'
    refine le_trans ?_ (sound.once id')
    rw [head]
    exact List.count_le_count_cons
  · intro q' taken
    by_cases same : q' = q
    · exact ⟨id, same ▸ attached⟩
    · exact sound.used q' ((update_of_ne same ..).symm.trans taken)

end Serve

theorem Sound.step (sound : s.Sound) {a : Action} (step : s.step a = some t) : t.Sound := by
  cases a with
  | request c => exact sound.request step
  | established c => exact sound.established step
  | confirm id => exact sound.confirm step
  | serve =>
    unfold Net.step at step
    cases head : s.channel with
    | nil =>
      rw [head] at step
      cases step
    | cons e rest =>
      rw [head] at step
      cases step
      cases e with
      | connectRequest id => exact (sound.onConnectRequest head).mainLoop
      | established id => exact (sound.onConnection head).mainLoop

/-- The controllers before the current one are complete, and the current one belongs to one
client. -/
structure Ordered (s : Net) : Prop where
  assigned : s.Assigned
  full : ∀ id q, s.context id = some q → q.1 < s.clientCtr →
    ∀ j < numQueues, (s.context ⟨id.client, j⟩).isSome
  current : 0 < s.queueCtr → ∃ c, ∀ j < s.queueCtr, s.context ⟨c, j⟩ = some (s.clientCtr, j)

theorem ordered_start : start.Ordered :=
  ⟨⟨nofun, nofun, nofun⟩, nofun, fun lt => absurd lt (lt_irrefl _)⟩

theorem Ordered.congr (ordered : s.Ordered) (context : t.context = s.context)
    (client : t.clientCtr = s.clientCtr) (queue : t.queueCtr = s.queueCtr) : t.Ordered := by
  obtain ⟨assigned, full, current⟩ := ordered
  refine ⟨⟨?_, ?_, ?_⟩, ?_, ?_⟩
  · exact context ▸ assigned.queue
  · exact context ▸ assigned.same
  · exact context ▸ assigned.different
  · rw [context, client]
    exact full
  · rw [context, client, queue]
    exact current

theorem mainLoop_context (s : Net) :
    s.mainLoop.context = s.context ∧ s.mainLoop.clientCtr = s.clientCtr ∧
    s.mainLoop.queueCtr = s.queueCtr := by
  unfold mainLoop
  split <;> exact ⟨rfl, rfl, rfl⟩

theorem onConnection_context (s : Net) (id : Conn) : (s.onConnection id).context = s.context ∧
    (s.onConnection id).clientCtr = s.clientCtr ∧ (s.onConnection id).queueCtr = s.queueCtr := by
  unfold onConnection
  split
  · exact ⟨rfl, rfl, rfl⟩
  · split <;> exact ⟨rfl, rfl, rfl⟩

theorem Sound.onConnectRequest_eq (sound : s.Sound) {id : Conn} {rest : List CmEvent}
    (head : s.channel = .connectRequest id :: rest) :
    (({ s with channel := rest } : Net).onConnectRequest id).context =
        update s.context id (some (s.clientCtr, s.queueCtr)) ∧
      (({ s with channel := rest } : Net).onConnectRequest id).clientCtr =
        (if s.queueCtr = numQueues - 1 then s.clientCtr + 1 else s.clientCtr) ∧
      (({ s with channel := rest } : Net).onConnectRequest id).queueCtr =
        if s.queueCtr = numQueues - 1 then 0 else s.queueCtr + 1 := by
  unfold Net.onConnectRequest
  rw [if_neg (not_or.mpr ⟨not_le.mpr (sound.clientCtr_lt head), by rw [sound.queue_free]; decide⟩)]
  exact ⟨rfl, rfl, rfl⟩

/-- A request in its turn: the client has the first queues of the current controller, and the
other clients have none of it. -/
theorem Ordered.turn (ordered : s.Ordered) (sound : s.Sound) {id : Conn} {rest : List CmEvent}
    (head : s.channel = .connectRequest id :: rest) (orderly : s.Orderly .serve) :
    (∀ j < s.next id.client, s.context ⟨id.client, j⟩ = some (s.clientCtr, j)) ∧
      s.next id.client = s.queueCtr ∧
      ∀ id' q, id'.client ≠ id.client → s.context id' = some q → q.1 < s.clientCtr := by
  obtain ⟨queue, waiting, free⟩ := sound.requests id (by rw [head]; exact List.mem_cons_self)
  have small := (sound.next_le id.client).2 waiting
  have own : (⟨id.client, s.next id.client⟩ : Conn) = id := by rw [← queue]
  -- the queues of this client are all at the current controller, those of others before it
  have mine : ∀ j q, s.context ⟨id.client, j⟩ = some q → q.1 = s.clientCtr := by
    intro j q found
    have := sound.below _ _ found
    rcases Nat.lt_or_ge q.1 s.clientCtr with before | after
    · have := ordered.full _ _ found before _ small
      rw [own, free] at this
      cases this
    · unfold numQueues at this
      have := sound.queue_lt
      unfold numQueues at this
      omega
  have others : ∀ id' q, id'.client ≠ id.client → s.context id' = some q → q.1 < s.clientCtr := by
    intro id' q ne found
    have := sound.below _ _ found
    have lt := sound.queue_lt
    unfold numQueues at this lt
    by_contra after
    have here : q.1 = s.clientCtr := by omega
    obtain ⟨j, last⟩ := orderly id rest head (by omega)
    exact ordered.assigned.different id' ⟨id.client, j⟩ _ _ found last ne here
  have values : ∀ j < s.next id.client, s.context ⟨id.client, j⟩ = some (s.clientCtr, j) := by
    intro j lt
    obtain ⟨q, found⟩ := Option.isSome_iff_exists.mp (sound.finished ⟨id.client, j⟩ lt)
    have first := mine j q found
    have second := ordered.assigned.queue _ _ found
    rw [found, ← first]
    exact congrArg some (Prod.ext rfl second)
  have number : s.next id.client = s.queueCtr := by
    apply le_antisymm
    · by_contra more
      have := (sound.below _ _ (values s.queueCtr (not_le.mp more))).2
      exact absurd this (lt_irrefl _)
    · rcases Nat.eq_zero_or_pos s.queueCtr with zero | pos
      · rw [zero]
        exact Nat.zero_le _
      · obtain ⟨j, last⟩ := orderly id rest head pos
        have at_j : s.queueCtr - 1 = j := ordered.assigned.queue _ _ last
        rcases sound.begun _ (Option.isSome_iff_exists.mpr ⟨_, last⟩) with less | ⟨eq, _⟩
        · dsimp only at less
          omega
        · rw [show j = s.next id.client from eq, own, free] at last
          cases last
  exact ⟨values, number, others⟩

theorem Ordered.onConnectRequest (ordered : s.Ordered) (sound : s.Sound) {id : Conn}
    {rest : List CmEvent} (head : s.channel = .connectRequest id :: rest)
    (orderly : s.Orderly .serve) :
    (({ s with channel := rest } : Net).onConnectRequest id).Ordered := by
  obtain ⟨context, client, counter⟩ := sound.onConnectRequest_eq head
  obtain ⟨queue, _, free⟩ := sound.requests id (by rw [head]; exact List.mem_cons_self)
  obtain ⟨values, number, others⟩ := ordered.turn sound head orderly
  have own : ∀ id' q, id'.client = id.client →
    update s.context id (some (s.clientCtr, s.queueCtr)) id' = some q →
      q = (s.clientCtr, id'.queue) := by
    rintro ⟨c, j⟩ q rfl found
    by_cases same : (⟨id.client, j⟩ : Conn) = id
    · rw [same, update_self] at found
      cases found
      rw [← same] at queue
      exact Prod.ext rfl (number.symm.trans queue.symm)
    · rw [update_of_ne same] at found
      rcases sound.begun ⟨id.client, j⟩ (Option.isSome_iff_exists.mpr ⟨q, found⟩) with
        less | ⟨eq, _⟩
      · exact Option.some.inj (found.symm.trans (values j less))
      · exact absurd (by rw [show j = s.next id.client from eq, ← queue]) same
  have foreign : ∀ id' q, id'.client ≠ id.client →
      update s.context id (some (s.clientCtr, s.queueCtr)) id' = some q →
        s.context id' = some q := by
    intro id' q ne found
    rwa [update_of_ne fun eq => ne (congrArg Conn.client eq)] at found
  have first : ∀ j ≤ s.queueCtr, update s.context id (some (s.clientCtr, s.queueCtr))
    ⟨id.client, j⟩ = some (s.clientCtr, j) := by
    intro j le
    by_cases same : (⟨id.client, j⟩ : Conn) = id
    · rw [same, update_self]
      rw [← same] at queue
      exact congrArg some (Prod.ext rfl (number.symm.trans queue.symm))
    · rw [update_of_ne same]
      refine values j (number ▸ lt_of_le_of_ne le fun eq => same ?_)
      rw [eq, ← number, ← queue]
  refine ⟨⟨?_, ?_, ?_⟩, ?_, ?_⟩
  · rw [context]
    intro id' q found
    by_cases same : id'.client = id.client
    · rw [own id' q same found]
    · exact ordered.assigned.queue id' q (foreign id' q same found)
  · rw [context]
    intro id₁ id₂ q₁ q₂ found₁ found₂ eq
    by_cases same : id₁.client = id.client
    · rw [own id₁ q₁ same found₁, own id₂ q₂ (eq.symm.trans same) found₂]
    · exact ordered.assigned.same id₁ id₂ q₁ q₂ (foreign id₁ q₁ same found₁)
        (foreign id₂ q₂ (eq ▸ same) found₂) eq
  · rw [context]
    intro id₁ id₂ q₁ q₂ found₁ found₂ ne
    by_cases same₁ : id₁.client = id.client <;> by_cases same₂ : id₂.client = id.client
    · exact absurd (same₁.trans same₂.symm) ne
    · rw [own id₁ q₁ same₁ found₁]
      exact (others id₂ q₂ same₂ (foreign id₂ q₂ same₂ found₂)).ne'
    · rw [own id₂ q₂ same₂ found₂]
      exact (others id₁ q₁ same₁ (foreign id₁ q₁ same₁ found₁)).ne
    · exact ordered.assigned.different id₁ id₂ q₁ q₂ (foreign id₁ q₁ same₁ found₁)
        (foreign id₂ q₂ same₂ found₂) ne
  · rw [context, client]
    intro id' q found before j lt
    by_cases same : id'.client = id.client
    · -- the controller has just become complete
      rw [own id' q same found] at before
      rw [same]
      split at before
      · rename_i last
        rw [first j (by unfold numQueues at *; omega)]
        rfl
      · exact absurd before (lt_irrefl _)
    · have old := foreign id' q same found
      have other : (⟨id'.client, j⟩ : Conn) ≠ id := by
        rintro rfl
        exact same rfl
      rw [update_of_ne other]
      exact ordered.full id' q old (others id' q same old) j lt
  · rw [context, client, counter]
    intro pos
    refine ⟨id.client, fun j lt => ?_⟩
    split at pos
    · exact absurd pos (lt_irrefl _)
    · rename_i middle
      rw [if_neg middle] at lt ⊢
      exact first j (by omega)

/-- Out of turn, the new queue shares its controller with another client. -/
theorem Ordered.orderly (ordered : s.Ordered) (sound : s.Sound) {id : Conn} {rest : List CmEvent}
    (head : s.channel = .connectRequest id :: rest)
    (assigned : (({ s with channel := rest } : Net).onConnectRequest id).Assigned) :
    s.Orderly .serve := by
  obtain ⟨context, _, _⟩ := sound.onConnectRequest_eq head
  obtain ⟨_, _, free⟩ := sound.requests id (by rw [head]; exact List.mem_cons_self)
  intro id' rest' head' pos
  rw [head] at head'
  cases head'
  obtain ⟨c, values⟩ := ordered.current pos
  have last := values (s.queueCtr - 1) (by omega)
  by_cases same : c = id.client
  · exact ⟨s.queueCtr - 1, same ▸ last⟩
  · have other : (⟨c, s.queueCtr - 1⟩ : Conn) ≠ id := fun eq => same (congrArg Conn.client eq)
    refine absurd rfl (assigned.different id ⟨c, s.queueCtr - 1⟩ (s.clientCtr, s.queueCtr)
      (s.clientCtr, s.queueCtr - 1) ?_ ?_ fun eq => same eq.symm)
    · rw [context, update_self]
    · rw [context, update_of_ne other, last]

theorem Assigned.congr (assigned : s.Assigned) (context : t.context = s.context) : t.Assigned :=
  ⟨context ▸ assigned.queue, context ▸ assigned.same, context ▸ assigned.different⟩

/-- A step in turn keeps the order, and one that keeps the assignment is in turn. -/
theorem Ordered.step (ordered : s.Ordered) (sound : s.Sound) {a : Action}
    (step : s.step a = some t) :
    (s.Orderly a → t.Ordered) ∧ (t.Assigned → s.Orderly a) := by
  cases a with
  | request c =>
    simp only [Net.step, Option.ite_none_right_eq_some, Option.some.injEq] at step
    obtain ⟨_, rfl⟩ := step
    exact ⟨fun _ => ordered.congr rfl rfl rfl, fun _ => trivial⟩
  | established c =>
    simp only [Net.step, Option.ite_none_right_eq_some, Option.some.injEq] at step
    obtain ⟨_, rfl⟩ := step
    exact ⟨fun _ => ordered.congr rfl rfl rfl, fun _ => trivial⟩
  | confirm id =>
    simp only [Net.step, Option.ite_none_right_eq_some, Option.some.injEq] at step
    obtain ⟨_, rfl⟩ := step
    exact ⟨fun _ => ordered.congr rfl rfl rfl, fun _ => trivial⟩
  | serve =>
    unfold Net.step at step
    cases head : s.channel with
    | nil =>
      rw [head] at step
      cases step
    | cons e rest =>
      rw [head] at step
      cases step
      obtain ⟨context, client, queue⟩ :=
        mainLoop_context (({ s with channel := rest } : Net).onEvent e)
      cases e with
      | connectRequest id =>
        refine ⟨fun orderly => (ordered.onConnectRequest sound head orderly).congr context client
          queue, ?_⟩
        exact fun assigned => ordered.orderly sound head (assigned.congr context.symm)
      | established id =>
        obtain ⟨context', client', queue'⟩ :=
          onConnection_context ({ s with channel := rest } : Net) id
        refine ⟨fun _ => ordered.congr (context.trans context') (client.trans client')
          (queue.trans queue'), ?_⟩
        intro _ id' rest' head'
        rw [head] at head'
        cases head'

/-- In every interleaving the server stays alive, and every client is attached queue by queue
to a controller of its own exactly when each request is served in turn. -/
theorem assigned_iff_orderly {actions : List Action}
    (final : Runs.run Net.step start actions = some t) :
    Runs.Always Net.step (fun s => s.dead = false) start actions ∧
      (Runs.Always Net.step Assigned start actions ↔
        Runs.Meets Net.step Orderly start actions) := by
  constructor
  · refine Runs.always_of_meets (J := Sound) (P := fun _ _ => True) sound_start ?_
      (fun s sound => sound.alive) fun _ _ _ _ _ => trivial
    exact fun s a t sound _ step => sound.step step
  · refine Runs.always_iff_meets (J := fun s => s.Sound ∧ s.Ordered) ⟨sound_start, ordered_start⟩ ?_
      (fun s both => both.2.assigned) ?_ final
    · exact fun s a t both orderly step => ⟨both.1.step step, (both.2.step both.1 step).1 orderly⟩
    · exact fun s a t both step assigned => (both.2.step both.1 step).2 assigned

/-- A client attaches its queues one after the other. -/
def joins (c : Client) : List Action :=
  (List.range numQueues).flatMap fun i => [.request c, .serve, .established c,
    .confirm ⟨c, i⟩, .serve]

/-- The queue before has just been attached to the same controller. -/
def follows (s : Net) : Action → Bool
  | .serve =>
    match s.channel with
    | .connectRequest id :: _ =>
      s.queueCtr == 0 || s.context ⟨id.client, s.queueCtr - 1⟩ == some (s.clientCtr, s.queueCtr - 1)
    | _ => true
  | _ => true

theorem orderly_of_follows (s : Net) (a : Action) (ok : s.follows a = true) : s.Orderly a := by
  cases a with
  | serve =>
    intro id rest head pos
    simp only [follows, head, Bool.or_eq_true, beq_iff_eq] at ok
    exact ⟨_, ok.resolve_left (Nat.ne_of_gt pos)⟩
  | request | established | confirm => trivial

theorem assigned_iff_orderly_joins :
    ∃ t, Runs.run Net.step start (joins 1 ++ joins 0) = some t ∧ t.clientCtr = 2 ∧
    Runs.Always Net.step (fun s => s.dead = false ∧ s.Assigned) start (joins 1 ++ joins 0) := by
  have both : (Runs.run Net.step start (joins 1 ++ joins 0)).map Net.clientCtr = some 2 := by
    decide +kernel
  obtain ⟨t, final, two⟩ := Option.map_eq_some_iff.mp both
  obtain ⟨alive, iff⟩ := assigned_iff_orderly final
  have assigned := iff.mpr (Runs.meets_of_checks orderly_of_follows (by decide +kernel))
  exact ⟨t, final, two, fun done s le reached =>
    ⟨alive done s le reached, assigned done s le reached⟩⟩

/-- Two clients ask for their first queues: the second one gets queue 1 of the first one's
controller. -/
theorem interleaved_requests_share :
    ∃ t, Runs.run Net.step start [.request 0, .request 1, .serve, .serve] = some t ∧
    ¬ t.Assigned := by
  refine ⟨_, rfl, fun assigned => ?_⟩
  have queue := assigned.queue ⟨1, 0⟩ (0, 1) (by decide)
  exact absurd queue (by decide)

end Net

end Xcache.Remote
