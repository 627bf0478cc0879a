import Xcache.Lib.Runs
import Xcache.Remote.WriteQueues

/-! Batched puts of all clients: the queues do not disturb each other as long as the page
buffers stay in front of the metadata. -/

namespace Xcache.Remote
open Function
open Memory

namespace Server
variable {bufferSize globalMr : BitVec 64} {n : Nat}

/-- The pages handed out so far end before the metadata, and the allocation is one that the
address space holds. -/
def Roomy (s : Server) : Prop :=
  s.globalMr.toNat + s.bufferSize.toNat + numClient * localMetaRegionSize ≤ 2 ^ 64 ∧
    localMetaRegionSize + pageSize * s.pages.length ≤ s.bufferSize.toNat

/-- An allocation of 64 megabytes. -/
theorem roomy_of_pages {s : Server} {pages : Nat} (start : s.globalMr = 4096)
    (size : s.bufferSize = 67108864) (length : s.pages.length = pages)
    (room : localMetaRegionSize + pageSize * pages ≤ 67108864) : s.Roomy := by
  unfold Roomy
  rw [start, size, length]
  exact ⟨by decide, room⟩

/-- The address of the receive number `m`. -/
def batch (globalMr : BitVec 64) (m : Nat) : BitVec 64 :=
  globalMr + BitVec.ofNat 64 localMetaRegionSize + BitVec.ofNat 64 (pageSize * (batchSize * m))

theorem savePage_after : (after bufferSize globalMr n).savePage = batch globalMr n := by
  unfold savePage batch after getFreePageRegion
  dsimp only
  rw [← BitVec.ofNat_mul]

theorem roomy_after : (after bufferSize globalMr n).Roomy ↔
    globalMr.toNat + bufferSize.toNat + numClient * localMetaRegionSize ≤ 2 ^ 64 ∧
      localMetaRegionSize + pageSize * (batchSize * n) ≤ bufferSize.toNat := by
  unfold Roomy after
  rw [List.length_map, List.length_range]

theorem Roomy.mono {m : Nat} (roomy : (after bufferSize globalMr n).Roomy) (le : m ≤ n) :
    (after bufferSize globalMr m).Roomy := by
  rw [roomy_after] at roomy ⊢
  refine ⟨roomy.1, le_trans ?_ roomy.2⟩
  exact Nat.add_le_add_left (Nat.mul_le_mul_left _ (Nat.mul_le_mul_left _ le)) _

section
variable (roomy : (after bufferSize globalMr n).Roomy)
include roomy

theorem batch_toNat {m : Nat} (lt : m < n) :
    (batch globalMr m).toNat = globalMr.toNat + localMetaRegionSize + pageSize * batchSize * m ∧
      localMetaRegionSize + pageSize * batchSize * (m + 1) ≤ bufferSize.toNat := by
  obtain ⟨fits, room⟩ := roomy_after.mp roomy
  have below : pageSize * batchSize * (m + 1) ≤ pageSize * (batchSize * n) := by
    rw [Nat.mul_assoc]
    exact Nat.mul_le_mul_left _ (Nat.mul_le_mul_left _ lt)
  refine ⟨?_, by omega⟩
  unfold batch
  rw [page_toNat, Nat.mul_assoc]
  rw [← Nat.mul_assoc]
  rw [Nat.mul_succ] at below
  have : 0 < pageSize * batchSize := by decide
  have : 0 < numClient * localMetaRegionSize := by decide
  omega

theorem batch_apart {m m' : Nat} (lt : m < n) (lt' : m' < n) (ne : m ≠ m') :
    (Range.mk (batch globalMr m).toNat (pageSize * batchSize)).Apart
      ⟨(batch globalMr m').toNat, pageSize * batchSize⟩ := by
  rw [(batch_toNat roomy lt).1, (batch_toNat roomy lt').1]
  exact Range.apart_of_stride ne le_rfl le_rfl

theorem batch_ne_zero {m : Nat} (lt : m < n) : batch globalMr m ≠ 0 := by
  intro zero
  have := (batch_toNat roomy lt).1
  rw [zero] at this
  have : 0 < localMetaRegionSize := by decide
  have : (0 : BitVec 64).toNat = 0 := rfl
  omega

theorem slot_toNat (c : Client) (q : Queue) {mid : Nat} (lt : mid < numEntry) :
    ((after bufferSize globalMr n).localMm c + BitVec.ofNat 64 (getOffsetFromBase q mid)).toNat =
      globalMr.toNat + bufferSize.toNat + localMetaRegionSize * c + entrySize *
        (numEntry * q + mid) ∧
    entrySize * (numEntry * q + mid) + entrySize ≤ localMetaRegionSize := by
  obtain ⟨fits, room⟩ := roomy_after.mp roomy
  have small : entrySize * (numEntry * q + mid) + entrySize ≤ localMetaRegionSize := by
    have : numEntry * q.val + mid + 1 ≤ numQueues * numEntry := by
      have := q.isLt
      unfold numEntry numQueues at *
      omega
    calc entrySize * (numEntry * q + mid) + entrySize = entrySize * (numEntry * q + mid + 1) :=
      (Nat.mul_succ ..).symm
      _ ≤ entrySize * (numQueues * numEntry) := Nat.mul_le_mul_left _ this
      _ ≤ localMetaRegionSize := by decide
  have block : localMetaRegionSize * (c.val + 1) ≤ numClient * localMetaRegionSize := by
    rw [Nat.mul_comm]
    exact Nat.mul_le_mul_right _ c.isLt
  rw [Nat.mul_succ] at block
  have entry : 0 < entrySize := by decide
  have start : ((after bufferSize globalMr n).localMm c).toNat =
      globalMr.toNat + bufferSize.toNat + localMetaRegionSize * c := by
    have base : (globalMr + bufferSize).toNat = globalMr.toNat + bufferSize.toNat := by
      rw [BitVec.toNat_add, Nat.mod_eq_of_lt (by omega)]
    rw [localMm_after, toNat_add_ofNat (by omega), base]
  rw [getOffsetFromBase_eq, Nat.zero_add]
  exact ⟨by rw [toNat_add_ofNat (by omega), start], small⟩

end

end Server

namespace System
variable {σ : Type} {s t : System σ} {bufferSize globalMr : BitVec 64}

/-- Every receive that was posted has a number of its own. -/
def Laid (bufferSize globalMr : BitVec 64) (s : System σ) : Prop :=
  ∃ n, s.server = Server.after bufferSize globalMr n ∧ ∃ owner : Nat → (Client × Queue) × Nat,
    ∀ ix b target, (s.writeQs ix).recvs[b]? = some target →
      ∃ m < n, target = Server.batch globalMr m ∧ owner m = (ix, b)

section
variable (laid : s.Laid bufferSize globalMr) (roomy : s.server.Roomy)
include laid

theorem Laid.slot_congr (laid' : t.Laid bufferSize globalMr) : t.slot = s.slot := by
  obtain ⟨n, server, _⟩ := laid
  obtain ⟨n', server', _⟩ := laid'
  funext c qid mid
  unfold slot
  rw [server, server']
  rfl

include roomy

theorem Laid.nonzero {ix : Client × Queue} {b : Nat} {target : BitVec 64}
    (posted : (s.writeQs ix).recvs[b]? = some target) : target ≠ 0 := by
  obtain ⟨n, server, owner, owned⟩ := laid
  rw [server] at roomy
  obtain ⟨m, lt, rfl, _⟩ := owned ix b target posted
  exact Server.batch_ne_zero roomy lt

theorem Laid.pages_apart {ix ix' : Client × Queue} {b b' : Nat} {target target' : BitVec 64}
    (ne : (ix, b) ≠ (ix', b')) (posted : (s.writeQs ix).recvs[b]? = some target)
    (posted' : (s.writeQs ix').recvs[b']? = some target') :
    (Range.mk target.toNat (pageSize * batchSize)).Apart ⟨target'.toNat, pageSize * batchSize⟩ := by
  obtain ⟨n, server, owner, owned⟩ := laid
  rw [server] at roomy
  obtain ⟨m, lt, rfl, mine⟩ := owned ix b target posted
  obtain ⟨m', lt', rfl, mine'⟩ := owned ix' b' target' posted'
  refine Server.batch_apart roomy lt lt' ?_
  rintro rfl
  exact ne (mine.symm.trans mine')

theorem Laid.slot_apart_page (c : Client) (q : Queue) {mid k b : Nat} {ix : Client × Queue}
    {target : BitVec 64} (lt : mid < numEntry) (posted : (s.writeQs ix).recvs[b]? = some target) :
    (Range.mk (s.slot c q mid) k).Apart ⟨target.toNat, pageSize * batchSize⟩ := by
  obtain ⟨n, server, owner, owned⟩ := laid
  rw [server] at roomy
  obtain ⟨m, below, rfl, _⟩ := owned ix b target posted
  right
  unfold slot
  rw [server]
  dsimp only
  rw [(Server.slot_toNat roomy c q lt).1, (Server.batch_toNat roomy below).1]
  have := (Server.batch_toNat roomy below).2
  rw [Nat.mul_succ] at this
  omega

theorem Laid.slots_apart {c c' : Client} {q q' : Queue} {mid mid' k k' : Nat} (lt : mid < numEntry)
    (lt' : mid' < numEntry) (le : k ≤ entrySize) (le' : k' ≤ entrySize)
    (ne : (c, q, mid) ≠ (c', q', mid')) :
    (Range.mk (s.slot c q mid) k).Apart ⟨s.slot c' q' mid', k'⟩ := by
  obtain ⟨n, server, _⟩ := laid
  rw [server] at roomy
  obtain ⟨start, small⟩ := Server.slot_toNat roomy c q lt
  obtain ⟨start', small'⟩ := Server.slot_toNat roomy c' q' lt'
  unfold slot
  rw [server, start, start']
  by_cases same : c = c'
  · -- slots of one client
    subst same
    refine Range.apart_of_stride (fun eq => ne ?_) le le'
    unfold numEntry at *
    obtain rfl : q = q' := Fin.ext (by omega)
    obtain rfl : mid = mid' := by omega
    rfl
  · -- the blocks of two clients
    have := @Range.apart_of_stride (globalMr.toNat + bufferSize.toNat) localMetaRegionSize c c'
      localMetaRegionSize localMetaRegionSize (fun eq => same (Fin.ext eq)) le_rfl le_rfl
    unfold Range.Apart at *
    dsimp only at *
    omega

theorem Laid.page_toNat {ix : Client × Queue} {b i : Nat} {target : BitVec 64}
    (posted : (s.writeQs ix).recvs[b]? = some target) (lt : i < batchSize) :
    (target + BitVec.ofNat 64 (pageSize * i)).toNat = target.toNat + pageSize * i := by
  obtain ⟨n, server, owner, owned⟩ := laid
  rw [server] at roomy
  obtain ⟨m, below, rfl, _⟩ := owned ix b target posted
  obtain ⟨start, room⟩ := Server.batch_toNat roomy below
  have fits := (Server.roomy_after.mp roomy).1
  have : pageSize * i < pageSize * batchSize := Nat.mul_lt_mul_of_pos_left lt (by decide)
  have : 0 < numClient * localMetaRegionSize := by decide
  rw [Nat.mul_succ] at room
  refine toNat_add_ofNat ?_
  rw [start]
  omega

theorem Laid.placed (ix : Client × Queue) : (s.writeQs ix).Placed (s.slot ix.1 ix.2 0) where
  nonzero := fun _ _ posted => laid.nonzero roomy posted
  slots := fun _ _ posted => laid.slot_apart_page roomy ix.1 ix.2 (by decide) posted
  pages := fun _ _ _ _ ne posted posted' => laid.pages_apart roomy
    (fun eq => ne (congrArg Prod.snd eq)) posted posted'

end

section
variable {H : IHash σ} {cfg : Config} {ix : Client × Queue}

theorem laid_start (mem : Nat → Byte) (kv : KV σ) (nrHash bitmapSize : Nat) :
    (start bufferSize globalMr mem kv nrHash bitmapSize).Laid bufferSize globalMr := by
  refine ⟨0, ?_, fun _ => ((0, 0), 0), ?_⟩
  · exact (Server.run_start []).symm ▸ rfl
  · rintro ix b target ⟨⟩

theorem Laid.append (laid : s.Laid bufferSize globalMr) (server : t.server = s.server.handOut)
    (others : ∀ ix' ≠ ix, (t.writeQs ix').recvs = (s.writeQs ix').recvs)
    (recvs : (t.writeQs ix).recvs = (s.writeQs ix).recvs ++ [s.server.savePage]) :
    t.Laid bufferSize globalMr := by
  obtain ⟨n, eq, owner, owned⟩ := laid
  refine ⟨n + 1, by rw [server, eq, Server.handOut_after],
    update owner n (ix, (s.writeQs ix).recvs.length), fun ix' b target posted => ?_⟩
  have old : (s.writeQs ix').recvs[b]? = some target →
      ∃ m < n + 1, target = Server.batch globalMr m ∧
        update owner n (ix, (s.writeQs ix).recvs.length) m = (ix', b) := by
    intro before
    obtain ⟨m, lt, rfl, mine⟩ := owned ix' b target before
    exact ⟨m, Nat.lt_succ_of_lt lt, rfl, by rw [update_of_ne lt.ne, mine]⟩
  by_cases same : ix' = ix
  · subst same
    rw [recvs] at posted
    by_cases lt : b < (s.writeQs ix').recvs.length
    · exact old (WriteQueue.getElem?_of_lt lt posted)
    · have last : b = (s.writeQs ix').recvs.length := by
        have := (List.getElem?_eq_some_iff.mp posted).1
        rw [List.length_append, List.length_singleton] at this
        omega
      rw [last, List.getElem?_concat_length, Option.some_inj, eq, Server.savePage_after] at posted
      exact ⟨n, Nat.lt_succ_self n, posted.symm, by rw [update_self, last]⟩
  · exact old (others ix' same ▸ posted)

theorem Laid.congr (laid : s.Laid bufferSize globalMr) (server : t.server = s.server)
    (recvs : ∀ ix, (t.writeQs ix).recvs = (s.writeQs ix).recvs) : t.Laid bufferSize globalMr := by
  obtain ⟨n, eq, owner, owned⟩ := laid
  refine ⟨n, server.trans eq, owner, fun ix b target posted => owned ix b target ?_⟩
  rwa [recvs ix] at posted

theorem Laid.writeStep (laid : s.Laid bufferSize globalMr) (step : WriteStep H cfg s ix t) :
    t.Laid bufferSize globalMr := by
  rcases step.posted with ⟨server, recvs⟩ | ⟨server, recvs⟩
  · refine laid.congr server fun ix' => ?_
    by_cases same : ix' = ix
    · rw [same, recvs]
    · rw [step.others ix' same]
  · exact laid.append server (fun ix' ne => by rw [step.others ix' ne]) recvs

/-- What the queues of a client may use: writes go to the upper half, reads to the slots of
the lower half. -/
structure Sided (cfg : Config) (s : System σ) : Prop where
  calls : ∀ ix n call, (s.writeQs ix).calls n = some call → cfg.numqueues / 2 ≤ ix.2.val
  puts : ∀ ix, (s.writeQs ix).puts ≠ [] → cfg.numqueues / 2 ≤ ix.2.val
  gets : ∀ ix n call, (s.readQs ix).calls n = some call → ix.2.val < cfg.numqueues / 2 ∧
    call.msgId < numEntry
  ops : ∀ ix, ∀ op ∈ (s.readQs ix).wire, ix.2.val < cfg.numqueues / 2 ∧ op.msgId < numEntry

/-- The queues in order, as long as the pages have room. -/
structure Sound (cfg : Config) (bufferSize globalMr : BitVec 64) (s : System σ) : Prop where
  laid : s.Laid bufferSize globalMr
  exclusive : ∀ ix, (s.writeQs ix).Exclusive
  sided : s.Sided cfg
  ordered : s.server.Roomy → ∀ ix, (s.writeQs ix).Ordered ix.2 (s.slot ix.1 ix.2 0) s.mem

theorem sound_start (mem : Nat → Byte) (kv : KV σ) (nrHash bitmapSize : Nat) :
    (start bufferSize globalMr mem kv nrHash bitmapSize).Sound cfg bufferSize globalMr where
  laid := laid_start mem kv nrHash bitmapSize
  exclusive := fun _ => WriteQueue.exclusive_start
  sided := ⟨nofun, fun _ none => absurd rfl none, nofun, nofun⟩
  ordered := fun _ _ => WriteQueue.ordered_start

theorem move_upper {w w' : WriteQueue} {half : Nat} {q : Queue} {slot : Nat → Nat}
    {mem mem' : Nat → Byte} (move : w.Move half q slot mem mem' w')
    (calls : ∀ n call, w.calls n = some call → half ≤ q.val) (puts : w.puts ≠ [] → half ≤ q.val) :
    (∀ n call, w'.calls n = some call → half ≤ q.val) ∧ (w'.puts ≠ [] → half ≤ q.val) := by
  have known : ∀ {n call}, w.calls n = some call →
      (∀ n call, w'.calls n = some call → half ≤ q.val) ∧ (w'.puts ≠ [] → half ≤ q.val) :=
    fun here => ⟨fun _ _ _ => calls _ _ here, fun _ => calls _ _ here⟩
  cases move with
  | begin key page upper free => exact ⟨fun _ _ _ => upper, fun _ => upper⟩
  | filter here => exact known here
  | lock here => exact known here
  | fetchAdd here => exact known here
  | copy here => exact known here
  | post here => exact known here
  | pollSend here => exact known here
  | pollRecv here => exact known here
  | reset here => exact known here
  | unlock here => exact known here
  | _ => exact ⟨calls, puts⟩

theorem Sided.writeStep (sided : s.Sided cfg) (step : WriteStep H cfg s ix t) : t.Sided cfg := by
  obtain ⟨calls, puts⟩ := move_upper step.move (sided.calls ix) (sided.puts ix)
  refine ⟨fun ix' n call there => ?_, fun ix' some => ?_, ?_, ?_⟩
  · by_cases same : ix' = ix
    · subst same
      exact calls n call there
    · exact sided.calls ix' n call (step.others ix' same ▸ there)
  · by_cases same : ix' = ix
    · subst same
      exact puts some
    · exact sided.puts ix' (step.others ix' same ▸ some)
  · rw [step.readQs]
    exact sided.gets
  · rw [step.readQs]
    exact sided.ops

theorem Laid.roomy_writeStep (laid : s.Laid bufferSize globalMr) (step : WriteStep H cfg s ix t)
    (roomy : t.server.Roomy) : s.server.Roomy := by
  obtain ⟨n, server, _⟩ := laid
  rcases step.posted with ⟨eq, _⟩ | ⟨eq, _⟩
  · rwa [eq] at roomy
  · rw [eq, server, Server.handOut_after] at roomy
    rw [server]
    exact roomy.mono (Nat.le_succ n)

theorem Sound.other_writeStep (sound : s.Sound cfg bufferSize globalMr) (roomy : s.server.Roomy)
    (step : WriteStep H cfg s ix t) {ix' : Client × Queue} (ne : ix' ≠ ix) :
    (s.writeQs ix').Ordered ix'.2 (s.slot ix'.1 ix'.2 0) t.mem := by
  have o := sound.ordered roomy ix'
  have move := step.move
  generalize t.mem = mem, t.writeQs ix = w at move ⊢
  cases move with
  | writeKeys first =>
    refine o.frame (fun _ i lt => load_write_apart
      _ _ (Range.Apart.of_inside ?_ (WriteQueue.inside_key lt)))
      fun b _ target posted i lt => read_write_apart
        _ _ (Range.Apart.of_inside ?_ (WriteQueue.inside_page lt))
    · refine sound.laid.slots_apart roomy (by decide) (by decide) (by decide) (by decide) fun eq =>
        ne ?_
      obtain ⟨first, second⟩ := Prod.mk.inj eq
      exact Prod.ext first (Prod.mk.inj second).1
    · exact (sound.laid.slot_apart_page roomy _ _ (by decide) posted).symm
  | sendPages first next =>
    refine o.frame (fun _ i lt => load_write_apart
      _ _ (Range.Apart.of_inside ?_ (WriteQueue.inside_key lt)))
      fun b _ target posted i lt => read_write_apart
        _ _ (Range.Apart.of_inside ?_ (WriteQueue.inside_page lt))
    · exact sound.laid.slot_apart_page roomy _ _ (by decide) next
    · exact sound.laid.pages_apart roomy (fun eq => ne (congrArg Prod.fst eq)) posted next
  | _ => exact o

theorem Sound.writeStep (sound : s.Sound cfg bufferSize globalMr) (step : WriteStep H cfg s ix t) :
    t.Sound cfg bufferSize globalMr := by
  have laid := sound.laid.writeStep step
  refine ⟨laid, fun ix' => ?_, sound.sided.writeStep step, fun roomy ix' => ?_⟩
  · by_cases same : ix' = ix
    · subst same
      exact (sound.exclusive ix').move step.move
    · rw [step.others ix' same]
      exact sound.exclusive ix'
  · have before := sound.laid.roomy_writeStep step roomy
    rw [sound.laid.slot_congr laid]
    by_cases same : ix' = ix
    · subst same
      exact (sound.ordered before ix').move (sound.exclusive ix') (sound.laid.placed before ix')
        step.move
    · rw [step.others ix' same]
      exact sound.other_writeStep before step same

theorem Sound.postRecv (sound : s.Sound cfg bufferSize globalMr) (ix : Client × Queue) :
    (s.postRecv ix).Sound cfg bufferSize globalMr := by
  have mine : (s.postRecv ix).writeQs ix =
      { s.writeQs ix with recvs := (s.writeQs ix).recvs ++ [s.server.savePage] } :=
        update_self ..
  have other : ∀ ix' ≠ ix, (s.postRecv ix).writeQs ix' = s.writeQs ix' :=
    fun ix' ne => update_of_ne ne ..
  have laid : (s.postRecv ix).Laid bufferSize globalMr :=
    sound.laid.append rfl (fun ix' ne => by rw [other ix' ne]) (by rw [mine])
  refine ⟨laid, fun ix' => ?_, ⟨fun ix' => ?_, fun ix' => ?_, sound.sided.gets, sound.sided.ops⟩,
    fun roomy ix' => ?_⟩
  · by_cases same : ix' = ix
    · rw [same, mine]
      exact ⟨(sound.exclusive ix).held, (sound.exclusive ix).counted⟩
    · rw [other ix' same]
      exact sound.exclusive ix'
  · by_cases same : ix' = ix
    · rw [same, mine]
      exact sound.sided.calls ix
    · rw [other ix' same]
      exact sound.sided.calls ix'
  · by_cases same : ix' = ix
    · rw [same, mine]
      exact sound.sided.puts ix
    · rw [other ix' same]
      exact sound.sided.puts ix'
  · have before : s.server.Roomy := by
      obtain ⟨n, server, _⟩ := sound.laid
      have roomy : s.server.handOut.Roomy := roomy
      rw [server, Server.handOut_after] at roomy
      rw [server]
      exact roomy.mono (Nat.le_succ n)
    rw [sound.laid.slot_congr laid]
    by_cases same : ix' = ix
    · rw [same, mine]
      exact (sound.ordered before ix).append _
    · rw [other ix' same]
      exact sound.ordered before ix'

theorem Sound.setUp (sound : s.Sound cfg bufferSize globalMr) (step : s.setUp ix = some t) :
    t.Sound cfg bufferSize globalMr := by
  unfold System.setUp at step
  split at step
  · cases step
    generalize (Server.Event.setUp ix.2).count = k
    induction k with
    | zero => exact sound
    | succ k ih =>
      rw [Function.iterate_succ_apply']
      exact ih.postRecv ix
  · cases step

theorem read_metadata {mem : Nat → Byte} {place a n : Nat} {x y z : BitVec 64}
    (apart : (Range.mk a n).Apart ⟨place, 24⟩) :
    read n (store (store (store mem place x) (place + 8) y) (place + 16) z) a = read n mem a := by
  have part : ∀ o ≤ 16, (Range.mk a n).Apart ⟨place + o, 8⟩ := by
    intro o le
    unfold Range.Apart at *
    dsimp only at *
    omega
  unfold store
  rw [read_write_apart _ _ (part 16 le_rfl), read_write_apart _ _ (part 8 (by decide))]
  exact read_write_apart mem _ (part 0 (Nat.zero_le _))

theorem move_lower {r r' : ReadQueue} {q : Queue} {slot : Nat → Nat → Nat}
    {find : Key → Option Value} {f : BloomFilter} {mem mem' : Nat → Byte}
    {frames frames' : BitVec 64 → Page} {P : Nat → Prop}
    (move : r.Move q slot find f mem frames mem' frames' r')
    (gets : ∀ n call, r.calls n = some call → P call.msgId) (ops : ∀ op ∈ r.wire, P op.msgId) :
    (∀ n call, r'.calls n = some call → P call.msgId) ∧ ∀ op ∈ r'.wire, P op.msgId := by
  have goto : ∀ {n : Nat} {call : GetCall} {pc : GetPc}, r.calls n = some call → ∀ n' call',
      update r.calls n (some { call with pc := pc }) n' = some call' → P call'.msgId := by
    intro n call pc here n' call' there
    by_cases same : n' = n
    · rw [same, update_self, Option.some_inj] at there
      rw [← there]
      exact gets n call here
    · rw [update_of_ne same] at there
      exact gets n' call' there
  have drop : ∀ {n : Nat}, ∀ n' call', update r.calls n none n' = some call' →
      P call'.msgId := by
    intro n n' call' there
    by_cases same : n' = n
    · rw [same, update_self] at there
      cases there
    · rw [update_of_ne same] at there
      exact gets n' call' there
  cases move with
  | pass here => exact ⟨goto here, ops⟩
  | miss here => exact ⟨drop, ops⟩
  | passed here => exact ⟨goto here, ops⟩
  | lock here => exact ⟨goto here, ops⟩
  | post here =>
    refine ⟨goto here, fun op mem => ?_⟩
    rcases List.mem_append.mp mem with old | new
    · exact ops op old
    · obtain rfl := List.mem_singleton.mp new
      exact gets _ _ here
  | pollSend here => exact ⟨goto here, ops⟩
  | pollRecv here => exact ⟨goto here, ops⟩
  | unlock here => exact ⟨goto here, ops⟩
  | out here => exact ⟨drop, ops⟩
  | request first =>
    exact ⟨gets, fun op mem => ops op (by rw [first]; exact List.mem_cons_of_mem _ mem)⟩
  | _ => exact ⟨gets, ops⟩

theorem Sided.readStep (sided : s.Sided cfg) (step : ReadStep H s ix t) : t.Sided cfg := by
  have lower := move_lower (P := fun mid => ix.2.val < cfg.numqueues / 2 ∧ mid < numEntry) step.move
    (sided.gets ix) (sided.ops ix)
  refine ⟨?_, ?_, fun ix' => ?_, fun ix' => ?_⟩
  · rw [step.writeQs]
    exact sided.calls
  · rw [step.writeQs]
    exact sided.puts
  · by_cases same : ix' = ix
    · rw [same]
      exact lower.1
    · rw [step.others ix' same]
      exact sided.gets ix'
  · by_cases same : ix' = ix
    · rw [same]
      exact lower.2
    · rw [step.others ix' same]
      exact sided.ops ix'

theorem Sound.readStep (sound : s.Sound cfg bufferSize globalMr) (step : ReadStep H s ix t) :
    t.Sound cfg bufferSize globalMr := by
  have laid : t.Laid bufferSize globalMr := sound.laid.congr step.server fun ix' => by
    rw [step.writeQs]
  refine ⟨laid, ?_, sound.sided.readStep step, fun roomy ix' => ?_⟩
  · rw [step.writeQs]
    exact sound.exclusive
  · rw [step.server] at roomy
    rw [sound.laid.slot_congr laid, step.writeQs]
    have o := sound.ordered roomy ix'
    have move := step.move
    generalize t.mem = mem, t.frames ix.1 = frames, t.readQs ix = r at move ⊢
    cases move with
    | @request op rest first =>
      obtain ⟨lower, small⟩ := sound.sided.ops ix op (by rw [first]; exact List.mem_cons_self ..)
      refine o.frame (fun some i lt => congrArg ofBytes
        (read_metadata (Range.Apart.of_inside ?_ (WriteQueue.inside_key lt))))
        fun b _ target posted i lt => read_metadata
          (Range.Apart.of_inside ?_ (WriteQueue.inside_page lt))
      · refine sound.laid.slots_apart roomy (by decide) small (by decide) (by decide) fun eq => ?_
        have upper := sound.sided.puts ix' some
        have same : ix'.2 = ix.2 := congrArg (fun p => p.2.1) eq
        rw [same] at upper
        omega
      · exact (sound.laid.slot_apart_page roomy _ _ small posted).symm
    | _ => exact o

theorem Sound.startGet {c : Client} {cpuid n : Nat} {key : Key} {raddr : BitVec 64}
    (sound : s.Sound cfg bufferSize globalMr) (few : cpuid < numEntry * (cfg.numqueues / 2))
    (step : s.startGet cfg c cpuid n key raddr = some t) : t.Sound cfg bufferSize globalMr := by
  unfold System.startGet at step
  dsimp only at step
  split at step
  · rename_i free
    cases step
    refine ⟨sound.laid.congr rfl fun _ => rfl, sound.exclusive,
      ⟨sound.sided.calls, sound.sided.puts, fun ix' n' call there => ?_, fun ix' op mem => ?_⟩,
        sound.ordered⟩
    · by_cases same : ix' = (c, cfg.readQueue cpuid)
      · subst same
        rw [setRead_readQs] at there
        dsimp only at there
        by_cases here : n' = n
        · rw [here, update_self, Option.some_inj] at there
          rw [← there]
          exact ⟨Nat.mod_lt _ (Nat.div_pos cfg.two_le (by decide)),
            msgId_lt le_rfl (r := .get cpuid) few⟩
        · rw [update_of_ne here] at there
          exact sound.sided.gets _ n' call there
      · rw [setRead_others _ same] at there
        exact sound.sided.gets ix' n' call there
    · by_cases same : ix' = (c, cfg.readQueue cpuid)
      · subst same
        rw [setRead_readQs] at mem
        exact sound.sided.ops _ op mem
      · rw [setRead_others _ same] at mem
        exact sound.sided.ops ix' op mem
  · cases step

theorem Sound.congr (sound : s.Sound cfg bufferSize globalMr) (server : t.server = s.server)
    (mem : t.mem = s.mem) (writeQs : t.writeQs = s.writeQs) (readQs : t.readQs = s.readQs) :
    t.Sound cfg bufferSize globalMr := by
  obtain ⟨server', mem', kv', writeQs', readQs', filters', frames', senders'⟩ := t
  dsimp only at server mem writeQs readQs
  subst server mem writeQs readQs
  exact ⟨sound.laid, sound.exclusive, ⟨sound.sided.calls, sound.sided.puts,
    sound.sided.gets, sound.sided.ops⟩, sound.ordered⟩

end

end System

def Event.cpuid : Event → Option Nat
  | .startPut _ cpuid _ _ _ | .startGet _ cpuid _ _ _ => some cpuid
  | _ => none

/-- No client has more cpus than its slots serve. -/
def Event.Few (cfg : Config) (e : Event) : Prop :=
  ∀ cpuid ∈ e.cpuid, cpuid < numEntry * (cfg.numqueues / 2)

instance (cfg : Config) (e : Event) : Decidable (e.Few cfg) :=
  inferInstanceAs (Decidable (∀ cpuid ∈ e.cpuid, cpuid < numEntry * (cfg.numqueues / 2)))

namespace System
variable {σ : Type} {H : IHash σ} {cfg : Config} {s t : System σ} {bufferSize globalMr : BitVec 64}

theorem Sound.step {e : Event} (sound : s.Sound cfg bufferSize globalMr) (few : e.Few cfg)
    (step : s.step H cfg e = some t) : t.Sound cfg bufferSize globalMr := by
  cases e with
  | setUp c q => exact sound.setUp step
  | startPut c cpuid n key page => exact sound.writeStep (H := H) (writeStep_startPut step)
  | put c q n => exact sound.writeStep (H := H) (writeStep_rdpmaPut step)
  | transmit c q => exact sound.writeStep (H := H) (writeStep_transmit step)
  | serveWrite c q => exact sound.writeStep (writeStep_serveWrite step)
  | startGet c cpuid n key raddr => exact sound.startGet (few cpuid rfl) step
  | get c q n => exact sound.readStep (H := H) (readStep_rdpmaGet step)
  | request c q => exact sound.readStep (H := H) (readStep_request step)
  | serveRead c q => exact sound.readStep (readStep_serveRead step)
  | reply c q => exact sound.readStep (H := H) (readStep_reply step)
  | send c =>
    obtain ⟨server, writeQs, readQs, mem, _, _⟩ := notifies_send step
    exact sound.congr server mem writeQs readQs

/-- The `BUG_ON` of the buffer is not reached. -/
def NoBug (s : System σ) : Prop := ∀ ix n call, (s.writeQs ix).calls n = some call → call.pc ≠ .bug

/-- The inserts of every write queue are the first of its puts, in their order, each with a page
that holds what was put. -/
def Batched (s : System σ) : Prop :=
  ∀ ix, (s.writeQs ix).inserts.map Prod.fst <+: (s.writeQs ix).puts.map Prod.fst ∧
    ∀ (n : Nat) (key : Key) (value : Value) (e : Key × Page), (s.writeQs ix).inserts[n]? =
      some (key, value) → (s.writeQs ix).puts[n]? = some e → read pageSize s.mem value.toNat = e.2

theorem Sound.noBug (sound : s.Sound cfg bufferSize globalMr) : s.NoBug := by
  intro ix n call here bug
  have count := (sound.exclusive ix).counted
  rw [((sound.exclusive ix).at_ here bug rfl).2] at count
  exact count

theorem Sound.batched (sound : s.Sound cfg bufferSize globalMr)
    (roomy : s.server.Roomy) : s.Batched := by
  intro ix
  have o := sound.ordered roomy ix
  constructor
  · refine List.prefix_iff_getElem?.mpr fun n lt => ?_
    rw [List.length_map] at lt
    obtain ⟨e, target, put, key, _⟩ := o.inserted n _ _ (List.getElem?_eq_getElem lt)
    rw [List.getElem?_map, put, List.getElem_map]
    exact congrArg some key
  · intro n key value e got put
    obtain ⟨e', target, put', _, posted, rfl⟩ := o.inserted n key value got
    cases put.symm.trans put'
    have lt : n % batchSize < batchSize := Nat.mod_lt _ (by decide)
    have arrived : n / batchSize < (s.writeQs ix).used :=
      Nat.div_lt_of_lt_mul ((List.getElem?_eq_some_iff.mp got).1.trans_le o.inserts_le)
    rw [sound.laid.page_toNat roomy posted lt]
    refine o.received _ arrived target posted _ lt e ?_
    rw [Nat.div_add_mod]
    exact put

theorem sound_of_run {mem : Nat → Byte} {kv : KV σ} {nrHash bitmapSize : Nat} {events : List Event}
    (few : ∀ e ∈ events, e.Few cfg)
    (final : Runs.run (step H cfg) (start bufferSize globalMr mem kv nrHash bitmapSize) events =
      some t) :
    t.Sound cfg bufferSize globalMr := by
  refine Runs.invariant (P := fun _ e => e.Few cfg) (sound_start mem kv nrHash bitmapSize)
    (fun _ _ _ sound few step => sound.step few step) (Runs.meets_of_forall few) final

/-- In every run the buffer of a queue has room for the page of a call, and as long as the pages
handed out end before the metadata, keys and pages stay together. -/
theorem batches_keep_pages (H : IHash σ) (cfg : Config) (bufferSize globalMr : BitVec 64)
    (mem : Nat → Byte) (kv : KV σ) (nrHash bitmapSize : Nat) (events : List Event)
    (few : ∀ e ∈ events, e.Few cfg)
    (final : Runs.run (step H cfg) (start bufferSize globalMr mem kv nrHash bitmapSize) events =
      some t) :
    t.NoBug ∧ (t.server.Roomy → t.Batched) :=
  have sound := sound_of_run few final
  ⟨sound.noBug, sound.batched⟩

/-- A table that keeps every key with the last value for it. -/
def perfectMap : IHash (Key → Value) where
  insert := fun map key value => some (update map key value, -1)
  get := fun map key => some (map key)

def eightQueues : Config := ⟨8, by decide, by decide⟩

def fresh (megabytes : BitVec 64) : System (Key → Value) :=
  start (megabytes <<< 20) 4096 (fun _ => 0) ⟨fun _ => noneValue, none⟩ 4 1000000000

def putSteps (c : Client) (cpuid : Nat) (key : Key) (page : Page) (steps : Nat) : List Event :=
  .startPut c cpuid 0 key page :: List.replicate steps (.put c (eightQueues.writeQueue cpuid) 0)

/-- The first client connects some queues, and cpu 1 puts four pages of zeros; the last call
waits. The server's thread inserts the first pair of the batch. -/
def batchRun (queues : List Queue) : List Event :=
  queues.map (.setUp 0) ++
    putSteps 0 1 1 (fun _ => 0) 13 ++ putSteps 0 1 2 (fun _ => 0) 13 ++
      putSteps 0 1 3 (fun _ => 0) 13 ++
    putSteps 0 1 4 (fun _ => 0) 13 ++ List.replicate 2 (.transmit 0 5) ++
      List.replicate 7 (.serveWrite 0 5)

theorem batches_keep_pages_four :
    ∃ t, Runs.run (step perfectMap eightQueues) (fresh 64) (batchRun [5]) = some t ∧
    (t.writeQs (0, 5)).inserts.map Prod.fst = [1] ∧ t.NoBug ∧ t.server.Roomy ∧ t.Batched := by
  have seen : (Runs.run (step perfectMap eightQueues) (fresh 64) (batchRun [5])).map (fun t =>
      ((t.writeQs (0, 5)).inserts.map Prod.fst, t.server.globalMr,
        t.server.bufferSize, t.server.pages.length)) =
      some (([1] : List Key), (4096 : BitVec 64), (64 <<< 20 : BitVec 64), 400) := by
    decide +kernel
  obtain ⟨t, final, eq⟩ := Option.map_eq_some_iff.mp seen
  simp only [Prod.mk.injEq] at eq
  obtain ⟨inserts, start, size, pages⟩ := eq
  have roomy : t.server.Roomy := Server.roomy_of_pages start size pages (by decide)
  obtain ⟨noBug, batched⟩ := batches_keep_pages perfectMap eightQueues (64 <<< 20) 4096 (fun _ => 0)
    ⟨fun _ => noneValue, none⟩ 4 1000000000 (batchRun [5]) (by decide) final
  exact ⟨t, final, inserts, noBug, roomy, batched roomy⟩

/-- With `-S 2` the pages of the batch cover the keys that were written for it, so that the first
pair is inserted under the key 0. -/
theorem pages_overwrite_keys : bufferSizeOption 2 = some (2 <<< 20) ∧
    (∀ e ∈ batchRun (List.finRange numQueues), e.Few eightQueues) ∧
    ∃ t, Runs.run (step perfectMap eightQueues) (fresh 2) (batchRun (List.finRange numQueues)) =
      some t ∧
      ¬ t.Batched := by
  have seen : (Runs.run (step perfectMap eightQueues) (fresh 2)
    (batchRun (List.finRange numQueues))).map (fun t =>
      ((t.writeQs (0, 5)).inserts.map Prod.fst, (t.writeQs (0, 5)).puts.map Prod.fst)) =
      some ([0], [1, 2, 3, 4]) := by
    decide +kernel
  obtain ⟨t, final, eq⟩ := Option.map_eq_some_iff.mp seen
  refine ⟨by decide, by decide, t, final, fun batched => ?_⟩
  have in_order := (batched (0, 5)).1
  rw [(Prod.mk.inj eq).1, (Prod.mk.inj eq).2] at in_order
  exact absurd in_order (by decide)

end System

end Xcache.Remote
