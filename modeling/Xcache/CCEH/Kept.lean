import Xcache.CCEH.Slots
import Xcache.CCEH.Split

/-! Pairs under concurrent `Insert` calls. When `Insert` has returned, its pair lies in the
segment that the directory has for the key, and it follows the key from segment to segment
while other threads split them. So a `Get` that starts later and reads its entry at the
depth it has read does not miss the key. -/

namespace Xcache.CCEH
open SuspendLock (LockPc UnlockPc SuspendPc Out)
open SplitDirectory (Status Dir)
open Blocks (top doubled)

/-- The half that a key goes to when the thread has split its target. -/
def Thread.half (h : Key → BitVec 64) (tab : Table) (l : Thread) (key : Key) : Nat :=
  if splitBit (tab.level l.target) (h key) then l.s1 else l.s0

def Pc.copied : Pc → Bool
  | .compareDepth | .toDirSuspend | .dirSuspend _ | .publish | .toDirLock | .dirLock _ | .readStores
  | .store .. => true
  | _ => false

/-- The target has been checked against the directory, and the thread holds its lock. -/
def Pc.probing : Pc → Bool
  | .probeRead _ | .probeTest .. | .probeCas .. | .storeValue _ | .storeKey _
  | .segUnlock _ .done => true
  | _ => false

def Pc.round : Pc → Option Nat
  | .probeTest i _ | .probeCas i _ | .storeValue i | .storeKey i => some i
  | _ => none

theorem Pc.afterWait_of_copied {pc : Pc} (copied : pc.copied = true) :
    pc.afterWait = true ∧ pc.storesSlot = false := by
  cases pc <;> first | exact ⟨rfl, rfl⟩ | cases copied

theorem Pc.inside_of_probing {pc : Pc} (probing : pc.probing = true) : pc.inside = true := by
  cases pc <;> first | rfl | cases probing

/-- The bit that a split tests is the bit of the index that decides the half. -/
theorem half_of_index {level depth : Nat} (below : level < depth) (pos : 1 ≤ depth)
    (le : depth ≤ 64) (hash : BitVec 64) (lo hi : Nat) :
    (if index depth hash / 2 ^ (depth - level - 1) % 2 = 0 then lo else hi) =
      if splitBit level hash then hi else lo := by
  have bit := splitBit_iff (show level < 64 by omega) hash
  have lead : index depth hash / 2 ^ (depth - level - 1) = hash.toNat / 2 ^ (64 - level - 1) := by
    rw [index_eq pos le, Nat.sub_sub, Blocks.top_div below le, top, Nat.sub_sub]
  rw [lead]
  split
  · rw [if_neg]
    rw [bit]
    omega
  · rw [if_pos]
    rw [bit]
    omega

section
variable {h : Key → BitVec 64} {tab : Table} {l : Thread}

theorem act_store_of_entry {j a : Nat} (stores : (act h tab l).1 = .entry j a) :
    ∃ b rest, l.pc = .store b ((j, a) :: rest) := by
  unfold act at stores
  split at stores <;> (try split at stores) <;> (try split at stores) <;>
    first
    | contradiction
    | (cases stores; exact ⟨_, _, ‹_›⟩)
    | (rcases Thread.run_effect .. with none | ⟨v, eq⟩
       · cases none.symm.trans stores
       · cases eq.symm.trans stores)

theorem act_copied (copied : (act h tab l).2.pc.copied = true) :
    l.pc = .split ∨ l.pc.copied = true := by
  have flow := act_flow h tab l
  generalize l.pc = pc, (act h tab l).2.pc = pc' at flow copied ⊢
  cases flow <;> first | exact Or.inr rfl | exact Or.inl rfl | cases copied

theorem act_probing (probing : (act h tab l).2.pc.probing = true) :
    l.pc = .checkDepth ∧ l.depth = tab.cur.depth ∨ l.pc.probing = true := by
  have flow := act_flow h tab l
  generalize l.pc = pc, (act h tab l).2.pc = pc' at flow probing ⊢
  cases flow with
  | depthSame same => exact Or.inl ⟨rfl, same⟩
  | unlocking c c' next => cases next <;> first | exact Or.inr rfl | cases probing
  | _ => first | exact Or.inr rfl | cases probing

theorem act_checkDepth (checks : (act h tab l).2.pc = .checkDepth) :
    l.pc = .checkEntry ∧ l.target = tab.cur.entries l.x := by
  have flow := act_flow h tab l
  rw [checks] at flow
  generalize l.pc = pc at flow
  cases flow with
  | entrySame same => exact ⟨rfl, same⟩

theorem act_round {i : Nat} (round : (act h tab l).2.pc.round = some i) :
    i < kNumPairPerCacheLine * kNumCacheLine ∨ l.pc.round = some i := by
  have flow := act_flow h tab l
  generalize l.pc = pc, (act h tab l).2.pc = pc' at flow round ⊢
  cases flow with
  | probe j lt =>
    cases round
    exact Or.inl lt
  | _ => first | exact Or.inr round | cases round

theorem act_done {c : UnlockPc} (done : (act h tab l).2.pc = .segUnlock c .done) :
    (∃ i, l.pc = .storeKey i) ∨ ∃ c', l.pc = .segUnlock c' .done := by
  have flow := act_flow h tab l
  rw [done] at flow
  generalize l.pc = pc at flow
  cases flow with
  | storeKey i => exact Or.inl ⟨i, rfl⟩
  | unlocking c' => exact Or.inr ⟨c', rfl⟩

/-- A pair of the key lies in the segment that the directory has for it. -/
def Table.Holds (h : Key → BitVec 64) (tab : Table) (key : Key) (value : Value) : Prop :=
  ∃ j ∈ windowSlots (window (h key)), tab.pair (tab.target h key, j) = ⟨key, some value⟩

/-- What a thread has checked is still so. -/
structure Thread.Current (h : Key → BitVec 64) (tab : Table) (l : Thread) : Prop where
  round : ∀ i, l.pc.round = some i → i < kNumPairPerCacheLine * kNumCacheLine
  checking : l.pc = .checkDepth → l.depth = tab.cur.depth → tab.target h l.key = l.target
  probing : l.pc.probing = true → tab.target h l.key = l.target

/-- Every pair of a target that has been split is in the half of its key. -/
def Thread.Covered (h : Key → BitVec 64) (tab : Table) (l : Thread) : Prop :=
  l.pc.copied = true → ∀ i, (tab.pair (l.target, i)).Full →
    ∃ j ∈ windowSlots (window (h (tab.pair (l.target, i)).key)),
      tab.pair (l.half h tab (tab.pair (l.target, i)).key, j) = tab.pair (l.target, i)

end

namespace State
variable {T : Type} [DecidableEq T] {h : Key → BitVec 64} {s : State T} {t : T} {g : Naming}

section
variable [Fintype T]

/-- The thread's next store gives the entry its half. -/
theorem Consistent.store_half (con : Consistent h s g) {b : Bool} {j a : Nat}
    {rest : List (Nat × Nat)} (pc : (s.threads t).pc = .store b ((j, a) :: rest)) {k : Key}
    (here : index s.table.cur.depth (h k) = j) :
    a = (s.threads t).half h s.table k := by
  have depth := con.locks.depth_le
  obtain ⟨d, inv, same, level, status⟩ : ∃ d : Dir Nat T, d.Inv ∧ d.depth = s.table.cur.depth ∧
      d.level = s.table.level ∧ d.status t =
        .storing (s.threads t).target (s.threads t).s0 (s.threads t).s1 ((j, a) :: rest) := by
    cases b with
    | false => exact ⟨_, con.begun pc, rfl, rfl, Function.update_self ..⟩
    | true => exact ⟨_, con.inv, rfl, rfl, Thread.status_of pc⟩
  have storing := inv.storing t _ _ _ _ status
  have below : s.table.level (s.threads t).target < s.table.cur.depth := by
    have le := inv.level_le _ storing.pub_lo
    rw [storing.halves.level_lo, same, level] at le
    exact le
  rw [(storing.child j a List.mem_cons_self).2, Thread.half,
    ← half_of_index below con.locks.depth_pos (by omega), here, Dir.child, same, level]

omit [DecidableEq T] in
/-- The index of a thread that publishes a directory for a target of full depth is the
entry of its target. -/
theorem Consistent.publish_entry (con : Consistent h s g) (pc : (s.threads t).pc = .publish)
    (full : s.table.level (s.threads t).target = s.table.cur.depth) :
    s.table.cur.entries (s.threads t).x = (s.threads t).target := by
  rw [con.publish_x pc full]
  exact (con.inv.entry_of_claim (Thread.status_of pc) full (con.nobody_storing pc)).2

/-- A step leaves a key where it is, or moves it from the thread's target to its half. -/
def Moves (h : Key → BitVec 64) (s : State T) (t : T) (k : Key) : Prop :=
  (s.tick h t).table.target h k = s.table.target h k ∨
    s.table.target h k = (s.threads t).target ∧ (s.threads t).pc.copied = true ∧
      (s.tick h t).table.target h k = (s.threads t).half h s.table k

theorem Consistent.moves_publish (con : Consistent h s g) (tidy : s.Tidy t) {x s0 s1 : Nat}
    (published : (act h s.table (s.threads t)).1 = .publish x s0 s1) (k : Key) : s.Moves h t k := by
  obtain ⟨pc, _, rfl, rfl, rfl⟩ := act_publish published
  have depth := con.locks.depth_le
  have pos := con.locks.depth_pos
  have full : s.table.level (s.threads t).target = s.table.cur.depth := tidy.publish pc
  have below : index (s.table.cur.depth + 1) (h k) < 2 * s.table.cur.capacity := by
    rw [con.locks.capacity, ← pow_succ']
    exact index_lt (Nat.le_add_left ..) (by omega) (h k)
  have parent : index (s.table.cur.depth + 1) (h k) / 2 = index s.table.cur.depth (h k) := by
    have up := Blocks.top_div (w := 64) (x := (h k).toNat) (Nat.le_succ s.table.cur.depth)
      (by omega)
    rwa [Nat.succ_eq_add_one, Nat.add_sub_cancel_left, pow_one,
      ← index_eq (Nat.le_add_left ..) (by omega), ← index_eq pos (by omega)] at up
  have target : (s.tick h t).table.target h k = doubled s.table.cur.entries (s.threads t).x
    (s.threads t).s0 (s.threads t).s1 (index (s.table.cur.depth + 1) (h k)) := by
    show ((act h s.table (s.threads t)).1.apply h s.table).target h k = _
    rw [published]
    show (s.table.publish ..).target h k = _
    rw [Table.target, Table.publish_cur]
    exact writeAll_doublingStores _ _ below
  rw [doubled, parent] at target
  split at target
  · rename_i here
    refine Or.inr ⟨?_, by rw [pc]; rfl, ?_⟩
    · rw [Table.target, here]
      exact con.publish_entry pc full
    · have bit :=
        half_of_index (Nat.lt_succ_self s.table.cur.depth) (Nat.le_add_left ..) (by omega) (h k)
        (s.threads t).s0 (s.threads t).s1
      rw [Nat.succ_eq_add_one, Nat.add_sub_cancel_left, Nat.sub_self, pow_zero, Nat.div_one] at bit
      rw [target, bit, Thread.half, full]
  · exact Or.inl target

theorem Consistent.moves (con : Consistent h s g) (tidy : s.Tidy t) (k : Key) : s.Moves h t k := by
  by_cases publishes : ∃ x s0 s1, (act h s.table (s.threads t)).1 = .publish x s0 s1
  · obtain ⟨x, s0, s1, published⟩ := publishes
    exact con.moves_publish tidy published k
  · have depth : (s.tick h t).table.cur.depth = s.table.cur.depth :=
      (Effect.dir_apply fun x s0 s1 eq => publishes ⟨x, s0, s1, eq⟩).2.2.1
    unfold Moves
    rw [Table.target, depth]
    by_cases stores : ∃ j a, (act h s.table (s.threads t)).1 = .entry j a
    · obtain ⟨j, a, stored⟩ := stores
      obtain ⟨b, rest, pc⟩ := act_store_of_entry stored
      have entries : (s.tick h t).table.cur.entries = Function.update s.table.cur.entries j a := by
        show ((act h s.table (s.threads t)).1.apply h s.table).cur.entries = _
        rw [stored]
        exact congrArg Directory.entries (s.table.setEntry_cur j a)
      rw [entries, Function.update_apply]
      split
      · rename_i here
        refine Or.inr ⟨?_, by rw [pc]; rfl, con.store_half pc here⟩
        rw [Table.target, here]
        exact tidy.store _ _ _ _ pc
      · exact Or.inl rfl
    · rcases (act h s.table (s.threads t)).1.entries_apply (index s.table.cur.depth (h k)) with
        same | ⟨j, a, stored, _⟩ | ⟨x, s0, s1, published, _⟩
      · exact Or.inl same
      · exact absurd ⟨j, a, stored⟩ stores
      · exact absurd ⟨x, s0, s1, published⟩ publishes

/-- The slots of a segment whose holders have left do not change. -/
theorem pair_tick_drained (acc : s.Accounted) {u : T} (after : (s.threads u).pc.afterWait = true)
    (t : T) (i : Fin kNumSlot) :
    (s.tick h t).table.pair ((s.threads u).target, i) = s.table.pair ((s.threads u).target, i) := by
  have empty := (acc.drained u after).2
  have away : (s.threads t).pc.inside = true → (s.threads u).target ≠ (s.threads t).target := by
    intro inside same
    have mem : t ∈ s.insideOf (s.threads u).target := by
      rw [mem_insideOf, Thread.inside, if_pos inside, same]
    rw [empty] at mem
    exact absurd mem (Finset.notMem_empty t)
  rcases act_slots h s.table (s.threads t) with
    ⟨j, k, pc, _, step⟩ | ⟨j, pc, step⟩ | ⟨j, pc, step⟩ | ⟨other, _⟩
  · rw [tick_slot step]
    exact Function.update_of_ne (fun eq => away (by rw [pc]; rfl) (congrArg Prod.fst eq)) ..
  · rw [tick_slot step]
    exact Function.update_of_ne (fun eq => away (by rw [pc]; rfl) (congrArg Prod.fst eq)) ..
  · rw [tick_slot step]
    exact Function.update_of_ne (fun eq => away (by rw [pc]; rfl) (congrArg Prod.fst eq)) ..
  · exact tick_pair other (acc.alloc.threads u).target

/-- The steps that the pairs survive: tidy ones, with no retry of `Get`, no entry read for
a depth that is no longer current, and no pair dropped by a split. -/
structure Safe (h : Key → BitVec 64) (s : State T) (t : T) : Prop extends s.Tidy t where
  check : (s.threads t).pc = .getCheck → (s.threads t).target = s.table.cur.entries (s.threads t).x
  depth : (s.threads t).pc = .getEntry → (s.threads t).depth = s.table.cur.depth
  split : (s.threads t).pc = .split → ∀ i, ((s.table.segs (s.threads t).target).slots i).Live →
    ¬ Segment.Dropped h (s.table.segs (s.threads t).target) i

/-- Where the pairs are between the steps of any number of calls. -/
structure Intact (h : Key → BitVec 64) (s : State T) : Prop where
  consistent : ∃ g, Consistent h s g
  accounted : s.Accounted
  slotted : s.Slotted h
  current : ∀ t, (s.threads t).Current h s.table
  covered : ∀ t, (s.threads t).Covered h s.table

theorem Intact.holds_tick (intact : s.Intact h) (safe : s.Safe h t) {k : Key} {v : Value}
    (valid : k ≠ invalidKey ∧ k ≠ sentinelKey) (holds : s.table.Holds h k v) :
    (s.tick h t).table.Holds h k v := by
  obtain ⟨g, con⟩ := intact.consistent
  obtain ⟨j, mem, pair⟩ := holds
  have full : (s.table.pair (s.table.target h k, j)).Full := by
    rw [pair]
    exact ⟨valid.1, valid.2⟩
  rcases con.moves safe.toTidy k with same | ⟨here, copied, moved⟩
  · refine ⟨j, mem, ?_⟩
    rw [same, intact.slotted.full_tick t (con.alloc.table.entries _) full, pair]
  · rw [here] at full pair
    obtain ⟨j', mem', copy⟩ := intact.covered t copied j full
    rw [pair] at mem' copy
    have old : (s.threads t).half h s.table k < s.table.nseg := by
      unfold Thread.half
      split
      · exact (con.alloc.threads t).s1
      · exact (con.alloc.threads t).s0
    refine ⟨j', mem', ?_⟩
    rw [moved, intact.slotted.full_tick t old (by rw [copy]; exact ⟨valid.1, valid.2⟩), copy]

/-- A thread inside its segment keeps the entry that it has checked. -/
theorem Intact.target_stays (intact : s.Intact h) (safe : s.Safe h t) {u : T}
    (inside : (s.threads u).pc.inside = true) {k : Key}
    (here : s.table.target h k = (s.threads u).target) :
    (s.tick h t).table.target h k = (s.threads u).target := by
  obtain ⟨g, con⟩ := intact.consistent
  rcases con.moves safe.toTidy k with same | ⟨there, copied, _⟩
  · exact same.trans here
  · have empty := (intact.accounted.drained t (Pc.afterWait_of_copied copied).1).2
    have mem : u ∈ s.insideOf (s.threads t).target := by
      rw [mem_insideOf, Thread.inside, if_pos inside, ← here, there]
    rw [empty] at mem
    exact absurd mem (Finset.notMem_empty u)

theorem Intact.current_tick (intact : s.Intact h) (safe : s.Safe h t) :
    ∀ u, ((s.tick h t).threads u).Current h (s.tick h t).table := by
  obtain ⟨g, con⟩ := intact.consistent
  obtain ⟨g', moved⟩ := con.simulated safe.toTidy
  refine (Function.forall_update_iff s.threads fun _ l => l.Current h (s.tick h t).table).mpr
    ⟨?_, ?_⟩
  · have mine := intact.current t
    constructor
    · intro i round
      rcases act_round round with lt | before
      · exact lt
      · exact mine.round i before
    · intro checks current
      obtain ⟨pc, same⟩ := act_checkDepth checks
      obtain ⟨x, _, le⟩ := (con.facts t).indexed (by rw [pc]; rfl)
      have depth : (s.threads t).depth = s.table.cur.depth := by
        rcases act_depth h s.table (s.threads t) with eq | eq | eq
        · exact le_antisymm le (moved.ext.depth.trans_eq (current.symm.trans eq))
        · cases checks.symm.trans eq
        · cases checks.symm.trans eq
      rw [act_key, act_target_stays (by rw [pc]; rfl)]
      refine intact.target_stays safe (by rw [pc]; rfl) ?_
      rw [Table.target, ← depth, ← x, same]
    · intro probing
      rw [act_key]
      rcases act_probing probing with ⟨pc, depth⟩ | before
      · rw [act_target_stays (by rw [pc]; rfl)]
        exact intact.target_stays safe (by rw [pc]; rfl) (mine.checking pc depth)
      · rw [act_target_stays (Pc.stays_of_inside (Pc.inside_of_probing before))]
        exact intact.target_stays safe (Pc.inside_of_probing before) (mine.probing before)
  · intro u _
    have theirs := intact.current u
    refine ⟨theirs.round, fun checks current => ?_, fun probing => ?_⟩
    · have le := ((con.facts u).indexed (by rw [checks]; rfl)).2.2
      exact intact.target_stays safe (by rw [checks]; rfl)
        (theirs.checking checks (le_antisymm le (moved.ext.depth.trans_eq current.symm)))
    · exact intact.target_stays safe (Pc.inside_of_probing probing) (theirs.probing probing)

theorem Intact.covered_split (intact : s.Intact h) (safe : s.Safe h t)
    (pc : (s.threads t).pc = .split) :
    (act h s.table (s.threads t)).2.Covered h (s.tick h t).table := by
  have step : act h s.table (s.threads t) = (.split (s.threads t).target, { s.threads t with
      s0 := s.table.nseg, s1 := s.table.nseg + 1, pc := .compareDepth }) := by
    simp only [act, pc]
  have table := tick_split (s := s) (t := t) (h := h) (by rw [step])
  have old := (intact.accounted.alloc.threads t).target
  rw [step]
  intro _ i full
  have same := pair_tick_drained (h := h) intact.accounted (u := t) (by rw [pc]; rfl) t i
  rw [same] at full ⊢
  obtain ⟨j, mem, copy⟩ := Segment.stored_of_not_dropped full.live (safe.split pc i full.live)
  have level : (s.tick h t).table.level (s.threads t).target =
      s.table.level (s.threads t).target := by
    rw [table]
    exact congrArg Segment.localDepth (s.table.allocHalves_old _ old)
  refine ⟨j, mem, ?_⟩
  show (s.tick h t).table.pair (if splitBit ((s.tick h t).table.level (s.threads t).target)
    _ then _ else _, j) = _
  rw [level, table]
  generalize bit : splitBit (s.table.level (s.threads t).target) _ = b
  have side : Segment.bitOf h (s.table.segs (s.threads t).target) i = b := bit
  rw [side] at copy
  cases b with
  | true => exact (congrArg (fun seg => seg.slots j) (s.table.allocHalves_high _)).trans copy
  | false => exact (congrArg (fun seg => seg.slots j) (s.table.allocHalves_low _)).trans copy

theorem Intact.covered_stays (intact : s.Intact h) (safe : s.Safe h t) {u : T} {l : Thread}
    (copied : (s.threads u).pc.copied = true) (target : l.target = (s.threads u).target)
    (s0 : l.s0 = (s.threads u).s0) (s1 : l.s1 = (s.threads u).s1) :
    l.Covered h (s.tick h t).table := by
  obtain ⟨g, con⟩ := intact.consistent
  obtain ⟨g', moved⟩ := con.simulated safe.toTidy
  have alloc := con.alloc.threads u
  have half : l.half h (s.tick h t).table = (s.threads u).half h s.table := by
    funext k
    rw [Thread.half, Thread.half, target, s0, s1, moved.ext.level _ alloc.target]
  have same := pair_tick_drained (h := h) intact.accounted (Pc.afterWait_of_copied copied).1 t
  intro _ i full
  rw [half]
  rw [target, same] at full ⊢
  obtain ⟨j, mem, copy⟩ := intact.covered u copied i full
  refine ⟨j, mem, ?_⟩
  rw [intact.slotted.full_tick t ?_ (by rw [copy]; exact full), copy]
  unfold Thread.half
  split
  · exact alloc.s1
  · exact alloc.s0

theorem Intact.covered_tick (intact : s.Intact h) (safe : s.Safe h t) :
    ∀ u, ((s.tick h t).threads u).Covered h (s.tick h t).table := by
  refine (Function.forall_update_iff s.threads fun _ l => l.Covered h (s.tick h t).table).mpr
    ⟨?_, ?_⟩
  · intro copied
    rcases act_copied copied with pc | before
    · exact intact.covered_split safe pc copied
    · obtain ⟨s0, s1⟩ : (act h s.table (s.threads t)).2.s0 = (s.threads t).s0 ∧
          (act h s.table (s.threads t)).2.s1 = (s.threads t).s1 := by
        rcases act_halves h s.table (s.threads t) with same | ⟨pc, _⟩
        · exact same
        · rw [pc] at before
          cases before
      have stays := (Pc.stays_of_afterWait (Pc.afterWait_of_copied before).1).1
      exact intact.covered_stays safe before (act_target_stays stays) s0 s1 copied
  · intro u _ copied
    exact intact.covered_stays safe copied rfl rfl rfl copied

theorem Intact.tick (intact : s.Intact h) (safe : s.Safe h t) : (s.tick h t).Intact h := by
  obtain ⟨g, con⟩ := intact.consistent
  exact ⟨con.tick safe.toTidy, intact.accounted.tick t safe.check,
    intact.slotted.tick con intact.accounted t, intact.current_tick safe, intact.covered_tick safe⟩

theorem Intact.call (intact : s.Intact h) (idle : (s.threads t).pc = .idle) {start : Pc} {key : Key}
    (value : Value) (fresh : start = .readDepth ∨ start = .getSpin)
    (valid : start = .readDepth → key ≠ invalidKey ∧ key ≠ sentinelKey) :
    (s.call t start key value).Intact h := by
  obtain ⟨g, con⟩ := intact.consistent
  refine ⟨⟨g, con.call idle key value fresh⟩, intact.accounted.call idle key value fresh,
    intact.slotted.call idle value fresh valid, ?_, ?_⟩
  · refine (Function.forall_update_iff s.threads fun _ l => l.Current h s.table).mpr
      ⟨?_, fun u _ => intact.current u⟩
    rcases fresh with rfl | rfl <;> exact ⟨nofun, nofun, nofun⟩
  · refine (Function.forall_update_iff s.threads fun _ l => l.Covered h s.table).mpr
      ⟨?_, fun u _ => intact.covered u⟩
    rcases fresh with rfl | rfl <;> exact nofun

omit [DecidableEq T] in
theorem intact_initial {depth : Nat} {tab : Table} (pos : 1 ≤ depth)
    (made : Table.construct depth = some tab) :
    (initial T tab).Intact h :=
  ⟨⟨_, consistent_initial pos made⟩, accounted_initial made, slotted_initial pos made,
    fun _ => ⟨nofun, nofun, nofun⟩, fun _ => nofun⟩

end

end State

end Xcache.CCEH
