import Xcache.CCEH.Consistency
import Xcache.CCEH.LockAccounting
import Xcache.Lib.CellClaims

/-! The slots of the segments while any number of threads insert. An `Insert` takes a free
slot with its compare-and-swap, stores the value and then the key. Until then the slot is
its own, and from then on the slot never changes. -/

namespace Xcache
open Function

/-- The slot holds a pair that `Get` can find. -/
structure Pair.Full (p : Pair) : Prop where
  live : p.Live
  settled : p.key ≠ sentinelKey

namespace CCEH
open SuspendLock (LockPc UnlockPc SuspendPc Out)
open CellClaims (Claimed)
open Blocks (top)

/-- The slot `i` of segment `a`. -/
def Table.pair (tab : Table) (q : Nat × Fin kNumSlot) : Pair := (tab.segs q.1).slots q.2

/-- The rounds of the probe loop that store to a slot. -/
def Pc.storesSlot : Pc → Bool
  | .probeCas .. | .storeValue _ | .storeKey _ => true
  | _ => false

/-- The round of the probe loop whose slot the thread has taken. -/
def Pc.taking : Pc → Option Nat
  | .storeValue i | .storeKey i => some i
  | _ => none

def Thread.taken (h : Key → BitVec 64) (l : Thread) : Option (Nat × Fin kNumSlot) :=
  l.pc.taking.map fun i => (l.target, l.slot h i)

def Pc.inserting : Pc → Bool
  | .idle | .getSpin | .getDepth | .getEntry | .getCheck | .getUnlock _ | .getProbe _
  | .getValue _ => false
  | _ => true

theorem Pc.taking_of_not_stores {pc : Pc} (away : pc.storesSlot = false) : pc.taking = none := by
  cases pc <;> first | rfl | cases away

section
variable {h : Key → BitVec 64} {tab : Table} {l : Thread}

@[simp] theorem Thread.goto_value (pc : Pc) : (l.goto pc).value = l.value := rfl

theorem act_value (h : Key → BitVec 64) (tab : Table) (l : Thread) :
    (act h tab l).2.value = l.value := by
  unfold act
  split <;> (try split) <;> (try split) <;>
    first
    | rfl
    | rw [Thread.run_snd, Thread.goto_value]

theorem act_inserting (inserting : (act h tab l).2.pc.inserting = true) :
    l.pc.inserting = true := by
  have flow := act_flow h tab l
  generalize l.pc = pc, (act h tab l).2.pc = pc' at flow inserting ⊢
  cases flow <;> first | rfl | cases inserting

theorem act_storesSlot {a : Nat} {i : Fin kNumSlot} {p : Pair}
    (stored : (act h tab l).1 = .slot a i p) :
    l.pc.storesSlot = true := by
  unfold act at stored
  split at stored <;> (try split at stored) <;> (try split at stored) <;>
    first
    | contradiction
    | (rw [‹l.pc = _›]; rfl)
    | (rcases Thread.run_effect .. with none | ⟨v, eq⟩
       · cases none.symm.trans stored
       · cases eq.symm.trans stored)

theorem act_taking {i : Nat} (taking : (act h tab l).2.pc.taking = some i) :
    l.pc.storesSlot = true := by
  have flow := act_flow h tab l
  generalize l.pc = pc, (act h tab l).2.pc = pc' at flow taking ⊢
  cases flow <;> first | rfl | cases taking

theorem act_slots (h : Key → BitVec 64) (tab : Table) (l : Thread) :
    (∃ i seen, l.pc = .probeCas i seen ∧ (tab.pair (l.target, l.slot h i)).key = seen ∧
      act h tab l = (.slot l.target (l.slot h i) ⟨sentinelKey,
        (tab.pair (l.target, l.slot h i)).value⟩,
        l.goto (.storeValue i))) ∨
    (∃ i, l.pc = .storeValue i ∧
      act h tab l = (.slot l.target (l.slot h i) ⟨(tab.pair (l.target, l.slot h i)).key,
        some l.value⟩,
        l.goto (.storeKey i))) ∨
    (∃ i, l.pc = .storeKey i ∧
      act h tab l = (.slot l.target (l.slot h i) ⟨l.key, (tab.pair (l.target, l.slot h i)).value⟩,
        l.goto (.segUnlock .load .done))) ∨
    (∀ a i p, (act h tab l).1 ≠ .slot a i p) ∧ l.taken h = none ∧
      (act h tab l).2.taken h = none := by
  by_cases stores : l.pc.storesSlot = true
  · generalize pc : l.pc = p at stores
    cases p with
    | probeCas i seen =>
      by_cases found : (tab.pair (l.target, l.slot h i)).key = seen
      · refine Or.inl ⟨i, seen, rfl, found, ?_⟩
        simp only [act, pc]
        exact if_pos found
      · have step : act h tab l = (.none, l.goto (.probeRead (i + 1))) := by
          simp only [act, pc]
          exact if_neg found
        refine Or.inr (Or.inr (Or.inr ?_))
        rw [step, Thread.taken, pc]
        exact ⟨nofun, rfl, rfl⟩
    | storeValue i => exact Or.inr (Or.inl ⟨i, rfl, by simp only [act, pc]; rfl⟩)
    | storeKey i => exact Or.inr (Or.inr (Or.inl ⟨i, rfl, by simp only [act, pc]; rfl⟩))
    | _ => cases stores
  · refine Or.inr (Or.inr (Or.inr ⟨fun a i p stored => stores (act_storesSlot stored), ?_, ?_⟩))
    · rw [Thread.taken, Pc.taking_of_not_stores (Bool.eq_false_iff.mpr stores)]
      rfl
    · rw [Thread.taken]
      cases taking : (act h tab l).2.pc.taking with
      | none => rfl
      | some i => exact absurd (act_taking taking) stores

/-- The key that a probe round compares with is the one it has just read. -/
theorem act_probeTest {i : Nat} {seen : Key} (reads : (act h tab l).2.pc = .probeTest i seen) :
    l.pc = .probeRead i ∧ seen = (tab.pair (l.target, l.slot h i)).key := by
  have flow := act_flow h tab l
  rw [reads] at flow
  generalize l.pc = pc at flow
  cases flow
  exact ⟨rfl, rfl⟩

theorem act_probeCas {i : Nat} {seen : Key} (tested : (act h tab l).2.pc = .probeCas i seen) :
    l.pc = .probeTest i seen ∧ (tab.segs l.target).Usable h
      (patternOf l.depth (tab.segs l.target).localDepth l.x) (l.slot h i) := by
  have flow := act_flow h tab l
  rw [tested] at flow
  generalize l.pc = pc at flow
  cases flow with
  | usable _ _ usable => exact ⟨rfl, usable⟩

theorem Effect.pair_apply {e : Effect} (other : ∀ a i p, e ≠ .slot a i p) {q : Nat × Fin kNumSlot}
    (old : q.1 < tab.nseg) : (e.apply h tab).pair q = tab.pair q := by
  cases e with
  | slot a i p => exact absurd rfl (other a i p)
  | sema a v =>
    show (update tab.segs a _ q.1).slots q.2 = _
    by_cases here : q.1 = a
    · rw [here, update_self]
      exact (congrArg (fun b => (tab.segs b).slots q.2) here).symm
    · rw [update_of_ne here]
      rfl
  | split a => exact congrArg (fun s => s.slots q.2) (tab.allocHalves_old _ old)
  | _ => rfl

theorem Effect.slot_apply (a : Nat) (i : Fin kNumSlot) (p : Pair) :
    ((Effect.slot a i p).apply h tab).pair = update tab.pair (a, i) p := by
  funext q
  show (update tab.segs a _ q.1).slots q.2 = _
  by_cases here : q.1 = a
  · rw [here, update_self, Segment.set_slots]
    by_cases same : q.2 = i
    · rw [same, update_self, show q = (a, i) from Prod.ext here same, update_self]
    · rw [update_of_ne same, update_of_ne fun eq => same (congrArg Prod.snd eq),
        Table.pair, here]
  · rw [update_of_ne here, update_of_ne fun eq => here (congrArg Prod.fst eq)]
    rfl

theorem act_slotOf (i : Nat) : (act h tab l).2.slot h i = l.slot h i := by
  rw [Thread.slot, Thread.slot, act_key]

theorem Thread.inside_of_taken {q : Nat × Fin kNumSlot} (taken : l.taken h = some q) :
    l.inside = some q.1 := by
  unfold Thread.taken at taken
  generalize pc : l.pc = p at taken
  cases p with
  | storeValue i =>
    cases taken
    rw [Thread.inside, pc]
    rfl
  | storeKey i =>
    cases taken
    rw [Thread.inside, pc]
    rfl
  | _ => cases taken

/-- What an `Insert` knows about the slot of its round. -/
structure Thread.Probes (h : Key → BitVec 64) (tab : Table) (l : Thread) : Prop where
  key : l.pc.inserting = true → l.key ≠ invalidKey ∧ l.key ≠ sentinelKey
  seen : ∀ i k, l.pc = .probeTest i k → k ≠ invalidKey → (tab.pair (l.target, l.slot h i)).Live
  tested : ∀ i k, l.pc = .probeCas i k → k = invalidKey
  value : ∀ i, l.pc = .storeKey i → (tab.pair (l.target, l.slot h i)).value = some l.value

end

namespace State
variable {T : Type} [DecidableEq T] {h : Key → BitVec 64}

/-- Each slot with the sentinel belongs to one thread, which has yet to store its pair. -/
structure Slotted (h : Key → BitVec 64) (s : State T) : Prop where
  level_pos : ∀ a < s.table.nseg, 1 ≤ s.table.level a
  claims : Claimed (fun q => q.1 < s.table.nseg ∧ (s.table.pair q).key = sentinelKey)
    fun t => (s.threads t).taken h
  threads : ∀ t, (s.threads t).Probes h s.table

variable {s : State T} {t : T} {g : Naming}

theorem tick_pair (stored : ∀ a i p, (act h s.table (s.threads t)).1 ≠ .slot a i p)
    {q : Nat × Fin kNumSlot} (old : q.1 < s.table.nseg) :
    (s.tick h t).table.pair q = s.table.pair q :=
  Effect.pair_apply stored old

omit [DecidableEq T] in
theorem Slotted.taken_key (slotted : s.Slotted h) {q : Nat × Fin kNumSlot}
    (mine : (s.threads t).taken h = some q) : (s.table.pair q).key = sentinelKey :=
  (slotted.claims.taken t q mine).2

theorem tick_slot {a : Nat} {i : Fin kNumSlot} {p : Pair} {l : Thread}
    (step : act h s.table (s.threads t) = (.slot a i p, l)) :
    (s.tick h t).table.pair = update s.table.pair (a, i) p := by
  rw [tick_eq step]
  exact Effect.slot_apply (h := h) a i p

theorem tick_split {a : Nat} (splits : (act h s.table (s.threads t)).1 = .split a) :
    (s.tick h t).table = s.table.allocHalves ((s.table.segs a).split h) := by
  show (act h s.table (s.threads t)).1.apply h s.table = _
  rw [splits]
  rfl

omit [DecidableEq T] in
theorem taken_of {i : Nat} (taking : (s.threads t).pc.taking = some i) :
    (s.threads t).taken h = some ((s.threads t).target, (s.threads t).slot h i) := by
  rw [Thread.taken, taking]
  rfl

/-- A slot stays as it is, or is taken by the thread while it is free, or is the one that
the thread has taken before. -/
theorem Slotted.pair_tick (slotted : s.Slotted h) (t : T) {q : Nat × Fin kNumSlot}
    (old : q.1 < s.table.nseg) :
    (s.tick h t).table.pair q = s.table.pair q ∨
      ((s.table.pair q).key = invalidKey ∧ ((s.tick h t).table.pair q).key = sentinelKey) ∨
      (s.threads t).taken h = some q ∧ ((s.tick h t).table.pair q).Live := by
  rcases act_slots h s.table (s.threads t) with
    ⟨i, seen, pc, found, step⟩ | ⟨i, pc, step⟩ | ⟨i, pc, step⟩ | ⟨other, _⟩
  · rw [tick_slot step]
    by_cases here : q = ((s.threads t).target, (s.threads t).slot h i)
    · rw [here, update_self]
      exact Or.inr (Or.inl ⟨found.trans ((slotted.threads t).tested i seen pc), rfl⟩)
    · exact Or.inl (update_of_ne here ..)
  · have mine : (s.threads t).taken h = _ := taken_of (by rw [pc]; rfl)
    rw [tick_slot step]
    by_cases here : q = ((s.threads t).target, (s.threads t).slot h i)
    · rw [here, update_self, Pair.Live, slotted.taken_key mine]
      exact Or.inr (Or.inr ⟨mine, by decide⟩)
    · exact Or.inl (update_of_ne here ..)
  · have mine : (s.threads t).taken h = _ := taken_of (by rw [pc]; rfl)
    rw [tick_slot step]
    by_cases here : q = ((s.threads t).target, (s.threads t).slot h i)
    · rw [here, update_self]
      exact Or.inr (Or.inr ⟨mine, ((slotted.threads t).key (by rw [pc]; rfl)).1⟩)
    · exact Or.inl (update_of_ne here ..)
  · exact Or.inl (tick_pair other old)

/-- A filled slot never changes. -/
theorem Slotted.full_tick (slotted : s.Slotted h) (t : T) {q : Nat × Fin kNumSlot}
    (old : q.1 < s.table.nseg) (full : (s.table.pair q).Full) :
    (s.tick h t).table.pair q = s.table.pair q := by
  rcases slotted.pair_tick t old with same | ⟨free, _⟩ | ⟨mine, _⟩
  · exact same
  · exact absurd free full.live
  · exact absurd (slotted.taken_key mine) full.settled

theorem Slotted.live_tick (slotted : s.Slotted h) (t : T) {q : Nat × Fin kNumSlot}
    (old : q.1 < s.table.nseg) (live : (s.table.pair q).Live) :
    ((s.tick h t).table.pair q).Live := by
  rcases slotted.pair_tick t old with same | ⟨free, _⟩ | ⟨_, after⟩
  · rwa [same]
  · exact absurd free live
  · exact after

section
variable [Fintype T]

omit [DecidableEq T] in
/-- A slot that passes the test of `Insert` is free. -/
theorem Slotted.free_of_usable (slotted : s.Slotted h) (con : Consistent h s g) {i : Nat} {k : Key}
    (pc : (s.threads t).pc = .probeTest i k)
    (usable : (s.table.segs (s.threads t).target).Usable h (patternOf (s.threads t).depth
      (s.table.level (s.threads t).target) (s.threads t).x) ((s.threads t).slot h i)) :
    ¬ (s.table.pair ((s.threads t).target, (s.threads t).slot h i)).Live := by
  intro live
  obtain ⟨x, pos, le⟩ := (con.facts t).indexed (by rw [pc]; rfl)
  obtain ⟨pub, deep, pre⟩ := (con.facts t).checked (by rw [pc]; rfl)
  have old := con.pub_lt _ pub
  have := con.locks.depth_le
  rcases usable.1 with foreign | free
  · have same := con.prefixed _ old _ live usable.2
    rw [x, patternOf_index deep pos (by omega), pre] at foreign
    exact foreign ((index_eq (slotted.level_pos _ old) (show s.table.level _ ≤ 64 by omega) _).trans
      same)
  · exact live free

omit [DecidableEq T] in
/-- Nobody is filling a slot of a segment that is being split. -/
theorem Slotted.clean_of_drained (slotted : s.Slotted h) (acc : s.Accounted)
    (after : (s.threads t).pc.afterWait = true) {q : Nat × Fin kNumSlot}
    (here : q.1 = (s.threads t).target) :
    (s.table.pair q).key ≠ sentinelKey ∧ ∀ u, (s.threads u).taken h ≠ some q := by
  have empty := (acc.drained t after).2
  have unowned : ∀ u, (s.threads u).taken h ≠ some q := by
    intro u taken
    have mem : u ∈ s.insideOf (s.threads t).target :=
      mem_insideOf.mpr (here ▸ Thread.inside_of_taken taken)
    rw [empty] at mem
    exact absurd mem (Finset.notMem_empty u)
  refine ⟨fun sentinel => ?_, unowned⟩
  obtain ⟨u, taken⟩ := slotted.claims.owned q ⟨here ▸ (acc.alloc.threads t).target, sentinel⟩
  exact unowned u taken

omit [Fintype T] in
theorem pair_of_new {q : Nat × Fin kNumSlot} (new : s.table.nseg ≤ q.1)
    (lt : q.1 < (s.tick h t).table.nseg) (live : ((s.tick h t).table.pair q).Live) :
    (s.threads t).pc = .split ∧
      ∃ i, s.table.pair ((s.threads t).target, i) = (s.tick h t).table.pair q := by
  by_cases splits : ∃ a, (act h s.table (s.threads t)).1 = .split a
  · obtain ⟨a, eq⟩ := splits
    obtain ⟨pc, rfl⟩ := act_split eq
    refine ⟨pc, ?_⟩
    have table := tick_split eq
    have origin := Segment.split_origin (h := h) (s.table.segs (s.threads t).target)
    unfold Table.pair at live ⊢
    rw [table, Table.allocHalves_nseg] at lt
    rw [table] at live ⊢
    rcases (show q.1 = s.table.nseg ∨ q.1 = s.table.nseg + 1 by omega) with low | high
    · rw [low, Table.allocHalves_low] at live ⊢
      exact origin.1 q.2 live
    · rw [high, Table.allocHalves_high] at live ⊢
      exact origin.2 q.2 live
  · have same : (s.tick h t).table.nseg = s.table.nseg :=
      (Effect.level_apply fun a eq => splits ⟨a, eq⟩).2
    exact absurd (lt.trans_eq same) new.not_gt

theorem Slotted.claims_tick (slotted : s.Slotted h) (acc : s.Accounted) :
    Claimed (fun q => q.1 < (s.tick h t).table.nseg ∧ ((s.tick h t).table.pair q).key = sentinelKey)
      fun u => ((s.tick h t).threads u).taken h := by
  have owners : (fun u => ((s.tick h t).threads u).taken h) =
      update (fun u => (s.threads u).taken h) t
        ((act h s.table (s.threads t)).2.taken h) :=
    Function.comp_update (fun l : Thread => l.taken h) s.threads t _
  rw [owners]
  have old := (acc.alloc.threads t).target
  rcases act_slots h s.table (s.threads t) with
    ⟨i, seen, pc, found, step⟩ | ⟨i, pc, step⟩ | ⟨i, pc, step⟩ | ⟨other, idle, after⟩
  · -- the slot was free, so nobody had taken it
    have free : (s.table.pair ((s.threads t).target, (s.threads t).slot h i)).key = invalidKey :=
      found.trans ((slotted.threads t).tested i seen pc)
    have idle : (s.threads t).taken h = none := by
      rw [Thread.taken, pc]
      rfl
    have taken := slotted.claims.take (t := t) (c := ((s.threads t).target, (s.threads t).slot h i))
      (by rw [free]; exact fun busy => absurd busy.2 (by decide)) idle
    rw [step]
    refine taken.congr (fun q => ?_) fun _ => rfl
    rw [tick_slot step, tick_eq step, update_apply]
    by_cases here : q = ((s.threads t).target, (s.threads t).slot h i)
    · rw [if_pos here, here]
      exact ⟨fun _ => Or.inl rfl, fun _ => ⟨old, rfl⟩⟩
    · rw [if_neg here]
      exact ⟨Or.inr, fun busy => busy.resolve_left here⟩
  · have mine : (s.threads t).taken h = _ := taken_of (by rw [pc]; rfl)
    rw [step]
    refine slotted.claims.congr (fun q => ?_) fun u => ?_
    · rw [tick_slot step, tick_eq step, update_apply]
      by_cases here : q = ((s.threads t).target, (s.threads t).slot h i)
      · rw [if_pos here, here]
        rfl
      · rw [if_neg here]
        rfl
    · rw [update_apply]
      split
      · rename_i here
        rw [here, mine]
        rfl
      · rfl
  · have mine : (s.threads t).taken h = _ := taken_of (by rw [pc]; rfl)
    rw [step]
    refine (slotted.claims.release mine).congr (fun q => ?_) fun _ => rfl
    rw [tick_slot step, tick_eq step, update_apply]
    by_cases here : q = ((s.threads t).target, (s.threads t).slot h i)
    · rw [if_pos here]
      exact iff_of_false (fun busy => ((slotted.threads t).key (by rw [pc]; rfl)).2 busy.2)
        fun busy => busy.1 here
    · rw [if_neg here]
      exact ⟨fun busy => ⟨here, busy⟩, fun busy => busy.2⟩
  · rw [after]
    refine slotted.claims.congr (fun q => ?_) fun u => ?_
    · have grows := (Effect.grows h s.table (act h s.table (s.threads t)).1).1
      rcases Nat.lt_or_ge q.1 s.table.nseg with before | new
      · rw [tick_pair other before]
        exact ⟨fun busy => ⟨before, busy.2⟩, fun busy => ⟨before.trans_le grows, busy.2⟩⟩
      · refine iff_of_false (fun busy => ?_) fun busy => absurd busy.1 new.not_gt
        obtain ⟨pc, j, eq⟩ := pair_of_new new busy.1 (by rw [Pair.Live, busy.2]; decide)
        rw [← eq] at busy
        exact (slotted.clean_of_drained acc (by rw [pc]; rfl) rfl).1 busy.2
    · rw [update_apply]
      split
      · rename_i here
        rw [here, idle]
      · rfl

theorem Slotted.threads_tick (slotted : s.Slotted h) (con : Consistent h s g) :
    ∀ u, ((s.tick h t).threads u).Probes h (s.tick h t).table := by
  refine (Function.forall_update_iff s.threads fun _ l => l.Probes h (s.tick h t).table).mpr
    ⟨?_, ?_⟩
  · have mine := slotted.threads t
    have old := (con.alloc.threads t).target
    constructor
    · intro inserting
      rw [act_key]
      exact mine.key (act_inserting inserting)
    · intro i k reads known
      obtain ⟨pc, rfl⟩ := act_probeTest reads
      rw [act_slotOf, act_target_stays (by rw [pc]; rfl)]
      exact slotted.live_tick t old known
    · intro i k tests
      obtain ⟨pc, usable⟩ := act_probeCas tests
      by_contra known
      exact slotted.free_of_usable con pc usable (mine.seen i k pc known)
    · intro i stores
      rcases act_slots h s.table (s.threads t) with
        ⟨j, seen, _, _, step⟩ | ⟨j, pc, step⟩ | ⟨j, _, step⟩ | ⟨_, _, after⟩
      · rw [step] at stores
        cases stores
      · rw [step] at stores ⊢
        cases stores
        rw [tick_slot step]
        simp only [Thread.goto_target, Thread.slot, Thread.goto_key,
          Thread.goto_value, update_self]
      · rw [step] at stores
        cases stores
      · rw [Thread.taken, stores] at after
        cases after
  · intro u other
    have theirs := slotted.threads u
    have old := (con.alloc.threads u).target
    refine ⟨theirs.key, fun i k tests known => ?_, theirs.tested, fun i stores => ?_⟩
    · exact slotted.live_tick t old (theirs.seen i k tests known)
    · have taken : (s.threads u).taken h = _ := taken_of (by rw [stores]; rfl)
      rcases slotted.pair_tick t (q := (_, (s.threads u).slot h i)) old with
        same | ⟨free, _⟩ | ⟨mine, _⟩
      · rw [same]
        exact theirs.value i stores
      · rw [slotted.taken_key taken] at free
        exact absurd free (by decide)
      · exact absurd (slotted.claims.apart u t _ taken mine) other

omit [Fintype T] in
theorem Slotted.level_tick (slotted : s.Slotted h) :
    ∀ a < (s.tick h t).table.nseg, 1 ≤ (s.tick h t).table.level a := by
  by_cases splits : ∃ a, (act h s.table (s.threads t)).1 = .split a
  · obtain ⟨b, eq⟩ := splits
    have table := tick_split eq
    have levels := Segment.split_localDepth (h := h) (s.table.segs b)
    intro a lt
    unfold Table.level
    rw [table] at lt ⊢
    rcases Nat.lt_or_ge a s.table.nseg with before | new
    · rw [Table.allocHalves_old _ _ before]
      exact slotted.level_pos a before
    · rw [Table.allocHalves_nseg] at lt
      rcases (show a = s.table.nseg ∨ a = s.table.nseg + 1 by omega) with rfl | rfl
      · rw [Table.allocHalves_low, levels.1]
        exact Nat.le_add_left ..
      · rw [Table.allocHalves_high, levels.2]
        exact Nat.le_add_left ..
  · obtain ⟨level, nseg⟩ : (s.tick h t).table.level = s.table.level ∧
        (s.tick h t).table.nseg = s.table.nseg :=
      Effect.level_apply fun a eq => splits ⟨a, eq⟩
    intro a lt
    exact (slotted.level_pos a (lt.trans_eq nseg)).trans_eq (congrFun level a).symm

theorem Slotted.tick (slotted : s.Slotted h) (con : Consistent h s g) (acc : s.Accounted) (t : T) :
    (s.tick h t).Slotted h :=
  ⟨slotted.level_tick, slotted.claims_tick acc, slotted.threads_tick con⟩

end

theorem Slotted.call (slotted : s.Slotted h) (idle : (s.threads t).pc = .idle) {start : Pc}
    {key : Key} (value : Value) (fresh : start = .readDepth ∨ start = .getSpin)
    (valid : start = .readDepth → key ≠ invalidKey ∧ key ≠ sentinelKey) :
    (s.call t start key value).Slotted h := by
  refine ⟨slotted.level_pos, slotted.claims.congr (fun _ => Iff.rfl) ?_, ?_⟩
  · refine (Function.forall_update_iff s.threads fun u l => l.taken h = (s.threads u).taken h).mpr
      ⟨?_, fun _ _ => rfl⟩
    rw [Thread.taken, Thread.taken, idle]
    rcases fresh with rfl | rfl <;> rfl
  · refine (Function.forall_update_iff s.threads fun _ l => l.Probes h s.table).mpr
      ⟨?_, fun u _ => slotted.threads u⟩
    rcases fresh with rfl | rfl
    · exact ⟨fun _ => valid rfl, nofun, nofun, nofun⟩
    · exact ⟨nofun, nofun, nofun, nofun⟩

omit [DecidableEq T] in
theorem slotted_initial {depth : Nat} {tab : Table} (pos : 1 ≤ depth)
    (made : Table.construct depth = some tab) :
    (initial T tab).Slotted h := by
  obtain ⟨_, fresh, _⟩ := Table.construct_spec made
  refine ⟨fun a _ => ?_, Claimed.of_none ?_ fun _ => rfl, fun t => ⟨nofun, nofun, nofun, nofun⟩⟩
  · show 1 ≤ (tab.segs a).localDepth
    rw [fresh a]
    exact pos
  · rintro q ⟨_, sentinel⟩
    have free : ((tab.segs q.1).slots q.2).key = invalidKey := by
      rw [fresh q.1]
      rfl
    exact absurd (free.symm.trans sentinel) (by decide)

end State

end CCEH

end Xcache
