import Xcache.CCEH.Facts
import Xcache.CCEH.Invariant
import Xcache.CCEH.Alone

/-! The directory of the machine is a directory under concurrent splits, as long as every
store replaces an entry of the thread's own target and every new directory is filled for
a target of full depth. Without that, two threads that double the directory one after the
other leave entries that do not form blocks. -/

namespace Xcache.CCEH
open Function
open SuspendLock (LockPc UnlockPc SuspendPc Out)
open SplitDirectory (Status Dir Halves)
open Blocks (top Owned doubled)
open Relation (ReflTransGen)
open Table (highKey)

/-- What a thread is doing to the directory, with its target and the halves. -/
def Pc.status (a lo hi : Nat) : Pc → Status Nat
  | .segSuspend (.wait _) | .checkSplit | .resetTarget | .split | .compareDepth | .toDirSuspend
  | .dirSuspend _
  | .publish | .toDirLock | .dirLock _ | .readStores | .store false _ => .claim a
  | .store true rest => .after a lo hi rest
  | _ => .idle

def Thread.status (l : Thread) : Status Nat := l.pc.status l.target l.s0 l.s1

theorem Thread.status_of {l : Thread} {pc : Pc} (eq : l.pc = pc) :
    l.status = pc.status l.target l.s0 l.s1 := by
  rw [Thread.status, eq]

/-- The steps that begin, end or continue a claim. -/
def Pc.movesClaim : Pc → Bool
  | .segSuspend _ | .resetTarget | .publish | .store .. => true
  | _ => false

section
variable {h : Key → BitVec 64} {tab : Table} {l : Thread}

theorem act_status (away : l.pc.movesClaim = false) : (act h tab l).2.status = l.status := by
  unfold act
  split <;> (try split) <;> (try split) <;> rw [‹l.pc = _›] at away <;> unfold Thread.status <;>
    rw [‹l.pc = _›] <;>
    first
    | contradiction
    | rfl
    | (rw [Thread.run_snd, Thread.goto_target, Thread.goto_s0, Thread.goto_s1, Thread.goto_pc]
       rcases Thread.run_pc .. with ⟨c, eq⟩ | ⟨b, eq⟩
       · rw [eq]; rfl
       · rw [eq]
         first
         | rfl
         | (cases b <;> rfl)
         | (rename_i next _; cases next <;> rfl))

theorem act_locked {a : Nat} {v : Int} (stored : (act h tab l).1 = .sema a v)
    (other : l.pc ≠ .resetTarget) (locked : (tab.segs a).sema < 0) : v < 0 := by
  obtain ⟨uses, rfl⟩ := act_sema stored
  generalize pcEq : l.pc = pc at uses other
  cases pc with
  | segLock c =>
    simp only [act, pcEq] at stored
    rcases SuspendLock.lock_cases (tab.segs l.target).sema c with ⟨c', eq⟩ | eq | ⟨nonneg, _⟩
    · rw [eq] at stored
      cases stored
    · rw [eq] at stored
      cases stored
    · omega
  | segUnlock c next =>
    simp only [act, pcEq] at stored
    rcases SuspendLock.unlock_cases (tab.segs l.target).sema c with ⟨c', eq⟩ | eq
    · rw [eq] at stored
      cases stored
    · rw [eq] at stored
      cases stored
      omega
  | getUnlock c =>
    simp only [act, pcEq] at stored
    rcases SuspendLock.unlock_cases (tab.segs l.target).sema c with ⟨c', eq⟩ | eq
    · rw [eq] at stored
      cases stored
    · rw [eq] at stored
      cases stored
      omega
  | segSuspend c =>
    simp only [act, pcEq] at stored
    rcases SuspendLock.suspend_cases (tab.segs l.target).sema c with
      ⟨c', eq, _⟩ | ⟨_, eq⟩ | ⟨_, val, _, eq⟩ | ⟨_, _, _, eq⟩ <;> rw [eq] at stored <;> cases stored
    decide
  | resetTarget => exact absurd rfl other
  | _ => cases uses

theorem Effect.level_apply {e : Effect} (other : ∀ a, e ≠ .split a) :
    (e.apply h tab).level = tab.level ∧ (e.apply h tab).nseg = tab.nseg := by
  have set : ∀ a s, s.localDepth = (tab.segs a).localDepth →
      (tab.setSeg a s).level = tab.level := by
    intro a s same
    funext b
    unfold Table.level
    rw [Table.setSeg_segs, update_apply]
    split
    · rename_i here
      rw [here, same]
    · rfl
  cases e with
  | split a => exact absurd rfl (other a)
  | sema a v => exact ⟨set a _ rfl, rfl⟩
  | slot a i p => exact ⟨set a _ rfl, rfl⟩
  | _ => exact ⟨rfl, rfl⟩

/-- The effects that touch neither the directory nor the segments' levels. -/
def Effect.local : Effect → Bool
  | .none | .sema .. | .slot .. | .dirSema .. => true
  | _ => false

theorem Effect.local_apply {e : Effect} (here : e.local = true) :
    (e.apply h tab).cur.depth = tab.cur.depth ∧ (e.apply h tab).cur.entries = tab.cur.entries := by
  cases e with
  | dirSema p v => exact ⟨tab.setDirSema_depth p v, tab.setDirSema_entries p v⟩
  | none => exact ⟨rfl, rfl⟩
  | sema a v => exact ⟨rfl, rfl⟩
  | slot a i p => exact ⟨rfl, rfl⟩
  | _ => cases here

theorem act_local (away : l.pc.movesClaim = false) (other : l.pc ≠ .split) :
    (act h tab l).1.local = true := by
  unfold act
  split <;> (try split) <;> (try split) <;> rw [‹l.pc = _›] at away other <;>
    first
    | rfl
    | contradiction
    | (rcases Thread.run_effect .. with none | ⟨v, eq⟩
       · rw [none]; rfl
       · rw [eq]; rfl)

end

/-- Every entry of the directory holds a segment of no greater depth, the entries that hold
it are one aligned block, and its keys have the prefix of the block. -/
structure Table.Aligned (h : Key → BitVec 64) (tab : Table) : Prop where
  level_le : ∀ d < 2 ^ tab.cur.depth, (tab.segs (tab.cur.entries d)).localDepth ≤ tab.cur.depth
  block : ∀ d < 2 ^ tab.cur.depth, ∀ d' < 2 ^ tab.cur.depth, tab.cur.entries d' =
    tab.cur.entries d ↔ d' / 2 ^ (tab.cur.depth - (tab.segs (tab.cur.entries d)).localDepth) =
      d / 2 ^ (tab.cur.depth - (tab.segs (tab.cur.entries d)).localDepth)
  keys : ∀ d < 2 ^ tab.cur.depth, ∀ i, ((tab.segs (tab.cur.entries d)).slots i).Live →
    ((tab.segs (tab.cur.entries d)).slots i).key ≠ sentinelKey →
      top 64 (tab.segs (tab.cur.entries d)).localDepth
        (h ((tab.segs (tab.cur.entries d)).slots i).key).toNat =
        d / 2 ^ (tab.cur.depth - (tab.segs (tab.cur.entries d)).localDepth)

namespace State
variable {T : Type} [DecidableEq T] {h : Key → BitVec 64}

def directory (s : State T) (g : Naming) : Dir Nat T where
  depth := s.table.cur.depth
  entry := s.table.cur.entries
  level := s.table.level
  pre := g.pre
  pub := g.pub
  locked a := (s.table.segs a).sema < 0
  status t := (s.threads t).status

/-- A step of a thread that stores over an entry of its target, if it stores, and that
publishes a directory for a target of full depth, if it publishes. -/
structure Tidy (s : State T) (t : T) : Prop where
  publish : (s.threads t).pc = .publish →
    (s.table.segs (s.threads t).target).localDepth = s.table.cur.depth
  store : ∀ b j a rest, (s.threads t).pc = .store b ((j, a) :: rest) →
    s.table.cur.entries j = (s.threads t).target

inductive TidyStep (h : Key → BitVec 64) : State T → State T → Prop
  | insert (s : State T) (t : T) (key : Key) (value : Value) : (s.threads t).pc = .idle →
      TidyStep h s (s.call t .readDepth key value)
  | get (s : State T) (t : T) (key : Key) : (s.threads t).pc = .idle →
      TidyStep h s (s.call t .getSpin key noneValue)
  | tick (s : State T) (t : T) : s.Tidy t → TidyStep h s (s.tick h t)

/-- No thread is between its first and its last store to the directory. -/
def Settled (s : State T) : Prop := ∀ t rest, (s.threads t).pc = .store true rest → rest = []

structure Consistent [Fintype T] (h : Key → BitVec 64) (s : State T) (g : Naming) : Prop where
  alloc : s.Alloc
  locks : s.DirLocked
  inv : (s.directory g).Inv
  pub_lt : ∀ a, g.pub a → a < s.table.nseg
  prefixed : ∀ a < s.table.nseg, (s.table.segs a).Prefixed h (g.pre a)
  facts : ∀ t, (s.threads t).Facts h s.table g

/-- What a step does to the directory and the segments. -/
structure Moved (h : Key → BitVec 64) (s : State T) (t : T) (g g' : Naming) : Prop where
  ext : Extends s.table (s.tick h t).table g g'
  inv : ((s.tick h t).directory g').Inv
  pub_lt : ∀ a, g'.pub a → a < (s.tick h t).table.nseg
  prefixed : ∀ a < (s.tick h t).table.nseg, ((s.tick h t).table.segs a).Prefixed h (g'.pre a)
  split : (s.threads t).pc = .split → Halves (s.tick h t).table.level g'.pre (s.threads t).target
    s.table.nseg (s.table.nseg + 1)

variable {s : State T} {t : T} {g g' : Naming}

theorem directory_status (s : State T) (t : T) (g g' : Naming) :
    ((s.tick h t).directory g').status =
    update (s.directory g).status t (act h s.table (s.threads t)).2.status :=
  Function.comp_update Thread.status s.threads t _

section
variable [Fintype T]

omit [DecidableEq T] in
theorem Consistent.named (con : Consistent h s g) : Named s.table g :=
  ⟨con.locks.depth_pos, con.locks.depth_le, con.inv.entry_pub, con.inv.entry_pre,
    con.inv.level_le, con.pub_lt⟩

omit [DecidableEq T] [Fintype T] in
theorem noSplit_of (other : (s.threads t).pc ≠ .split) (a : Nat) :
    (act h s.table (s.threads t)).1 ≠ .split a :=
  fun splits => other (act_split splits).1

/-- A step that splits no segment keeps the keys of every segment under its prefix. -/
theorem Consistent.prefixed_tick (con : Consistent h s g) (other : (s.threads t).pc ≠ .split) :
    ∀ a < s.table.nseg, ((s.tick h t).table.segs a).Prefixed h (g.pre a) := by
  intro a old
  have before := con.prefixed a old
  have noSplit := @noSplit_of T h s t other
  have slots := @act_slot h s.table (s.threads t)
  show (((act h s.table (s.threads t)).1.apply h s.table).segs a).Prefixed h (g.pre a)
  generalize (act h s.table (s.threads t)).1 = e at noSplit slots
  cases e with
  | split b => exact absurd rfl (noSplit b)
  | sema b v =>
    simp only [Effect.apply, Table.setSema_segs, update_apply]
    split
    · rename_i here
      rw [here] at before ⊢
      exact before
    · exact before
  | slot b i p =>
    obtain ⟨rfl, from'⟩ := slots rfl
    simp only [Effect.apply, Table.setSeg_segs, update_apply]
    split
    · rename_i here
      rw [here] at before ⊢
      refine before.set fun live key => ?_
      rcases from' with sentinel | same | ⟨own, checked⟩
      · exact absurd sentinel key
      · rw [Pair.Live, same] at live
        rw [same] at key ⊢
        exact before i live key
      · rw [own]
        exact ((con.facts t).checked checked).2.2
    · exact before
  | _ => exact before

theorem Consistent.moved (con : Consistent h s g) (other : (s.threads t).pc ≠ .split)
    (depth : s.table.cur.depth ≤ (s.tick h t).table.cur.depth) {pub : Nat → Prop}
    (grows : ∀ a, g.pub a → pub a) (lt : ∀ a, pub a → a < s.table.nseg)
    (inv : ((s.tick h t).directory ⟨g.pre, pub⟩).Inv) : Moved h s t g ⟨g.pre, pub⟩ := by
  obtain ⟨level, nseg⟩ := @Effect.level_apply h s.table _ (@noSplit_of T h s t other)
  refine ⟨⟨depth, fun a _ => congrFun level a, fun _ _ => rfl, grows⟩, inv, fun a pub => ?_,
    fun a old => ?_, ?_⟩
  · exact (lt a pub).trans_eq nseg.symm
  · exact con.prefixed_tick other a (old.trans_eq nseg)
  · exact fun eq => absurd eq other

/-- A step that touches neither the directory nor a lock of a segment but to take it. -/
theorem Consistent.moved_local (con : Consistent h s g)
    (here : (act h s.table (s.threads t)).1.local = true) {d : Dir Nat T} (inv : d.Inv)
    (same : d.depth = s.table.cur.depth ∧ d.entry = s.table.cur.entries ∧ d.level = s.table.level ∧
      d.pre = g.pre ∧ d.pub = g.pub)
    (status : d.status = update (s.directory g).status t
      (act h s.table (s.threads t)).2.status)
    (locked : ∀ a, d.locked a → ((s.tick h t).table.segs a).sema < 0) : Moved h s t g g := by
  have other : (s.threads t).pc ≠ .split := by
    intro eq
    simp only [act, eq] at here
    cases here
  obtain ⟨depth, entries⟩ := @Effect.local_apply h s.table _ here
  obtain ⟨level, _⟩ := @Effect.level_apply h s.table _ (@noSplit_of T h s t other)
  obtain ⟨depth', entries', level', pre', pub'⟩ := same
  refine con.moved other depth.ge (fun _ pub => pub) con.pub_lt
    (inv.congr (depth.trans depth'.symm) ?_ pub'.symm
    (by rw [directory_status s t g g, status]) ?_ ?_ fun a _ => locked a)
  · exact fun j _ => congrFun (entries.trans entries'.symm) j
  · exact fun a _ => congrFun (level.trans level'.symm) a
  · exact fun a _ => congrFun pre'.symm a

omit [Fintype T] in
theorem locked_tick (alloc : s.Alloc) (other : (s.threads t).pc ≠ .resetTarget) {a : Nat}
    (locked : (s.table.segs a).sema < 0) : ((s.tick h t).table.segs a).sema < 0 := by
  by_cases uses : ∃ b v, (act h s.table (s.threads t)).1 = .sema b v
  · obtain ⟨b, v, eq⟩ := uses
    show (((act h s.table (s.threads t)).1.apply h s.table).segs a).sema < 0
    rw [eq]
    simp only [Effect.apply, Table.setSema_segs, update_apply]
    split
    · rename_i here
      exact act_locked eq other (here ▸ locked)
    · exact locked
  · exact (Effect.sema_apply (fun b v eq => uses ⟨b, v, eq⟩) alloc.table.fresh a).trans_lt locked

theorem Consistent.moved_quiet (con : Consistent h s g)
    (here : (act h s.table (s.threads t)).1.local = true)
    (same : (act h s.table (s.threads t)).2.status = (s.threads t).status)
    (other : (s.threads t).pc ≠ .resetTarget) : Moved h s t g g := by
  refine con.moved_local here con.inv ⟨rfl, rfl, rfl, rfl, rfl⟩ ?_ fun a =>
    locked_tick con.alloc other
  rw [same]
  exact (update_eq_self t _).symm

theorem Consistent.moved_segSuspend (con : Consistent h s g) {c : SuspendPc}
    (pc : (s.threads t).pc = .segSuspend c) : Moved h s t g g := by
  have other : (s.threads t).pc ≠ .resetTarget := by
    rw [pc]
    exact nofun
  rcases SuspendLock.suspend_cases (s.table.segs (s.threads t).target).sema c with
    ⟨c', eq, same⟩ | ⟨fails, eq⟩ | ⟨fails, val, found, eq⟩ | ⟨val, waits, _, eq⟩
  · have step : act h s.table (s.threads t) = (.none, (s.threads t).goto (.segSuspend c')) := by
      simp only [act, pc, eq]
      rfl
    refine con.moved_quiet (by rw [step]; rfl) ?_ other
    rw [step, Thread.status_of pc]
    cases c <;> cases c' <;> first | rfl | cases same
  · have step : act h s.table (s.threads t) = (.none, (s.threads t).goto .readDepth) := by
      simp only [act, pc, eq]
      rfl
    refine con.moved_quiet (by rw [step]; rfl) ?_ other
    rw [step, Thread.status_of pc]
    cases c <;> first | rfl | cases fails
  · have step : act h s.table (s.threads t) = (.sema (s.threads t).target (-1),
        (s.threads t).goto (.segSuspend (.wait val))) := by
      simp only [act, pc, eq]
      rfl
    have idle : (s.threads t).status = .idle := by
      rw [Thread.status_of pc]
      cases c <;> first | rfl | cases fails
    have pub := ((con.facts t).checked (by rw [pc]; rfl)).1
    have free : ¬ (s.table.segs (s.threads t).target).sema < 0 := by
      rw [found]
      exact not_lt.mpr (Int.natCast_nonneg _)
    refine con.moved_local (by rw [step]; rfl) (con.inv.claim idle pub free) ⟨rfl, rfl, rfl,
      rfl, rfl⟩ ?_ ?_
    · rw [step]
      rfl
    · intro a locked
      rcases locked with rfl | locked
      · rw [tick_eq step]
        simp [Effect.apply]
      · exact locked_tick con.alloc other locked
  · have step : act h s.table (s.threads t) = (.none, (s.threads t).goto .checkSplit) := by
      simp only [act, pc, eq]
      rfl
    refine con.moved_quiet (by rw [step]; rfl) ?_ other
    rw [step, Thread.status_of pc]
    cases c <;> cases waits
    rfl

theorem Consistent.moved_resetTarget (con : Consistent h s g)
    (pc : (s.threads t).pc = .resetTarget) :
    Moved h s t g g := by
  have step : act h s.table (s.threads t) = (.sema (s.threads t).target 0,
      (s.threads t).goto .readDepth) := by
    simp only [act, pc]
  have claimed : (s.directory g).status t = .claim (s.threads t).target := Thread.status_of pc
  refine con.moved_local (by rw [step]; rfl) (con.inv.release claimed) ⟨rfl, rfl, rfl,
    rfl, rfl⟩ ?_ ?_
  · rw [step]
    rfl
  · rintro a ⟨away, locked⟩
    rw [tick_eq step]
    show (update s.table.segs (s.threads t).target _ a).sema < 0
    rw [update_of_ne away]
    exact locked

/-- A split whose block is too wide for the loop leaves its target suspended. -/
theorem Consistent.moved_noStores (con : Consistent h s g) {b : Bool}
    (pc : (s.threads t).pc = .store b []) :
    Moved h s t g g := by
  have step : act h s.table (s.threads t) = (.none, (s.threads t).goto .toDirUnlock) := by
    simp only [act, pc]
  have other : (s.threads t).pc ≠ .resetTarget := by
    rw [pc]
    exact nofun
  cases b with
  | false =>
    have claimed : (s.directory g).status t = .claim (s.threads t).target := Thread.status_of pc
    refine con.moved_local (by rw [step]; rfl) (con.inv.abandon claimed) ⟨rfl, rfl, rfl,
      rfl, rfl⟩ ?_ fun a => locked_tick con.alloc other
    rw [step]
    rfl
  | true =>
    refine con.moved_quiet (by rw [step]; rfl) ?_ other
    rw [step, Thread.status_of pc]
    rfl

/-- The stores of a split go to the block of the target, each entry gets its half. -/
theorem Consistent.begun (con : Consistent h s g) {q : Nat × Nat} {rest : List (Nat × Nat)}
    (pc : (s.threads t).pc = .store false (q :: rest)) :
    Dir.Inv { s.directory g with
      pub := fun a => (a = (s.threads t).s0 ∨ a = (s.threads t).s1) ∨ g.pub a
      status := update (s.directory g).status t
        (.storing (s.threads t).target (s.threads t).s0 (s.threads t).s1 (q :: rest)) } := by
  have eq := (con.facts t).stores _ pc
  obtain ⟨pub, _, pre⟩ := (con.facts t).checked (by rw [pc]; rfl)
  obtain ⟨pos, narrow⟩ := stores_bounds (eq ▸ List.mem_cons_self)
  obtain ⟨agree, all⟩ := @stores_spec (index s.table.cur.depth (h (s.threads t).key))
    (s.table.cur.depth - s.table.level (s.threads t).target)
      (s.threads t).s0 (s.threads t).s1 pos narrow
  have le := con.named.level_le _ pub
  have bound : g.pre (s.threads t).target < 2 ^ s.table.level (s.threads t).target :=
    con.inv.pre_lt _ pub
  have := con.locks.depth_le
  have owner : index s.table.cur.depth (h (s.threads t).key) /
      2 ^ (s.table.cur.depth - s.table.level (s.threads t).target) =
        g.pre (s.threads t).target := by
    rw [index_eq con.locks.depth_pos (by omega), Blocks.top_div le (by omega), pre]
  rw [← eq, owner] at agree all
  refine con.inv.begin (q :: rest) (Thread.status_of pc) (Nat.lt_of_sub_pos pos)
    ((con.facts t).halves (by rw [pc]; rfl)) (eq ▸ stores_nodup ..) (fun j v mem => ?_) fun j mem =>
      all j mem.2
  obtain ⟨block, half⟩ := agree (j, v) mem
  refine ⟨⟨?_, block⟩, half⟩
  show j < 2 ^ s.table.cur.depth
  calc j < 2 ^ (s.table.cur.depth - s.table.level (s.threads t).target) *
    (g.pre (s.threads t).target + 1) := by
        rw [← block]
        exact Nat.lt_mul_div_succ j (Nat.two_pow_pos _)
    _ ≤ 2 ^ (s.table.cur.depth - s.table.level (s.threads t).target) * 2 ^
      s.table.level (s.threads t).target :=
        Nat.mul_le_mul_left _ bound
    _ = 2 ^ s.table.cur.depth := by rw [← pow_add, Nat.sub_add_cancel le]

/-- A store, with the directory before it as of the thread's first store. -/
theorem Consistent.moved_entry (con : Consistent h s g) {b : Bool} {j a : Nat}
    {rest : List (Nat × Nat)} (pc : (s.threads t).pc = .store b ((j, a) :: rest)) {pub : Nat → Prop}
    {status : T → Status Nat} (grows : ∀ a, g.pub a → pub a) (lt : ∀ a, pub a → a < s.table.nseg)
    (others : update status t .idle = update (s.directory g).status t .idle)
    (inv : Dir.Inv { s.directory g with pub := pub, status := status })
    (storing : status t = .storing (s.threads t).target (s.threads t).s0 (s.threads t).s1
      ((j, a) :: rest))
    (hit : s.table.cur.entries j = (s.threads t).target) : Moved h s t g ⟨g.pre, pub⟩ := by
  have step : act h s.table (s.threads t) = (.entry j a,
      (s.threads t).goto (.store true rest)) := by
    simp only [act, pc]
  have cur : (s.tick h t).table.cur =
      { s.table.cur with entries := update s.table.cur.entries j a } := by
    rw [tick_eq step]
    exact s.table.setEntry_cur j a
  have other : (s.threads t).pc ≠ .split := by
    rw [pc]
    exact nofun
  refine con.moved other (by rw [cur]) grows lt
    (Dir.Inv.congr (inv.store storing hit) ?_ ?_ rfl ?_ ?_ ?_ ?_)
  · show (s.tick h t).table.cur.depth = _
    rw [cur]
    rfl
  · intro i _
    show (s.tick h t).table.cur.entries i = _
    rw [cur]
    rfl
  · rw [directory_status s t g, step]
    have stored :=
      congrArg (fun f => update f t (Status.after (s.threads t).target (s.threads t).s0
      (s.threads t).s1 rest)) others
    simp only [update_idem] at stored
    exact stored.symm
  · intro c _
    exact congrFun (Effect.level_apply (noSplit_of other)).1 c
  · exact fun _ _ => rfl
  · intro c _ locked
    refine locked_tick con.alloc ?_ locked
    rw [pc]
    exact nofun

theorem Consistent.moved_store (con : Consistent h s g) {b : Bool} {j a : Nat}
    {rest : List (Nat × Nat)} (pc : (s.threads t).pc = .store b ((j, a) :: rest))
    (hit : s.table.cur.entries j = (s.threads t).target) : ∃ g', Moved h s t g g' := by
  cases b with
  | false =>
    refine ⟨_, con.moved_entry pc (fun _ => Or.inr) ?_ ?_ (con.begun pc)
      (update_self ..) hit⟩
    · rintro a ((rfl | rfl) | pub)
      · exact (con.alloc.threads t).s0
      · exact (con.alloc.threads t).s1
      · exact con.pub_lt a pub
    · exact update_idem ..
  | true => exact ⟨_, con.moved_entry pc (fun _ pub => pub) con.pub_lt rfl con.inv
    (Thread.status_of pc) hit⟩

omit [DecidableEq T] [Fintype T] in
theorem insideDir_of_storing {l : Thread} (storing : l.status.isStoring = true) :
    l.pc.insideDir = true := by
  unfold Thread.status at storing
  generalize l.pc = pc at storing
  cases pc with
  | store b rest => rfl
  | segSuspend c => cases c <;> cases storing
  | _ => cases storing

omit [DecidableEq T] in
/-- Nobody is between two stores when a thread publishes its directory. -/
theorem Consistent.nobody_storing (con : Consistent h s g) (pc : (s.threads t).pc = .publish)
    (u : T) :
    ((s.directory g).status u).isStoring = false := by
  obtain ⟨susp, held⟩ := con.locks.held
  by_contra storing
  have mem : u ∈ s.storers := mem_storers.mpr (insideDir_of_storing (Bool.not_eq_false _ ▸ storing))
  rw [(held.filling t pc).2] at mem
  exact absurd mem (Finset.notMem_empty u)

omit [DecidableEq T] in
theorem Consistent.publish_x (con : Consistent h s g) (pc : (s.threads t).pc = .publish)
    (full : s.table.level (s.threads t).target = s.table.cur.depth) :
    (s.threads t).x = g.pre (s.threads t).target := by
  obtain ⟨x, pos, le⟩ := (con.facts t).indexed (by rw [pc]; rfl)
  obtain ⟨_, deep, pre⟩ := (con.facts t).checked (by rw [pc]; rfl)
  have := con.locks.depth_le
  have same : (s.threads t).depth = s.table.cur.depth := le_antisymm le (full ▸ deep)
  rw [x, index_eq pos (by omega), same, ← pre, full]

theorem Consistent.moved_publish (con : Consistent h s g) (pc : (s.threads t).pc = .publish)
    (full : s.table.level (s.threads t).target = s.table.cur.depth) : ∃ g', Moved h s t g g' := by
  have other : (s.threads t).pc ≠ .split := by
    rw [pc]
    exact nofun
  by_cases wide : unsignedLimit ≤ s.table.cur.capacity
  · have step : act h s.table (s.threads t) = (.none, s.threads t) := by
      simp only [act, pc, if_pos wide]
    exact ⟨g, con.moved_quiet (by rw [step]; rfl) (by rw [step]) (by rw [pc]; exact nofun)⟩
  · have step : act h s.table (s.threads t) =
      (.publish (s.threads t).x (s.threads t).s0 (s.threads t).s1,
        (s.threads t).goto .readDepth) := by
      simp only [act, pc, if_neg wide]
    have table : (s.tick h t).table = s.table.publish (s.threads t).x (s.threads t).s0
        (s.threads t).s1 := by
      rw [tick_eq step]
      rfl
    refine ⟨_, con.moved other ?_ (fun _ => Or.inr) ?_
      (Dir.Inv.congr (con.inv.double (Thread.status_of pc) full (con.nobody_storing pc)
      ((con.facts t).halves (by rw [pc]; rfl))) ?_ ?_ rfl ?_ ?_ ?_ ?_)⟩
    · rw [table, Table.publish_cur]
      exact Nat.le_succ _
    · rintro a ((rfl | rfl) | pub)
      · exact (con.alloc.threads t).s0
      · exact (con.alloc.threads t).s1
      · exact con.pub_lt a pub
    · show (s.tick h t).table.cur.depth = _
      rw [table, Table.publish_cur]
      rfl
    · intro j hj
      have inside : j < 2 * s.table.cur.capacity := by
        rw [con.locks.capacity, ← pow_succ']
        exact hj
      show (s.tick h t).table.cur.entries j =
        doubled s.table.cur.entries (g.pre (s.threads t).target) _ _ j
      rw [table, Table.publish_cur, ← con.publish_x pc full]
      exact writeAll_doublingStores _ _ inside
    · rw [directory_status s t g, step]
      rfl
    · intro a _
      exact congrFun (Effect.level_apply (noSplit_of other)).1 a
    · exact fun _ _ => rfl
    · intro a _ locked
      refine locked_tick con.alloc ?_ locked
      rw [pc]
      exact nofun

theorem Consistent.moved_split (con : Consistent h s g) (pc : (s.threads t).pc = .split) :
    Moved h s t g (g.split (s.threads t).target s.table.nseg) := by
  have step : act h s.table (s.threads t) = (.split (s.threads t).target, { s.threads t with
      s0 := s.table.nseg, s1 := s.table.nseg + 1, pc := .compareDepth }) := by
    simp only [act, pc]
  generalize halves : (s.table.segs (s.threads t).target).split h = pair
  have table : (s.tick h t).table = s.table.allocHalves pair := by
    rw [tick_eq step, ← halves]
    rfl
  have pub := ((con.facts t).checked (by rw [pc]; rfl)).1
  have old := con.pub_lt _ pub
  have le := con.named.level_le _ pub
  have := con.locks.depth_le
  have levels := Segment.split_localDepth (h := h) (s.table.segs (s.threads t).target)
  have keys := (con.prefixed _ old).split (show s.table.level (s.threads t).target < 64 by omega)
  rw [halves] at levels keys
  have same : ∀ a < s.table.nseg, (s.tick h t).table.segs a = s.table.segs a := by
    intro a lt
    rw [table, Table.allocHalves_old _ _ lt]
  have low : (s.tick h t).table.segs s.table.nseg = pair.1 := by
    rw [table, Table.allocHalves_low]
  have high : (s.tick h t).table.segs (s.table.nseg + 1) = pair.2 := by
    rw [table, Table.allocHalves_high]
  have level : ∀ a < s.table.nseg, (s.tick h t).table.level a = s.table.level a :=
    fun a lt => congrArg Segment.localDepth (same a lt)
  have cur : (s.tick h t).table.cur = s.table.cur := by
    rw [table]
    rfl
  refine ⟨⟨by rw [cur], level, fun a lt => g.split_old _ lt, fun _ pub => pub⟩,
    con.inv.congr ?_ ?_ rfl ?_ ?_ ?_ ?_, fun a pub => ?_, fun a lt => ?_, fun _ => ⟨?_, ?_, ?_, ?_⟩⟩
  · exact congrArg Directory.depth cur
  · exact fun j _ => congrFun (congrArg Directory.entries cur) j
  · rw [directory_status s t g, step]
    refine update_eq_self_iff.mpr ?_
    exact (Thread.status_of pc).symm
  · exact fun a pub => level a (con.pub_lt a pub)
  · exact fun a pub => g.split_old _ (con.pub_lt a pub)
  · intro a pub locked
    show ((s.tick h t).table.segs a).sema < 0
    rw [same a (con.pub_lt a pub)]
    exact locked
  · rw [table, Table.allocHalves_nseg]
    exact (con.pub_lt a pub).trans (by omega)
  · rw [table, Table.allocHalves_nseg] at lt
    rcases Nat.lt_or_ge a s.table.nseg with before | new
    · rw [same a before, g.split_old _ before]
      exact con.prefixed a before
    · rcases (show a = s.table.nseg ∨ a = s.table.nseg + 1 by omega) with rfl | rfl
      · rw [low, g.split_low]
        exact keys.1
      · rw [high, g.split_high]
        exact keys.2
  · rw [level _ old]
    exact (congrArg Segment.localDepth low).trans levels.1
  · rw [level _ old]
    exact (congrArg Segment.localDepth high).trans levels.2
  · rw [g.split_low, g.split_old _ old]
  · rw [g.split_high, g.split_old _ old]

/-- Every tidy step is a step of the directory, or none. -/
theorem Consistent.simulated (con : Consistent h s g) (tidy : s.Tidy t) :
    ∃ g', Moved h s t g g' := by
  by_cases moves : (s.threads t).pc.movesClaim = true
  · generalize pc : (s.threads t).pc = p at moves
    cases p with
    | segSuspend c => exact ⟨g, con.moved_segSuspend pc⟩
    | resetTarget => exact ⟨g, con.moved_resetTarget pc⟩
    | publish => exact con.moved_publish pc (tidy.publish pc)
    | store b rest =>
      cases rest with
      | nil => exact ⟨g, con.moved_noStores pc⟩
      | cons q rest => exact con.moved_store pc (tidy.store _ _ _ _ pc)
    | _ => cases moves
  · rw [Bool.not_eq_true] at moves
    by_cases splits : (s.threads t).pc = .split
    · exact ⟨_, con.moved_split splits⟩
    · refine ⟨g, con.moved_quiet (act_local moves splits) (act_status moves) fun eq => ?_⟩
      rw [eq] at moves
      cases moves

theorem Consistent.tick (con : Consistent h s g) (tidy : s.Tidy t) :
    ∃ g', Consistent h (s.tick h t) g' := by
  obtain ⟨g', moved⟩ := con.simulated tidy
  obtain ⟨susp, held⟩ := con.locks.held
  -- the depth changes with a publication only, and then no thread is inside the directory
  have stays : (s.threads t).pc = .publish ∨ (s.tick h t).table.cur.depth = s.table.cur.depth := by
    by_cases publishes : ∃ x s0 s1, (act h s.table (s.threads t)).1 = .publish x s0 s1
    · obtain ⟨x, s0, s1, eq⟩ := publishes
      exact Or.inl (act_publish eq).1
    · exact Or.inr (Effect.dir_apply fun x s0 s1 eq => publishes ⟨x, s0, s1, eq⟩).2.2.1
  refine ⟨g', con.alloc.tick t, con.locks.tick con.alloc t, moved.inv, moved.pub_lt,
    moved.prefixed, ?_⟩
  refine (Function.forall_update_iff s.threads fun _ l => l.Facts h (s.tick h t).table g').mpr
    ⟨?_, fun u _ => ?_⟩
  · exact (con.facts t).act (con.alloc.threads t) con.named moved.ext stays moved.split
  · refine (con.facts u).frame (con.alloc.threads u) moved.ext fun inside =>
      stays.resolve_left fun fills => ?_
    have mem : u ∈ s.storers := mem_storers.mpr inside
    rw [(held.filling t fills).2] at mem
    exact absurd mem (Finset.notMem_empty u)

theorem Consistent.call (con : Consistent h s g) (idle : (s.threads t).pc = .idle) {start : Pc}
    (key : Key) (value : Value) (fresh : start = .readDepth ∨ start = .getSpin) :
    Consistent h (s.call t start key value) g := by
  refine ⟨con.alloc.call t key value ?_, con.locks.call idle key value fresh, ?_, con.pub_lt,
    con.prefixed, ?_⟩
  · rcases fresh with rfl | rfl <;> rfl
  · refine con.inv.congr rfl (fun _ _ => rfl) rfl ?_ (fun _ _ => rfl) (fun _ _ => rfl)
      fun _ _ locked => locked
    funext u
    refine Function.forall_update_iff s.threads (fun u l => l.status = (s.threads u).status) |>.mpr
      ⟨?_, fun _ _ => rfl⟩ u
    rw [Thread.status_of idle]
    rcases fresh with rfl | rfl <;> rfl
  · refine (Function.forall_update_iff s.threads fun _ l => l.Facts h s.table g).mpr
      ⟨?_, fun u _ => con.facts u⟩
    rcases fresh with rfl | rfl <;> exact ⟨nofun, nofun, nofun, nofun, nofun⟩

theorem Consistent.step {s' : State T} (con : Consistent h s g) (step : TidyStep h s s') :
    ∃ g', Consistent h s' g' := by
  cases step with
  | insert t key value idle => exact ⟨g, con.call idle key value (Or.inl rfl)⟩
  | get t key idle => exact ⟨g, con.call idle key noneValue (Or.inr rfl)⟩
  | tick t tidy => exact con.tick tidy

omit [DecidableEq T] in
/-- Entry `j` of a new table holds segment `j`, whose prefix is `j`. -/
theorem consistent_initial {depth : Nat} {tab : Table} (pos : 1 ≤ depth)
    (made : Table.construct depth = some tab) :
    Consistent h (initial T tab) ⟨id, fun a => a < 2 ^ depth⟩ := by
  obtain ⟨low, fresh, nseg, _, level, _, sema, entries⟩ := Table.construct_spec made
  have levels : ∀ a, tab.level a = depth := by
    intro a
    unfold Table.level
    rw [fresh a]
    rfl
  refine ⟨alloc_initial made, dirLocked_initial pos made, ?_, fun a lt => lt.trans_eq nseg.symm,
    ?_, ?_⟩
  · have entry : ∀ j < 2 ^ depth, tab.cur.entries j = j := fun j lt => (entries j).trans (if_pos lt)
    rw [← level] at entry
    refine ⟨?_, ?_, ?_, ?_, ?_, ?_, ?_, nofun, nofun, nofun⟩
    · intro j lt
      show tab.cur.entries j < 2 ^ depth
      rw [entry j lt, ← level]
      exact lt
    · intro j lt
      show j / 2 ^ (tab.cur.depth - tab.level (tab.cur.entries j)) = tab.cur.entries j
      rw [levels, level, Nat.sub_self, pow_zero, Nat.div_one, entry j lt]
    · exact fun a _ => (levels a).trans_le level.ge
    · intro a lt
      show a < 2 ^ tab.level a
      rw [levels a]
      exact lt
    · exact fun _ _ _ _ _ same => same
    · exact fun a _ j _ => Or.inl (by
        show tab.level a ≤ tab.level (tab.cur.entries j)
        rw [levels, levels])
    · exact fun a _ => Or.inl fun j _ => by
        show tab.level (tab.cur.entries j) ≤ tab.level a
        rw [levels, levels]
  · intro a _ i live
    exact absurd (show (((initial T tab).table.segs a).slots i).key = invalidKey by
      show ((tab.segs a).slots i).key = _
      rw [fresh a]
      rfl) live
  · exact fun t => ⟨nofun, nofun, nofun, nofun, nofun⟩

theorem consistent_of_run {depth : Nat} {tab : Table} (pos : 1 ≤ depth)
    (made : Table.construct depth = some tab) (run : ReflTransGen (TidyStep h) (initial T tab) s) :
    ∃ g, Consistent h s g := by
  induction run with
  | refl => exact ⟨_, consistent_initial pos made⟩
  | tail _ step ih =>
    obtain ⟨g, con⟩ := ih
    exact con.step step

omit [DecidableEq T] in
theorem Consistent.aligned (con : Consistent h s g) (settled : s.Settled) : s.table.Aligned h := by
  have quiet : ∀ t a lo hi rest, (s.directory g).status t ≠ .storing a lo hi rest := by
    intro t a lo hi rest storing
    have stores : (s.threads t).status = .storing a lo hi rest := storing
    generalize pc : (s.threads t).pc = p
    rw [Thread.status_of pc] at stores
    cases p with
    | store b left =>
      cases b with
      | false => cases stores
      | true =>
        rw [settled t left pc] at stores
        cases stores
    | segSuspend c => cases c <;> cases stores
    | _ => cases stores
  have owned := con.inv.owned quiet
  refine ⟨owned.level_le, owned.block, fun d hd i live key => ?_⟩
  have lt := con.pub_lt _ (con.inv.entry_pub d hd)
  exact (con.prefixed _ lt i live key).trans (con.inv.entry_pre d hd).symm

/-- Any number of threads call `Insert` and `Get`, one access at a time. If every store to
the directory replaces an entry of the thread's own target, and every directory is
published for a target as deep as the directory it replaces, then in every state in which
no thread is between its first and last store each segment owns its aligned block, and its
keys have the prefix of the block. -/
theorem settled_directory_aligned {depth : Nat} {tab : Table} (pos : 1 ≤ depth)
    (made : Table.construct depth = some tab) (run : ReflTransGen (TidyStep h) (initial T tab) s)
    (settled : s.Settled) : s.table.Aligned h := by
  obtain ⟨g, con⟩ := consistent_of_run pos made run
  exact con.aligned settled

end

/-- Thread 0 doubles the directory, and thread 1 splits the segment that is left of the old
depth. -/
theorem settled_directory_aligned_grown :
    ∃ (tab : Table) (s : State (Fin 2)), Table.construct 1 = some tab ∧
    ReflTransGen (TidyStep id) (initial (Fin 2) tab) s ∧ s.Settled ∧ s.table.cur.depth = 2 ∧
      s.table.cur.entries 0 = 2 ∧ s.table.cur.entries 1 = 3 ∧ s.table.cur.entries 2 = 4 ∧
      s.table.cur.entries 3 = 5 ∧ s.table.Aligned id := by
  obtain ⟨tab, made⟩ : ∃ tab, Table.construct 1 = some tab := ⟨_, rfl⟩
  obtain ⟨full, stores, two⟩ := Table.twoFull_stores made
  have lift : ∀ (s : State (Fin 2)) t, Thread.Tame id s.table (s.threads t) →
      TidyStep id s (s.tick id t) :=
    fun s t tame => .tick s t ⟨tame.publish, tame.store⟩
  obtain ⟨s₁, run₁, rfl, idle, others⟩ := run_of_stores (t := (0 : Fin 2)) lift
    (fun s t key value idle _ => .insert s t key value idle) stores (s := initial (Fin 2) tab) rfl
      (fun op mem => ((Table.twoWindows_valid op mem).imp_right And.left)) rfl
  obtain ⟨s, run, idle₀, pc, _, grown⟩ := run_of_twoFull lift
    (fun s t key value idle _ => .insert s t key value idle) two
    (Fin.forall_fin_two.mpr ⟨idle, by rw [others 1 (by decide)]; rfl⟩)
  have settled : s.Settled := by
    refine Fin.forall_fin_two.mpr ⟨fun _ stores => ?_, fun _ stores => ?_⟩
    · cases idle₀.symm.trans stores
    · cases pc.symm.trans stores
  have all := run₁.trans run
  have entries := grown.entries
  exact ⟨tab, s, made, all, settled, grown.depth, entries 0 (by decide), entries 1 (by decide),
    entries 2 (by decide), entries 3 (by decide),
    settled_directory_aligned (le_refl 1) made all settled⟩

/-- Two doublings: thread 0 has compared the depths when thread 1 doubles the directory, and
then fills its own for the index it read before. -/
theorem doublings_misalign : ∃ (tab : Table) (s : State (Fin 2)), Table.construct 1 = some tab ∧
    ReflTransGen (Step id) (initial (Fin 2) tab) s ∧ s.Settled ∧ s.table.cur.depth = 3 ∧
      s.table.cur.entries 0 = 2 ∧ (s.table.segs 2).localDepth = 2 ∧ s.table.cur.entries 1 = 3 ∧
      ¬ s.table.Aligned id := by
  obtain ⟨tab, made⟩ : ∃ tab, Table.construct 1 = some tab := ⟨_, rfl⟩
  obtain ⟨full, stores, two⟩ := Table.twoFull_stores made
  -- thread 0 fills both windows
  obtain ⟨s₁, run₁, rfl, idle₁, others₁⟩ :=
    quiet_of_calls (t := (0 : Fin 2)) (alloc_initial (T := Fin 2) made) rfl stores.calls
  have other₁ : (s₁.threads 1).pc = .idle := by
    rw [others₁ 1 (by decide)]
    rfl
  -- thread 0 starts one more call, splits segment 0 and is about to suspend the directory
  let l := { s₁.threads 0 with pc := .readDepth, key := 0, value := 1 }
  have low : s₁.table.target id l.key = 0 := two.low
  have compares₂ :=
    @Alone.compares id Thread.Unchecked _ s₁.table l nofun (two.idle _ (two.inv.index_lt 0))
    (two.inv.crowded (low ▸ two.lowFull)) (two.inv.target_lt 0)
  rw [if_pos two.atTop] at compares₂
  obtain ⟨s₂, run₂, table₂, threads₂⟩ :=
    run_of_call QuietStep.of_unchecked (.insert s₁ 0 0 1 idle₁) compares₂
  have split₂ : s₂.table = s₁.table.splitOff id 0 := table₂.trans (by rw [low])
  -- thread 1 splits segment 1 and doubles the directory
  have idle₂ : (s₂.threads 1).pc = .idle := by
    rw [threads₂, update_of_ne Fin.zero_ne_one.symm]
    exact other₁
  let m := { s₂.threads 1 with pc := .readDepth, key := highKey, value := 1 }
  have high : s₂.table.target id m.key = 1 := by
    rw [split₂]
    exact two.high
  have seg₂ : s₂.table.segs 1 = s₁.table.segs 1 := by rw [split₂, two.split_high]
  have cur₂ : s₂.table.cur = s₁.table.cur := by rw [split₂, Table.splitOff_cur]
  have compares :=
    @Alone.compares id Thread.Unchecked _ s₂.table m nofun (by rw [high, seg₂, two.high_sema])
    (by rw [high, seg₂, cur₂]; exact two.high_crowded)
    (by rw [high, split₂, Table.splitOff_nseg, two.nseg]; decide)
  rw [if_pos (by rw [high, seg₂, cur₂, two.levels 1 (by decide), two.depth]), high] at compares
  have publishes := @Alone.publishes id Thread.Unchecked _ (s₂.table.splitOff id 1)
    { m.read id s₂.table with
      s0 := s₂.table.nseg, s1 := s₂.table.nseg + 1, pc := .toDirSuspend } nofun
    (by rw [Table.splitOff_cur, cur₂, two.inv.free])
    (by rw [Table.splitOff_cur, cur₂, two.inv.capacity, two.depth]; decide)
  obtain ⟨s₃, run₃, table₃, threads₃⟩ :=
    run_of_call QuietStep.of_unchecked (.insert s₂ 1 highKey 1 idle₂)
    (compares.trans publishes)
  have cur₃ : s₃.table.cur.sema = 0 ∧ s₃.table.cur.depth = 2 ∧ s₃.table.cur.capacity = 4 := by
    rw [table₃, Table.publish_cur, Table.setDirSema_depth, Table.splitOff_cur, cur₂, two.depth]
    exact ⟨rfl, rfl, rfl⟩
  -- thread 0 doubles it again, for the index of the old directory
  have mine : s₃.threads 0 = { l.read id s₁.table with s0 := 2, s1 := 3, pc := .toDirSuspend } := by
    rw [threads₃, update_of_ne Fin.zero_ne_one, threads₂, update_self, two.nseg]
  have x : index s₁.table.cur.depth (id 0) = 0 := by
    rw [two.depth]
    rfl
  obtain ⟨q, last, table, pc⟩ : ∃ q, Alone id Thread.Unchecked (s₃.table, s₃.threads 0) q ∧
      q.1 = (s₃.table.setDirSema s₃.table.dir (-1)).publish 0 2 3 ∧ q.2.pc = .readDepth := by
    rw [mine, ← x]
    exact ⟨_, @Alone.publishes id _ _ s₃.table { l.read id s₁.table with
      s0 := 2, s1 := 3, pc := .toDirSuspend } nofun cur₃.1 (by rw [cur₃.2.2]; decide), rfl, rfl⟩
  obtain ⟨s₄, run₄, table₄, threads₄⟩ := run_of_alone QuietStep.of_unchecked last
  rw [table] at table₄
  have entries : ∀ j < 8, s₄.table.cur.entries j =
      doubled (s₃.table.setDirSema s₃.table.dir (-1)).cur.entries 0 2 3 j := by
    intro j lt
    rw [table₄, Table.publish_cur]
    exact writeAll_doublingStores _ _ (by rw [Table.setDirSema_capacity, cur₃.2.2]; exact lt)
  have depth : s₄.table.cur.depth = 3 := by
    rw [table₄, Table.publish_cur, Table.setDirSema_depth, cur₃.2.1]
  have zero : s₄.table.cur.entries 0 = 2 := entries 0 (by decide)
  have one : s₄.table.cur.entries 1 = 3 := entries 1 (by decide)
  have level : (s₄.table.segs 2).localDepth = 2 := by
    rw [table₄, Table.publish_segs, Table.setDirSema_segs, table₃, Table.publish_segs,
      Table.setDirSema_segs,
      Table.splitOff_localDepth _ _ _ (by rw [split₂, Table.splitOff_nseg, two.nseg]; decide),
        split₂]
    have half := Table.splitOff_low id s₁.table 0
    rw [two.nseg] at half
    rw [half, (Segment.split_localDepth _).1, two.levels 0 (by decide)]
  have run := run_of_quiet (((run₁.trans run₂).trans run₃).trans run₄)
  refine ⟨tab, s₄, made, run, ?_, depth, zero, level, one, fun aligned => ?_⟩
  · intro t rest stores
    match t with
    | 0 =>
      rw [threads₄, update_self, pc] at stores
      cases stores
    | 1 =>
      rw [threads₄, update_of_ne Fin.zero_ne_one.symm, threads₃, update_self]
        at stores
      cases stores
  · -- segment 2 has depth 2 of 3, so entries 0 and 1 should both hold it
    have block := aligned.block 0 (by rw [depth]; decide) 1 (by rw [depth]; decide)
    rw [zero, one, level, depth] at block
    exact absurd (block.mpr (by decide)) (by decide)

end State

end Xcache.CCEH
