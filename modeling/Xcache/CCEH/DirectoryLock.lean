import Xcache.CCEH.Steps

/-! The lock word of the directory under any interleaving: directories that were replaced
stay suspended, the word of the current one counts the threads that store into it, and
while a new directory is filled there is none. -/

namespace Xcache.CCEH
open SuspendLock (LockPc UnlockPc SuspendPc Out Word Sound)
open Relation (ReflTransGen)

/-- Between a successful `dir->lock()` and the end of `dir->unlock()`. -/
def Pc.insideDir : Pc → Bool
  | .readStores | .store .. | .toDirUnlock | .dirUnlock _ => true
  | _ => false

/-- The steps that store to the lock word of a directory. -/
def Pc.usesDirLock : Pc → Bool
  | .dirLock _ | .dirUnlock _ | .dirSuspend _ => true
  | _ => false

/-- The steps at which `this` is the current directory for certain. -/
def Pc.holdsDir : Pc → Bool
  | .dirSuspend (.wait _) | .publish | .dirUnlock _ => true
  | _ => false

section
variable {h : Key → BitVec 64} {tab : Table} {l : Thread}

theorem act_dirSema {p : Nat} {v : Int} (uses : (act h tab l).1 = .dirSema p v) :
    l.pc.usesDirLock = true ∧ p = l.this := by
  unfold act at uses
  split at uses <;> (try split at uses) <;> (try split at uses) <;>
    first
    | contradiction
    | (rcases Thread.run_effect .. with none | ⟨v, eq⟩
       · cases none.symm.trans uses
       · cases eq.symm.trans uses <;> (rw [‹l.pc = _›]; exact ⟨rfl, rfl⟩))

theorem act_insideDir (away : l.pc.usesDirLock = false) :
    (act h tab l).2.pc.insideDir = l.pc.insideDir := by
  unfold act
  split <;> (try split) <;> (try split) <;> rw [‹l.pc = _›] at away ⊢ <;>
    first
    | rfl
    | contradiction
    | (rcases Thread.run_pc .. with ⟨c, eq⟩ | ⟨b, eq⟩
       · rw [eq]; rfl
       · rw [eq]
         first
         | (cases b <;> rfl)
         | (rename_i next _; cases next <;> rfl))

/-- A thread comes to wait for the directory, or to fill a new one, through `suspend`. -/
theorem act_holdsDir (holds : (act h tab l).2.pc.holdsDir = true) :
    l.pc.usesDirLock = true ∨ l.pc = .publish ∨ l.pc = .toDirUnlock := by
  unfold act at holds
  split at holds <;> (try split at holds) <;> (try split at holds) <;>
    first
    | contradiction
    | exact Or.inr (Or.inl ‹_›)
    | exact Or.inr (Or.inr ‹_›)
    | (rw [‹l.pc = _›]; exact Or.inl rfl)
    | (rw [‹l.pc = _›] at holds; contradiction)
    | (rcases Thread.run_pc .. with ⟨c, eq⟩ | ⟨b, eq⟩
       · rw [eq] at holds; contradiction
       · rw [eq] at holds
         first
         | contradiction
         | (cases b <;> contradiction)
         | (rename_i next _; cases next <;> contradiction))

theorem Effect.dir_apply {e : Effect} (other : ∀ x s0 s1, e ≠ .publish x s0 s1) :
    (e.apply h tab).dir = tab.dir ∧ (e.apply h tab).ndir = tab.ndir ∧
      (e.apply h tab).cur.depth = tab.cur.depth ∧
        (e.apply h tab).cur.capacity = tab.cur.capacity := by
  cases e with
  | publish x s0 s1 => exact absurd rfl (other x s0 s1)
  | dirSema p v => exact ⟨rfl, rfl, tab.setDirSema_depth p v, tab.setDirSema_capacity p v⟩
  | entry j a =>
    refine ⟨rfl, rfl, ?_, ?_⟩ <;> simp only [Effect.apply, Table.setEntry_cur]
  | _ => exact ⟨rfl, rfl, rfl, rfl⟩

theorem Effect.dirSema_apply {e : Effect} (noSema : ∀ p v, e ≠ .dirSema p v)
    (noPublish : ∀ x s0 s1, e ≠ .publish x s0 s1) (p : Nat) :
    ((e.apply h tab).dirs p).sema = (tab.dirs p).sema := by
  cases e with
  | publish x s0 s1 => exact absurd rfl (noPublish x s0 s1)
  | dirSema q v => exact absurd rfl (noSema q v)
  | entry j a =>
    show (Function.update tab.dirs tab.dir _ p).sema = _
    rw [Function.update_apply]
    split
    · rename_i here
      rw [here]
      rfl
    · rfl
  | _ => rfl

end

namespace State
variable {T : Type} [DecidableEq T] [Fintype T] {h : Key → BitVec 64}

def storers (s : State T) : Finset T :=
  Finset.univ.filter fun t => (s.threads t).pc.insideDir = true

def dirWord (s : State T) (susp : Option (T × Nat)) : Word T :=
  ⟨s.table.cur.sema, s.storers, susp⟩

/-- Which suspension of the current directory is in force. -/
structure DirHeld (s : State T) (susp : Option (T × Nat)) : Prop where
  sound : Sound (s.dirWord susp)
  waiting : ∀ t v, (s.threads t).pc = .dirSuspend (.wait v) → susp = some (t, v)
  filling : ∀ t, (s.threads t).pc = .publish → (∃ v, susp = some (t, v)) ∧ s.storers = ∅

structure DirLocked (s : State T) : Prop where
  old : ∀ p < s.table.ndir, p ≠ s.table.dir → (s.table.dirs p).sema < 0
  this : ∀ t, (s.threads t).pc.holdsDir = true → (s.threads t).this = s.table.dir
  held : ∃ susp, s.DirHeld susp
  depth_pos : 1 ≤ s.table.cur.depth
  depth_le : s.table.cur.depth ≤ 32
  capacity : s.table.cur.capacity = 2 ^ s.table.cur.depth

variable {s s' : State T} {t : T} {susp : Option (T × Nat)}

omit [DecidableEq T] in
theorem mem_storers : t ∈ s.storers ↔ (s.threads t).pc.insideDir = true := by
  simp [storers]

theorem storers_update (tab : Table) (l : Thread) (note : Nat → Option (T × Nat)) :
    (State.mk tab (Function.update s.threads t l) note).storers =
      if l.pc.insideDir then insert t s.storers else s.storers.erase t :=
  SuspendLock.holders_update (fun l : Thread => l.pc.insideDir = true) s.threads t l

theorem storers_update_same {l : Thread} (same : l.pc.insideDir = (s.threads t).pc.insideDir)
    (tab : Table) (note : Nat → Option (T × Nat)) :
    (State.mk tab (Function.update s.threads t l) note).storers = s.storers :=
  SuspendLock.holders_update_same (P := fun l : Thread => l.pc.insideDir = true) (by rw [same])

omit [DecidableEq T] in
theorem DirLocked.current (dl : s.DirLocked) (alloc : s.Alloc)
    (nonneg : 0 ≤ (s.table.dirs (s.threads t).this).sema) : (s.threads t).this = s.table.dir := by
  by_contra away
  exact absurd (dl.old _ (alloc.threads t).this away) (not_lt.mpr nonneg)

theorem dirWord_away (away : (s.threads t).pc.usesDirLock = false)
    (noPublish : ∀ x s0 s1, (act h s.table (s.threads t)).1 ≠ .publish x s0 s1) :
    (s.tick h t).dirWord susp = s.dirWord susp := by
  have noSema : ∀ p v, (act h s.table (s.threads t)).1 ≠ .dirSema p v := by
    intro p v eq
    rw [(act_dirSema eq).1] at away
    cases away
  have sema : (s.tick h t).table.cur.sema = s.table.cur.sema := by
    unfold Table.cur
    rw [show (s.tick h t).table.dir = s.table.dir from (Effect.dir_apply noPublish).1]
    exact Effect.dirSema_apply noSema noPublish _
  unfold dirWord
  rw [sema]
  unfold tick
  rw [storers_update_same (act_insideDir away)]

theorem dirWord_quiet {l : Thread} (eq : act h s.table (s.threads t) = (.none, l))
    (same : l.pc.insideDir = (s.threads t).pc.insideDir) :
    (s.tick h t).dirWord susp = s.dirWord susp := by
  rw [tick_eq eq]
  unfold dirWord
  rw [storers_update_same same]
  rfl

theorem dirWord_store {l : Thread} {v : Int} (susp : Option (T × Nat))
    (eq : act h s.table (s.threads t) = (.dirSema (s.threads t).this v, l))
    (here : (s.threads t).this = s.table.dir) : (s.tick h t).dirWord susp =
      ⟨v, if l.pc.insideDir then insert t s.storers else s.storers.erase t, susp⟩ := by
  rw [tick_eq eq]
  unfold dirWord
  rw [storers_update, here]
  congr 1
  exact congrArg Directory.sema (Table.setDir_cur rfl _)

/-- A step on the lock word of the directory, and what its thread may rely on afterwards. -/
structure DirMove (h : Key → BitVec 64) (s : State T) (t : T)
    (susp susp' : Option (T × Nat)) : Prop where
  word : (s.tick h t).dirWord susp' = s.dirWord susp ∨
    SuspendLock.Step t (s.dirWord susp) ((s.tick h t).dirWord susp')
  waits : ∀ v, (act h s.table (s.threads t)).2.pc = .dirSuspend (.wait v) → susp' = some (t, v)
  fills : (act h s.table (s.threads t)).2.pc = .publish →
    (∃ v, susp' = some (t, v)) ∧ (s.tick h t).storers = ∅

theorem DirMove.of_same (same : (s.tick h t).dirWord susp = s.dirWord susp)
    (rests : (act h s.table (s.threads t)).2.pc.holdsDir = false) : s.DirMove h t susp susp where
  word := Or.inl same
  waits v waits := by
    rw [waits] at rests
    cases rests
  fills fills := by
    rw [fills] at rests
    cases rests

theorem DirMove.quiet {l : Thread} (eq : act h s.table (s.threads t) = (.none, l))
    (same : l.pc.insideDir = (s.threads t).pc.insideDir) (rests : l.pc.holdsDir = false) :
    s.DirMove h t susp susp :=
  .of_same (dirWord_quiet eq same) (by rwa [eq])

theorem DirMove.store {l : Thread} {v : Int} {susp' : Option (T × Nat)}
    (eq : act h s.table (s.threads t) = (.dirSema (s.threads t).this v, l))
    (here : (s.threads t).this = s.table.dir)
    (step : SuspendLock.Step t (s.dirWord susp)
      ⟨v, if l.pc.insideDir then insert t s.storers else s.storers.erase t, susp'⟩)
    (waits : ∀ val, l.pc = .dirSuspend (.wait val) → susp' = some (t, val))
    (fills : l.pc ≠ .publish) :
    s.DirMove h t susp susp' where
  word := Or.inr (dirWord_store susp' eq here ▸ step)
  waits := by rwa [eq]
  fills := by
    rw [eq]
    exact fun publish => absurd publish fills

theorem DirLocked.suspend_move (dl : s.DirLocked) (alloc : s.Alloc) (held : s.DirHeld susp)
    {c : SuspendPc} (pcEq : (s.threads t).pc = .dirSuspend c) :
    ∃ susp', s.DirMove h t susp susp' := by
  have inside : (s.threads t).pc.insideDir = false := by
    rw [pcEq]
    rfl
  rcases SuspendLock.suspend_cases (s.table.dirs (s.threads t).this).sema c with
    ⟨c', eq, same⟩ | ⟨_, eq⟩ | ⟨_, val, found, eq⟩ | ⟨val, waits, done, eq⟩
  · have step : act h s.table (s.threads t) = (.none, (s.threads t).goto (.dirSuspend c')) := by
      simp only [act, pcEq, eq]
      rfl
    refine ⟨susp, Or.inl (dirWord_quiet step inside.symm), ?_, by rw [step]; exact nofun⟩
    intro v waits
    rw [step] at waits
    cases waits
    refine held.waiting t v ?_
    rw [pcEq]
    cases c <;> cases same
    rfl
  · exact ⟨susp, .quiet (l := (s.threads t).goto .resetTarget) (by simp only [act, pcEq, eq]; rfl)
      inside.symm rfl⟩
  · have here := dl.current alloc (t := t) (by rw [found]; exact Int.natCast_nonneg _)
    have out : t ∉ s.storers :=
      fun mem => Bool.false_ne_true (inside.symm.trans (mem_storers.mp mem))
    refine ⟨some (t, val), .store (l := (s.threads t).goto (.dirSuspend (.wait val)))
      (by simp only [act, pcEq, eq]; rfl) here ?_ (fun v waits => by cases waits; rfl)
        (by exact nofun)⟩
    rw [Thread.goto_pc, if_neg (by exact nofun), Finset.erase_eq_self.mpr out]
    rw [here] at found
    exact SuspendLock.Step.suspend val found
  · have wait : c = .wait val := by
      cases c <;> cases waits
      rfl
    have mine : susp = some (t, val) := held.waiting t val (wait ▸ pcEq)
    have here := dl.this t (by rw [pcEq, wait]; rfl)
    rw [here] at done
    have step : act h s.table (s.threads t) = (.none, (s.threads t).goto .publish) := by
      simp only [act, pcEq, eq]
      rfl
    have same : (s.tick h t).dirWord susp = s.dirWord susp := dirWord_quiet step inside.symm
    exact ⟨susp, Or.inl same, by rw [step]; exact nofun,
      fun _ => ⟨⟨val, mine⟩, (congrArg Word.inside same).trans (held.sound.drained mine done)⟩⟩

/-- Every step but a publication follows the protocol of the lock. -/
theorem DirLocked.tick_word (dl : s.DirLocked) (alloc : s.Alloc) (held : s.DirHeld susp) (t : T)
    (noPublish : ∀ x s0 s1, (act h s.table (s.threads t)).1 ≠ .publish x s0 s1) :
    ∃ susp', s.DirMove h t susp susp' := by
  generalize pcEq : (s.threads t).pc = pc
  cases pc with
  | dirLock c =>
    have inside : (s.threads t).pc.insideDir = false := by
      rw [pcEq]
      rfl
    rcases SuspendLock.lock_cases (s.table.dirs (s.threads t).this).sema c with
      ⟨c', eq⟩ | eq | ⟨nonneg, eq⟩
    · exact ⟨susp, .quiet (l := (s.threads t).goto (.dirLock c'))
        (by simp only [act, pcEq, eq]; rfl) inside.symm rfl⟩
    · exact ⟨susp, .quiet (l := (s.threads t).goto .resetTarget) (by simp only [act, pcEq, eq]; rfl)
        inside.symm rfl⟩
    · have here := dl.current alloc nonneg
      have out : t ∉ s.storers :=
        fun mem => Bool.false_ne_true (inside.symm.trans (mem_storers.mp mem))
      refine ⟨susp, .store (l := (s.threads t).goto .readStores) (by simp only [act, pcEq, eq]; rfl)
        here ?_ (by exact nofun) (by exact nofun)⟩
      rw [here] at nonneg ⊢
      exact SuspendLock.Step.acquire nonneg out
  | dirUnlock c =>
    have inside : (s.threads t).pc.insideDir = true := by
      rw [pcEq]
      rfl
    have here := dl.this t (by rw [pcEq]; rfl)
    rcases SuspendLock.unlock_cases (s.table.dirs (s.threads t).this).sema c with ⟨c', eq⟩ | eq
    · refine ⟨susp, Or.inl (dirWord_quiet (l := (s.threads t).goto (.dirUnlock c'))
        (by simp only [act, pcEq, eq]; rfl)
        inside.symm), ?_, ?_⟩ <;> simp only [act, pcEq, eq] <;> exact nofun
    · refine ⟨susp, .store (l := (s.threads t).goto .readDepth) (by simp only [act, pcEq, eq]; rfl)
        here ?_ (by exact nofun) (by exact nofun)⟩
      rw [here]
      exact SuspendLock.Step.release (mem_storers.mpr inside)
  | dirSuspend c => exact dl.suspend_move alloc held pcEq
  | publish =>
    have same : (s.tick h t).dirWord susp = s.dirWord susp :=
      dirWord_away (by rw [pcEq]; rfl) noPublish
    obtain ⟨mine, empty⟩ := held.filling t pcEq
    refine ⟨susp, Or.inl same, fun v waits => ?_,
      fun _ => ⟨mine, (congrArg Word.inside same).trans empty⟩⟩
    simp only [act, pcEq] at waits
    split at waits
    · cases pcEq.symm.trans waits
    · cases waits
  | toDirUnlock =>
    refine ⟨susp, Or.inl (dirWord_away (by rw [pcEq]; rfl) noPublish), ?_, ?_⟩ <;>
      simp only [act, pcEq] <;> exact nofun
  | _ =>
    refine ⟨susp, .of_same (dirWord_away (by rw [pcEq]; rfl) noPublish)
      (Bool.eq_false_iff.mpr fun holds => ?_)⟩
    rcases act_holdsDir holds with uses | eq | eq
    · rw [pcEq] at uses
      cases uses
    · cases pcEq.symm.trans eq
    · cases pcEq.symm.trans eq

theorem DirLocked.tick_held (dl : s.DirLocked) (alloc : s.Alloc) (t : T)
    (noPublish : ∀ x s0 s1, (act h s.table (s.threads t)).1 ≠ .publish x s0 s1) :
    ∃ susp, (s.tick h t).DirHeld susp := by
  obtain ⟨susp, held⟩ := dl.held
  obtain ⟨susp', moved, waits, fills⟩ := dl.tick_word alloc held t noPublish
  have stays : ∀ t', t' ≠ t → ∀ v, susp = some (t', v) → susp' = some (t', v) := by
    intro t' other v eq
    rcases moved with same | step
    · exact (congrArg Word.susp same).trans eq
    · exact step.susp_other held.sound eq other
  have empty : ∀ t' v, susp = some (t', v) → s.storers = ∅ → (s.tick h t).storers = ∅ := by
    intro t' v eq none
    rcases moved with same | step
    · exact (congrArg Word.inside same).trans none
    · exact step.inside_empty held.sound eq none
  refine ⟨susp', ?_, ?_, ?_⟩
  · rcases moved with same | step
    · rw [same]
      exact held.sound
    · exact step.sound held.sound
  · refine (Function.forall_update_iff s.threads fun t' l => ∀ v, l.pc = .dirSuspend (.wait v) →
      susp' = some (t', v)).mpr ⟨waits, fun t' other v eq =>
        stays t' other v (held.waiting t' v eq)⟩
  · refine (Function.forall_update_iff s.threads fun t' l => l.pc = .publish →
      (∃ v, susp' = some (t', v)) ∧ (s.tick h t).storers = ∅).mpr ⟨fills, fun t' other eq => ?_⟩
    obtain ⟨⟨v, mine⟩, none⟩ := held.filling t' eq
    exact ⟨⟨v, stays t' other v mine⟩, empty t' v mine none⟩

omit [DecidableEq T] in
theorem DirHeld.alone (held : s.DirHeld susp) (fills : (s.threads t).pc = .publish) {t' : T}
    (other : t' ≠ t) :
    (s.threads t').pc.holdsDir = false := by
  obtain ⟨⟨v, mine⟩, empty⟩ := held.filling t fills
  generalize pcEq : (s.threads t').pc = pc
  cases pc with
  | publish =>
    obtain ⟨⟨v', theirs⟩, _⟩ := held.filling t' pcEq
    cases mine.symm.trans theirs
    exact absurd rfl other
  | dirSuspend c =>
    cases c with
    | wait v' =>
      cases mine.symm.trans (held.waiting t' v' pcEq)
      exact absurd rfl other
    | _ => rfl
  | dirUnlock c =>
    have mem : t' ∈ s.storers := mem_storers.mpr (by rw [pcEq]; rfl)
    rw [empty] at mem
    exact absurd mem (Finset.notMem_empty t')
  | _ => rfl

omit [DecidableEq T] in
theorem DirLocked.stored (dl : s.DirLocked) (alloc : s.Alloc) {p : Nat} {v : Int}
    (stored : (act h s.table (s.threads t)).1 = .dirSema p v) : p = s.table.dir := by
  obtain ⟨uses, rfl⟩ := act_dirSema stored
  generalize pcEq : (s.threads t).pc = pc at uses
  cases pc with
  | dirLock c =>
    simp only [act, pcEq] at stored
    rcases SuspendLock.lock_cases (s.table.dirs (s.threads t).this).sema c with
      ⟨c', eq⟩ | eq | ⟨nonneg, _⟩
    · rw [eq] at stored
      cases stored
    · rw [eq] at stored
      cases stored
    · exact dl.current alloc nonneg
  | dirUnlock c => exact dl.this t (by rw [pcEq]; rfl)
  | dirSuspend c =>
    simp only [act, pcEq] at stored
    rcases SuspendLock.suspend_cases (s.table.dirs (s.threads t).this).sema c with
      ⟨c', eq, _⟩ | ⟨_, eq⟩ | ⟨_, val, found, _⟩ | ⟨_, _, _, eq⟩
    · rw [eq] at stored
      cases stored
    · rw [eq] at stored
      cases stored
    · exact dl.current alloc (by rw [found]; exact Int.natCast_nonneg _)
    · rw [eq] at stored
      cases stored
  | _ => cases uses

omit [DecidableEq T] in
theorem DirLocked.this_mine (dl : s.DirLocked) (alloc : s.Alloc)
    (holds : (act h s.table (s.threads t)).2.pc.holdsDir = true) :
    (act h s.table (s.threads t)).2.this = s.table.dir := by
  rcases act_this h s.table (s.threads t) with same | read
  · rw [same]
    rcases act_holdsDir holds with uses | eq | eq
    · generalize pcEq : (s.threads t).pc = pc at uses
      cases pc with
      | dirLock c =>
        simp only [act, pcEq] at holds
        rcases Thread.run_pc .. with ⟨c', eq⟩ | ⟨b, eq⟩
        · rw [eq] at holds
          cases holds
        · rw [eq] at holds
          cases b <;> cases holds
      | dirUnlock c => exact dl.this t (by rw [pcEq]; rfl)
      | dirSuspend c =>
        simp only [act, pcEq] at holds
        rcases SuspendLock.suspend_cases (s.table.dirs (s.threads t).this).sema c with
          ⟨c', eq, waits⟩ | ⟨_, eq⟩ | ⟨_, val, found, _⟩ | ⟨_, waits, _, _⟩
        · rw [eq] at holds
          refine dl.this t ?_
          rw [pcEq]
          cases c <;> cases c' <;> first | rfl | contradiction
        · rw [eq] at holds
          cases holds
        · exact dl.current alloc (by rw [found]; exact Int.natCast_nonneg _)
        · refine dl.this t ?_
          rw [pcEq]
          cases c <;> cases waits
          rfl
      | _ => cases uses
    · exact dl.this t (by rw [eq]; rfl)
    · simp only [act, eq] at same
      exact same.symm
  · exact read

theorem DirLocked.published (dl : s.DirLocked) {x s0 s1 : Nat}
    (eq : (act h s.table (s.threads t)).1 = .publish x s0 s1) : (s.tick h t).DirLocked := by
  obtain ⟨fills, fits, _⟩ := act_publish eq
  obtain ⟨susp, held⟩ := dl.held
  obtain ⟨⟨v, mine⟩, empty⟩ := held.filling t fills
  have step : act h s.table (s.threads t) = (.publish (s.threads t).x (s.threads t).s0
    (s.threads t).s1, (s.threads t).goto .readDepth) := by
    simp only [act, fills, if_neg (not_le.mpr fits)]
  have table : (s.tick h t).table = s.table.publish (s.threads t).x (s.threads t).s0
      (s.threads t).s1 := by
    rw [tick_eq step]
    rfl
  have idle : ∀ t', ((s.tick h t).threads t').pc.holdsDir = false := by
    refine (Function.forall_update_iff s.threads fun _ l => l.pc.holdsDir = false).mpr ⟨?_, ?_⟩
    · rw [step]
      rfl
    · exact fun t' other => held.alone fills other
  have storers : (s.tick h t).storers = ∅ := by
    rw [tick_eq step, storers_update_same, empty]
    rw [fills]
    rfl
  have low : s.table.cur.depth < 32 := by
    rw [dl.capacity, unsignedLimit] at fits
    exact (Nat.pow_lt_pow_iff_right (by decide)).mp fits
  refine ⟨fun p lt away => ?_, fun t' holds => ?_,
    ⟨none, ?_, fun t' v waits => ?_, fun t' fills' => ?_⟩, ?_, ?_, ?_⟩
  · rw [table] at lt away ⊢
    have old : p < s.table.ndir := lt_of_le_of_ne (Nat.lt_succ_iff.mp lt) away
    show (Function.update s.table.dirs s.table.ndir _ p).sema < 0
    rw [Function.update_of_ne old.ne]
    by_cases was : p = s.table.dir
    · rw [was]
      exact held.sound.sema_neg mine
    · exact dl.old p old was
  · rw [idle t'] at holds
    cases holds
  · show (s.tick h t).table.cur.sema = (s.tick h t).storers.card
    rw [storers, table, Table.publish_cur]
    rfl
  · have := idle t'
    rw [waits] at this
    cases this
  · have := idle t'
    rw [fills'] at this
    cases this
  · rw [table, Table.publish_cur]
    exact Nat.le_add_left 1 _
  · rw [table, Table.publish_cur]
    exact low
  · rw [table, Table.publish_cur]

theorem DirLocked.tick (dl : s.DirLocked) (alloc : s.Alloc) (t : T) : (s.tick h t).DirLocked := by
  by_cases publishes : ∃ x s0 s1, (act h s.table (s.threads t)).1 = .publish x s0 s1
  · obtain ⟨x, s0, s1, eq⟩ := publishes
    exact dl.published eq
  · have noPublish : ∀ x s0 s1, (act h s.table (s.threads t)).1 ≠ .publish x s0 s1 :=
      fun x s0 s1 eq => publishes ⟨x, s0, s1, eq⟩
    obtain ⟨dir, ndir, depth, capacity⟩ := @Effect.dir_apply h s.table _ noPublish
    refine ⟨fun p lt away => ?_, ?_, dl.tick_held alloc t noPublish, ?_, ?_, ?_⟩
    · have old := dl.old p (ndir ▸ lt) (dir ▸ away)
      by_cases uses : ∃ q v, (act h s.table (s.threads t)).1 = .dirSema q v
      · obtain ⟨q, v, eq⟩ := uses
        have apart : p ≠ q := fun same => away (same.trans ((dl.stored alloc eq).trans dir.symm))
        show (((act h s.table (s.threads t)).1.apply h s.table).dirs p).sema < 0
        rw [eq]
        exact (congrArg Directory.sema (Function.update_of_ne apart ..)).trans_lt old
      · exact (Effect.dirSema_apply (fun q v eq => uses ⟨q, v, eq⟩) noPublish p).trans_lt old
    · refine (Function.forall_update_iff s.threads fun t' l => l.pc.holdsDir = true →
        l.this = (s.tick h t).table.dir).mpr ⟨fun holds => ?_, fun t' _ holds => ?_⟩
      · exact (dl.this_mine alloc holds).trans dir.symm
      · exact (dl.this t' holds).trans dir.symm
    · exact dl.depth_pos.trans_eq depth.symm
    · exact depth.trans_le dl.depth_le
    · show ((act h s.table (s.threads t)).1.apply h s.table).cur.capacity = 2 ^ _
      rw [capacity, dl.capacity, ← depth]
      rfl

theorem DirLocked.call (dl : s.DirLocked) (idle : (s.threads t).pc = .idle) {start : Pc} (key : Key)
    (value : Value) (fresh : start = .readDepth ∨ start = .getSpin) :
    (s.call t start key value).DirLocked := by
  obtain ⟨old, this, ⟨susp, held⟩, pos, le, capacity⟩ := dl
  have storers : (s.call t start key value).storers = s.storers := by
    refine storers_update_same ?_ _ _
    rw [idle]
    rcases fresh with rfl | rfl <;> rfl
  refine ⟨old, ?_, ⟨susp, ?_, ?_, ?_⟩, pos, le, capacity⟩
  · refine (Function.forall_update_iff s.threads fun _ l => l.pc.holdsDir = true →
      l.this = s.table.dir).mpr ⟨fun holds => ?_, fun t' _ => this t'⟩
    rcases fresh with rfl | rfl <;> cases holds
  · unfold dirWord
    rw [storers]
    exact held.sound
  · refine (Function.forall_update_iff s.threads fun t' l => ∀ v, l.pc = .dirSuspend (.wait v) →
      susp = some (t', v)).mpr ⟨fun v waits => ?_, fun t' _ => held.waiting t'⟩
    rcases fresh with rfl | rfl <;> cases waits
  · refine (Function.forall_update_iff s.threads fun t' l => l.pc = .publish →
      (∃ v, susp = some (t', v)) ∧
      (s.call t start key value).storers = ∅).mpr ⟨fun fills => ?_, fun t' _ fills => ?_⟩
    · rcases fresh with rfl | rfl <;> cases fills
    · rw [storers]
      exact held.filling t' fills

omit [DecidableEq T] in
theorem dirLocked_initial {depth : Nat} {tab : Table} (pos : 1 ≤ depth)
    (made : Table.construct depth = some tab) :
    (initial T tab).DirLocked := by
  obtain ⟨low, _, _, _, level, capacity, sema, _⟩ := Table.construct_spec made
  have single : tab.ndir = 1 ∧ tab.dir = 0 := by
    unfold Table.construct at made
    split at made <;> cases made
    exact ⟨rfl, rfl⟩
  have empty : (initial T tab).storers = ∅ := Finset.filter_eq_empty_iff.mpr fun t _ => nofun
  refine ⟨fun p lt away => ?_, nofun, ⟨none, ?_, nofun, nofun⟩, level.symm ▸ pos, ?_, ?_⟩
  · have : p < tab.ndir := lt
    have : p ≠ tab.dir := away
    omega
  · show tab.cur.sema = ((initial T tab).storers.card : Int)
    rw [empty, sema]
    rfl
  · exact level.trans_le low.le
  · exact capacity.trans (by rw [show (initial T tab).table.cur.depth = depth from level])

end State

end Xcache.CCEH
