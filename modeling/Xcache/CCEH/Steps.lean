import Xcache.CCEH.Machine

/-! What one step of a thread can do: to its own variables, to the lock words and to the
directory. Every invariant of the machine is derived from these. -/

namespace Xcache.CCEH
open Function
open SuspendLock (LockPc UnlockPc SuspendPc Out Word Sound)

section Thread
variable {C : Type} (l : Thread) (pc : Pc) (out : Out C) (write : Int → Effect) (stay : C → Pc)
  (ret : Bool → Pc)

@[simp] theorem Thread.goto_pc : (l.goto pc).pc = pc := rfl
@[simp] theorem Thread.goto_target : (l.goto pc).target = l.target := rfl
@[simp] theorem Thread.goto_s0 : (l.goto pc).s0 = l.s0 := rfl
@[simp] theorem Thread.goto_s1 : (l.goto pc).s1 = l.s1 := rfl
@[simp] theorem Thread.goto_this : (l.goto pc).this = l.this := rfl

theorem Thread.run_snd : (l.run out write stay ret).2 = l.goto (l.run out write stay ret).2.pc := by
  cases out <;> rfl

theorem Thread.run_pc : (∃ c, (l.run out write stay ret).2.pc = stay c) ∨
    ∃ b, (l.run out write stay ret).2.pc = ret b := by
  cases out with
  | next c => exact Or.inl ⟨c, rfl⟩
  | ret b => exact Or.inr ⟨b, rfl⟩
  | storeNext v c => exact Or.inl ⟨c, rfl⟩
  | storeRet v b => exact Or.inr ⟨b, rfl⟩

theorem Thread.run_effect :
    (l.run out write stay ret).1 = .none ∨ ∃ v, (l.run out write stay ret).1 = write v := by
  cases out with
  | next c => exact Or.inl rfl
  | ret b => exact Or.inl rfl
  | storeNext v c => exact Or.inr ⟨v, rfl⟩
  | storeRet v b => exact Or.inr ⟨v, rfl⟩

end Thread

/-- Inside a segment: between a successful `lock` and the end of `unlock`. -/
def Pc.inside : Pc → Bool
  | .checkEntry | .checkDepth | .probeRead _ | .probeTest .. | .probeCas .. | .storeValue
    _ | .storeKey _
  | .segUnlock .. => true
  | _ => false

def Thread.inside (l : Thread) : Option Nat := if l.pc.inside then some l.target else none

/-- From the return of `suspend` on the segment to the end of the pass. -/
def Pc.afterWait : Pc → Bool
  | .checkSplit | .resetTarget | .split | .compareDepth | .toDirSuspend | .dirSuspend _ | .publish
  | .toDirLock | .dirLock _ | .readStores | .store .. | .toDirUnlock | .dirUnlock _ => true
  | _ => false

/-- The steps that store to the lock word of a segment. -/
def Pc.usesSegLock : Pc → Bool
  | .segLock _ | .segUnlock .. | .segSuspend _ | .resetTarget | .getUnlock _ => true
  | _ => false

/-- The steps that read an entry of the directory into `target`. -/
def Pc.readsTarget : Pc → Bool
  | .readEntry | .getEntry => true
  | _ => false

theorem Pc.stays_of_inside {pc : Pc} (inside : pc.inside = true) : pc.readsTarget = false := by
  cases pc <;> first | rfl | cases inside

theorem Pc.stays_of_afterWait {pc : Pc} (after : pc.afterWait = true) :
    pc.readsTarget = false ∧ pc.inside = false := by
  cases pc <;> first | exact ⟨rfl, rfl⟩ | cases after

section
variable {h : Key → BitVec 64} {tab : Table} {l : Thread}

theorem act_target (h : Key → BitVec 64) (tab : Table) (l : Thread) :
    (act h tab l).2.target = l.target ∨
      l.pc.readsTarget = true ∧ (act h tab l).2.target = tab.cur.entries l.x := by
  unfold act
  split <;> (try split) <;> (try split) <;>
    first
    | exact Or.inl rfl
    | exact Or.inr ⟨by rw [‹l.pc = _›]; rfl, rfl⟩
    | exact Or.inl (by rw [Thread.run_snd, Thread.goto_target])

theorem act_target_stays (away : l.pc.readsTarget = false) : (act h tab l).2.target = l.target := by
  rcases act_target h tab l with same | ⟨reads, _⟩
  · exact same
  · rw [reads] at away
    cases away

theorem act_sema {a : Nat} {v : Int} (uses : (act h tab l).1 = .sema a v) :
    l.pc.usesSegLock = true ∧ a = l.target := by
  unfold act at uses
  split at uses <;> (try split at uses) <;> (try split at uses) <;>
    first
    | contradiction
    | (cases uses; rw [‹l.pc = _›]; exact ⟨rfl, rfl⟩)
    | (rcases Thread.run_effect .. with none | ⟨v, eq⟩
       · cases none.symm.trans uses
       · cases eq.symm.trans uses <;> (rw [‹l.pc = _›]; exact ⟨rfl, rfl⟩))

theorem Effect.sema_apply {e : Effect} (away : ∀ a v, e ≠ .sema a v)
    (fresh : ∀ a, tab.nseg ≤ a → (tab.segs a).sema = 0) (a : Nat) :
    ((e.apply h tab).segs a).sema = (tab.segs a).sema := by
  cases e with
  | none => rfl
  | sema b v => exact absurd rfl (away b v)
  | slot b i p =>
    show (update tab.segs b _ a).sema = _
    by_cases same : a = b
    · rw [same, update_self, Segment.set_sema]
    · rw [update_of_ne same]
  | split b =>
    have halves := Segment.split_sema (h := h) (tab.segs b)
    rcases Nat.lt_trichotomy a tab.nseg with old | rfl | above
    · exact congrArg Segment.sema (tab.allocHalves_old _ old)
    · exact (congrArg Segment.sema (tab.allocHalves_low _)).trans
        (halves.1.trans (fresh _ (le_refl _)).symm)
    · by_cases high : a = tab.nseg + 1
      · subst high
        exact (congrArg Segment.sema (tab.allocHalves_high _)).trans
          (halves.2.trans (fresh _ (by omega)).symm)
      · have off : a ≠ tab.nseg := by omega
        simp only [Effect.apply, Table.allocHalves, update_of_ne high,
          update_of_ne off]
  | dirSema p v => rfl
  | entry j b => rfl
  | publish x s0 s1 => rfl

theorem act_pc_inside (away : l.pc.usesSegLock = false) :
    (act h tab l).2.pc.inside = l.pc.inside := by
  unfold act
  split <;> (try split) <;> (try split) <;> rw [‹l.pc = _›] at away ⊢ <;>
    first
    | rfl
    | contradiction
    | (rcases Thread.run_pc .. with ⟨c, eq⟩ | ⟨b, eq⟩
       · rw [eq]; rfl
       · rw [eq]; cases b <;> rfl)

theorem act_inside (away : l.pc.usesSegLock = false) : (act h tab l).2.inside = l.inside := by
  unfold Thread.inside
  rw [act_pc_inside away]
  split
  · rename_i inside
    rw [act_target_stays (Pc.stays_of_inside inside)]
  · rfl

theorem act_wait {val : Nat} (waits : (act h tab l).2.pc = .segSuspend (.wait val)) :
    l.pc = .segSuspend (.wait val) ∨ ∃ c, l.pc = .segSuspend c ∧
      SuspendLock.suspend (tab.segs l.target).sema c = .storeNext (-1) (.wait val) := by
  unfold act at waits
  split at waits <;> (try split at waits) <;> (try split at waits) <;>
    first
    | contradiction
    | exact Or.inl waits
    | (rename_i c _
       rcases SuspendLock.suspend_cases (tab.segs l.target).sema c with
         ⟨c', eq, same⟩ | ⟨_, eq⟩ | ⟨_, v, _, eq⟩ | ⟨_, _, _, eq⟩
       · rw [eq] at waits
         cases waits
         cases c <;> cases same
         exact Or.inl ‹_›
       · rw [eq] at waits
         cases waits
       · rw [eq] at waits
         cases waits
         exact Or.inr ⟨c, ‹_›, eq⟩
       · rw [eq] at waits
         cases waits)
    | (rcases Thread.run_pc .. with ⟨c, eq⟩ | ⟨b, eq⟩
       · cases eq.symm.trans waits
       · rw [eq] at waits
         first
         | contradiction
         | (cases b <;> contradiction)
         | (rename_i next _; cases next <;> cases waits))

/-- Past `suspend` on the segment, a thread has waited for the holders. -/
theorem act_afterWait (after : (act h tab l).2.pc.afterWait = true) :
    (l.pc.afterWait = true ∧ l.pc.usesSegLock = false) ∨
      ∃ val : Nat, l.pc = .segSuspend (.wait val) ∧
      (val = 0 ∨ (tab.segs l.target).sema = -(val : Int) - 1) := by
  unfold act at after
  split at after <;> (try split at after) <;> (try split at after) <;>
    first
    | (rw [‹l.pc = _›]; exact Or.inl ⟨rfl, rfl⟩)
    | contradiction
    | (rw [‹l.pc = _›] at after; contradiction)
    | (rename_i c _
       rcases SuspendLock.suspend_cases (tab.segs l.target).sema c with
         ⟨c', eq, _⟩ | ⟨_, eq⟩ | ⟨_, v, _, eq⟩ | ⟨val, waits, done, _⟩
       · rw [eq] at after
         cases after
       · rw [eq] at after
         cases after
       · rw [eq] at after
         cases after
       · cases c <;> cases waits
         exact Or.inr ⟨val, ‹_›, done⟩)
    | (rcases Thread.run_pc .. with ⟨c, eq⟩ | ⟨b, eq⟩
       · rw [eq] at after
         cases after
       · rw [eq] at after
         first
         | contradiction
         | (cases b <;> contradiction)
         | (rename_i next _; cases next <;> cases after))

theorem act_getUnlock {c : UnlockPc} (unlocks : (act h tab l).2.pc = .getUnlock c) :
    (∃ c', l.pc = .getUnlock c') ∨ l.pc = .getCheck ∧ l.target ≠ tab.cur.entries l.x := by
  unfold act at unlocks
  split at unlocks <;> (try split at unlocks) <;> (try split at unlocks) <;>
    first
    | contradiction
    | exact Or.inl ⟨_, ‹l.pc = .getUnlock _›⟩
    | exact Or.inr ⟨‹_›, ‹_›⟩
    | (rcases Thread.run_pc .. with ⟨c, eq⟩ | ⟨b, eq⟩
       · cases eq.symm.trans unlocks
       · rw [eq] at unlocks
         first
         | contradiction
         | (cases b <;> contradiction)
         | (rename_i next _; cases next <;> cases unlocks))

theorem act_halves (h : Key → BitVec 64) (tab : Table) (l : Thread) :
    ((act h tab l).2.s0 = l.s0 ∧ (act h tab l).2.s1 = l.s1) ∨
      l.pc = .split ∧ (act h tab l).2.s0 = tab.nseg ∧ (act h tab l).2.s1 = tab.nseg + 1 := by
  unfold act
  split <;> (try split) <;> (try split) <;>
    first
    | exact Or.inl ⟨rfl, rfl⟩
    | exact Or.inr ⟨‹_›, rfl, rfl⟩
    | exact Or.inl (by rw [Thread.run_snd, Thread.goto_s0, Thread.goto_s1]; exact ⟨rfl, rfl⟩)

theorem act_this (h : Key → BitVec 64) (tab : Table) (l : Thread) :
    (act h tab l).2.this = l.this ∨ (act h tab l).2.this = tab.dir := by
  unfold act
  split <;> (try split) <;> (try split) <;>
    first
    | exact Or.inl rfl
    | exact Or.inr rfl
    | exact Or.inl (by rw [Thread.run_snd, Thread.goto_this])

def Pc.rest : Pc → List (Nat × Nat)
  | .store _ rest => rest
  | _ => []

theorem mem_stores {x diff s0 s1 : Nat} {q : Nat × Nat} (mem : q ∈ stores x diff s0 s1) :
    q.2 = s0 ∨ q.2 = s1 := by
  unfold stores at mem
  split at mem
  · split at mem
    · rcases List.mem_pair.mp mem with rfl | rfl
      · exact Or.inr rfl
      · exact Or.inl rfl
    · rcases List.mem_pair.mp mem with rfl | rfl
      · exact Or.inr rfl
      · exact Or.inl rfl
  · rcases List.mem_append.mp mem with mem | mem
    · obtain ⟨i, _, rfl⟩ := List.mem_map.mp mem
      exact Or.inr rfl
    · obtain ⟨i, _, rfl⟩ := List.mem_map.mp mem
      exact Or.inl rfl

theorem act_rest (h : Key → BitVec 64) (tab : Table) (l : Thread) {q : Nat × Nat}
    (mem : q ∈ (act h tab l).2.pc.rest) : q ∈ l.pc.rest ∨ q.2 = l.s0 ∨ q.2 = l.s1 := by
  unfold act at mem
  split at mem <;> (try split at mem) <;> (try split at mem) <;>
    first
    | exact absurd mem (List.not_mem_nil)
    | exact Or.inl mem
    | exact Or.inr (mem_stores mem)
    | (rw [‹l.pc = _›]; exact Or.inl (List.mem_cons_of_mem _ mem))
    | (rcases Thread.run_pc .. with ⟨c, eq⟩ | ⟨b, eq⟩
       · rw [eq] at mem; exact absurd mem (List.not_mem_nil)
       · rw [eq] at mem
         first
         | exact absurd mem (List.not_mem_nil)
         | (cases b <;> exact absurd mem (List.not_mem_nil))
         | (rename_i next _; cases next <;> exact absurd mem (List.not_mem_nil)))

theorem act_entry {j a : Nat} (stores : (act h tab l).1 = .entry j a) : (j, a) ∈ l.pc.rest := by
  unfold act at stores
  split at stores <;> (try split at stores) <;> (try split at stores) <;>
    first
    | contradiction
    | (cases stores; rw [‹l.pc = _›]; exact List.mem_cons_self)
    | (rcases Thread.run_effect .. with none | ⟨v, eq⟩
       · cases none.symm.trans stores
       · cases eq.symm.trans stores)

theorem act_publish {x s0 s1 : Nat} (published : (act h tab l).1 = .publish x s0 s1) :
    l.pc = .publish ∧ tab.cur.capacity < unsignedLimit ∧ x = l.x ∧ s0 = l.s0 ∧ s1 = l.s1 := by
  unfold act at published
  split at published <;> (try split at published) <;> (try split at published) <;>
    first
    | contradiction
    | (cases published; exact ⟨‹_›, not_le.mp ‹_›, rfl, rfl, rfl⟩)
    | (rcases Thread.run_effect .. with none | ⟨v, eq⟩
       · cases none.symm.trans published
       · cases eq.symm.trans published)

end

/-- The control flow of a thread, with what the step has found out on its way. -/
inductive Flow (h : Key → BitVec 64) (tab : Table) (l : Thread) : Pc → Pc → Prop
  | idle : Flow h tab l .idle .idle
  | readDepth : Flow h tab l .readDepth .readEntry
  | readEntry : Flow h tab l .readEntry (.segLock .load)
  | locking (c c' : LockPc) : Flow h tab l (.segLock c) (.segLock c')
  | locked (c : LockPc) : Flow h tab l (.segLock c) .checkEntry
  | lockFails (c : LockPc) : Flow h tab l (.segLock c) .readDepth
  | entrySame : l.target = tab.cur.entries l.x → Flow h tab l .checkEntry .checkDepth
  | entryMoved : Flow h tab l .checkEntry (.segUnlock .load .retry)
  | depthSame : l.depth = tab.cur.depth → Flow h tab l .checkDepth (.probeRead 0)
  | depthMoved : Flow h tab l .checkDepth (.segUnlock .load .retry)
  | probe (i : Nat) : i < kNumPairPerCacheLine * kNumCacheLine →
      Flow h tab l (.probeRead i) (.probeTest i ((tab.segs l.target).slots (l.slot h i)).key)
  | collision (i : Nat) : Flow h tab l (.probeRead i) (.segUnlock .load .collision)
  | usable (i : Nat) (seen : Key) : (tab.segs l.target).Usable h
      (patternOf l.depth (tab.segs l.target).localDepth l.x) (l.slot h i) →
      Flow h tab l (.probeTest i seen) (.probeCas i seen)
  | used (i : Nat) (seen : Key) : Flow h tab l (.probeTest i seen) (.probeRead (i + 1))
  | took (i : Nat) (seen : Key) : Flow h tab l (.probeCas i seen) (.storeValue i)
  | casFails (i : Nat) (seen : Key) : Flow h tab l (.probeCas i seen) (.probeRead (i + 1))
  | storeValue (i : Nat) : Flow h tab l (.storeValue i) (.storeKey i)
  | storeKey (i : Nat) : Flow h tab l (.storeKey i) (.segUnlock .load .done)
  | unlocking (c c' : UnlockPc) (next : After) :
    Flow h tab l (.segUnlock c next) (.segUnlock c' next)
  | retries (c : UnlockPc) : Flow h tab l (.segUnlock c .retry) .readDepth
  | returns (c : UnlockPc) : Flow h tab l (.segUnlock c .done) .idle
  | collides (c : UnlockPc) : Flow h tab l (.segUnlock c .collision) (.segSuspend .load)
  | suspending (c c' : SuspendPc) : Flow h tab l (.segSuspend c) (.segSuspend c')
  | suspended (c : SuspendPc) : Flow h tab l (.segSuspend c) .checkSplit
  | suspendFails (c : SuspendPc) : Flow h tab l (.segSuspend c) .readDepth
  | splitElsewhere : Flow h tab l .checkSplit .resetTarget
  | splits : Flow h tab l .checkSplit .split
  | resetTarget : Flow h tab l .resetTarget .readDepth
  | split : Flow h tab l .split .compareDepth
  | full : Flow h tab l .compareDepth .toDirSuspend
  | shallow : Flow h tab l .compareDepth .toDirLock
  | toDirSuspend : Flow h tab l .toDirSuspend (.dirSuspend .load)
  | dirSuspending (c c' : SuspendPc) : Flow h tab l (.dirSuspend c) (.dirSuspend c')
  | dirSuspended (c : SuspendPc) : Flow h tab l (.dirSuspend c) .publish
  | dirSuspendFails (c : SuspendPc) : Flow h tab l (.dirSuspend c) .resetTarget
  | publishSpins : Flow h tab l .publish .publish
  | publish : Flow h tab l .publish .readDepth
  | toDirLock : Flow h tab l .toDirLock (.dirLock .load)
  | dirLocking (c c' : LockPc) : Flow h tab l (.dirLock c) (.dirLock c')
  | dirLocked (c : LockPc) : Flow h tab l (.dirLock c) .readStores
  | dirLockFails (c : LockPc) : Flow h tab l (.dirLock c) .resetTarget
  | readStores (rest : List (Nat × Nat)) : Flow h tab l .readStores (.store false rest)
  | stored (started : Bool) : Flow h tab l (.store started []) .toDirUnlock
  | store (started : Bool) (q : Nat × Nat) (rest : List (Nat × Nat)) :
      Flow h tab l (.store started (q :: rest)) (.store true rest)
  | toDirUnlock : Flow h tab l .toDirUnlock (.dirUnlock .load)
  | dirUnlocking (c c' : UnlockPc) : Flow h tab l (.dirUnlock c) (.dirUnlock c')
  | dirUnlocked (c : UnlockPc) : Flow h tab l (.dirUnlock c) .readDepth
  | getSpins : Flow h tab l .getSpin .getSpin
  | getSpin : Flow h tab l .getSpin .getDepth
  | getDepth : Flow h tab l .getDepth .getEntry
  | getEntry : Flow h tab l .getEntry .getCheck
  | getSame : l.target = tab.cur.entries l.x → Flow h tab l .getCheck (.getProbe 0)
  | getMoved : l.target ≠ tab.cur.entries l.x → Flow h tab l .getCheck (.getUnlock .load)
  | getUnlocking (c c' : UnlockPc) : Flow h tab l (.getUnlock c) (.getUnlock c')
  | getUnlocked (c : UnlockPc) : Flow h tab l (.getUnlock c) .getSpin
  | hit (i : Nat) : ((tab.segs l.target).slots (l.slot h i)).key = l.key →
      Flow h tab l (.getProbe i) (.getValue i)
  | other (i : Nat) : ((tab.segs l.target).slots (l.slot h i)).key ≠ l.key →
      Flow h tab l (.getProbe i) (.getProbe (i + 1))
  | miss (i : Nat) : kNumPairPerCacheLine * kNumCacheLine ≤ i → Flow h tab l (.getProbe i) .idle
  | getValue (i : Nat) : Flow h tab l (.getValue i) .idle

section
variable {h : Key → BitVec 64} {tab : Table} {l : Thread} {C : Type} {out : Out C}
  {write : Int → Effect}
  {stay : C → Pc} {ret : Bool → Pc} {pc : Pc}

theorem Flow.run (stays : ∀ c, Flow h tab l pc (stay c)) (yes : Flow h tab l pc (ret true))
    (no : Flow h tab l pc (ret false)) : Flow h tab l pc (l.run out write stay ret).2.pc := by
  rcases Thread.run_pc l out write stay ret with ⟨c, eq⟩ | ⟨b, eq⟩
  · rw [eq]
    exact stays c
  · rw [eq]
    cases b
    · exact no
    · exact yes

end

theorem act_flow (h : Key → BitVec 64) (tab : Table) (l : Thread) :
    Flow h tab l l.pc (act h tab l).2.pc := by
  unfold act
  split <;> (try split) <;> (try split) <;> (try dsimp only) <;> rw [‹l.pc = _›] <;>
    first
    | (constructor; done)
    | (constructor; assumption)
    | exact .miss _ (not_lt.mp ‹_›)
    | exact Flow.run (fun c => by constructor) (by constructor) (by constructor)
    | (rename_i next _
       cases next <;> exact Flow.run (fun c => by constructor) (by constructor) (by constructor))

/-- The addresses in a thread's variables have been allocated. -/
structure Thread.Alloc (tab : Table) (l : Thread) : Prop where
  target : l.target < tab.nseg
  s0 : l.s0 < tab.nseg
  s1 : l.s1 < tab.nseg
  this : l.this < tab.ndir
  rest : ∀ q ∈ l.pc.rest, q.2 < tab.nseg

structure Table.Alloc (tab : Table) : Prop where
  entries : ∀ j, tab.cur.entries j < tab.nseg
  dir : tab.dir < tab.ndir
  fresh : ∀ a, tab.nseg ≤ a → (tab.segs a).sema = 0

theorem Table.Alloc.pos {tab : Table} (shared : tab.Alloc) : 0 < tab.nseg :=
  Nat.zero_lt_of_lt (shared.entries 0)

section
variable {h : Key → BitVec 64} {tab : Table} {l : Thread}

theorem Effect.grows (h : Key → BitVec 64) (tab : Table) (e : Effect) :
    tab.nseg ≤ (e.apply h tab).nseg ∧ tab.ndir ≤ (e.apply h tab).ndir := by
  cases e with
  | split a => exact ⟨Nat.le_add_right _ _, le_refl _⟩
  | publish x s0 s1 => exact ⟨le_refl _, Nat.le_succ _⟩
  | none => exact ⟨le_refl _, le_refl _⟩
  | sema a v => exact ⟨le_refl _, le_refl _⟩
  | slot a i p => exact ⟨le_refl _, le_refl _⟩
  | dirSema p v => exact ⟨le_refl _, le_refl _⟩
  | entry j a => exact ⟨le_refl _, le_refl _⟩

theorem Thread.Alloc.grow {tab' : Table} (mine : l.Alloc tab) (nseg : tab.nseg ≤ tab'.nseg)
    (ndir : tab.ndir ≤ tab'.ndir) : l.Alloc tab' :=
  ⟨mine.target.trans_le nseg, mine.s0.trans_le nseg, mine.s1.trans_le nseg, mine.this.trans_le ndir,
    fun q mem => (mine.rest q mem).trans_le nseg⟩

theorem Thread.Alloc.act (shared : tab.Alloc) (mine : l.Alloc tab) :
    (act h tab l).2.Alloc ((act h tab l).1.apply h tab) := by
  obtain ⟨nseg, ndir⟩ := Effect.grows h tab (CCEH.act h tab l).1
  constructor
  · refine lt_of_lt_of_le ?_ nseg
    rcases act_target h tab l with same | ⟨_, read⟩
    · rw [same]
      exact mine.target
    · rw [read]
      exact shared.entries _
  · rcases act_halves h tab l with ⟨same, _⟩ | ⟨atSplit, low, _⟩
    · rw [same]
      exact mine.s0.trans_le nseg
    · rw [low]
      simp only [CCEH.act, atSplit, Effect.apply, Table.allocHalves_nseg]
      omega
  · rcases act_halves h tab l with ⟨_, same⟩ | ⟨atSplit, _, high⟩
    · rw [same]
      exact mine.s1.trans_le nseg
    · rw [high]
      simp only [CCEH.act, atSplit, Effect.apply, Table.allocHalves_nseg]
      omega
  · refine lt_of_lt_of_le ?_ ndir
    rcases act_this h tab l with same | read
    · rw [same]
      exact mine.this
    · rw [read]
      exact shared.dir
  · intro q mem
    refine lt_of_lt_of_le ?_ nseg
    rcases act_rest h tab l mem with old | eq | eq
    · exact mine.rest q old
    · rw [eq]
      exact mine.s0
    · rw [eq]
      exact mine.s1

theorem mem_doublingStores {d : Directory} {x s0 s1 : Nat} {q : Nat × Nat}
    (mem : q ∈ doublingStores d x s0 s1) : q.2 = s0 ∨ q.2 = s1 ∨ ∃ i, q.2 = d.entries i := by
  obtain ⟨i, _, mem⟩ := List.mem_flatMap.mp mem
  split at mem
  · rcases List.mem_pair.mp mem with rfl | rfl
    · exact Or.inl rfl
    · exact Or.inr (Or.inl rfl)
  · rcases List.mem_pair.mp mem with rfl | rfl
    · exact Or.inr (Or.inr ⟨i, rfl⟩)
    · exact Or.inr (Or.inr ⟨i, rfl⟩)

theorem writeAll_range {α : Type*} (entry : Nat → α) (l : List (Nat × α)) (j : Nat) :
    Blocks.writeAll entry l j = entry j ∨ ∃ q ∈ l, Blocks.writeAll entry l j = q.2 := by
  induction l generalizing entry with
  | nil => exact Or.inl rfl
  | cons q l ih =>
    rw [Blocks.writeAll_cons]
    rcases ih (update entry q.1 q.2) with old | ⟨r, mem, eq⟩
    · rw [old]
      by_cases here : j = q.1
      · exact Or.inr ⟨q, List.mem_cons_self, by rw [here, update_self]⟩
      · exact Or.inl (update_of_ne here ..)
    · exact Or.inr ⟨r, List.mem_cons_of_mem q mem, eq⟩

theorem Effect.entries_apply (e : Effect) (j : Nat) :
    (e.apply h tab).cur.entries j = tab.cur.entries j ∨ (∃ i a, e = .entry i a ∧
      (e.apply h tab).cur.entries j = a) ∨ ∃ x s0 s1, e = .publish x s0 s1 ∧
        ((e.apply h tab).cur.entries j = s0 ∨ (e.apply h tab).cur.entries j = s1 ∨
          (e.apply h tab).cur.entries j = 0 ∨
            ∃ i, (e.apply h tab).cur.entries j = tab.cur.entries i) := by
  cases e with
  | none => exact Or.inl rfl
  | sema a v => exact Or.inl rfl
  | slot a i p => exact Or.inl rfl
  | split a => exact Or.inl rfl
  | dirSema p v => exact Or.inl (congrFun (tab.setDirSema_entries p v) j)
  | entry i a =>
    simp only [Effect.apply, Table.setEntry_cur, update_apply]
    split
    · exact Or.inr (Or.inl ⟨i, a, rfl, rfl⟩)
    · exact Or.inl rfl
  | publish x s0 s1 =>
    refine Or.inr (Or.inr ⟨x, s0, s1, rfl, ?_⟩)
    simp only [Effect.apply, Table.publish_cur]
    rcases writeAll_range (fun _ => 0) (doublingStores tab.cur x s0 s1) j with old | ⟨q, mem, eq⟩
    · exact Or.inr (Or.inr (Or.inl old))
    · rw [eq]
      rcases mem_doublingStores mem with low | high | ⟨i, copied⟩
      · exact Or.inl low
      · exact Or.inr (Or.inl high)
      · exact Or.inr (Or.inr (Or.inr ⟨i, copied⟩))

theorem Table.Alloc.act (shared : tab.Alloc) (mine : l.Alloc tab) :
    ((act h tab l).1.apply h tab).Alloc := by
  obtain ⟨nseg, ndir⟩ := Effect.grows h tab (CCEH.act h tab l).1
  constructor
  · intro j
    refine lt_of_lt_of_le ?_ nseg
    rcases @Effect.entries_apply h tab (CCEH.act h tab l).1 j with
      same | ⟨i, a, stored, eq⟩ | ⟨x, s0, s1, published, eq⟩
    · rw [same]
      exact shared.entries j
    · rw [eq]
      exact mine.rest _ (act_entry stored)
    · obtain ⟨_, _, _, rfl, rfl⟩ := act_publish published
      rcases eq with low | high | zero | ⟨i, copied⟩
      · exact low ▸ mine.s0
      · exact high ▸ mine.s1
      · exact zero ▸ shared.pos
      · exact copied ▸ shared.entries i
  · generalize (CCEH.act h tab l).1 = e at ndir
    cases e with
    | publish x s0 s1 => exact Nat.lt_succ_self _
    | _ => exact shared.dir
  · intro a above
    have fresh := shared.fresh a (nseg.trans above)
    by_cases uses : ∃ b v, (CCEH.act h tab l).1 = .sema b v
    · obtain ⟨b, v, eq⟩ := uses
      have apart : a ≠ b := by
        rw [(act_sema eq).2]
        exact (mine.target.trans_le (nseg.trans above)).ne'
      rw [eq]
      exact (congrArg Segment.sema (update_of_ne apart ..)).trans fresh
    · rw [Effect.sema_apply (fun b v eq => uses ⟨b, v, eq⟩) shared.fresh, fresh]

end

namespace State
variable {T : Type} [DecidableEq T] {h : Key → BitVec 64} {s s' : State T}

theorem tick_eq {t : T} {e : Effect} {l : Thread} (eq : act h s.table (s.threads t) = (e, l)) :
    s.tick h t = ⟨e.apply h s.table, update s.threads t l, s.noteSuspend t⟩ := by
  rw [tick, eq]

structure Alloc (s : State T) : Prop where
  table : s.table.Alloc
  threads : ∀ t, (s.threads t).Alloc s.table

theorem Alloc.tick (alloc : s.Alloc) (t : T) : (s.tick h t).Alloc := by
  obtain ⟨nseg, ndir⟩ := Effect.grows h s.table (act h s.table (s.threads t)).1
  refine ⟨alloc.table.act (alloc.threads t), ?_⟩
  refine (Function.forall_update_iff s.threads fun _ l => l.Alloc (s.tick h t).table).mpr ⟨?_, ?_⟩
  · exact (alloc.threads t).act alloc.table
  · intro t' _
    exact (alloc.threads t').grow nseg ndir

theorem Alloc.call (alloc : s.Alloc) (t : T) {start : Pc} (key : Key) (value : Value)
    (none : start.rest = []) : (s.call t start key value).Alloc := by
  refine ⟨alloc.table, ?_⟩
  refine (Function.forall_update_iff s.threads fun _ l => l.Alloc s.table).mpr ⟨?_, ?_⟩
  · have mine := alloc.threads t
    refine ⟨mine.target, mine.s0, mine.s1, mine.this, fun q mem => ?_⟩
    exact absurd (none ▸ mem) (List.not_mem_nil)
  · intro t' _
    exact alloc.threads t'

theorem Alloc.step (alloc : s.Alloc) (step : Step h s s') : s'.Alloc := by
  cases step with
  | insert t key value idle => exact alloc.call t key value rfl
  | get t key idle => exact alloc.call t key noneValue rfl
  | tick t => exact alloc.tick t

theorem Alloc.run (alloc : s.Alloc) (run : Relation.ReflTransGen (Step h) s s') : s'.Alloc := by
  induction run with
  | refl => exact alloc
  | tail _ step ih => exact ih.step step

omit [DecidableEq T] in
theorem alloc_initial {depth : Nat} {tab : Table} (made : Table.construct depth = some tab) :
    (initial T tab).Alloc := by
  obtain ⟨_, fresh, nseg, dir, _, _, _, entries⟩ := Table.construct_spec made
  have pos : 0 < tab.nseg := nseg ▸ Nat.two_pow_pos depth
  have start : 0 < tab.ndir := Nat.zero_lt_of_lt dir
  refine ⟨⟨fun j => ?_, dir, fun a _ => ?_⟩, fun t => ⟨pos, pos, pos, start, ?_⟩⟩
  · show tab.cur.entries j < tab.nseg
    rw [entries j]
    split
    · rw [nseg]
      assumption
    · exact pos
  · show (tab.segs a).sema = 0
    rw [fresh a]
    rfl
  · intro q mem
    exact absurd mem (List.not_mem_nil)

end State

end Xcache.CCEH
