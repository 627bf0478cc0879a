import Xcache.CCEH.Doubling
import Xcache.CCEH.Steps

/-! A thread that runs without interference does what the sequential model says: each
pass of its RETRY loop is an `attempt`. -/

namespace Xcache.CCEH
open Function
open SuspendLock (LockPc UnlockPc SuspendPc)
open Relation (ReflTransGen)
open Blocks (writeAll)

theorem Segment.set_set (s : Segment) (i : Fin kNumSlot) (p q : Pair) :
    (s.set i p).set i q = s.set i q := by
  simp only [Segment.set, update_idem]

theorem Table.setSema_setSema (tab : Table) (a : Nat) (v w : Int) :
    (tab.setSema a v).setSema a w = tab.setSema a w := by
  simp only [Table.setSema, Table.setSeg_segs, update_self, Table.setSeg_setSeg]

theorem Table.setSema_self {tab : Table} {a : Nat} {v : Int} (eq : (tab.segs a).sema = v) :
    tab.setSema a v = tab := by
  subst eq
  simp only [Table.setSema, Table.setSeg, update_eq_self]

theorem Table.setSema_at (tab : Table) (a : Nat) (v : Int) :
    (tab.setSema a v).segs a = { tab.segs a with sema := v } :=
  update_self ..

theorem Table.setDir_self (tab : Table) : tab.setDir tab.dir tab.cur = tab := by
  simp only [Table.setDir, Table.cur, update_eq_self]

theorem Table.setEntry_setDir (tab : Table) (j a : Nat) (d : Directory) :
    (tab.setEntry j a).setDir (tab.setEntry j a).dir d = tab.setDir tab.dir d := by
  simp only [Table.setEntry, Table.setDir, update_idem]

theorem Table.setDirSema_at (tab : Table) (p : Nat) (v : Int) :
    ((tab.setDirSema p v).dirs p).sema = v := by
  simp only [Table.setDirSema, Table.setDir, update_self]

/-- The steps that neither split a segment, nor store to the directory, nor read or check an entry
for `Get`. -/
def Pc.plain : Pc → Bool
  | .split | .publish | .store _ (_ :: _) | .getEntry | .getCheck => false
  | _ => true

class Mild (ok : Table → Thread → Prop) : Prop where
  plain : ∀ tab l, l.pc.plain = true → ok tab l

section
variable (h : Key → BitVec 64)

theorem Segment.exists_of_findSlot {s : Segment} {pat : Nat} {l : Thread} {slot : Fin kNumSlot}
    (found : s.findSlot h pat (window (h l.key)) = some slot) :
    ∃ i < kNumPairPerCacheLine * kNumCacheLine, l.slot h i = slot ∧ s.Usable h pat (l.slot h i) ∧
      ∀ k < i, ¬ s.Usable h pat (l.slot h k) := by
  rw [Segment.findSlot, windowSlots, List.find?_map] at found
  obtain ⟨i, first, rfl⟩ := Option.map_eq_some_iff.mp found
  obtain ⟨usable, mem, before⟩ := List.find?_range_eq_some.mp first
  refine ⟨i, List.mem_range.mp mem, rfl, of_decide_eq_true usable, fun k hk => ?_⟩
  exact of_decide_eq_false (Bool.not_eq_true' _ ▸ before k hk)

def next (p : Table × Thread) : Table × Thread :=
  ((act h p.1 p.2).1.apply h p.1, (act h p.1 p.2).2)

/-- Steps of one thread that are `ok`. -/
def Alone (ok : Table → Thread → Prop) : Table × Thread → Table × Thread → Prop :=
  ReflTransGen fun p q => ok p.1 p.2 ∧ q = next h p

def Thread.read (tab : Table) (l : Thread) : Thread :=
  { l with
    depth := tab.cur.depth, x := index tab.cur.depth (h l.key), target := tab.target h l.key }

end

@[simp] theorem Thread.read_target (h : Key → BitVec 64) (tab : Table) (l : Thread) :
    (l.read h tab).target = tab.target h l.key := rfl

/-- Everything but the check of `Get`. -/
def Thread.Unchecked (_ : Table) (l : Thread) : Prop := l.pc ≠ .getCheck

instance : Mild Thread.Unchecked := ⟨fun _ l plain check => by rw [check] at plain; cases plain⟩

/-- The steps of `Insert` that are safe whatever the other threads do. -/
structure Thread.Tame (h : Key → BitVec 64) (tab : Table) (l : Thread) : Prop where
  publish : l.pc = .publish → (tab.segs l.target).localDepth = tab.cur.depth
  store : ∀ b j a rest, l.pc = .store b ((j, a) :: rest) → tab.cur.entries j = l.target
  split : l.pc = .split → ∀ i, ((tab.segs l.target).slots i).Live →
    ¬ Segment.Dropped h (tab.segs l.target) i
  entry : l.pc ≠ .getEntry
  check : l.pc ≠ .getCheck

instance (h : Key → BitVec 64) : Mild (Thread.Tame h) where
  plain _ l plain := by
    refine ⟨fun pc => ?_, fun _ _ _ _ pc => ?_, fun pc => ?_, fun pc => ?_, fun pc => ?_⟩ <;>
      rw [pc] at plain <;> cases plain

namespace Thread.Tame
variable {h : Key → BitVec 64} {tab : Table} {l : Thread}

theorem of_publish (pc : l.pc = .publish)
    (level : (tab.segs l.target).localDepth = tab.cur.depth) : l.Tame h tab := by
  refine ⟨fun _ => level, fun _ _ _ _ pc' => ?_, fun pc' => ?_, fun pc' => ?_, fun pc' => ?_⟩ <;>
    cases pc.symm.trans pc'

theorem of_store {b : Bool} {j a : Nat} {rest : List (Nat × Nat)}
    (pc : l.pc = .store b ((j, a) :: rest))
    (entry : tab.cur.entries j = l.target) : l.Tame h tab := by
  refine ⟨fun pc' => ?_, fun _ _ _ _ pc' => ?_, fun pc' => ?_, fun pc' => ?_, fun pc' => ?_⟩ <;>
    cases pc.symm.trans pc'
  exact entry

theorem of_split (pc : l.pc = .split)
    (kept : ∀ i, ((tab.segs l.target).slots i).Live → ¬ Segment.Dropped h (tab.segs l.target) i) :
    l.Tame h tab := by
  refine ⟨fun pc' => ?_, fun _ _ _ _ pc' => ?_, fun _ => kept, fun pc' => ?_, fun pc' => ?_⟩ <;>
    cases pc.symm.trans pc'

end Thread.Tame

namespace Alone

theorem trans {h : Key → BitVec 64} {ok : Table → Thread → Prop} {p q r : Table × Thread}
    (first : Alone h ok p q) (second : Alone h ok q r) : Alone h ok p r :=
  ReflTransGen.trans first second

theorem special {h : Key → BitVec 64} {ok : Table → Thread → Prop} {tab : Table} {l l' : Thread}
    (e : Effect) (eq : act h tab l = (e, l')) (allowed : ok tab l) :
    Alone h ok (tab, l) (e.apply h tab, l') :=
  ReflTransGen.single ⟨allowed, by rw [next, eq]⟩

variable {h : Key → BitVec 64} {ok : Table → Thread → Prop} [Mild ok] {tab : Table} {l : Thread}

theorem step {l' : Thread} (e : Effect) (eq : act h tab l = (e, l')) (plain : l.pc.plain = true) :
    Alone h ok (tab, l) (e.apply h tab, l') :=
  special e eq (Mild.plain tab l plain)

theorem quiet {l' : Thread} (eq : act h tab l = (.none, l')) (plain : l.pc.plain = true) :
    Alone h ok (tab, l) (tab, l') :=
  step .none eq plain

/-! The methods of a lock word, for segments and directories alike: `stay` is the program
counter inside the method, `ret` the one after it, `write` the store. -/

section
variable {C : Type} {stay : C → Pc} {write : Int → Effect} {ret : Bool → Pc}
  {method : C → SuspendLock.Out C}

theorem run_next
    (here : ∀ c, act h tab (l.goto (stay c)) = (l.goto (stay c)).run (method c) write stay ret)
    (away : ∀ c, (stay c).plain = true) {c c' : C} (eq : method c = .next c') :
    Alone h ok (tab, l.goto (stay c)) (tab, l.goto (stay c')) :=
  quiet (by rw [here, eq]; rfl) (away c)

theorem run_ret
    (here : ∀ c, act h tab (l.goto (stay c)) = (l.goto (stay c)).run (method c) write stay ret)
    (away : ∀ c, (stay c).plain = true) {c : C} {b : Bool} (eq : method c = .ret b) :
    Alone h ok (tab, l.goto (stay c)) (tab, l.goto (ret b)) :=
  quiet (by rw [here, eq]; rfl) (away c)

theorem run_storeRet
    (here : ∀ c, act h tab (l.goto (stay c)) = (l.goto (stay c)).run (method c) write stay ret)
    (away : ∀ c, (stay c).plain = true) {c : C} {v : Int} {b : Bool}
    (eq : method c = .storeRet v b) :
    Alone h ok (tab, l.goto (stay c)) ((write v).apply h tab, l.goto (ret b)) :=
  step (write v) (by rw [here, eq]; rfl) (away c)

end

section
variable {write : Int → Effect} {ret : Bool → Pc} {sema : Int}

theorem lock {stay : LockPc → Pc}
    (here : ∀ c, act h tab (l.goto (stay c)) = (l.goto (stay c)).run (SuspendLock.lock sema c) write
      stay ret)
    (away : ∀ c, (stay c).plain = true) (free : 0 ≤ sema) :
    Alone h ok (tab, l.goto (stay .load)) ((write (sema + 1)).apply h tab, l.goto (ret true)) := by
  have load : SuspendLock.lock sema .load = .next (.cas sema.toNat) := if_pos free
  have cas : SuspendLock.lock sema (.cas sema.toNat) = .storeRet (sema + 1) true := by
    simp only [SuspendLock.lock, Int.toNat_of_nonneg free, if_true]
  exact (run_next here away load).trans (run_storeRet here away cas)

theorem unlock {stay : UnlockPc → Pc}
    (here : ∀ c, act h tab (l.goto (stay c)) = (l.goto (stay c)).run (SuspendLock.unlock sema c)
      write stay ret)
    (away : ∀ c, (stay c).plain = true) :
    Alone h ok (tab, l.goto (stay .load)) ((write (sema - 1)).apply h tab, l.goto (ret true)) := by
  have cas : SuspendLock.unlock sema (.cas sema) = .storeRet (sema - 1) true := if_pos rfl
  exact (run_next here away rfl).trans (run_storeRet here away cas)

theorem suspend {stay : SuspendPc → Pc} (word : Table → Int)
    (here : ∀ m c, act h m (l.goto (stay c)) =
      (l.goto (stay c)).run (SuspendLock.suspend (word m) c) write stay ret)
    (away : ∀ c, (stay c).plain = true) (zero : word tab = 0)
    (after : word ((write (-1)).apply h tab) = -1) :
    Alone h ok (tab, l.goto (stay .load)) ((write (-1)).apply h tab, l.goto (ret true)) := by
  have load : SuspendLock.suspend (word tab) .load = .next (.cas 0) := by rw [zero]; rfl
  have cas : Alone h ok (tab, l.goto (stay (.cas 0))) ((write (-1)).apply h tab,
      l.goto (stay (.wait 0))) :=
    step (write (-1)) (by rw [here, zero]; rfl) (away _)
  have wait : SuspendLock.suspend (word ((write (-1)).apply h tab)) (.wait 0) = .ret true := by
    rw [after]; rfl
  exact ((run_next (here tab) away load).trans cas).trans (run_ret (here _) away wait)

end

/-! The accesses of a pass, in their order. -/

theorem reads :
    Alone h ok (tab, l.goto .readDepth) (tab, (l.read h tab).goto (.segLock .load)) := by
  have depth : Alone h ok (tab, l.goto .readDepth) (tab,
      { l with depth := tab.cur.depth, x := index tab.cur.depth (h l.key), pc := .readEntry }) :=
    quiet rfl rfl
  exact depth.trans (quiet rfl rfl)

theorem checks (entry : l.target = tab.cur.entries l.x) (depth : l.depth = tab.cur.depth) :
    Alone h ok (tab, l.goto .checkEntry) (tab, l.goto (.probeRead 0)) := by
  have first : Alone h ok (tab, l.goto .checkEntry) (tab, l.goto .checkDepth) :=
    quiet (if_pos entry) rfl
  exact first.trans (quiet (if_pos depth) rfl)

/-! The probe loop. -/

theorem skip {n : Nat} (bound : n ≤ kNumPairPerCacheLine * kNumCacheLine)
    (used : ∀ i < n, ¬ (tab.segs l.target).Usable h
      (patternOf l.depth (tab.segs l.target).localDepth l.x) (l.slot h i)) :
    Alone h ok (tab, l.goto (.probeRead 0)) (tab, l.goto (.probeRead n)) := by
  induction n with
  | zero => exact .refl
  | succ n ih =>
    have read : Alone h ok (tab, l.goto (.probeRead n))
        (tab, l.goto (.probeTest n ((tab.segs l.target).slots (l.slot h n)).key)) :=
      quiet (if_pos bound) rfl
    have test : Alone h ok (tab, l.goto (.probeTest n ((tab.segs l.target).slots (l.slot h n)).key))
        (tab, l.goto (.probeRead (n + 1))) :=
      quiet (if_neg (used n (Nat.lt_succ_self n))) rfl
    exact ((ih (Nat.le_of_succ_le bound) fun i hi => used i (Nat.lt_succ_of_lt hi)).trans
      read).trans test

theorem probe_none (none : (tab.segs l.target).findSlot h
      (patternOf l.depth (tab.segs l.target).localDepth l.x) (window (h l.key)) = none) :
    Alone h ok (tab, l.goto (.probeRead 0)) (tab, l.goto (.segUnlock .load .collision)) := by
  have used := Segment.findSlot_none.mp none
  have past : Alone h ok (tab, l.goto (.probeRead (kNumPairPerCacheLine * kNumCacheLine)))
      (tab, l.goto (.segUnlock .load .collision)) :=
    quiet (by simp only [act, Thread.goto_pc, lt_irrefl, if_false]; rfl) rfl
  refine (skip (le_refl _) fun i hi => ?_).trans past
  exact used _ (List.mem_map.mpr ⟨i, List.mem_range.mpr hi, rfl⟩)

theorem probe_some {slot : Fin kNumSlot}
    (found : (tab.segs l.target).findSlot h (patternOf l.depth (tab.segs l.target).localDepth l.x)
      (window (h l.key)) = some slot) :
    Alone h ok (tab, l.goto (.probeRead 0))
      (tab.setSeg l.target ((tab.segs l.target).set slot ⟨l.key, some l.value⟩),
        l.goto (.segUnlock .load .done)) := by
  obtain ⟨i, bound, rfl, usable, before⟩ := Segment.exists_of_findSlot h found
  have read : Alone h ok (tab, l.goto (.probeRead i))
      (tab, l.goto (.probeTest i ((tab.segs l.target).slots (l.slot h i)).key)) :=
    quiet (if_pos bound) rfl
  have test : Alone h ok (tab, l.goto (.probeTest i ((tab.segs l.target).slots (l.slot h i)).key))
      (tab, l.goto (.probeCas i ((tab.segs l.target).slots (l.slot h i)).key)) :=
    quiet (if_pos usable) rfl
  have cas : Alone h ok (tab, l.goto (.probeCas i ((tab.segs l.target).slots (l.slot h i)).key))
      (tab.setSeg l.target ((tab.segs l.target).set (l.slot h i)
        ⟨sentinelKey, ((tab.segs l.target).slots (l.slot h i)).value⟩), l.goto (.storeValue i)) :=
    step (.slot ..) (if_pos rfl) rfl
  have value : ∀ tab : Table, Alone h ok (tab, l.goto (.storeValue i))
      (tab.setSeg l.target ((tab.segs l.target).set (l.slot h i)
        ⟨((tab.segs l.target).slots (l.slot h i)).key, some l.value⟩), l.goto (.storeKey i)) :=
    fun _ => step (.slot ..) rfl rfl
  have key : ∀ tab : Table, Alone h ok (tab, l.goto (.storeKey i))
      (tab.setSeg l.target ((tab.segs l.target).set (l.slot h i)
        ⟨l.key, ((tab.segs l.target).slots (l.slot h i)).value⟩),
          l.goto (.segUnlock .load .done)) :=
    fun _ => step (.slot ..) rfl rfl
  have run := (((((skip bound.le before).trans read).trans test).trans cas).trans (value _)).trans
    (key _)
  simpa only [Table.setSeg_segs, update_self, Table.setSeg_setSeg, Segment.set_slots,
    Segment.set_set] using run

theorem segUnlock (after : After) : Alone h ok (tab, l.goto (.segUnlock .load after))
    (tab.setSema l.target ((tab.segs l.target).sema - 1), l.goto after.pc) :=
  @unlock h ok _ tab l (.sema l.target) (fun _ => after.pc) (tab.segs l.target).sema
    (.segUnlock · after) (fun _ => rfl) (fun _ => rfl)

theorem locked (free : 0 ≤ (tab.segs (tab.target h l.key)).sema) :
    Alone h ok (tab, l.goto .readDepth)
    (tab.setSema (tab.target h l.key) ((tab.segs (tab.target h l.key)).sema + 1),
      (l.read h tab).goto (.probeRead 0)) := by
  have lock := @lock h ok _ tab (l.read h tab) (.sema (tab.target h l.key))
    (fun ok => if ok then .checkEntry else .readDepth) _ .segLock (fun _ => rfl) (fun _ => rfl) free
  exact (reads.trans lock).trans (checks rfl rfl)

theorem stored {slot : Fin kNumSlot} (free : 0 ≤ (tab.segs (tab.target h l.key)).sema)
    (found : (tab.segs (tab.target h l.key)).findSlot h
      (patternOf tab.cur.depth (tab.segs (tab.target h l.key)).localDepth
      (index tab.cur.depth (h l.key))) (window (h l.key)) = some slot) :
    Alone h ok (tab, l.goto .readDepth) (tab.setSeg (tab.target h l.key)
      ((tab.segs (tab.target h l.key)).set slot ⟨l.key, some l.value⟩),
        (l.read h tab).goto .idle) := by
  have here := Table.setSema_at tab (tab.target h l.key) ((tab.segs (tab.target h l.key)).sema + 1)
  have probe :=
    @probe_some h ok _ (tab.setSema (tab.target h l.key) ((tab.segs (tab.target h l.key)).sema + 1))
    (l.read h tab) slot (by
      rw [Thread.read_target, here]
      exact found)
  have run := ((locked free).trans probe).trans (segUnlock .done)
  simp only [Thread.read_target, Table.setSema, Table.setSeg_segs, Table.setSeg_setSeg,
    update_self, Segment.set_sema, add_sub_cancel_right] at run
  exact run

/-- A pass that finds no slot suspends its segment and copies it to two new ones. -/
theorem splits (copies : ok (tab.setSema (tab.target h l.key) (-1)) ((l.read h tab).goto .split))
    (zero : (tab.segs (tab.target h l.key)).sema = 0)
    (none : (tab.segs (tab.target h l.key)).findSlot h
      (patternOf tab.cur.depth (tab.segs (tab.target h l.key)).localDepth
      (index tab.cur.depth (h l.key))) (window (h l.key)) = none) :
    Alone h ok (tab, l.goto .readDepth) (tab.splitOff h (tab.target h l.key),
      { l.read h tab with s0 := tab.nseg, s1 := tab.nseg + 1, pc := .compareDepth }) := by
  have here := Table.setSema_at tab (tab.target h l.key) ((tab.segs (tab.target h l.key)).sema + 1)
  have probe :=
    @probe_none h ok _ (tab.setSema (tab.target h l.key) ((tab.segs (tab.target h l.key)).sema + 1))
    (l.read h tab) (by
      rw [Thread.read_target, here]
      exact none)
  have run := ((locked zero.ge).trans probe).trans (segUnlock .collision)
  rw [Thread.read_target, here, Table.setSema_setSema, add_sub_cancel_right, Table.setSema_self rfl]
    at run
  have suspend := @suspend h ok _ tab (l.read h tab) (.sema (tab.target h l.key))
    (fun ok => if ok then .checkSplit else .readDepth) .segSuspend
      (fun m => (m.segs (tab.target h l.key)).sema)
    (fun _ _ => rfl) (fun _ => rfl) zero (congrArg Segment.sema (Table.setSema_at tab _ (-1)))
  have check : Alone h ok (tab.setSema (tab.target h l.key) (-1), (l.read h tab).goto .checkSplit)
      (tab.setSema (tab.target h l.key) (-1), (l.read h tab).goto .split) :=
    quiet (if_neg (not_not.mpr rfl)) rfl
  have copy : Alone h ok (tab.setSema (tab.target h l.key) (-1), (l.read h tab).goto .split)
      ((tab.setSema (tab.target h l.key) (-1)).allocHalves
        (((tab.setSema (tab.target h l.key) (-1)).segs (tab.target h l.key)).split h),
        { l.read h tab with s0 := tab.nseg, s1 := tab.nseg + 1, pc := .compareDepth }) :=
    special (.split _) rfl copies
  rw [Table.setSema_at] at copy
  exact ((run.trans suspend).trans check).trans copy

/-- A pass over a full window, up to `dir->suspend()` or `dir->lock()`. -/
theorem compares (copies : ok (tab.setSema (tab.target h l.key) (-1)) ((l.read h tab).goto .split))
    (zero : (tab.segs (tab.target h l.key)).sema = 0)
    (none : (tab.segs (tab.target h l.key)).findSlot h
      (patternOf tab.cur.depth (tab.segs (tab.target h l.key)).localDepth
      (index tab.cur.depth (h l.key))) (window (h l.key)) = none)
    (old : tab.target h l.key < tab.nseg) :
    Alone h ok (tab, l.goto .readDepth) (tab.splitOff h (tab.target h l.key),
      { l.read h tab with
        s0 := tab.nseg
        s1 := tab.nseg + 1
        pc := if (tab.segs (tab.target h l.key)).localDepth =
          tab.cur.depth then .toDirSuspend else .toDirLock }) := by
  have level : ((tab.splitOff h (tab.target h l.key)).segs (tab.target h l.key)).localDepth =
      (tab.segs (tab.target h l.key)).localDepth := Table.splitOff_localDepth h tab _ old
  refine (splits copies zero none).trans (quiet ?_ rfl)
  simp only [act, Thread.read_target, level, Table.splitOff_cur]
  split <;> rfl

theorem publishes
    (fills : ok (tab.setDirSema tab.dir (-1)) { l with this := tab.dir, pc := .publish })
    (zero : tab.cur.sema = 0) (narrow : tab.cur.capacity < unsignedLimit) :
    Alone h ok (tab, l.goto .toDirSuspend) ((tab.setDirSema tab.dir (-1)).publish l.x l.s0 l.s1,
      { l with this := tab.dir, pc := .readDepth }) := by
  let m := { l with this := tab.dir }
  have load : Alone h ok (tab, l.goto .toDirSuspend) (tab, m.goto (.dirSuspend .load)) :=
    quiet rfl rfl
  have suspend :=
    @suspend h ok _ tab m (.dirSema tab.dir) (fun ok => if ok then .publish else .resetTarget)
      .dirSuspend (fun n => (n.dirs tab.dir).sema) (fun _ _ => rfl) (fun _ => rfl) zero
    (tab.setDirSema_at tab.dir (-1))
  have fits : ¬ unsignedLimit ≤ (tab.setDirSema tab.dir (-1)).cur.capacity := by
    rw [Table.setDirSema_capacity]
    exact not_le.mpr narrow
  exact (load.trans suspend).trans (special (.publish l.x l.s0 l.s1) (if_neg fits) fills)

theorem entries (started : Bool) (rest : List (Nat × Nat))
    (each : ∀ done q left b, rest = done ++ q :: left →
      ok (tab.setDir tab.dir { tab.cur with entries := writeAll tab.cur.entries done })
      (l.goto (.store b (q :: left)))) :
    Alone h ok (tab, l.goto (.store started rest))
      (tab.setDir tab.dir { tab.cur with entries := writeAll tab.cur.entries rest },
        l.goto .toDirUnlock) := by
  induction rest generalizing tab started with
  | nil =>
    rw [Blocks.writeAll_nil, tab.setDir_self]
    exact quiet rfl rfl
  | cons q rest ih =>
    have one : Alone h ok (tab, l.goto (.store started (q :: rest)))
        (tab.setEntry q.1 q.2, l.goto (.store true rest)) := by
      have allowed := each [] q rest started rfl
      rw [Blocks.writeAll_nil, tab.setDir_self] at allowed
      exact special (.entry q.1 q.2) rfl allowed
    have all := one.trans (@ih (tab.setEntry q.1 q.2) true fun done q' left b eq => by
      rw [Table.setEntry_cur, Table.setEntry_setDir]
      exact each (q :: done) q' left b (congrArg (q :: ·) eq))
    rw [Table.setEntry_cur, Table.setEntry_setDir] at all
    rw [Blocks.writeAll_cons]
    exact all

theorem storesSplit (free : 0 ≤ tab.cur.sema)
    (each : ∀ done q left b, stores (index tab.cur.depth (h l.key))
      (tab.cur.depth - (tab.segs l.target).localDepth) l.s0 l.s1 = done ++ q :: left →
      ok (tab.setDir tab.dir
          { tab.cur with entries := writeAll tab.cur.entries done, sema := tab.cur.sema + 1 })
        { l with
          this := tab.dir, x := index tab.cur.depth (h l.key), pc := .store b (q :: left) }) :
    Alone h ok (tab, l.goto .toDirLock) (tab.setDir tab.dir
        { tab.cur with
          entries := writeAll tab.cur.entries (stores (index tab.cur.depth (h l.key))
            (tab.cur.depth - (tab.segs l.target).localDepth) l.s0 l.s1) },
      { l with this := tab.dir, x := index tab.cur.depth (h l.key), pc := .readDepth }) := by
  let m := { l with this := tab.dir }
  let n := { m with x := index tab.cur.depth (h l.key) }
  have load : Alone h ok (tab, l.goto .toDirLock) (tab, m.goto (.dirLock .load)) := quiet rfl rfl
  have lock := @lock h ok _ tab m (.dirSema tab.dir)
    (fun ok => if ok then .readStores else .resetTarget) tab.cur.sema
    .dirLock (fun _ => rfl) (fun _ => rfl) free
  let locked := tab.setDirSema tab.dir (tab.cur.sema + 1)
  have cur : locked.cur = { tab.cur with sema := tab.cur.sema + 1 } := Table.setDir_cur rfl _
  have read : Alone h ok (locked, m.goto .readStores) (locked, n.goto (.store false
      (stores (index tab.cur.depth (h l.key)) (tab.cur.depth - (tab.segs l.target).localDepth)
        l.s0 l.s1))) := by
    refine quiet ?_ rfl
    simp only [act, Thread.goto_pc, cur]
    rfl
  have unlockAt :=
    fun full : Table => @unlock h ok _ full n (.dirSema tab.dir) (fun _ => .readDepth)
    (full.dirs tab.dir).sema .dirUnlock (fun _ => rfl) (fun _ => rfl)
  have back : ∀ full : Table, full.dir = tab.dir →
      Alone h ok (full, n.goto .toDirUnlock) (full, n.goto (.dirUnlock .load)) :=
    fun full same => quiet (by simp only [act, Thread.goto_pc, same]; rfl) rfl
  have stores := @entries h ok _ locked n false _ fun done q left b eq => by
    rw [cur]
    have allowed := each done q left b eq
    simp only [Table.setDirSema, Table.setDir, locked, update_idem] at allowed ⊢
    exact allowed
  have run := ((((load.trans lock).trans read).trans stores).trans (back _ rfl)).trans (unlockAt _)
  rw [cur] at run
  simp only [Effect.apply, Table.setDirSema, Table.setDir, locked, update_self,
    update_idem, add_sub_cancel_right] at run
  exact run

/-- A suspended directory sends the pass back after it has given up its segment. -/
theorem givesUp (held : tab.cur.sema < 0) (pc : Pc) (sent : pc = .toDirSuspend ∨ pc = .toDirLock) :
    Alone h ok (tab, l.goto pc) (tab.setSema l.target 0,
      { l with this := tab.dir, pc := .readDepth }) := by
  let m := { l with this := tab.dir }
  have reset : Alone h ok (tab, m.goto .resetTarget) (tab.setSema l.target 0, m.goto .readDepth) :=
    step (.sema l.target 0) rfl rfl
  have refused : SuspendLock.lock tab.cur.sema .load = .ret false := if_neg (not_le.mpr held)
  have busy : SuspendLock.suspend tab.cur.sema .load = .ret false := if_pos held
  rcases sent with rfl | rfl
  · have load : Alone h ok (tab, l.goto .toDirSuspend) (tab, m.goto (.dirSuspend .load)) :=
      quiet rfl rfl
    have ret := @run_ret h ok _ tab m _ .dirSuspend (.dirSema tab.dir)
      (fun ok => if ok then .publish else .resetTarget)
      (SuspendLock.suspend tab.cur.sema) (fun _ => rfl) (fun _ => rfl) .load false busy
    exact (load.trans ret).trans reset
  · have load : Alone h ok (tab, l.goto .toDirLock) (tab, m.goto (.dirLock .load)) := quiet rfl rfl
    have ret := @run_ret h ok _ tab m _ .dirLock (.dirSema tab.dir)
      (fun ok => if ok then .readStores else .resetTarget)
      (SuspendLock.lock tab.cur.sema) (fun _ => rfl) (fun _ => rfl) .load false refused
    exact (load.trans ret).trans reset

theorem stored_of_attempt {tab' : Table} (at_start : l.pc = .readDepth)
    (ends : tab.attempt h l.key l.value = .stored tab') :
    ∃ l', Alone h ok (tab, l) (tab', l') ∧ l'.pc = .idle ∧ l'.key = l.key := by
  have start : l = l.goto .readDepth := by rw [Thread.goto, ← at_start]
  unfold Table.attempt at ends
  dsimp only at ends
  split at ends
  · cases ends
  · rename_i free
    split at ends
    · rename_i slot found
      cases ends
      have run : Alone h ok _ _ := stored (not_lt.mp free) found
      rw [← start] at run
      exact ⟨_, run, rfl, rfl⟩
    · split at ends
      · cases ends
      · unfold Table.splitTarget at ends
        split at ends
        · cases ends
        · split at ends
          · split at ends <;> cases ends
          · cases ends

/-- A pass without interference is an `attempt`. -/
theorem retry_of_attempt {tab' : Table} (lt : tab.target h l.key < tab.nseg)
    (at_start : l.pc = .readDepth) (ends : tab.attempt h l.key l.value = .retry tab') :
    ∃ l', Alone h Thread.Unchecked (tab, l) (tab', l') ∧ l'.pc = .readDepth ∧ l'.key = l.key ∧
      l'.value = l.value := by
  have start : l = l.goto .readDepth := by rw [Thread.goto, ← at_start]
  unfold Table.attempt at ends
  dsimp only at ends
  split at ends
  · rename_i held
    cases ends
    have ret := @run_ret h Thread.Unchecked _ tab (l.read h tab) _ .segLock
      (.sema (tab.target h l.key))
      (fun ok => if ok then .checkEntry else .readDepth)
        (SuspendLock.lock (tab.segs (tab.target h l.key)).sema)
      (fun _ => rfl) (fun _ => rfl) .load false (if_neg (not_le.mpr held))
    rw [start]
    exact ⟨_, reads.trans ret, rfl, rfl, rfl⟩
  · split at ends
    · cases ends
    · rename_i none
      split at ends
      · cases ends
      · rename_i zero
        let m := { l.read h tab with s0 := tab.nseg, s1 := tab.nseg + 1 }
        have level : ((tab.splitOff h (tab.target h l.key)).segs m.target).localDepth =
            (tab.segs (tab.target h l.key)).localDepth := Table.splitOff_localDepth h tab _ lt
        have compare := @compares h Thread.Unchecked _ tab l nofun (not_not.mp zero) none lt
        rw [← start] at compare
        unfold Table.splitTarget at ends
        split at ends
        · rename_i held
          cases ends
          exact ⟨_, compare.trans (@givesUp h Thread.Unchecked
            _ (tab.splitOff h (tab.target h l.key)) m held _ (ite_eq_or_eq _ _ _)), rfl, rfl, rfl⟩
        · rename_i free
          split at ends
          · rename_i full
            split at ends
            · cases ends
            · rename_i fits
              obtain ⟨zero', narrow⟩ := not_or.mp fits
              cases ends
              rw [if_pos full] at compare
              exact ⟨_, compare.trans (@publishes h Thread.Unchecked _ _ m nofun (not_not.mp zero')
                (not_le.mp narrow)), rfl, rfl, rfl⟩
          · rename_i below
            cases ends
            rw [if_neg below] at compare
            have run := compare.trans (@storesSplit h Thread.Unchecked _ _ m (not_lt.mp free)
              fun _ _ _ _ _ => nofun)
            rw [level] at run
            exact ⟨_, run, rfl, rfl, rfl⟩

theorem getReads (free : 0 ≤ tab.cur.sema) :
    Alone h Thread.Unchecked (tab, l.goto .getSpin) (tab, (l.read h tab).goto .getCheck) := by
  have spin : Alone h Thread.Unchecked (tab, l.goto .getSpin) (tab, l.goto .getDepth) :=
    quiet (if_neg (not_lt.mpr free)) rfl
  have depth : Alone h Thread.Unchecked (tab, l.goto .getDepth) (tab,
      { l with depth := tab.cur.depth, x := index tab.cur.depth (h l.key), pc := .getEntry }) :=
    quiet rfl rfl
  exact (spin.trans depth).trans (special .none rfl nofun)

omit [Mild ok] in
theorem alloc {p q : Table × Thread} (run : Alone h ok p q) (shared : p.1.Alloc)
    (mine : p.2.Alloc p.1) :
    q.1.Alloc ∧ q.2.Alloc q.1 := by
  induction run with
  | refl => exact ⟨shared, mine⟩
  | tail _ step ih =>
    obtain ⟨_, rfl⟩ := step
    exact ⟨ih.1.act ih.2, ih.2.act ih.1⟩

/-- A call without interference is the sequential one. -/
theorem insertLoop {fuel : Nat} {tab' : Table} (shared : tab.Alloc) (mine : l.Alloc tab)
    (at_start : l.pc = .readDepth) (returned : tab.insertLoop h fuel l.key l.value = some tab') :
    ∃ l', Alone h Thread.Unchecked (tab, l) (tab', l') ∧ l'.pc = .idle := by
  induction fuel generalizing tab l with
  | zero => cases returned
  | succ fuel ih =>
    have lt : tab.target h l.key < tab.nseg := shared.entries _
    rw [Table.insertLoop] at returned
    split at returned
    · rename_i t ends
      cases returned
      obtain ⟨l', run, idle, _⟩ := @stored_of_attempt h Thread.Unchecked _ _ _ _ at_start ends
      exact ⟨l', run, idle⟩
    · rename_i t ends
      obtain ⟨l', run, pc, key, value⟩ := retry_of_attempt lt at_start ends
      obtain ⟨shared', mine'⟩ := alloc run shared mine
      rw [← key, ← value] at returned
      obtain ⟨l'', rest, idle⟩ := ih shared' mine' pc returned
      exact ⟨l'', run.trans rest, idle⟩
    · cases returned

end Alone

namespace State
variable {T : Type} [DecidableEq T] (h : Key → BitVec 64)

/-- The steps of the machine without the retry path of `Get`, whose `unlock` nothing has
locked. -/
inductive QuietStep : State T → State T → Prop
  | insert (s : State T) (t : T) (key : Key) (value : Value) : (s.threads t).pc = .idle →
      QuietStep s (s.call t .readDepth key value)
  | get (s : State T) (t : T) (key : Key) : (s.threads t).pc = .idle →
      QuietStep s (s.call t .getSpin key noneValue)
  | tick (s : State T) (t : T) : ((s.threads t).pc = .getCheck →
      (s.threads t).target = s.table.cur.entries (s.threads t).x) → QuietStep s (s.tick h t)

variable {h} {s s' : State T} {t : T}

theorem QuietStep.step (quiet : QuietStep h s s') : Step h s s' := by
  cases quiet with
  | insert t key value idle => exact .insert s t key value idle
  | get t key idle => exact .get s t key idle
  | tick t _ => exact .tick s t

theorem run_of_quiet (run : ReflTransGen (QuietStep h) s s') : ReflTransGen (Step h) s s' :=
  run.lift id fun _ _ quiet => quiet.step

theorem run_of_alone {R : State T → State T → Prop} {ok : Table → Thread → Prop}
    (lift : ∀ s : State T, ok s.table (s.threads t) → R s (s.tick h t)) {q : Table × Thread}
    (run : Alone h ok (s.table, s.threads t) q) :
    ∃ s', ReflTransGen R s s' ∧ s'.table = q.1 ∧ s'.threads = update s.threads t q.2 := by
  induction run with
  | refl => exact ⟨s, .refl, rfl, (update_eq_self t s.threads).symm⟩
  | tail _ step ih =>
    obtain ⟨allowed, rfl⟩ := step
    obtain ⟨s', run, table, threads⟩ := ih
    have mine : s'.threads t = _ := congrFun threads t |>.trans (update_self ..)
    refine ⟨s'.tick h t, run.tail (lift s' (by rwa [table, mine])), ?_, ?_⟩
    · simp only [tick, table, mine, next]
    · simp only [tick, table, mine, next, threads, update_idem]

theorem run_of_call {R : State T → State T → Prop} {ok : Table → Thread → Prop}
    (lift : ∀ s : State T, ok s.table (s.threads t) → R s (s.tick h t)) {start : Pc} {key : Key}
    {value : Value} {q : Table × Thread} (call : R s (s.call t start key value))
    (run : Alone h ok (s.table, { s.threads t with pc := start, key := key, value := value }) q) :
    ∃ s', ReflTransGen R s s' ∧ s'.table = q.1 ∧ s'.threads = update s.threads t q.2 := by
  have mine : (s.call t start key value).threads t =
      { s.threads t with pc := start, key := key, value := value } := update_self ..
  rw [← mine] at run
  obtain ⟨s', rest, table, threads⟩ := run_of_alone (s := s.call t start key value) lift run
  refine ⟨s', .head call rest, table, threads.trans ?_⟩
  exact update_idem ..

theorem QuietStep.of_unchecked (s : State T) (away : (s.threads t).Unchecked s.table) :
    QuietStep h s (s.tick h t) :=
  .tick s t fun check => absurd check away

/-- Completed calls of one thread are steps of the machine. -/
theorem quiet_of_calls {tab' : Table} (alloc : s.Alloc) (idle : (s.threads t).pc = .idle)
    (calls : ReflTransGen (Table.Call h) s.table tab') :
    ∃ s', ReflTransGen (QuietStep h) s s' ∧ s'.table = tab' ∧ (s'.threads t).pc = .idle ∧
      ∀ t' ≠ t, s'.threads t' = s.threads t' := by
  induction calls with
  | refl => exact ⟨s, .refl, rfl, idle, fun _ _ => rfl⟩
  | tail _ call ih =>
    obtain ⟨s', run, table, idle', others⟩ := ih
    obtain ⟨key, value, fuel, returned⟩ := call
    obtain ⟨shared, threads⟩ := alloc.run (run_of_quiet run)
    have mine := threads t
    rw [← table] at returned
    let l := { s'.threads t with pc := .readDepth, key := key, value := value }
    obtain ⟨l', alone, done⟩ := Alone.insertLoop (l := l) shared
      ⟨mine.target, mine.s0, mine.s1, mine.this, nofun⟩ rfl returned
    obtain ⟨s'', rest, table', threads'⟩ :=
      run_of_call QuietStep.of_unchecked (.insert s' t key value idle') alone
    refine ⟨s'', run.trans rest, table', ?_, fun t' other => ?_⟩
    · rw [threads', update_self]
      exact done
    · rw [threads', update_of_ne other]
      exact others t' other

/-! Runs whose steps are tame, for any relation that has the calls and the tame steps. -/

section
variable {R : State T → State T → Prop} (lift : ∀ s t, Thread.Tame h s.table (s.threads t) →
  R s (s.tick h t))
  (calls : ∀ s t key value, (s.threads t).pc = .idle → key ≠ invalidKey ∧ key ≠ sentinelKey →
    R s (s.call t .readDepth key value))
include lift calls

theorem run_of_stores {tab tab' : Table} {ops : List (Key × Value)}
    (stores : Table.Stores h tab ops tab') (here : s.table = tab)
    (valid : ∀ op ∈ ops, op.1 ≠ invalidKey ∧ op.1 ≠ sentinelKey) (idle : (s.threads t).pc = .idle) :
    ∃ s', ReflTransGen R s s' ∧ s'.table = tab' ∧ (s'.threads t).pc = .idle ∧
      ∀ t' ≠ t, s'.threads t' = s.threads t' := by
  induction stores generalizing s with
  | nil => exact ⟨s, .refl, here, idle, fun _ _ => rfl⟩
  | @cons _ _ _ key value ops stored _ ih =>
    obtain ⟨l, run, pc, _⟩ := @Alone.stored_of_attempt h (Thread.Tame h) _ s.table
      { s.threads t with pc := .readDepth, key := key, value := value } _ rfl (here ▸ stored)
    obtain ⟨s₁, first, table, threads⟩ := run_of_call (fun s => lift s t)
      (calls s t key value idle (valid _ List.mem_cons_self)) run
    obtain ⟨s', rest, table', pc', others⟩ :=
      ih table (fun op mem => valid op (List.mem_cons_of_mem _ mem))
      (by rw [threads, update_self]; exact pc)
    refine ⟨s', first.trans rest, table', pc', fun t' other => ?_⟩
    rw [others t' other, threads, update_of_ne other]

end

/-- Both segments are split, and the pair of `midKey` has one of its own. -/
structure Grown (old tab : Table) : Prop where
  depth : tab.cur.depth = 2
  entries : ∀ d < 4, tab.cur.entries d = d + 2
  mid : tab.segs 3 = (old.segs 0).child id Table.midKey

omit [DecidableEq T] in
theorem tame_of_twoFull {tab tab' : Table} (two : tab.TwoFull) {l : Thread} {a : Nat} (lt : a < 2)
    (seg : tab'.segs l.target = { tab.segs a with sema := -1 }) (pc : l.pc = .split) :
    Thread.Tame id tab' l := by
  refine .of_split pc ?_
  rw [seg]
  exact Segment.not_dropped_of_few (two.few lt)

section
variable {R : State T → State T → Prop} (lift : ∀ s t, Thread.Tame id s.table (s.threads t) →
  R s (s.tick id t))
  (calls : ∀ s t key value, (s.threads t).pc = .idle → key ≠ invalidKey ∧ key ≠ sentinelKey →
    R s (s.call t .readDepth key value))
include lift calls

/-- A thread splits segment 0, doubles the directory and stores key 0. -/
theorem run_doubles (two : s.table.TwoFull) (idle : (s.threads t).pc = .idle) :
    ∃ s' i, ReflTransGen R s s' ∧ (s.table.doubleDir id 0).attempt id 0 1 = .stored s'.table ∧
      s'.table = (s.table.doubleDir id 0).setSeg 2
        (((s.table.segs 0).child id 0).set i ⟨0, some 1⟩) ∧
      (s'.threads t).pc = .idle ∧ ∀ t' ≠ t, s'.threads t' = s.threads t' := by
  let l := { s.threads t with pc := .readDepth, key := 0, value := 1 }
  have low : s.table.target id l.key = 0 := two.low
  have compares := @Alone.compares id (Thread.Tame id) _ s.table l
    (tame_of_twoFull two (by decide : 0 < 2)
      (by rw [Thread.goto_target, Thread.read_target, Table.setSema_at, low]) rfl)
    (two.idle _ (two.inv.index_lt 0)) (two.inv.crowded (low ▸ two.lowFull)) (two.inv.target_lt 0)
  rw [if_pos two.atTop] at compares
  have publishes :=
    @Alone.publishes id (Thread.Tame id) _ (s.table.splitOff id (s.table.target id l.key))
    { l.read id s.table with s0 := s.table.nseg, s1 := s.table.nseg + 1 }
    (.of_publish rfl (by
      rw [Table.setDirSema_segs, Table.setDirSema_depth, Table.splitOff_cur]
      exact (Table.splitOff_localDepth id s.table _ (two.inv.target_lt 0)).trans two.atTop))
    two.inv.free (by rw [Table.splitOff_cur, two.inv.capacity, two.depth]; decide)
  obtain ⟨_, _, i, stored⟩ := two.grown
  obtain ⟨l', stored', pc, _⟩ :=
    @Alone.stored_of_attempt id (Thread.Tame id) _ (s.table.doubleDir id 0)
    { l.read id s.table with
      s0 := s.table.nseg
      s1 := s.table.nseg + 1
      this := (s.table.splitOff id (s.table.target id l.key)).dir
      pc := .readDepth } _ rfl stored
  obtain ⟨s', run, table, threads⟩ :=
    run_of_call (fun s => lift s t) (calls s t 0 1 idle (by decide))
    ((compares.trans publishes).trans stored')
  refine ⟨s', i, run, by rw [table, stored], table, ?_, fun t' other => ?_⟩
  · rw [threads, update_self]
    exact pc
  · rw [threads, update_of_ne other]

/-- Then a thread splits segment 1, which is left of the old depth. -/
theorem run_splits {tab : Table} (two : tab.TwoFull) {i : Fin kNumSlot}
    (stored : (tab.doubleDir id 0).attempt id 0 1 = .stored s.table)
    (eq : s.table = (tab.doubleDir id 0).setSeg 2 (((tab.segs 0).child id 0).set i ⟨0, some 1⟩))
    (idle : (s.threads t).pc = .idle) :
    ∃ s', ReflTransGen R s s' ∧ (s'.threads t).pc = .readDepth ∧
      (s'.threads t).key = Table.highKey ∧ (∀ t' ≠ t, s'.threads t' = s.threads t') ∧
      Grown tab s'.table := by
  have inv : Table.Inv id s.table := two.grown.1.pass ⟨0, 1, Or.inl stored⟩
  obtain ⟨e₀, e₁, e₂, e₃⟩ := two.grown_entries
  have cur : s.table.cur = (tab.doubleDir id 0).cur := by
    rw [eq]
    rfl
  have depth : s.table.cur.depth = 2 := cur ▸ two.grown_depth
  have nseg : s.table.nseg = 4 := by
    rw [eq]
    exact congrArg (· + 2) two.nseg
  have high : s.table.target id Table.highKey = 1 := by
    rw [Table.target, depth, cur]
    exact e₂
  have segs : ∀ a ≠ 2, s.table.segs a = (tab.doubleDir id 0).segs a := by
    intro a ne
    rw [eq]
    exact update_of_ne ne _ _
  have seg : s.table.segs 1 = tab.segs 1 := (segs 1 (by decide)).trans two.grown_high
  let m := { s.threads t with pc := .readDepth, key := Table.highKey, value := 1 }
  have compares := @Alone.compares id (Thread.Tame id) _ s.table m
    (tame_of_twoFull two (by decide : 1 < 2)
      (by rw [Thread.goto_target, Thread.read_target, Table.setSema_at, high, seg]) rfl)
    (by rw [high, seg, two.high_sema]) (inv.crowded (by rw [high, seg]; exact two.highFull))
    (inv.target_lt _)
  rw [if_neg (by rw [high, seg, two.levels 1 (by decide), depth]; decide)] at compares
  let n := { m.read id s.table with s0 := s.table.nseg, s1 := s.table.nseg + 1 }
  have level : ((s.table.splitOff id (s.table.target id m.key)).segs n.target).localDepth =
      (s.table.segs (s.table.target id Table.highKey)).localDepth :=
    Table.splitOff_localDepth id s.table _ (inv.target_lt _)
  have list : stores (index s.table.cur.depth (id Table.highKey))
      (s.table.cur.depth - (s.table.segs (s.table.target id Table.highKey)).localDepth)
      s.table.nseg (s.table.nseg + 1) = [(3, 5), (2, 4)] := by
    rw [high, seg, two.levels 1 (by decide), depth, nseg]
    rfl
  have storesSplit := @Alone.storesSplit id (Thread.Tame id) _
    (s.table.splitOff id (s.table.target id m.key)) n inv.free.ge (by
      intro done q left b eq
      rw [level] at eq
      refine .of_store (a := q.2) rfl ?_
      rw [Table.setDir_cur rfl]
      show writeAll s.table.cur.entries done q.1 = s.table.target id Table.highKey
      rw [high, cur]
      rcases done with _ | ⟨p, _ | ⟨p', done⟩⟩
      · rw [← (List.cons.inj (list.symm.trans eq)).1]
        exact e₃
      · obtain ⟨rfl, rest⟩ := List.cons.inj (list.symm.trans eq)
        rw [← (List.cons.inj rest).1]
        exact e₂
      · have long := congrArg List.length (list.symm.trans eq)
        simp at long)
  rw [level] at storesSplit
  obtain ⟨s', run, table, threads⟩ := run_of_call (fun s => lift s t)
    (calls s t Table.highKey 1 idle (by decide)) (compares.trans storesSplit)
  have after : s'.table.cur = _ :=
    (congrArg Table.cur table).trans (s.table.storeSplit_cur id Table.highKey)
  rw [list, cur] at after
  refine ⟨s', run, ?_, ?_, fun t' other => ?_, ?_, fun d lt => ?_, ?_⟩
  · rw [threads, update_self]
  · rw [threads, update_self]
    rfl
  · rw [threads, update_of_ne other]
  · rw [after]
    exact two.grown_depth
  · rw [after]
    interval_cases d
    exacts [e₀, e₁, rfl, rfl]
  · have old := Table.splitOff_old id s.table 1 (show 3 < s.table.nseg by rw [nseg]; decide)
    rw [table]
    show (s.table.splitOff id (s.table.target id Table.highKey)).segs 3 = _
    rw [high, old, if_neg (by decide), segs 3 (by decide), two.grown_mid.2]

end

/-- One thread doubles the directory and returns, another one splits the segment that is left of the
old depth. -/
theorem run_of_twoFull {s : State (Fin 2)} {R : State (Fin 2) → State (Fin 2) → Prop}
    (lift : ∀ s t, Thread.Tame id s.table (s.threads t) → R s (s.tick id t))
    (calls : ∀ s t key value, (s.threads t).pc = .idle → key ≠ invalidKey ∧ key ≠ sentinelKey →
      R s (s.call t .readDepth key value))
    (two : s.table.TwoFull) (idle : ∀ t, (s.threads t).pc = .idle) :
    ∃ s', ReflTransGen R s s' ∧ (s'.threads 0).pc = .idle ∧ (s'.threads 1).pc = .readDepth ∧
      (s'.threads 1).key = Table.highKey ∧ Grown s.table s'.table := by
  obtain ⟨s₁, i, run₁, stored, table, done, others₁⟩ := run_doubles lift calls two (idle 0)
  obtain ⟨s₂, run₂, pc, key, others₂, grown⟩ := run_splits lift calls two stored table
    (by rw [others₁ 1 Fin.zero_ne_one.symm]; exact idle 1)
  refine ⟨s₂, run₁.trans run₂, ?_, pc, key, grown⟩
  rw [others₂ 0 Fin.zero_ne_one]
  exact done

end State

end Xcache.CCEH
