import Xcache.CCEH.Table
import Xcache.Lib.SuspendLock

/-! `Insert` and `Get` of `server/src/cceh.cpp` as any number of threads run them, one
access to shared memory at a time. The lock methods of `Segment` and `Directory` are the
same three methods of a lock word. Copying the pairs of a suspended segment and filling a
new directory are one step each: the locks exclude writers for their duration. -/

namespace Xcache.CCEH
open SuspendLock (LockPc UnlockPc SuspendPc Out)

/-- Where `Insert` goes after `target->unlock()`. -/
inductive After
  | retry | done | collision

inductive Pc
  | idle
  | readDepth | readEntry
  | segLock (c : LockPc)
  | checkEntry | checkDepth
  | probeRead (i : Nat) | probeTest (i : Nat) (seen : Key) | probeCas (i : Nat) (seen : Key)
  | storeValue (i : Nat) | storeKey (i : Nat)
  | segUnlock (c : UnlockPc) (next : After)
  | segSuspend (c : SuspendPc)
  | checkSplit | resetTarget | split | compareDepth
  | toDirSuspend | dirSuspend (c : SuspendPc) | publish
  | toDirLock | dirLock (c : LockPc) | readStores | store (started : Bool) (rest : List (Nat × Nat))
  | toDirUnlock | dirUnlock (c : UnlockPc)
  | getSpin | getDepth | getEntry | getCheck | getUnlock (c : UnlockPc)
  | getProbe (i : Nat) | getValue (i : Nat)

/-- The local variables of one call; `this` is the directory of a lock method. -/
structure Thread where
  pc : Pc
  key : Key
  value : Value
  depth : Nat
  x : Nat
  target : Nat
  s0 : Nat
  s1 : Nat
  this : Nat

/-- What a step does to shared memory. -/
inductive Effect
  | none
  | sema (a : Nat) (v : Int)
  | slot (a : Nat) (i : Fin kNumSlot) (p : Pair)
  | split (a : Nat)
  | dirSema (p : Nat) (v : Int)
  | entry (j a : Nat)
  | publish (x s0 s1 : Nat)

def Thread.goto (l : Thread) (pc : Pc) : Thread := { l with pc := pc }

/-- One access of a lock method inside a thread. -/
def Thread.run {C : Type} (l : Thread) (out : Out C) (write : Int → Effect) (stay : C → Pc)
    (ret : Bool → Pc) : Effect × Thread :=
  match out with
  | .next c => (.none, l.goto (stay c))
  | .ret b => (.none, l.goto (ret b))
  | .storeNext v c => (write v, l.goto (stay c))
  | .storeRet v b => (write v, l.goto (ret b))

def After.pc : After → Pc
  | .retry => .readDepth
  | .done => .idle
  | .collision => .segSuspend .load

section
variable (h : Key → BitVec 64)

def Effect.apply (tab : Table) : Effect → Table
  | .none => tab
  | .sema a v => tab.setSema a v
  | .slot a i p => tab.setSeg a ((tab.segs a).set i p)
  | .split a => tab.allocHalves ((tab.segs a).split h)
  | .dirSema p v => tab.setDirSema p v
  | .entry j a => tab.setEntry j a
  | .publish x s0 s1 => tab.publish x s0 s1

/-- The slot a probe loop looks at in round `i`. -/
def Thread.slot (l : Thread) (i : Nat) : Fin kNumSlot := slotAt (window (h l.key)) i

/-- One step of a thread at its program counter. -/
def act (tab : Table) (l : Thread) : Effect × Thread :=
  match l.pc with
  | .idle => (.none, l)
  | .readDepth =>
    (.none, { l with depth := tab.cur.depth, x := index tab.cur.depth (h l.key), pc := .readEntry })
  | .readEntry => (.none, { l with target := tab.cur.entries l.x, pc := .segLock .load })
  | .segLock c =>
    l.run (SuspendLock.lock (tab.segs l.target).sema c) (.sema l.target) .segLock
      fun ok => if ok then .checkEntry else .readDepth
  | .checkEntry =>
    if l.target = tab.cur.entries l.x then (.none, l.goto .checkDepth)
    else (.none, l.goto (.segUnlock .load .retry))
  | .checkDepth =>
    if l.depth = tab.cur.depth then (.none, l.goto (.probeRead 0))
    else (.none, l.goto (.segUnlock .load .retry))
  | .probeRead i =>
    if i < kNumPairPerCacheLine * kNumCacheLine then
      (.none, l.goto (.probeTest i ((tab.segs l.target).slots (l.slot h i)).key))
    else (.none, l.goto (.segUnlock .load .collision))
  | .probeTest i seen =>
    if (tab.segs l.target).Usable h (patternOf l.depth (tab.segs l.target).localDepth l.x)
      (l.slot h i) then (.none, l.goto (.probeCas i seen))
    else (.none, l.goto (.probeRead (i + 1)))
  | .probeCas i seen =>
    if ((tab.segs l.target).slots (l.slot h i)).key = seen then
      (.slot l.target (l.slot h i) ⟨sentinelKey, ((tab.segs l.target).slots (l.slot h i)).value⟩,
        l.goto (.storeValue i))
    else (.none, l.goto (.probeRead (i + 1)))
  | .storeValue i =>
    (.slot l.target (l.slot h i) ⟨((tab.segs l.target).slots (l.slot h i)).key, some l.value⟩,
      l.goto (.storeKey i))
  | .storeKey i =>
    (.slot l.target (l.slot h i) ⟨l.key, ((tab.segs l.target).slots (l.slot h i)).value⟩,
      l.goto (.segUnlock .load .done))
  | .segUnlock c next =>
    l.run (SuspendLock.unlock (tab.segs l.target).sema c) (.sema l.target) (.segUnlock · next)
      fun _ => next.pc
  | .segSuspend c =>
    l.run (SuspendLock.suspend (tab.segs l.target).sema c) (.sema l.target) .segSuspend
      fun ok => if ok then .checkSplit else .readDepth
  | .checkSplit =>
    if (tab.segs l.target).localDepth ≠ (tab.segs (tab.cur.entries l.x)).localDepth then
      (.none, l.goto .resetTarget)
    else (.none, l.goto .split)
  | .resetTarget => (.sema l.target 0, l.goto .readDepth)
  | .split => (.split l.target, { l with s0 := tab.nseg, s1 := tab.nseg + 1, pc := .compareDepth })
  | .compareDepth =>
    if (tab.segs l.target).localDepth = tab.cur.depth then (.none, l.goto .toDirSuspend)
    else (.none, l.goto .toDirLock)
  | .toDirSuspend => (.none, { l with this := tab.dir, pc := .dirSuspend .load })
  | .dirSuspend c =>
    l.run (SuspendLock.suspend (tab.dirs l.this).sema c) (.dirSema l.this) .dirSuspend
      fun ok => if ok then .publish else .resetTarget
  | .publish =>
    -- the copying loop does not end for a capacity of 2^32 and more
    if unsignedLimit ≤ tab.cur.capacity then (.none, l)
    else (.publish l.x l.s0 l.s1, l.goto .readDepth)
  | .toDirLock => (.none, { l with this := tab.dir, pc := .dirLock .load })
  | .dirLock c =>
    l.run (SuspendLock.lock (tab.dirs l.this).sema c) (.dirSema l.this) .dirLock
      fun ok => if ok then .readStores else .resetTarget
  | .readStores =>
    (.none, { l with
      x := index tab.cur.depth (h l.key)
      pc := .store false (stores (index tab.cur.depth (h l.key))
        (tab.cur.depth - (tab.segs l.target).localDepth) l.s0 l.s1) })
  | .store _ [] => (.none, l.goto .toDirUnlock)
  | .store _ ((j, a) :: rest) => (.entry j a, l.goto (.store true rest))
  | .toDirUnlock => (.none, { l with this := tab.dir, pc := .dirUnlock .load })
  | .dirUnlock c =>
    l.run (SuspendLock.unlock (tab.dirs l.this).sema c) (.dirSema l.this) .dirUnlock fun _ =>
      .readDepth
  | .getSpin => if tab.cur.sema < 0 then (.none, l) else (.none, l.goto .getDepth)
  | .getDepth =>
    (.none, { l with depth := tab.cur.depth, x := index tab.cur.depth (h l.key), pc := .getEntry })
  | .getEntry => (.none, { l with target := tab.cur.entries l.x, pc := .getCheck })
  | .getCheck =>
    if l.target = tab.cur.entries l.x then (.none, l.goto (.getProbe 0))
    else (.none, l.goto (.getUnlock .load))
  | .getUnlock c =>
    l.run (SuspendLock.unlock (tab.segs l.target).sema c) (.sema l.target) .getUnlock fun _ =>
      .getSpin
  | .getProbe i =>
    if i < kNumPairPerCacheLine * kNumCacheLine then
      if ((tab.segs l.target).slots (l.slot h i)).key = l.key then (.none, l.goto (.getValue i))
      else (.none, l.goto (.getProbe (i + 1)))
    else (.none, l.goto .idle)
  | .getValue _ => (.none, l.goto .idle)

attribute [grind =] act

end

/-- Shared memory, the threads, and which suspension of a segment is in force: by whom,
and the value it replaced. No step reads the last part. -/
structure State (T : Type) where
  table : Table
  threads : T → Thread
  suspender : Nat → Option (T × Nat)

namespace State
variable {T : Type} [DecidableEq T] (h : Key → BitVec 64)

/-- A successful suspend takes note of itself, the store `sema = 0` takes it back. -/
def noteSuspend (s : State T) (t : T) : Nat → Option (T × Nat) :=
  match (s.threads t).pc with
  | .segSuspend c =>
    match SuspendLock.suspend (s.table.segs (s.threads t).target).sema c with
    | .storeNext _ (.wait val) => Function.update s.suspender (s.threads t).target (some (t, val))
    | _ => s.suspender
  | .resetTarget => Function.update s.suspender (s.threads t).target none
  | _ => s.suspender

def tick (s : State T) (t : T) : State T where
  table := (act h s.table (s.threads t)).1.apply h s.table
  threads := Function.update s.threads t (act h s.table (s.threads t)).2
  suspender := s.noteSuspend t

/-- A thread calls `Insert` or `Get`. -/
def call (s : State T) (t : T) (start : Pc) (key : Key) (value : Value) : State T :=
  let l := { s.threads t with pc := start, key := key, value := value }
  { s with threads := Function.update s.threads t l }

inductive Step : State T → State T → Prop
  | insert (s : State T) (t : T) (key : Key) (value : Value) : (s.threads t).pc = .idle →
      Step s (s.call t .readDepth key value)
  | get (s : State T) (t : T) (key : Key) : (s.threads t).pc = .idle →
      Step s (s.call t .getSpin key noneValue)
  | tick (s : State T) (t : T) : Step s (s.tick h t)

def initial (T : Type) (tab : Table) : State T :=
  ⟨tab, fun _ => ⟨.idle, 0, 0, 0, 0, 0, 0, 0, 0⟩, fun _ => none⟩

end State

end Xcache.CCEH
