import Mathlib.Logic.Relation
import Xcache.CCEH.Segment

/-! The table of `server/src/cceh.cpp`: directories and segments by address, and
`Insert` and `Get` as one thread runs them. Addresses are numbers in the order of
allocation; nothing that another thread may still see is freed. -/

namespace Xcache.CCEH
open Function
open Blocks (top writeAll writeAll_apply halved doubled)

structure Directory where
  entries : Nat → Nat
  sema : Int
  capacity : Nat
  depth : Nat

def Directory.new (depth : Nat) : Directory := ⟨fun _ => 0, 0, 2 ^ depth, depth⟩

structure Table where
  segs : Nat → Segment
  nseg : Nat
  dirs : Nat → Directory
  ndir : Nat
  dir : Nat

/-- A loop `for (unsigned i = 0; i < capacity; ++i)` ends only below this bound. -/
def unsignedLimit : Nat := 2 ^ 32

/-- `int stride = pow(2, diff)`. From 2^31 on the conversion gives a negative number and
the loops that run to `stride / 2` do nothing. -/
def stride (diff : Nat) : Nat := if diff < 31 then 2 ^ diff else 0

/-- The directory stores of a split without doubling, in their order. -/
def stores (x diff s0 s1 : Nat) : List (Nat × Nat) :=
  if diff = 1 then
    if x % 2 = 0 then [(x + 1, s1), (x, s0)] else [(x, s1), (x - 1, s0)]
  else
    (List.range (stride diff / 2)).map (fun i => (x - x % stride diff + stride diff / 2 + i, s1)) ++
      (List.range (stride diff / 2)).map (fun i => (x - x % stride diff + i, s0))

/-- The stores that fill a directory of twice the size. -/
def doublingStores (d : Directory) (x s0 s1 : Nat) : List (Nat × Nat) :=
  (List.range d.capacity).flatMap fun i =>
    if i = x then [(2 * i, s0), (2 * i + 1, s1)]
    else [(2 * i, d.entries i), (2 * i + 1, d.entries i)]

namespace Table

def cur (t : Table) : Directory := t.dirs t.dir

def setSeg (t : Table) (a : Nat) (s : Segment) : Table :=
  { t with segs := update t.segs a s }

def setSema (t : Table) (a : Nat) (v : Int) : Table := t.setSeg a { t.segs a with sema := v }

def setDir (t : Table) (p : Nat) (d : Directory) : Table :=
  { t with dirs := update t.dirs p d }

/-- The two new segments of a split get the next two addresses. -/
def allocHalves (t : Table) (halves : Segment × Segment) : Table :=
  { t with
    segs := update (update t.segs t.nseg halves.1) (t.nseg + 1) halves.2
    nseg := t.nseg + 2 }

/-- The target is suspended and its pairs are copied to two new segments. -/
def splitOff (h : Key → BitVec 64) (t : Table) (a : Nat) : Table :=
  (t.setSema a (-1)).allocHalves ((t.segs a).split h)

def setDirSema (t : Table) (p : Nat) (v : Int) : Table := t.setDir p { t.dirs p with sema := v }

def setEntry (t : Table) (j a : Nat) : Table :=
  t.setDir t.dir { t.cur with entries := update t.cur.entries j a }

/-- Fill a directory of twice the size and publish it. -/
def publish (t : Table) (x s0 s1 : Nat) : Table :=
  let grown := Directory.new (t.cur.depth + 1)
  { t with
    dirs := update t.dirs t.ndir
      { grown with entries := writeAll grown.entries (doublingStores t.cur x s0 s1) }
    ndir := t.ndir + 1
    dir := t.ndir }

/-- The constructor for a given depth; entry `i` gets the `i`-th new segment. It does not
return when the loop over the capacity has no end. -/
def construct (depth : Nat) : Option Table :=
  if 2 ^ depth < unsignedLimit then
    some ⟨fun _ => Segment.new depth, 2 ^ depth, fun _ => { Directory.new depth with
      entries := writeAll (fun _ => 0) ((List.range (2 ^ depth)).map fun i => (i, i)) }, 1, 0⟩
  else none

section
variable (h : Key → BitVec 64)

def target (t : Table) (key : Key) : Nat := t.cur.entries (index t.cur.depth (h key))

/-- The split of the key's segment with a directory of twice the size; the old directory
stays suspended. -/
def doubleDir (t : Table) (key : Key) : Table :=
  ((t.splitOff h (t.target h key)).setDirSema t.dir (-1)).publish (index t.cur.depth (h key)) t.nseg
    (t.nseg + 1)

/-- The split of the key's segment stored in its block of the directory. -/
def storeSplit (t : Table) (key : Key) : Table :=
  (t.splitOff h (t.target h key)).setDir t.dir { t.cur with
    entries := writeAll t.cur.entries (stores (index t.cur.depth (h key))
      (t.cur.depth - (t.segs (t.target h key)).localDepth) t.nseg (t.nseg + 1)) }

/-- How one pass of the RETRY loop ends. -/
inductive Attempt
  | stored (t : Table)
  | retry (t : Table)
  | spins

/-- From the successful suspend of the target to the end of the pass. -/
def splitTarget (t : Table) (key : Key) : Attempt :=
  if t.cur.sema < 0 then .retry ((t.splitOff h (t.target h key)).setSema (t.target h key) 0)
  else if (t.segs (t.target h key)).localDepth = t.cur.depth then
    if t.cur.sema ≠ 0 ∨ unsignedLimit ≤ t.cur.capacity then .spins else .retry (t.doubleDir h key)
  else .retry (t.storeSplit h key)

/-- One pass of the RETRY loop without interference: lock and unlock of the segment
cancel out, and a suspend that finds a holder waits for ever. -/
def attempt (t : Table) (key : Key) (value : Value) : Attempt :=
  let a := t.target h key
  let s := t.segs a
  let x := index t.cur.depth (h key)
  if s.sema < 0 then .retry t
  else
    match s.findSlot h (patternOf t.cur.depth s.localDepth x) (window (h key)) with
    | some i => .stored (t.setSeg a (s.set i ⟨key, some value⟩))
    | none => if s.sema ≠ 0 then .spins else t.splitTarget h key

def insertLoop : Nat → Table → Key → Value → Option Table
  | 0, _, _, _ => none
  | fuel + 1, t, key, value =>
    match t.attempt h key value with
    | .stored t' => some t'
    | .retry t' => insertLoop fuel t' key value
    | .spins => none

theorem insertLoop_stored {t t' : Table} {key : Key} {value : Value}
    (eq : t.attempt h key value = .stored t') {fuel : Nat} (pos : 0 < fuel) :
    t.insertLoop h fuel key value = some t' := by
  obtain ⟨fuel, rfl⟩ := Nat.exists_eq_succ_of_ne_zero pos.ne'
  rw [insertLoop, eq]

theorem insertLoop_retry {t t' : Table} {key : Key} {value : Value}
    (eq : t.attempt h key value = .retry t') (fuel : Nat) :
    t.insertLoop h (fuel + 1) key value = t'.insertLoop h fuel key value := by
  rw [insertLoop, eq]

theorem insertLoop_spins {t : Table} {key : Key} {value : Value}
    (eq : t.attempt h key value = .spins) (fuel : Nat) :
    t.insertLoop h (fuel + 1) key value = none := by
  rw [insertLoop, eq]

def Returns (t : Table) (key : Key) (value : Value) (t' : Table) : Prop :=
  ∃ fuel, t.insertLoop h fuel key value = some t'

/-- The passes that a call can make before it returns or is stuck number at most 33. -/
def insert (t : Table) (key : Key) (value : Value) : Option (Table × Key) :=
  (t.insertLoop h 33 key value).map fun t' => (t', -1)

def get (t : Table) (key : Key) : Option Value :=
  if t.cur.sema < 0 then none
  else
    let s := t.segs (t.target h key)
    match (windowSlots (window (h key))).find? fun i => (s.slots i).key = key with
    | some i => (s.slots i).value
    | none => some noneValue

def hash : IHash Table := ⟨insert h, get h⟩

/-- One pass of some call that stored its pair or goes round again. -/
def Pass (t t' : Table) : Prop :=
  ∃ key value, t.attempt h key value = .stored t' ∨ t.attempt h key value = .retry t'

def Call (t t' : Table) : Prop := ∃ key value, t.Returns h key value t'

end

@[simp] theorem setSeg_segs (t : Table) (a : Nat) (s : Segment) :
    (t.setSeg a s).segs = update t.segs a s := rfl

@[simp] theorem setSeg_cur (t : Table) (a : Nat) (s : Segment) : (t.setSeg a s).cur = t.cur := rfl

@[simp] theorem setSema_segs (t : Table) (a : Nat) (v : Int) :
    (t.setSema a v).segs = update t.segs a { t.segs a with sema := v } := rfl

@[simp] theorem setSema_cur (t : Table) (a : Nat) (v : Int) : (t.setSema a v).cur = t.cur := rfl

@[simp] theorem publish_segs (t : Table) (x s0 s1 : Nat) : (t.publish x s0 s1).segs = t.segs := rfl

theorem publish_cur (t : Table) (x s0 s1 : Nat) : (t.publish x s0 s1).cur =
    ⟨writeAll (fun _ => 0) (doublingStores t.cur x s0 s1), 0, 2 ^ (t.cur.depth + 1),
      t.cur.depth + 1⟩ := by
  simp only [cur, publish, update_self]
  rfl

theorem setDir_cur {t : Table} {p : Nat} (here : t.dir = p) (d : Directory) :
    (t.setDir p d).cur = d := by
  subst here
  exact update_self ..

theorem doubleDir_cur (h : Key → BitVec 64) (t : Table) (key : Key) : (t.doubleDir h key).cur =
    ⟨writeAll (fun _ => 0) (doublingStores t.cur (index t.cur.depth (h key)) t.nseg (t.nseg + 1)),
      0,
      2 ^ (t.cur.depth + 1), t.cur.depth + 1⟩ := by
  have suspended : ((t.splitOff h (t.target h key)).setDirSema t.dir (-1)).cur = { t.cur with
      sema := -1 } :=
    setDir_cur rfl _
  rw [doubleDir, publish_cur, suspended]
  rfl

@[simp] theorem doubleDir_segs (h : Key → BitVec 64) (t : Table) (key : Key) :
    (t.doubleDir h key).segs = (t.splitOff h (t.target h key)).segs := rfl

@[simp] theorem storeSplit_segs (h : Key → BitVec 64) (t : Table) (key : Key) :
    (t.storeSplit h key).segs = (t.splitOff h (t.target h key)).segs := rfl

theorem storeSplit_cur (h : Key → BitVec 64) (t : Table) (key : Key) : (t.storeSplit h key).cur =
    ⟨writeAll t.cur.entries (stores (index t.cur.depth (h key))
      (t.cur.depth - (t.segs (t.target h key)).localDepth) t.nseg (t.nseg + 1)), t.cur.sema,
      t.cur.capacity, t.cur.depth⟩ :=
  update_self ..

section
variable (t : Table) (p : Nat) (v : Int) (j a : Nat)

@[simp] theorem setDirSema_segs : (t.setDirSema p v).segs = t.segs := rfl

theorem setDirSema_cur :
    (t.setDirSema p v).cur = if p = t.dir then { t.cur with sema := v } else t.cur := by
  by_cases here : p = t.dir
  · subst here
    rw [if_pos rfl]
    exact update_self ..
  · rw [if_neg here]
    exact update_of_ne (Ne.symm here) ..

@[simp] theorem setDirSema_entries : (t.setDirSema p v).cur.entries = t.cur.entries := by
  rw [setDirSema_cur]
  split <;> rfl

@[simp] theorem setDirSema_depth : (t.setDirSema p v).cur.depth = t.cur.depth := by
  rw [setDirSema_cur]
  split <;> rfl

@[simp] theorem setDirSema_capacity : (t.setDirSema p v).cur.capacity = t.cur.capacity := by
  rw [setDirSema_cur]
  split <;> rfl

@[simp] theorem setEntry_cur :
    (t.setEntry j a).cur = { t.cur with entries := update t.cur.entries j a } :=
  update_self ..

end

theorem construct_spec {depth : Nat} {t : Table} (made : construct depth = some t) :
    depth < 32 ∧ (∀ a, t.segs a = Segment.new depth) ∧ t.nseg = 2 ^ depth ∧ t.dir < t.ndir ∧
      t.cur.depth = depth ∧ t.cur.capacity = 2 ^ depth ∧ t.cur.sema = 0 ∧
      ∀ i, t.cur.entries i = if i < 2 ^ depth then i else 0 := by
  unfold construct at made
  split at made
  · rename_i room
    cases made
    refine ⟨(Nat.pow_lt_pow_iff_right (by decide)).mp room, fun _ => rfl, rfl, Nat.one_pos, rfl,
      rfl, rfl, fun i => ?_⟩
    show writeAll _ _ i = _
    rw [writeAll_apply (f := id) (by simp)]
    simp
  · cases made

@[simp] theorem allocHalves_nseg (t : Table) (halves : Segment × Segment) :
    (t.allocHalves halves).nseg = t.nseg + 2 := rfl

theorem allocHalves_old (t : Table) (halves : Segment × Segment) {b : Nat} (old : b < t.nseg) :
    (t.allocHalves halves).segs b = t.segs b := by
  have ne1 : b ≠ t.nseg + 1 := by omega
  have ne0 : b ≠ t.nseg := by omega
  simp only [allocHalves, update_of_ne ne1, update_of_ne ne0]

theorem allocHalves_low (t : Table) (halves : Segment × Segment) :
    (t.allocHalves halves).segs t.nseg = halves.1 := by
  have ne : t.nseg ≠ t.nseg + 1 := by omega
  simp only [allocHalves, update_of_ne ne, update_self]

theorem allocHalves_high (t : Table) (halves : Segment × Segment) :
    (t.allocHalves halves).segs (t.nseg + 1) = halves.2 :=
  update_self ..

section
variable (h : Key → BitVec 64) (t : Table) (a : Nat)

@[simp] theorem splitOff_cur : (t.splitOff h a).cur = t.cur := rfl

@[simp] theorem splitOff_nseg : (t.splitOff h a).nseg = t.nseg + 2 := rfl

theorem splitOff_old {b : Nat} (old : b < t.nseg) :
    (t.splitOff h a).segs b = if b = a then { t.segs a with sema := -1 } else t.segs b := by
  rw [splitOff, allocHalves_old (t.setSema a (-1)) _ old, setSema_segs, update_apply]

theorem splitOff_low : (t.splitOff h a).segs t.nseg = ((t.segs a).split h).1 :=
  allocHalves_low (t.setSema a (-1)) _

theorem splitOff_high : (t.splitOff h a).segs (t.nseg + 1) = ((t.segs a).split h).2 :=
  allocHalves_high (t.setSema a (-1)) _

theorem splitOff_localDepth {b : Nat} (old : b < t.nseg) :
    ((t.splitOff h a).segs b).localDepth = (t.segs b).localDepth := by
  rw [splitOff_old h t a old]
  split
  · rw [‹b = a›]
  · rfl

theorem splitOff_slots {b : Nat} (old : b < t.nseg) :
    ((t.splitOff h a).segs b).slots = (t.segs b).slots := by
  rw [splitOff_old h t a old]
  split
  · rw [‹b = a›]
  · rfl

end

end Table

end Xcache.CCEH
