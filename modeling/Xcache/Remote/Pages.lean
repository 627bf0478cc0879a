import Xcache.Remote.Layout

/-! The page buffers of the server (`server/rdma_svr.cpp`): one allocation holds the pages and
the metadata of the clients, and the page counter only grows. -/

namespace Xcache.Remote

/-- The option `-S`: `strtol` as a 64-bit word, and the test for zero of an unsigned size. -/
def bufferSizeOption (arg : BitVec 64) : Option (BitVec 64) :=
  let size := (1#64 <<< 20) * arg
  if size = 0 then none else some size

structure Server where
  bufferSize : BitVec 64
  globalMr : BitVec 64
  pageOffset : BitVec 64
  /-- The addresses of the pages handed out so far. -/
  pages : List (BitVec 64)

namespace Server

def start (bufferSize globalMr : BitVec 64) : Server := ⟨bufferSize, globalMr, 0, []⟩

def regionSize (s : Server) : BitVec 64 :=
  s.bufferSize + BitVec.ofNat 64 (numClient * localMetaRegionSize)

def localMm (s : Server) (cid : Nat) : BitVec 64 :=
  s.globalMr + s.bufferSize + BitVec.ofNat 64 localMetaRegionSize * BitVec.ofNat 64 cid

def getFreePageRegion (s : Server) : BitVec 64 := s.globalMr + BitVec.ofNat 64 localMetaRegionSize

/-- One receive of a batch: the counter is fetched and advanced, the pages follow each other. -/
def handOut (s : Server) : Server :=
  let savePage := s.getFreePageRegion + BitVec.ofNat 64 pageSize * s.pageOffset
  { s with
    pageOffset := s.pageOffset + BitVec.ofNat 64 batchSize
    pages := s.pages ++ (List.range batchSize).map fun i =>
      savePage + BitVec.ofNat 64 (pageSize * i) }

inductive Event
  | setUp (queue : Nat)
  | write

/-- How many receives with pages an event posts; read queues get empty receives. -/
def Event.count : Event → Nat
  | .setUp queue => if queue < numQueues / 2 then 0 else 100
  | .write => 1

def step (s : Server) (e : Event) : Server := handOut^[e.count] s

def run (s : Server) (events : List Event) : Server := events.foldl step s

def pageRange (a : BitVec 64) : Range := ⟨a.toNat, pageSize⟩

/-- The pages lie in the registered region, apart from each other and from the metadata of
every client. -/
structure PagesSafe (s : Server) : Prop where
  inside : ∀ a ∈ s.pages, (pageRange a).Inside ⟨s.globalMr.toNat, s.regionSize.toNat⟩
  apart : s.pages.Pairwise fun a b => (pageRange a).Apart (pageRange b)
  metadata : ∀ a ∈ s.pages, ∀ cid < numClient,
    (pageRange a).Apart ⟨(s.localMm cid).toNat, localMetaRegionSize⟩

/-- The state after `n` receives. -/
def after (bufferSize globalMr : BitVec 64) (n : Nat) : Server :=
  ⟨bufferSize, globalMr, BitVec.ofNat 64 (batchSize * n), (List.range (batchSize * n)).map fun i =>
    globalMr + BitVec.ofNat 64 localMetaRegionSize + BitVec.ofNat 64 (pageSize * i)⟩

section
variable {bufferSize globalMr : BitVec 64}

theorem handOut_after (n : Nat) :
    (after bufferSize globalMr n).handOut = after bufferSize globalMr (n + 1) := by
  simp only [handOut, after, getFreePageRegion, Nat.mul_succ, List.range_add, List.map_append,
    List.map_map,
    Function.comp_def, BitVec.mul_add, BitVec.ofNat_add, BitVec.ofNat_mul, BitVec.add_assoc]

theorem iterate_handOut (k n : Nat) :
    handOut^[k] (after bufferSize globalMr n) = after bufferSize globalMr (n + k) := by
  induction k generalizing n with
  | zero => rfl
  | succ k ih =>
    rw [Function.iterate_succ_apply, handOut_after, ih]
    congr 1
    omega

theorem run_after (events : List Event) (n : Nat) :
    (after bufferSize globalMr n).run events =
      after bufferSize globalMr (n + (events.map Event.count).sum) := by
  induction events generalizing n with
  | nil => rfl
  | cons e rest ih =>
    rw [List.map_cons, List.sum_cons, ← Nat.add_assoc]
    exact (congrArg (run · rest) (iterate_handOut e.count n)).trans (ih (n + e.count))

theorem run_start (events : List Event) :
    (start bufferSize globalMr).run events = after bufferSize globalMr
      (events.map Event.count).sum :=
  (run_after events 0).trans (congrArg (after bufferSize globalMr) (Nat.zero_add _))

theorem localMetaRegionSize_eq : localMetaRegionSize = 528384 := rfl

/-- The address of a page of the sequence, as far as the address space reaches. -/
theorem page_toNat {i : Nat} (lt : globalMr.toNat + localMetaRegionSize + pageSize * i < 2 ^ 64) :
    (globalMr + BitVec.ofNat 64 localMetaRegionSize + BitVec.ofNat 64 (pageSize * i)).toNat =
      globalMr.toNat + localMetaRegionSize + pageSize * i := by
  have first := toNat_add_ofNat (a := globalMr) (n := localMetaRegionSize) (by omega)
  rw [toNat_add_ofNat (by rw [first]; exact lt), first]

variable {n : Nat}

theorem localMm_after (cid : Nat) : (after bufferSize globalMr n).localMm cid =
    globalMr + bufferSize + BitVec.ofNat 64 (localMetaRegionSize * cid) := by
  unfold localMm
  rw [BitVec.ofNat_mul]
  rfl

theorem region_toNat (fits : bufferSize.toNat + numClient * localMetaRegionSize < 2 ^ 64)
    (alloc : globalMr.toNat + (after bufferSize globalMr n).regionSize.toNat ≤ 2 ^ 64) :
    (after bufferSize globalMr n).regionSize.toNat = bufferSize.toNat + numClient *
      localMetaRegionSize ∧
      globalMr.toNat + bufferSize.toNat + numClient * localMetaRegionSize ≤ 2 ^ 64 ∧
      ∀ cid < numClient, ((after bufferSize globalMr n).localMm cid).toNat =
        globalMr.toNat + bufferSize.toNat + localMetaRegionSize * cid := by
  have size : (after bufferSize globalMr n).regionSize.toNat =
      bufferSize.toNat + numClient * localMetaRegionSize := toNat_add_ofNat fits
  rw [size] at alloc
  refine ⟨size, by omega, fun cid lt => ?_⟩
  have below : localMetaRegionSize * cid < numClient * localMetaRegionSize := by
    rw [Nat.mul_comm]
    exact Nat.mul_lt_mul_of_pos_right lt (by decide)
  have start : (globalMr + bufferSize).toNat = globalMr.toNat + bufferSize.toNat := by
    rw [BitVec.toNat_add, Nat.mod_eq_of_lt (by omega)]
  rw [localMm_after, toNat_add_ofNat (by omega), start]

theorem safe_of_room (fits : bufferSize.toNat + numClient * localMetaRegionSize < 2 ^ 64)
    (alloc : globalMr.toNat + (after bufferSize globalMr n).regionSize.toNat ≤ 2 ^ 64)
    (room : localMetaRegionSize + pageSize * (batchSize * n) ≤ bufferSize.toNat) :
    (after bufferSize globalMr n).PagesSafe := by
  obtain ⟨size, total, blocks⟩ := region_toNat fits alloc
  have address : ∀ i < batchSize * n, localMetaRegionSize + pageSize * (i + 1) ≤ bufferSize.toNat ∧
      (globalMr + BitVec.ofNat 64 localMetaRegionSize + BitVec.ofNat 64 (pageSize * i)).toNat =
        globalMr.toNat + localMetaRegionSize + pageSize * i := by
    intro i lt
    have below :=
      (Nat.add_le_add_left (Nat.mul_le_mul_left pageSize (Nat.succ_le_of_lt lt)) _).trans room
    refine ⟨below, page_toNat ?_⟩
    have : 0 < pageSize := by decide
    rw [Nat.mul_succ] at below
    omega
  constructor
  · intro a mem
    obtain ⟨i, lt, rfl⟩ := List.mem_map.mp mem
    obtain ⟨below, eq⟩ := address i (List.mem_range.mp lt)
    rw [Nat.mul_succ] at below
    have start : (after bufferSize globalMr n).globalMr = globalMr := rfl
    unfold Range.Inside pageRange
    rw [eq, size, start]
    dsimp only
    omega
  · unfold after
    rw [List.pairwise_map]
    refine (List.pairwise_lt_range).imp_of_mem fun {i j} first second lt => ?_
    unfold pageRange
    rw [(address i (List.mem_range.mp first)).2, (address j (List.mem_range.mp second)).2]
    exact Range.apart_of_stride lt.ne le_rfl le_rfl
  · intro a mem cid small
    obtain ⟨i, lt, rfl⟩ := List.mem_map.mp mem
    obtain ⟨below, eq⟩ := address i (List.mem_range.mp lt)
    rw [Nat.mul_succ] at below
    unfold Range.Apart pageRange
    rw [eq, blocks cid small]
    left
    dsimp only
    omega

theorem page_mem {i : Nat} (lt : i < batchSize * n) :
    globalMr + BitVec.ofNat 64 localMetaRegionSize + BitVec.ofNat 64 (pageSize * i) ∈
      (after bufferSize globalMr n).pages :=
  List.mem_map.mpr ⟨i, List.mem_range.mpr lt, rfl⟩

/-- When the size of the allocation wraps around, the first page already meets the metadata or
lies outside. -/
theorem fits_of_safe (pos : 0 < n) (safe : (after bufferSize globalMr n).PagesSafe)
    (alloc : globalMr.toNat + (after bufferSize globalMr n).regionSize.toNat ≤ 2 ^ 64) :
    bufferSize.toNat + numClient * localMetaRegionSize < 2 ^ 64 := by
  by_contra wraps
  have size : (after bufferSize globalMr n).regionSize.toNat = (bufferSize.toNat + 2113536) %
      2 ^ 64 :=
    BitVec.toNat_add ..
  have first : (globalMr + BitVec.ofNat 64 localMetaRegionSize + BitVec.ofNat 64
    (pageSize * 0)).toNat = (globalMr.toNat + 528384) % 2 ^ 64 := by
    rw [Nat.mul_zero, BitVec.add_zero]
    exact BitVec.toNat_add ..
  have blocks : ∀ cid < numClient, ((after bufferSize globalMr n).localMm cid).toNat =
      (globalMr.toNat + bufferSize.toNat + 528384 * cid) % 2 ^ 64 := by
    intro cid _
    rw [localMm_after, BitVec.toNat_add, BitVec.toNat_add, BitVec.toNat_ofNat,
      Nat.add_mod_mod, Nat.mod_add_mod]
    rfl
  have mem := @page_mem bufferSize globalMr n 0 (Nat.mul_pos (by decide) pos)
  have inside := safe.inside _ mem
  have one := safe.metadata _ mem 1 (by decide)
  have two := safe.metadata _ mem 2 (by decide)
  have three := safe.metadata _ mem 3 (by decide)
  unfold Range.Inside pageRange at inside
  unfold Range.Apart pageRange at one two three
  rw [first, size] at inside
  rw [first, blocks 1 (by decide)] at one
  rw [first, blocks 2 (by decide)] at two
  rw [first, blocks 3 (by decide)] at three
  rw [size] at alloc
  have start : (after bufferSize globalMr n).globalMr = globalMr := rfl
  rw [start] at inside
  rw [localMetaRegionSize_eq] at wraps one two three
  have := globalMr.isLt
  have := bufferSize.isLt
  have room : globalMr.toNat + 528384 < 2 ^ 64 := by
    by_contra past
    dsimp only at inside
    omega
  dsimp only [pageSize, numClient] at *
  rw [Nat.mod_eq_of_lt room] at inside one two three
  omega

/-- The first page that ends behind the buffer meets the metadata of client 0. -/
theorem room_of_safe (accepted : bufferSize ≠ 0) (safe : (after bufferSize globalMr n).PagesSafe)
    (fits : bufferSize.toNat + numClient * localMetaRegionSize < 2 ^ 64)
    (alloc : globalMr.toNat + (after bufferSize globalMr n).regionSize.toNat ≤ 2 ^ 64)
    (pos : 0 < n) :
    localMetaRegionSize + pageSize * (batchSize * n) ≤ bufferSize.toNat := by
  obtain ⟨_, total, blocks⟩ := region_toNat fits alloc
  have positive : 0 < bufferSize.toNat := by
    rw [Nat.pos_iff_ne_zero]
    exact fun zero => accepted (BitVec.eq_of_toNat_eq zero)
  have first : ∃ i, localMetaRegionSize + pageSize * i ≤ bufferSize.toNat + localMetaRegionSize ∧
      (0 < i → localMetaRegionSize + pageSize * i ≤ bufferSize.toNat) ∧
      bufferSize.toNat < localMetaRegionSize + pageSize * (i + 1) := by
    refine ⟨(bufferSize.toNat - localMetaRegionSize) / pageSize, ?_, ?_, ?_⟩ <;> unfold pageSize <;>
      rw [localMetaRegionSize_eq] <;> omega
  obtain ⟨i, near, before, behind⟩ := first
  by_contra long
  have lt : i < batchSize * n := by
    by_contra ge
    have := Nat.mul_le_mul_left pageSize (not_lt.mp ge)
    rcases Nat.eq_zero_or_pos i with rfl | later
    · exact ge (Nat.mul_pos (by decide) pos)
    · exact long ((Nat.add_le_add_left this _).trans (before later))
  have apart := safe.metadata _ (page_mem lt) 0 (by decide)
  have reach : globalMr.toNat + localMetaRegionSize + pageSize * i < 2 ^ 64 := by
    rw [localMetaRegionSize_eq] at near total ⊢
    unfold numClient at total
    omega
  unfold Range.Apart pageRange at apart
  rw [page_toNat reach, blocks 0 (by decide)] at apart
  rw [Nat.mul_succ] at behind
  rw [localMetaRegionSize_eq] at *
  dsimp only at apart
  rcases Nat.eq_zero_or_pos i with rfl | later
  · omega
  · have := before later
    omega

/-- The pages of a run are placed safely exactly when they all fit between the reserved start
of the allocation and the metadata, and the size of the allocation does not wrap around. -/
theorem pages_safe_iff {arg : BitVec 64} (accepted : bufferSizeOption arg = some bufferSize)
    (alloc : globalMr.toNat + (start bufferSize globalMr).regionSize.toNat ≤ 2 ^ 64)
    (events : List Event) :
    ((start bufferSize globalMr).run events).PagesSafe ↔
      (events.map Event.count).sum = 0 ∨
        bufferSize.toNat + numClient * localMetaRegionSize < 2 ^ 64 ∧
        localMetaRegionSize + pageSize * (batchSize * (events.map Event.count).sum) ≤
          bufferSize.toNat := by
  have nonzero : bufferSize ≠ 0 := by
    unfold bufferSizeOption at accepted
    dsimp only at accepted
    split at accepted
    · cases accepted
    · rename_i ne
      cases accepted
      exact ne
  rw [run_start]
  constructor
  · intro safe
    rcases Nat.eq_zero_or_pos (events.map Event.count).sum with none | pos
    · exact Or.inl none
    · have fits := fits_of_safe pos safe alloc
      exact Or.inr ⟨fits, room_of_safe nonzero safe fits alloc pos⟩
  · rintro (none | ⟨fits, room⟩)
    · rw [none]
      exact ⟨nofun, List.Pairwise.nil, nofun⟩
    · exact safe_of_room fits alloc room

theorem pages_safe_iff_one_queue : bufferSizeOption 64 = some (64 <<< 20) ∧
    (((start (64 <<< 20) 4096).run [.setUp 4, .write]).PagesSafe ↔
      ([Event.setUp 4, .write].map Event.count).sum = 0 ∨
        (64 <<< 20 : BitVec 64).toNat + numClient * localMetaRegionSize < 2 ^ 64 ∧
        localMetaRegionSize + pageSize * (batchSize *
          ([Event.setUp 4, .write].map Event.count).sum) ≤
          (64 <<< 20 : BitVec 64).toNat) :=
  ⟨by decide, @pages_safe_iff (64 <<< 20) 4096 64 (by decide) (by decide) _⟩

/-- With `-S 1` the receives of the first write queue of the first client reach its metadata. -/
theorem first_queue_meets_metadata : bufferSizeOption 1 = some (1 <<< 20) ∧
    ¬ ((start (1 <<< 20) 4096).run [.setUp 0, .setUp 1, .setUp 2, .setUp 3,
      .setUp 4]).PagesSafe := by
  refine ⟨by decide, fun safe => ?_⟩
  rw [run_start] at safe
  have apart := safe.metadata _ (page_mem (i := 127) (by decide)) 0 (by decide)
  revert apart
  decide

end

end Server

end Xcache.Remote
