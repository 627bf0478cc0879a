import Xcache.CCEH.DirectoryLock
import Xcache.Lib.SplitDirectory

/-! What the variables of an `Insert` are worth at each point of a pass, while other threads
split segments and double the directory: which prefix its target and its halves have. -/

namespace Xcache.CCEH
open Function
open SuspendLock (LockPc UnlockPc SuspendPc Out)
open SplitDirectory (Halves)
open Blocks (top)

namespace Segment
variable {h : Key → BitVec 64}

/-- Every key in the segment has its prefix; a slot that is being filled counts as empty. -/
def Prefixed (h : Key → BitVec 64) (s : Segment) (pre : Nat) : Prop :=
  ∀ i, (s.slots i).Live → (s.slots i).key ≠ sentinelKey →
    top 64 s.localDepth (h (s.slots i).key).toNat = pre

theorem Prefixed.set {s : Segment} {pre : Nat} (prefixed : s.Prefixed h pre) {i : Fin kNumSlot}
    {p : Pair} (fits : p.Live → p.key ≠ sentinelKey → top 64 s.localDepth (h p.key).toNat = pre) :
    (s.set i p).Prefixed h pre := by
  intro j live key
  rw [set_slots] at live key ⊢
  by_cases same : j = i
  · subst same
    rw [update_self] at live key ⊢
    exact fits live key
  · rw [update_of_ne same] at live key ⊢
    exact prefixed j live key

theorem Prefixed.insert4split {s : Segment} {pre loc : Nat} (prefixed : s.Prefixed h pre) {p : Pair}
    (fits : p.Live → p.key ≠ sentinelKey → top 64 s.localDepth (h p.key).toNat = pre) :
    (s.insert4split p loc).Prefixed h pre := by
  rcases insert4split_cases s p loc with ⟨i, _, _, eq⟩ | ⟨_, eq⟩
  · rw [eq]
    exact prefixed.set fits
  · rwa [eq]

theorem Prefixed.split {s : Segment} {pre : Nat} (prefixed : s.Prefixed h pre)
    (depth : s.localDepth < 64) :
    (s.split h).1.Prefixed h (2 * pre) ∧ (s.split h).2.Prefixed h (2 * pre + 1) := by
  have extended : ∀ i : Fin kNumSlot, (s.slots i).Live → (s.slots i).key ≠ sentinelKey →
      top 64 (s.localDepth + 1) (h (s.slots i).key).toNat =
        2 * pre + if splitBit s.localDepth (h (s.slots i).key) then 1 else 0 := by
    intro i live key
    rw [Blocks.top_succ depth, prefixed i live key]
    congr 1
    split
    · exact (splitBit_iff depth _).mp ‹_›
    · have := (splitBit_iff depth (h (s.slots i).key)).not.mp ‹_›
      omega
  have halves := split_induct (h := h) (s := s)
    (P := fun lo => lo.localDepth = s.localDepth + 1 ∧ lo.Prefixed h (2 * pre))
    (Q := fun hi => hi.localDepth = s.localDepth + 1 ∧ hi.Prefixed h (2 * pre + 1))
    ⟨rfl, fun _ live => absurd rfl live⟩ ⟨rfl, fun _ live => absurd rfl live⟩ ?_ ?_
  · exact ⟨halves.1.2, halves.2.2⟩
  · rintro i lo bit ⟨eq, ih⟩
    refine ⟨(insert4split_localDepth _ _ _).trans eq, ih.insert4split fun live key => ?_⟩
    rw [eq, extended i live key, bit]
    rfl
  · rintro i hi bit ⟨eq, ih⟩
    refine ⟨(insert4split_localDepth _ _ _).trans eq, ih.insert4split fun live key => ?_⟩
    rw [eq, extended i live key, bit]
    rfl

end Segment

/-- `x` is the index for `depth`. -/
def Pc.indexed : Pc → Bool
  | .readEntry | .segLock _ | .checkEntry | .checkDepth | .probeRead _ | .probeTest
    .. | .probeCas ..
  | .storeValue _ | .storeKey _ | .segUnlock .. | .segSuspend
    _ | .checkSplit | .split | .compareDepth
  | .toDirSuspend | .dirSuspend _ | .publish => true
  | _ => false

def Pc.reading : Pc → Bool
  | .segLock _ | .checkEntry | .checkDepth => true
  | _ => false

def Pc.checked : Pc → Bool
  | .probeRead _ | .probeTest .. | .probeCas .. | .storeValue _ | .storeKey _ | .segUnlock
    _ .collision
  | .segSuspend _ | .checkSplit | .split | .compareDepth | .toDirSuspend | .dirSuspend
    _ | .publish | .toDirLock
  | .dirLock _ | .readStores | .store false _ => true
  | _ => false

def Pc.hasHalves : Pc → Bool
  | .compareDepth | .toDirSuspend | .dirSuspend _ | .publish | .toDirLock | .dirLock _ | .readStores
  | .store false _ => true
  | _ => false

theorem Pc.stays_of_reading {pc : Pc} (reading : pc.reading = true) : pc.readsTarget = false := by
  cases pc <;> first | rfl | cases reading

theorem Pc.stays_of_checked {pc : Pc} (checked : pc.checked = true) : pc.readsTarget = false := by
  cases pc <;> first | rfl | cases checked

theorem Pc.stays_of_hasHalves {pc : Pc} (has : pc.hasHalves = true) : pc.readsTarget = false := by
  cases pc <;> first | rfl | cases has

theorem Pc.indexed_of_reading {pc : Pc} (reading : pc.reading = true) : pc.indexed = true := by
  cases pc <;> first | rfl | cases reading

section
variable {h : Key → BitVec 64} {tab : Table} {l : Thread}

@[simp] theorem Thread.goto_key (pc : Pc) : (l.goto pc).key = l.key := rfl
@[simp] theorem Thread.goto_depth (pc : Pc) : (l.goto pc).depth = l.depth := rfl
@[simp] theorem Thread.goto_x (pc : Pc) : (l.goto pc).x = l.x := rfl

theorem act_key (h : Key → BitVec 64) (tab : Table) (l : Thread) : (act h tab l).2.key = l.key := by
  unfold act
  split <;> (try split) <;> (try split) <;>
    first
    | rfl
    | rw [Thread.run_snd, Thread.goto_key]

theorem act_indexed (indexed : (act h tab l).2.pc.indexed = true) :
    (act h tab l).2 =
        { l with depth := tab.cur.depth, x := index tab.cur.depth (h l.key), pc := .readEntry } ∨
      l.pc.indexed = true ∧ (act h tab l).2.depth = l.depth ∧ (act h tab l).2.x = l.x := by
  revert indexed
  unfold act
  split <;> (try split) <;> (try split) <;> intro indexed <;>
    first
    | contradiction
    | exact Or.inl rfl
    | (rw [‹l.pc = _›]; exact Or.inr ⟨rfl, rfl, rfl⟩)
    | (rw [‹l.pc = _›] at indexed; contradiction)
    | (rw [Thread.run_snd, Thread.goto_depth, Thread.goto_x]
       rcases Thread.run_pc .. with ⟨c, eq⟩ | ⟨b, eq⟩
       · rw [eq] at indexed
         rw [‹l.pc = _›]
         first
         | contradiction
         | exact Or.inr ⟨rfl, rfl, rfl⟩
       · rw [eq] at indexed
         rw [‹l.pc = _›]
         first
         | contradiction
         | exact Or.inr ⟨rfl, rfl, rfl⟩
         | (cases b <;> contradiction))

theorem act_reading (reading : (act h tab l).2.pc.reading = true) :
    l.pc = .readEntry ∧ (act h tab l).2.target = tab.cur.entries l.x ∨ l.pc.reading = true := by
  revert reading
  unfold act
  split <;> (try split) <;> (try split) <;> intro reading <;>
    first
    | contradiction
    | exact Or.inl ⟨‹_›, rfl⟩
    | (rw [‹l.pc = _›]; exact Or.inr rfl)
    | (rw [‹l.pc = _›] at reading; contradiction)
    | (rcases Thread.run_pc .. with ⟨c, eq⟩ | ⟨b, eq⟩
       · rw [eq] at reading; contradiction
       · rw [eq] at reading
         first
         | contradiction
         | (cases b <;> contradiction)
         | (rename_i next _; cases next <;> contradiction))

theorem act_checked (checked : (act h tab l).2.pc.checked = true) :
    l.pc = .checkDepth ∧ l.depth = tab.cur.depth ∨ l.pc.checked = true := by
  unfold act at checked
  split at checked <;> (try split at checked) <;> (try split at checked) <;>
    first
    | contradiction
    | exact Or.inl ⟨‹_›, ‹_›⟩
    | (rw [‹l.pc = _›]; exact Or.inr rfl)
    | (rw [‹l.pc = _›] at checked; contradiction)
    | (rcases Thread.run_pc .. with ⟨c, eq⟩ | ⟨b, eq⟩
       · rw [eq] at checked
         first
         | contradiction
         | (rename_i next _
            cases next <;> first | contradiction | (rw [‹l.pc = _›]; exact Or.inr rfl))
       · rw [eq] at checked
         first
         | contradiction
         | (cases b <;> contradiction)
         | (rename_i next _
            cases next <;> first | contradiction | (rw [‹l.pc = _›]; exact Or.inr rfl)))

theorem act_hasHalves (has : (act h tab l).2.pc.hasHalves = true) :
    l.pc = .split ∨ l.pc.hasHalves = true := by
  unfold act at has
  split at has <;> (try split at has) <;> (try split at has) <;>
    first
    | contradiction
    | exact Or.inl ‹_›
    | (rw [‹l.pc = _›]; exact Or.inr rfl)
    | (rw [‹l.pc = _›] at has; contradiction)
    | (rcases Thread.run_pc .. with ⟨c, eq⟩ | ⟨b, eq⟩
       · rw [eq] at has; contradiction
       · rw [eq] at has
         first
         | contradiction
         | (cases b <;> contradiction)
         | (rename_i next _; cases next <;> contradiction))

theorem act_store {rest : List (Nat × Nat)} (first : (act h tab l).2.pc = .store false rest) :
    l.pc = .readStores ∧ rest = stores (index tab.cur.depth (h l.key))
      (tab.cur.depth - (tab.segs l.target).localDepth) l.s0 l.s1 := by
  unfold act at first
  split at first <;> (try split at first) <;> (try split at first) <;>
    first
    | contradiction
    | (cases first; exact ⟨‹_›, rfl⟩)
    | cases Eq.trans (Eq.symm ‹l.pc = .idle›) first
    | cases Eq.trans (Eq.symm ‹l.pc = .publish›) first
    | cases Eq.trans (Eq.symm ‹l.pc = .getSpin›) first
    | cases (Pc.store.inj first).1
    | (rcases Thread.run_pc .. with ⟨c, eq⟩ | ⟨b, eq⟩
       · cases eq.symm.trans first
       · rw [eq] at first
         first
         | contradiction
         | (cases b <;> contradiction)
         | (rename_i next _; cases next <;> contradiction))

/-- What is stored to a slot: the sentinel, the key that was there, or the thread's own. -/
theorem act_slot {a : Nat} {i : Fin kNumSlot} {p : Pair} (stored : (act h tab l).1 = .slot a i p) :
    a = l.target ∧ (p.key = sentinelKey ∨ p.key = ((tab.segs a).slots i).key ∨
      p.key = l.key ∧ l.pc.checked = true) := by
  unfold act at stored
  split at stored <;> (try split at stored) <;> (try split at stored) <;>
    first
    | contradiction
    | (cases stored; exact ⟨rfl, Or.inl rfl⟩)
    | (cases stored; exact ⟨rfl, Or.inr (Or.inl rfl)⟩)
    | (cases stored; rw [‹l.pc = _›]; exact ⟨rfl, Or.inr (Or.inr ⟨rfl, rfl⟩)⟩)
    | (rcases Thread.run_effect .. with none | ⟨v, eq⟩
       · cases none.symm.trans stored
       · cases eq.symm.trans stored)

theorem act_split {a : Nat} (splits : (act h tab l).1 = .split a) :
    l.pc = .split ∧ a = l.target := by
  unfold act at splits
  split at splits <;> (try split at splits) <;> (try split at splits) <;>
    first
    | contradiction
    | (cases splits; exact ⟨‹_›, rfl⟩)
    | (rcases Thread.run_effect .. with none | ⟨v, eq⟩
       · cases none.symm.trans splits
       · cases eq.symm.trans splits)

theorem act_depth (h : Key → BitVec 64) (tab : Table) (l : Thread) :
    (act h tab l).2.depth = l.depth ∨ (act h tab l).2.pc = .readEntry ∨
      (act h tab l).2.pc = .getEntry := by
  unfold act
  split <;> (try split) <;> (try split) <;>
    first
    | exact Or.inl rfl
    | exact Or.inr (Or.inl rfl)
    | exact Or.inr (Or.inr rfl)
    | exact Or.inl (by rw [Thread.run_snd, Thread.goto_depth])

end

/-- The prefix of every segment, and which segments have been in the directory. -/
structure Naming where
  pre : Nat → Nat
  pub : Nat → Prop

/-- The halves of `a` at the addresses `n` and `n + 1` get the extensions of its prefix. -/
def Naming.split (g : Naming) (a n : Nat) : Naming :=
  { g with
    pre := update (update g.pre n (2 * g.pre a)) (n + 1) (2 * g.pre a + 1) }

theorem Naming.split_old (g : Naming) (a : Nat) {n b : Nat} (old : b < n) :
    (g.split a n).pre b = g.pre b := by
  show update _ _ _ b = _
  rw [update_of_ne (by omega), update_of_ne (by omega)]

theorem Naming.split_low (g : Naming) (a n : Nat) : (g.split a n).pre n = 2 * g.pre a := by
  show update _ _ _ n = _
  rw [update_of_ne (by omega), update_self]

theorem Naming.split_high (g : Naming) (a n : Nat) : (g.split a n).pre (n + 1) = 2 * g.pre a + 1 :=
  update_self ..

def Table.level (tab : Table) (a : Nat) : Nat := (tab.segs a).localDepth

structure Thread.Facts (h : Key → BitVec 64) (tab : Table) (g : Naming) (l : Thread) : Prop where
  indexed : l.pc.indexed = true → l.x = index l.depth (h l.key) ∧ 1 ≤ l.depth ∧
    l.depth ≤ tab.cur.depth
  read : l.pc.reading = true → g.pub l.target ∧ (l.depth = tab.cur.depth →
    l.x / 2 ^ (l.depth - tab.level l.target) = g.pre l.target)
  checked : l.pc.checked = true → g.pub l.target ∧ tab.level l.target ≤ l.depth ∧
    top 64 (tab.level l.target) (h l.key).toNat = g.pre l.target
  halves : l.pc.hasHalves = true → Halves tab.level g.pre l.target l.s0 l.s1
  stores : ∀ rest, l.pc = .store false rest → rest = stores (index tab.cur.depth (h l.key))
    (tab.cur.depth - tab.level l.target) l.s0 l.s1

/-- What any step may do to the levels, the prefixes and the depth. -/
structure Extends (tab tab' : Table) (g g' : Naming) : Prop where
  depth : tab.cur.depth ≤ tab'.cur.depth
  level : ∀ a < tab.nseg, tab'.level a = tab.level a
  pre : ∀ a < tab.nseg, g'.pre a = g.pre a
  pub : ∀ a, g.pub a → g'.pub a

/-- Entries of the current directory and what is published, as far as a pass relies on it. -/
structure Named (tab : Table) (g : Naming) : Prop where
  depth_pos : 1 ≤ tab.cur.depth
  depth_le : tab.cur.depth ≤ 32
  entry_pub : ∀ j < 2 ^ tab.cur.depth, g.pub (tab.cur.entries j)
  entry_pre : ∀ j < 2 ^ tab.cur.depth,
    j / 2 ^ (tab.cur.depth - tab.level (tab.cur.entries j)) = g.pre (tab.cur.entries j)
  level_le : ∀ a, g.pub a → tab.level a ≤ tab.cur.depth
  pub_lt : ∀ a, g.pub a → a < tab.nseg

section
variable {h : Key → BitVec 64} {tab tab' : Table} {g g' : Naming} {l : Thread}

theorem Extends.halves (ext : Extends tab tab' g g') (alloc : l.Alloc tab)
    (halves : Halves tab.level g.pre l.target l.s0 l.s1) :
    Halves tab'.level g'.pre l.target l.s0 l.s1 := by
  obtain ⟨level_lo, level_hi, pre_lo, pre_hi⟩ := halves
  constructor
  · rw [ext.level _ alloc.s0, ext.level _ alloc.target, level_lo]
  · rw [ext.level _ alloc.s1, ext.level _ alloc.target, level_hi]
  · rw [ext.pre _ alloc.s0, ext.pre _ alloc.target, pre_lo]
  · rw [ext.pre _ alloc.s1, ext.pre _ alloc.target, pre_hi]

theorem Thread.Facts.frame (facts : l.Facts h tab g) (alloc : l.Alloc tab)
    (ext : Extends tab tab' g g')
    (held : l.pc.insideDir = true → tab'.cur.depth = tab.cur.depth) : l.Facts h tab' g' := by
  constructor
  · intro indexed
    obtain ⟨x, pos, le⟩ := facts.indexed indexed
    exact ⟨x, pos, le.trans ext.depth⟩
  · intro reading
    obtain ⟨pub, pre⟩ := facts.read reading
    refine ⟨ext.pub _ pub, fun eq => ?_⟩
    have le := (facts.indexed (Pc.indexed_of_reading reading)).2.2
    rw [ext.level _ alloc.target, ext.pre _ alloc.target]
    exact pre (le_antisymm le (ext.depth.trans_eq eq.symm))
  · intro checked
    obtain ⟨pub, le, pre⟩ := facts.checked checked
    rw [ext.level _ alloc.target, ext.pre _ alloc.target]
    exact ⟨ext.pub _ pub, le, pre⟩
  · exact fun has => ext.halves alloc (facts.halves has)
  · intro rest first
    rw [held (by rw [first]; rfl), ext.level _ alloc.target]
    exact facts.stores rest first

theorem Named.index_lt (named : Named tab g) (facts : l.Facts h tab g)
    (indexed : l.pc.indexed = true) :
    l.x < 2 ^ tab.cur.depth := by
  obtain ⟨x, pos, le⟩ := facts.indexed indexed
  rw [x]
  have := named.depth_le
  exact (CCEH.index_lt pos (by omega) _).trans_le (Nat.pow_le_pow_right (by decide) le)

theorem Thread.Facts.act (facts : l.Facts h tab g) (alloc : l.Alloc tab) (named : Named tab g)
    (ext : Extends tab tab' g g') (stays : l.pc = .publish ∨ tab'.cur.depth = tab.cur.depth)
    (split : l.pc = .split → Halves tab'.level g'.pre l.target tab.nseg (tab.nseg + 1)) :
    (act h tab l).2.Facts h tab' g' := by
  have key := act_key h tab l
  constructor
  · intro indexed
    rw [key]
    rcases act_indexed indexed with eq | ⟨before, depth, x⟩
    · rw [eq]
      exact ⟨rfl, named.depth_pos, ext.depth⟩
    · rw [depth, x]
      obtain ⟨eq, pos, le⟩ := facts.indexed before
      exact ⟨eq, pos, le.trans ext.depth⟩
  · intro reading
    rcases act_indexed (Pc.indexed_of_reading reading) with eq | ⟨indexed, depth, x⟩
    · rw [eq] at reading
      cases reading
    · have le := (facts.indexed indexed).2.2
      rw [depth, x]
      rcases act_reading reading with ⟨_, target⟩ | before
      · rw [target]
        have bound := named.index_lt facts indexed
        have pub := named.entry_pub _ bound
        have old := named.pub_lt _ pub
        refine ⟨ext.pub _ pub, fun eq => ?_⟩
        rw [ext.level _ old, ext.pre _ old, le_antisymm le (ext.depth.trans_eq eq.symm)]
        exact named.entry_pre _ bound
      · obtain ⟨pub, pre⟩ := facts.read before
        rw [act_target_stays (Pc.stays_of_reading before)]
        refine ⟨ext.pub _ pub, fun eq => ?_⟩
        rw [ext.level _ alloc.target, ext.pre _ alloc.target]
        exact pre (le_antisymm le (ext.depth.trans_eq eq.symm))
  · intro checked
    rw [key]
    have depth : (CCEH.act h tab l).2.depth = l.depth := by
      rcases act_depth h tab l with same | eq | eq
      · exact same
      · rw [eq] at checked
        cases checked
      · rw [eq] at checked
        cases checked
    rcases act_checked checked with ⟨before, current⟩ | before
    · rw [act_target_stays (by rw [before]; rfl), depth, ext.level _ alloc.target,
        ext.pre _ alloc.target]
      obtain ⟨x, pos, _⟩ := facts.indexed (by rw [before]; rfl)
      obtain ⟨pub, pre⟩ := facts.read (by rw [before]; rfl)
      have le := (named.level_le _ pub).trans_eq current.symm
      have := named.depth_le
      refine ⟨ext.pub _ pub, le, ?_⟩
      rw [← pre current, x, index_eq pos (by omega), Blocks.top_div le (by omega)]
    · obtain ⟨pub, le, pre⟩ := facts.checked before
      rw [act_target_stays (Pc.stays_of_checked before), depth,
        ext.level _ alloc.target, ext.pre _ alloc.target]
      exact ⟨ext.pub _ pub, le, pre⟩
  · intro has
    rcases act_hasHalves has with before | before
    · rw [act_target_stays (by rw [before]; rfl)]
      simp only [CCEH.act, before]
      exact split before
    · rw [act_target_stays (Pc.stays_of_hasHalves before)]
      rcases act_halves h tab l with ⟨low, high⟩ | ⟨atSplit, _⟩
      · rw [low, high]
        exact ext.halves alloc (facts.halves before)
      · rw [atSplit] at before
        cases before
  · intro rest first
    obtain ⟨before, eq⟩ := act_store first
    have depth : tab'.cur.depth = tab.cur.depth := stays.resolve_left (by rw [before]; exact nofun)
    rw [key, act_target_stays (by rw [before]; rfl), depth, ext.level _ alloc.target]
    rcases act_halves h tab l with ⟨low, high⟩ | ⟨atSplit, _⟩
    · rw [low, high]
      exact eq
    · cases before.symm.trans atSplit

end

end Xcache.CCEH
