import Xcache.Lib.Blocks

/-! A directory of an extendible hash table while several threads split its segments.
Every segment has a level and a prefix, which name an aligned block of the directory. A
thread claims a segment, then stores the two halves over its block entry by entry, or
replaces the directory by one of twice the size. As long as every store overwrites an
entry of the claimed segment, the blocks are whole again whenever no thread is storing. -/

namespace SplitDirectory
open Function
open Blocks (Owned doubled)

variable {S T : Type*}

inductive Status (S : Type*)
  | idle
  | claim (a : S)
  | storing (a lo hi : S) (rest : List (Nat × S))

def Status.target : Status S → Option S
  | .idle => none
  | .claim a => some a
  | .storing a _ _ _ => some a

/-- The status after a store. -/
def Status.after (a lo hi : S) : List (Nat × S) → Status S
  | [] => .idle
  | q :: rest => .storing a lo hi (q :: rest)

theorem Status.after_of_mem {a lo hi : S} {q : Nat × S} {rest : List (Nat × S)} (mem : q ∈ rest) :
    Status.after a lo hi rest = .storing a lo hi rest := by
  cases rest with
  | nil => cases mem
  | cons r rest => rfl

theorem Status.after_cases (a lo hi : S) (rest : List (Nat × S)) :
    (rest = [] ∧ Status.after a lo hi rest = .idle) ∨
      Status.after a lo hi rest = .storing a lo hi rest := by
  cases rest with
  | nil => exact Or.inl ⟨rfl, rfl⟩
  | cons q rest => exact Or.inr rfl

def Status.isStoring : Status S → Bool
  | .storing .. => true
  | _ => false

/-- The halves have the next level and the two extensions of the prefix. -/
structure Halves (level pre : S → Nat) (a lo hi : S) : Prop where
  level_lo : level lo = level a + 1
  level_hi : level hi = level a + 1
  pre_lo : pre lo = 2 * pre a
  pre_hi : pre hi = 2 * pre a + 1

section
variable {level pre : S → Nat} {a lo hi s s' : S} (halves : Halves level pre a lo hi)
include halves

theorem Halves.level_eq (half : s = lo ∨ s = hi) : level s = level a + 1 := by
  rcases half with rfl | rfl
  · exact halves.level_lo
  · exact halves.level_hi

theorem Halves.pre_div_two (half : s = lo ∨ s = hi) : pre s / 2 = pre a := by
  rcases half with rfl | rfl
  · rw [halves.pre_lo]
    omega
  · rw [halves.pre_hi]
    omega

theorem Halves.eq_of_pre_eq (half : s = lo ∨ s = hi) (half' : s' = lo ∨ s' = hi)
    (eq : pre s = pre s') : s = s' := by
  have apart := halves.pre_hi
  have first := halves.pre_lo
  rcases half with rfl | rfl <;> rcases half' with rfl | rfl
  · rfl
  · omega
  · omega
  · rfl

end

structure Dir (S T : Type*) where
  depth : Nat
  entry : Nat → S
  level : S → Nat
  pre : S → Nat
  pub : S → Prop
  locked : S → Prop
  status : T → Status S

namespace Dir
variable (d : Dir S T)

/-- Entry `j` lies in the block of the segment. -/
def InBlock (s : S) (j : Nat) : Prop := j < 2 ^ d.depth ∧ j / 2 ^ (d.depth - d.level s) = d.pre s

/-- The half of a segment that entry `j` gets. -/
def child (a lo hi : S) (j : Nat) : S :=
  if j / 2 ^ (d.depth - d.level a - 1) % 2 = 0 then lo else hi

/-- No entry of the block is of a deeper level. -/
def Unsplit (s : S) : Prop := ∀ j, d.InBlock s j → d.level (d.entry j) ≤ d.level s

/-- The stores a thread has yet to make are those to the entries not replaced so far. -/
structure Storing (a lo hi : S) (rest : List (Nat × S)) : Prop where
  halves : Halves d.level d.pre a lo hi
  pub_lo : d.pub lo
  pub_hi : d.pub hi
  nodup : (rest.map Prod.fst).Nodup
  child : ∀ j v, (j, v) ∈ rest → d.InBlock a j ∧ v = d.child a lo hi j
  pending : ∀ j, d.InBlock a j → (j ∈ rest.map Prod.fst ↔ d.level (d.entry j) ≤ d.level a)

/-- A segment that is being split or has been. -/
structure Leaving (s : S) : Prop where
  locked : d.locked s
  unclaimed : ∀ t, d.status t ≠ .claim s
  gone : (∃ t lo hi rest, d.status t = .storing s lo hi rest) ∨
    ∀ j, d.InBlock s j → d.level s < d.level (d.entry j)

structure Inv : Prop where
  entry_pub : ∀ j < 2 ^ d.depth, d.pub (d.entry j)
  entry_pre : ∀ j < 2 ^ d.depth, j / 2 ^ (d.depth - d.level (d.entry j)) = d.pre (d.entry j)
  level_le : ∀ s, d.pub s → d.level s ≤ d.depth
  pre_lt : ∀ s, d.pub s → d.pre s < 2 ^ d.level s
  unique : ∀ s s', d.pub s → d.pub s' → d.level s = d.level s' → d.pre s = d.pre s' → s = s'
  arrived : ∀ s, d.pub s → ∀ j, d.InBlock s j → d.level s ≤ d.level (d.entry j) ∨
    ∃ t a lo hi rest, d.status t = .storing a lo hi rest ∧ (j, s) ∈ rest
  split : ∀ s, d.pub s → d.Unsplit s ∨ d.Leaving s
  storing : ∀ t a lo hi rest, d.status t = .storing a lo hi rest → d.Storing a lo hi rest
  targets : ∀ t a, (d.status t).target = some a → d.pub a ∧ d.locked a
  apart : ∀ t t' a, (d.status t).target = some a → (d.status t').target = some a → t = t'

variable {d}

/-- Two published segments of one level whose blocks meet are the same. -/
theorem Inv.eq_of_inBlock (inv : d.Inv) {s s' : S} {j : Nat} (pub : d.pub s) (pub' : d.pub s')
    (level : d.level s = d.level s') (mem : d.InBlock s j) (mem' : d.InBlock s' j) : s = s' := by
  refine inv.unique s s' pub pub' level ?_
  rw [← mem.2, ← mem'.2, level]

theorem Inv.inBlock_entry (inv : d.Inv) {j : Nat} (bound : j < 2 ^ d.depth) :
    d.InBlock (d.entry j) j :=
  ⟨bound, inv.entry_pre j bound⟩

theorem Inv.exists_inBlock (inv : d.Inv) {s : S} (pub : d.pub s) : ∃ j, d.InBlock s j := by
  have le := inv.level_le s pub
  refine ⟨d.pre s * 2 ^ (d.depth - d.level s), ?_, Nat.mul_div_cancel _ (Nat.two_pow_pos _)⟩
  calc d.pre s * 2 ^ (d.depth - d.level s) < 2 ^ d.level s * 2 ^ (d.depth - d.level s) :=
        Nat.mul_lt_mul_of_pos_right (inv.pre_lt s pub) (Nat.two_pow_pos _)
    _ = 2 ^ d.depth := by rw [← pow_add, Nat.add_sub_cancel' le]

/-- When nobody is storing, every segment in the directory owns exactly its block. -/
theorem Inv.owned (inv : d.Inv) (quiet : ∀ t a lo hi rest, d.status t ≠ .storing a lo hi rest) :
    Owned d.depth d.level d.entry := by
  refine ⟨fun i hi => inv.level_le _ (inv.entry_pub i hi), fun i hi j hj =>
    ⟨fun eq => ?_, fun eq => ?_⟩⟩
  · have := inv.entry_pre j hj
    rw [eq] at this
    exact this.trans (inv.entry_pre i hi).symm
  · have mem : d.InBlock (d.entry i) j := ⟨hj, eq.trans (inv.entry_pre i hi)⟩
    have pub := inv.entry_pub i hi
    -- the segment has arrived everywhere in its block, and it is still in entry `i`
    have below : d.level (d.entry i) ≤ d.level (d.entry j) := by
      rcases inv.arrived _ pub j mem with le | ⟨t, a, lo, hi', rest, storing, _⟩
      · exact le
      · exact absurd storing (quiet _ _ _ _ _)
    have above : d.level (d.entry j) ≤ d.level (d.entry i) := by
      rcases inv.split _ pub with unsplit | leaving
      · exact unsplit j mem
      · rcases leaving.gone with ⟨t, lo, hi', rest, storing⟩ | all
        · exact absurd storing (quiet _ _ _ _ _)
        · exact absurd (all i (inv.inBlock_entry hi)) (lt_irrefl _)
    exact inv.eq_of_inBlock (inv.entry_pub j hj) pub (le_antisymm above below)
      (inv.inBlock_entry hj) mem

theorem Inv.congr {d' : Dir S T} (inv : d.Inv) (depth : d'.depth = d.depth)
    (entry : ∀ j < 2 ^ d.depth, d'.entry j = d.entry j) (pub : d'.pub = d.pub)
    (status : d'.status = d.status) (level : ∀ s, d.pub s → d'.level s = d.level s)
    (pre : ∀ s, d.pub s → d'.pre s = d.pre s)
    (locked : ∀ s, d.pub s → d.locked s → d'.locked s) : d'.Inv := by
  have block : ∀ s, d.pub s → ∀ j, d'.InBlock s j ↔ d.InBlock s j := by
    intro s pub j
    rw [InBlock, InBlock, depth, level s pub, pre s pub]
  have levels : ∀ j < 2 ^ d.depth, d'.level (d'.entry j) = d.level (d.entry j) := by
    intro j hj
    rw [entry j hj, level _ (inv.entry_pub j hj)]
  refine ⟨?_, ?_, ?_, ?_, ?_, ?_, ?_, ?_, ?_, ?_⟩
  · intro j hj
    rw [depth] at hj
    rw [entry j hj, pub]
    exact inv.entry_pub j hj
  · intro j hj
    rw [depth] at hj ⊢
    rw [levels j hj, entry j hj, pre _ (inv.entry_pub j hj)]
    exact inv.entry_pre j hj
  · intro s hs
    rw [pub] at hs
    rw [level s hs, depth]
    exact inv.level_le s hs
  · intro s hs
    rw [pub] at hs
    rw [level s hs, pre s hs]
    exact inv.pre_lt s hs
  · intro s s' hs hs' sameLevel samePre
    rw [pub] at hs hs'
    rw [level s hs, level s' hs'] at sameLevel
    rw [pre s hs, pre s' hs'] at samePre
    exact inv.unique s s' hs hs' sameLevel samePre
  · intro s hs j mem
    rw [pub] at hs
    rw [block s hs] at mem
    rw [level s hs, levels j mem.1, status]
    exact inv.arrived s hs j mem
  · intro s hs
    rw [pub] at hs
    rcases inv.split s hs with unsplit | leaving
    · refine Or.inl fun j mem => ?_
      rw [block s hs] at mem
      rw [level s hs, levels j mem.1]
      exact unsplit j mem
    · refine Or.inr ⟨locked s hs leaving.locked, by rw [status]; exact leaving.unclaimed, ?_⟩
      rw [status]
      refine leaving.gone.imp_right fun all j mem => ?_
      rw [block s hs] at mem
      rw [level s hs, levels j mem.1]
      exact all j mem
  · intro t a lo hi rest storing
    rw [status] at storing
    obtain ⟨halves, lo_pub, hi_pub, nodup, child, pending⟩ := inv.storing t a lo hi rest storing
    have a_pub : d.pub a := (inv.targets t a (by rw [storing]; rfl)).1
    refine ⟨⟨?_, ?_, ?_, ?_⟩, by rwa [pub], by rwa [pub], nodup, fun j v mem => ?_, fun j mem => ?_⟩
    · rw [level _ lo_pub, level _ a_pub, halves.level_lo]
    · rw [level _ hi_pub, level _ a_pub, halves.level_hi]
    · rw [pre _ lo_pub, pre _ a_pub, halves.pre_lo]
    · rw [pre _ hi_pub, pre _ a_pub, halves.pre_hi]
    · rw [block a a_pub, Dir.child, depth, level a a_pub]
      exact child j v mem
    · rw [block a a_pub] at mem
      rw [level a a_pub, levels j mem.1]
      exact pending j mem
  · intro t a target
    rw [status] at target
    obtain ⟨a_pub, a_locked⟩ := inv.targets t a target
    exact ⟨by rwa [pub], locked a a_pub a_locked⟩
  · rw [status]
    exact inv.apart

section Halves
variable {a lo hi : S} {j : Nat}

theorem level_child (halves : Halves d.level d.pre a lo hi) (j : Nat) :
    d.level (d.child a lo hi j) = d.level a + 1 := by
  unfold child
  split
  · exact halves.level_lo
  · exact halves.level_hi

theorem inBlock_child (halves : Halves d.level d.pre a lo hi) (below : d.level a < d.depth)
    (mem : d.InBlock a j) : d.InBlock (d.child a lo hi j) j := by
  obtain ⟨k, hk⟩ : ∃ k, d.depth - d.level a = k + 1 := ⟨d.depth - d.level a - 1, by omega⟩
  have child_k : d.depth - (d.level a + 1) = k := by omega
  have parent := mem.2
  rw [hk, Blocks.div_two_pow_succ] at parent
  refine ⟨mem.1, ?_⟩
  rw [level_child halves, child_k, child, hk, Nat.add_sub_cancel]
  split
  · rw [halves.pre_lo]
    omega
  · rw [halves.pre_hi]
    omega

theorem parent_of_half (halves : Halves d.level d.pre a lo hi) (below : d.level a < d.depth) {s : S}
    (half : s = lo ∨ s = hi) (mem : d.InBlock s j) : d.InBlock a j ∧ d.child a lo hi j = s := by
  obtain ⟨k, hk⟩ : ∃ k, d.depth - d.level a = k + 1 := ⟨d.depth - d.level a - 1, by omega⟩
  have child_k : d.depth - (d.level a + 1) = k := by omega
  obtain ⟨bound, eq⟩ := mem
  rw [InBlock, child, hk, Blocks.div_two_pow_succ, Nat.add_sub_cancel]
  rcases half with rfl | rfl
  · rw [halves.level_lo, child_k, halves.pre_lo] at eq
    rw [if_pos (by omega)]
    exact ⟨⟨bound, by omega⟩, rfl⟩
  · rw [halves.level_hi, child_k, halves.pre_hi] at eq
    rw [if_neg (by omega)]
    exact ⟨⟨bound, by omega⟩, rfl⟩

end Halves

theorem Inv.unsplit_of_claim (inv : d.Inv) {t : T} {a : S} (claimed : d.status t = .claim a) :
    d.pub a ∧ d.Unsplit a := by
  have pub := (inv.targets t a (by rw [claimed]; rfl)).1
  refine ⟨pub, (inv.split a pub).resolve_right fun leaving => leaving.unclaimed t claimed⟩

theorem Inv.no_child (inv : d.Inv) {t : T} {a s : S} (claimed : d.status t = .claim a)
    (pub : d.pub s) (level : d.level s = d.level a + 1) (pre : d.pre s / 2 = d.pre a) : False := by
  obtain ⟨a_pub, unsplit⟩ := inv.unsplit_of_claim claimed
  obtain ⟨j, mem⟩ := inv.exists_inBlock pub
  have le := inv.level_le s pub
  have inside : d.InBlock a j := by
    refine ⟨mem.1, ?_⟩
    rw [← pre, ← mem.2, level, ← Blocks.div_two_pow_succ]
    congr 2
    omega
  rcases inv.arrived s pub j mem with deep | ⟨t', a', lo', hi', rest', storing, pending⟩
  · have := unsplit j inside
    omega
  · have there := inv.storing t' a' lo' hi' rest' storing
    have target : (d.status t').target = some a' := by rw [storing]; rfl
    obtain ⟨mem', rfl⟩ := there.child _ _ pending
    have level' := level_child there.halves j
    have same : a' = a :=
      inv.eq_of_inBlock (inv.targets t' a' target).1 a_pub (by omega) mem' inside
    subst same
    have := inv.apart t' t a' target (by rw [claimed]; rfl)
    subst this
    cases storing.symm.trans claimed

section
variable {t : T} {a lo hi v : S} {j : Nat} {rest : List (Nat × S)} (inv : d.Inv)
  (storing : d.status t = .storing a lo hi ((j, v) :: rest))
include inv storing

theorem Inv.store_target : (d.status t).target = some a ∧ d.pub a ∧ d.locked a := by
  have target : (d.status t).target = some a := by rw [storing]; rfl
  exact ⟨target, inv.targets t a target⟩

theorem Inv.store_child : d.InBlock a j ∧ d.pub v ∧ d.level v = d.level a + 1 ∧ d.InBlock v j := by
  have there := inv.storing t a lo hi _ storing
  have below : d.level a < d.depth := by
    have := inv.level_le lo there.pub_lo
    rw [there.halves.level_lo] at this
    omega
  obtain ⟨mem, rfl⟩ := there.child j v List.mem_cons_self
  refine ⟨mem, ?_, level_child there.halves j, inBlock_child there.halves below mem⟩
  unfold child
  split
  · exact there.pub_lo
  · exact there.pub_hi

theorem Inv.store_other {s : S} (pub : d.pub s) (ne : s ≠ a) (mem : d.InBlock s j) :
    d.level s ≠ d.level a := fun level =>
  ne (inv.eq_of_inBlock pub (inv.store_target storing).2.1 level mem (inv.store_child storing).1)

end

/-- Every entry is written twice. -/
def stretch (d : Dir S T) : Dir S T :=
  { d with depth := d.depth + 1, entry := fun j => d.entry (j / 2) }

theorem inBlock_stretch {s : S} {j : Nat} (le : d.level s ≤ d.depth) :
    d.stretch.InBlock s j ↔ d.InBlock s (j / 2) := by
  have shift : d.depth + 1 - d.level s = d.depth - d.level s + 1 := by omega
  show j < 2 ^ (d.depth + 1) ∧ j / 2 ^ (d.depth + 1 - d.level s) = d.pre s ↔ _
  rw [InBlock, shift, pow_succ', pow_succ' 2 (d.depth - d.level s), ← Nat.div_div_eq_div_mul]
  omega

theorem Inv.stretch (inv : d.Inv)
    (quiet : ∀ t, (d.status t).isStoring = false) : d.stretch.Inv := by
  have idle : ∀ u b lo hi rest, d.status u ≠ .storing b lo hi rest := by
    intro u b lo hi rest storing
    have := quiet u
    rw [storing] at this
    cases this
  have half : ∀ j, j < 2 ^ (d.depth + 1) → j / 2 < 2 ^ d.depth := by
    intro j hj
    rw [pow_succ] at hj
    omega
  have block : ∀ s, d.pub s → ∀ j, d.stretch.InBlock s j → d.InBlock s (j / 2) := fun s pub j =>
    (inBlock_stretch (inv.level_le s pub)).mp
  refine ⟨fun j hj => inv.entry_pub _ (half j hj), fun j hj => ?_,
    fun s pub => Nat.le_succ_of_le (inv.level_le s pub),
    inv.pre_lt, inv.unique, fun s pub j mem => ?_, fun s pub => ?_,
      fun u b lo hi rest storing => ?_, inv.targets,
    inv.apart⟩
  · exact ((inBlock_stretch (inv.level_le _ (inv.entry_pub _ (half j hj)))).mpr
      (inv.inBlock_entry (half j hj))).2
  · exact inv.arrived s pub _ (block s pub j mem) |>.imp_right fun ⟨u, b, lo, hi, rest,
        storing, _⟩ =>
      absurd storing (idle u b lo hi rest)
  · refine (inv.split s pub).imp (fun unsplit j mem => unsplit _ (block s pub j mem)) fun left => ?_
    refine ⟨left.locked, left.unclaimed, Or.inr fun j mem => ?_⟩
    rcases left.gone with ⟨u, lo, hi, rest, storing⟩ | all
    · exact absurd storing (idle u s lo hi rest)
    · exact all _ (block s pub j mem)
  · exact absurd storing (idle u b lo hi rest)

/-- While nobody is storing, a claimed segment of full level is where its prefix says. -/
theorem Inv.entry_of_claim (inv : d.Inv) {t : T} {a : S} (claimed : d.status t = .claim a)
    (full : d.level a = d.depth) (quiet : ∀ t, (d.status t).isStoring = false) :
    d.pre a < 2 ^ d.depth ∧ d.entry (d.pre a) = a := by
  obtain ⟨pub, _⟩ := inv.unsplit_of_claim claimed
  have bound : d.pre a < 2 ^ d.depth := full ▸ inv.pre_lt a pub
  have mem : d.InBlock a (d.pre a) := ⟨bound, by rw [full, Nat.sub_self, pow_zero, Nat.div_one]⟩
  refine ⟨bound, inv.eq_of_inBlock (inv.entry_pub _ bound) pub ?_ (inv.inBlock_entry bound) mem⟩
  refine le_antisymm (full ▸ inv.level_le _ (inv.entry_pub _ bound)) ?_
  rcases inv.arrived a pub _ mem with le | ⟨u, b, lo, hi, rest, storing, _⟩
  · exact le
  · have := quiet u
    rw [storing] at this
    cases this

variable [DecidableEq T]

theorem update_storing {f : T → Status S} {t u : T} {st : Status S}
    (before : (f t).isStoring = false) (after : st.isStoring = false) {a lo hi : S}
    {rest : List (Nat × S)} :
    update f t st u = .storing a lo hi rest ↔ f u = .storing a lo hi rest := by
  by_cases same : u = t
  · subst same
    rw [update_self]
    constructor
    · rintro rfl
      cases after
    · intro eq
      rw [eq] at before
      cases before
  · rw [update_of_ne same]

theorem Inv.restatus (inv : d.Inv) {t : T} {st : Status S} {locked : S → Prop}
    (before : (d.status t).isStoring = false) (after : st.isStoring = false)
    (leaving : ∀ s, d.Leaving s → locked s ∧ st ≠ .claim s)
    (targets : ∀ u a, (update d.status t st u).target = some a → d.pub a ∧ locked a)
    (mine : ∀ u a, u ≠ t → (d.status u).target = some a → st.target ≠ some a) :
    Inv { d with locked := locked, status := update d.status t st } where
  entry_pub := inv.entry_pub
  entry_pre := inv.entry_pre
  level_le := inv.level_le
  pre_lt := inv.pre_lt
  unique := inv.unique
  arrived := by
    intro s pub j mem
    simp only [update_storing before after]
    exact inv.arrived s pub j mem
  split := by
    intro s pub
    refine (inv.split s pub).imp_right fun left => ?_
    obtain ⟨kept, other⟩ := leaving s left
    refine ⟨kept, fun u => ?_, ?_⟩
    · show update d.status t st u ≠ .claim s
      by_cases same : u = t
      · rw [same, update_self]
        exact other
      · rw [update_of_ne same]
        exact left.unclaimed u
    · simp only [update_storing before after]
      exact left.gone
  storing := by
    intro u a lo hi rest storing
    rw [update_storing before after] at storing
    obtain ⟨halves, lo_pub, hi_pub, nodup, child, pending⟩ := inv.storing u a lo hi rest storing
    exact ⟨halves, lo_pub, hi_pub, nodup, child, pending⟩
  targets := targets
  apart := by
    intro u u' a target target'
    by_cases here : u = t <;> by_cases here' : u' = t
    · rw [here, here']
    · rw [here] at target
      simp only [update_self, update_of_ne here'] at target target'
      exact absurd target (mine u' a here' target')
    · rw [here'] at target'
      simp only [update_self, update_of_ne here] at target target'
      exact absurd target' (mine u a here target)
    · simp only [update_of_ne here, update_of_ne here'] at target target'
      exact inv.apart u u' a target target'

theorem Inv.claim (inv : d.Inv) {t : T} {a : S} (idle : d.status t = .idle) (pub : d.pub a)
    (free : ¬ d.locked a) :
    Inv { d with
      locked := fun s => s = a ∨ d.locked s
      status := update d.status t (.claim a) } := by
  refine inv.restatus (by rw [idle]; rfl) rfl (fun s left => ⟨Or.inr left.locked, ?_⟩) ?_ ?_
  · rintro ⟨⟩
    exact free left.locked
  · intro u b target
    by_cases same : u = t
    · subst same
      rw [update_self] at target
      cases target
      exact ⟨pub, Or.inl rfl⟩
    · rw [update_of_ne same] at target
      exact (inv.targets u b target).imp_right Or.inr
  · intro u b other target mine
    cases mine
    exact free (inv.targets u a target).2

theorem Inv.release (inv : d.Inv) {t : T} {a : S} (claimed : d.status t = .claim a) :
    Inv { d with
      locked := fun s => s ≠ a ∧ d.locked s
      status := update d.status t .idle } := by
  refine inv.restatus (by rw [claimed]; rfl) rfl (fun s left => ⟨⟨?_, left.locked⟩, nofun⟩) ?_ nofun
  · rintro rfl
    exact left.unclaimed t claimed
  · intro u b target
    by_cases same : u = t
    · subst same
      rw [update_self] at target
      cases target
    · rw [update_of_ne same] at target
      obtain ⟨pub, locked⟩ := inv.targets u b target
      refine ⟨pub, ?_, locked⟩
      rintro rfl
      exact same (inv.apart u t b target (by rw [claimed]; rfl))

theorem Inv.abandon (inv : d.Inv) {t : T} {a : S} (claimed : d.status t = .claim a) :
    Inv { d with status := update d.status t .idle } := by
  refine inv.restatus (by rw [claimed]; rfl) rfl (fun s left => ⟨left.locked, nofun⟩) ?_ nofun
  intro u b target
  by_cases same : u = t
  · subst same
    rw [update_self] at target
    cases target
  · rw [update_of_ne same] at target
    exact inv.targets u b target

theorem Inv.begin (inv : d.Inv) {t : T} {a lo hi : S} (rest : List (Nat × S))
    (claimed : d.status t = .claim a) (below : d.level a < d.depth)
    (halves : Halves d.level d.pre a lo hi) (nodup : (rest.map Prod.fst).Nodup)
    (child : ∀ j v, (j, v) ∈ rest → d.InBlock a j ∧ v = d.child a lo hi j)
    (all : ∀ j, d.InBlock a j → j ∈ rest.map Prod.fst) :
    Inv { d with
      pub := fun s => (s = lo ∨ s = hi) ∨ d.pub s
      status := update d.status t (.storing a lo hi rest) } := by
  obtain ⟨a_pub, unsplit⟩ := inv.unsplit_of_claim claimed
  have still : ∀ u b lo' hi' rest', d.status u = .storing b lo' hi' rest' →
      update d.status t (.storing a lo hi rest) u = .storing b lo' hi' rest' := by
    intro u b lo' hi' rest' storing
    rw [update_of_ne, storing]
    rintro rfl
    cases storing.symm.trans claimed
  have target : ∀ u, (update d.status t (.storing a lo hi rest) u).target =
      (d.status u).target := by
    intro u
    by_cases same : u = t
    · rw [same, update_self, claimed]
      rfl
    · rw [update_of_ne same]
  refine ⟨fun j hj => Or.inr (inv.entry_pub j hj), inv.entry_pre, ?_, ?_, ?_, ?_, ?_, ?_, ?_, ?_⟩
  · rintro s (half | pub)
    · exact (halves.level_eq half).trans_le below
    · exact inv.level_le s pub
  · rintro s (half | pub)
    · have := inv.pre_lt a a_pub
      have := halves.pre_div_two half
      show d.pre s < 2 ^ d.level s
      rw [halves.level_eq half, pow_succ]
      omega
    · exact inv.pre_lt s pub
  · rintro s s' (half | pub) (half' | pub') (level : d.level s = d.level s')
      (pre : d.pre s = d.pre s')
    · exact halves.eq_of_pre_eq half half' pre
    · exact (inv.no_child claimed pub' (level ▸ halves.level_eq half)
        (pre ▸ halves.pre_div_two half)).elim
    · exact (inv.no_child claimed pub (level ▸ halves.level_eq half')
        (pre ▸ halves.pre_div_two half')).elim
    · exact inv.unique s s' pub pub' level pre
  · rintro s (half | pub) j mem
    · obtain ⟨inside, eq⟩ := parent_of_half halves below half mem
      obtain ⟨⟨i, v⟩, pending, rfl⟩ := List.mem_map.mp (all j inside)
      obtain ⟨_, rfl⟩ := child _ _ pending
      rw [eq] at pending
      exact Or.inr ⟨t, a, lo, hi, rest, update_self .., pending⟩
    · refine (inv.arrived s pub j mem).imp_right ?_
      rintro ⟨u, b, lo', hi', rest', storing, pending⟩
      exact ⟨u, b, lo', hi', rest', still u b lo' hi' rest' storing, pending⟩
  · rintro s (half | pub)
    · refine Or.inl fun j mem => ?_
      have := unsplit j (parent_of_half halves below half mem).1
      show d.level (d.entry j) ≤ d.level s
      rw [halves.level_eq half]
      omega
    · refine (inv.split s pub).imp_right fun left => ⟨left.locked, fun u => ?_, ?_⟩
      · show update d.status t (.storing a lo hi rest) u ≠ .claim s
        by_cases same : u = t
        · rw [same, update_self]
          exact nofun
        · rw [update_of_ne same]
          exact left.unclaimed u
      · refine left.gone.imp_left ?_
        rintro ⟨u, lo', hi', rest', storing⟩
        exact ⟨u, lo', hi', rest', still u s lo' hi' rest' storing⟩
  · intro u b lo' hi' rest' (storing : update d.status t (.storing a lo hi rest) u = _)
    by_cases same : u = t
    · rw [same, update_self] at storing
      cases storing
      exact ⟨halves, Or.inl (Or.inl rfl), Or.inl (Or.inr rfl), nodup, child,
        fun j mem => iff_of_true (all j mem) (unsplit j mem)⟩
    · rw [update_of_ne same] at storing
      obtain ⟨halves', lo_pub, hi_pub, nodup', child', pending⟩ :=
        inv.storing u b lo' hi' rest' storing
      exact ⟨halves', Or.inr lo_pub, Or.inr hi_pub, nodup', child', pending⟩
  · intro u b (eq : (update d.status t (.storing a lo hi rest) u).target = some b)
    rw [target] at eq
    exact (inv.targets u b eq).imp_left Or.inr
  · intro u u' b (eq : (update d.status t (.storing a lo hi rest) u).target = some b)
      (eq' : (update d.status t (.storing a lo hi rest) u').target = some b)
    rw [target] at eq eq'
    exact inv.apart u u' b eq eq'

/-! A store over an entry of the claimed segment. -/

section Store
variable {t : T} {a lo hi v : S} {j : Nat} {rest : List (Nat × S)}

def store (d : Dir S T) (t : T) (a lo hi v : S) (j : Nat) (rest : List (Nat × S)) : Dir S T :=
  { d with
    entry := update d.entry j v
    status := update d.status t (.after a lo hi rest) }

theorem store_status_other {u : T} (other : u ≠ t) :
    (d.store t a lo hi v j rest).status u = d.status u := update_of_ne other ..

theorem store_status_self : (d.store t a lo hi v j rest).status t = .after a lo hi rest :=
  update_self ..

theorem store_status_ne_claim {s : S} {u : T} (free : u ≠ t → d.status u ≠ .claim s) :
    (d.store t a lo hi v j rest).status u ≠ .claim s := by
  by_cases same : u = t
  · rw [same, store_status_self]
    rcases Status.after_cases a lo hi rest with ⟨_, idle⟩ | more
    · rw [idle]
      exact nofun
    · rw [more]
      exact nofun
  · rw [store_status_other same]
    exact free same

variable (inv : d.Inv) (storing : d.status t = .storing a lo hi ((j, v) :: rest))
include inv storing

theorem Inv.store_level (i : Nat) : d.level ((d.store t a lo hi v j rest).entry i) =
    if i = j then d.level a + 1 else d.level (d.entry i) := by
  show d.level (update d.entry j v i) = _
  rw [update_apply]
  split
  · exact (inv.store_child storing).2.2.1
  · rfl

theorem Inv.store_targets {u : T} {b : S}
    (target : ((d.store t a lo hi v j rest).status u).target = some b) :
    (d.status u).target = some b := by
  by_cases same : u = t
  · rw [same, store_status_self] at target
    rw [same, (inv.store_target storing).1]
    rcases Status.after_cases a lo hi rest with ⟨_, idle⟩ | more
    · rw [idle] at target
      cases target
    · rwa [more] at target
  · rwa [store_status_other same] at target

theorem Inv.store_leaving : (d.store t a lo hi v j rest).Leaving a := by
  obtain ⟨target, _, locked⟩ := inv.store_target storing
  refine ⟨locked, fun u => store_status_ne_claim fun ne claim => ?_, ?_⟩
  · exact ne (inv.apart u t a (by rw [claim]; rfl) target)
  · rcases Status.after_cases a lo hi rest with ⟨rfl, _⟩ | more
    · refine Or.inr fun i mem => ?_
      show d.level a < d.level ((d.store t a lo hi v j []).entry i)
      rw [inv.store_level storing]
      split
      · omega
      · have := ((inv.storing t a lo hi _ storing).pending i mem).not.mp (by simpa using ‹i ≠ j›)
        omega
    · exact Or.inl ⟨t, lo, hi, rest, store_status_self.trans more⟩

theorem Inv.store_mine : (d.store t a lo hi v j rest).Storing a lo hi rest := by
  obtain ⟨halves, lo_pub, hi_pub, nodup, child, pending⟩ := inv.storing t a lo hi _ storing
  obtain ⟨fresh, nodup'⟩ := List.nodup_cons.mp nodup
  refine ⟨halves, lo_pub, hi_pub, nodup', fun i w mem => child i w (List.mem_cons_of_mem _ mem),
    fun i mem => ?_⟩
  show _ ↔ d.level ((d.store t a lo hi v j rest).entry i) ≤ d.level a
  rw [inv.store_level storing]
  split
  · rename_i here
    exact iff_of_false (here ▸ fresh) (by omega)
  · rename_i ne
    rw [← pending i mem, List.map_cons, List.mem_cons]
    exact (or_iff_right ne).symm

variable (hit : d.entry j = a)
include hit

theorem Inv.store_arrived {s : S} (pub : d.pub s) {i : Nat} (mem : d.InBlock s i) :
    d.level s ≤ d.level ((d.store t a lo hi v j rest).entry i) ∨
      ∃ u b lo' hi' rest', (d.store t a lo hi v j rest).status u = .storing b lo' hi' rest' ∧
        (i, s) ∈ rest' := by
  rw [inv.store_level storing]
  rcases inv.arrived s pub i mem with le | ⟨u, b, lo', hi', rest', storing', pending⟩
  · left
    split
    · rename_i here
      rw [here, hit] at le
      omega
    · exact le
  · by_cases mine : u = t
    · subst mine
      cases storing.symm.trans storing'
      rcases List.mem_cons.mp pending with now | later
      · cases now
        exact Or.inl (by rw [if_pos rfl, (inv.store_child storing).2.2.1])
      · exact Or.inr ⟨u, a, lo, hi, rest, store_status_self.trans (Status.after_of_mem later),
          later⟩
    · exact Or.inr ⟨u, b, lo', hi', rest', (store_status_other mine).trans storing', pending⟩

theorem Inv.store_split {s : S} (pub : d.pub s) (ne : s ≠ a) :
    (d.store t a lo hi v j rest).Unsplit s ∨ (d.store t a lo hi v j rest).Leaving s := by
  rcases inv.split s pub with unsplit | left
  · refine Or.inl fun i mem => ?_
    have below := unsplit i mem
    show d.level ((d.store t a lo hi v j rest).entry i) ≤ d.level s
    rw [inv.store_level storing]
    split
    · rename_i here
      subst here
      have := inv.store_other storing pub ne mem
      rw [hit] at below
      omega
    · exact below
  · refine Or.inr ⟨left.locked, fun u => store_status_ne_claim fun _ => left.unclaimed u, ?_⟩
    rcases left.gone with ⟨u, lo', hi', rest', storing'⟩ | all
    · have other : u ≠ t := by
        rintro rfl
        cases storing.symm.trans storing'
        exact ne rfl
      exact Or.inl ⟨u, lo', hi', rest', (store_status_other other).trans storing'⟩
    · refine Or.inr fun i mem => ?_
      have deep := all i mem
      show d.level s < d.level ((d.store t a lo hi v j rest).entry i)
      rw [inv.store_level storing]
      split
      · rename_i here
        rw [here, hit] at deep
        omega
      · exact deep

theorem Inv.store_others {u : T} {b lo' hi' : S} {rest' : List (Nat × S)} (other : u ≠ t)
    (storing' : d.status u = .storing b lo' hi' rest') :
    (d.store t a lo hi v j rest).Storing b lo' hi' rest' := by
  obtain ⟨halves, lo_pub, hi_pub, nodup, child, pending⟩ := inv.storing u b lo' hi' rest' storing'
  have target : (d.status u).target = some b := by rw [storing']; rfl
  refine ⟨halves, lo_pub, hi_pub, nodup, child, fun i mem => ?_⟩
  show _ ↔ d.level ((d.store t a lo hi v j rest).entry i) ≤ d.level b
  rw [pending i mem, inv.store_level storing]
  split
  · rename_i here
    subst here
    have ne : b ≠ a := fun eq => other (inv.apart u t a (eq ▸ target) (inv.store_target storing).1)
    have := inv.store_other storing (inv.targets u b target).1 ne mem
    rw [hit]
    omega
  · rfl

theorem Inv.store : (d.store t a lo hi v j rest).Inv where
  entry_pub := by
    intro i bound
    show d.pub (update d.entry j v i)
    rw [update_apply]
    split
    · exact (inv.store_child storing).2.1
    · exact inv.entry_pub i bound
  entry_pre := by
    intro i bound
    show i / 2 ^ (d.depth - d.level (update d.entry j v i)) =
      d.pre (update d.entry j v i)
    rw [update_apply]
    split
    · rename_i here
      exact here ▸ (inv.store_child storing).2.2.2.2
    · exact inv.entry_pre i bound
  level_le := inv.level_le
  pre_lt := inv.pre_lt
  unique := inv.unique
  arrived := fun s pub i mem => inv.store_arrived storing hit pub mem
  split := by
    intro s pub
    by_cases claimed : s = a
    · rw [claimed]
      exact Or.inr (inv.store_leaving storing)
    · exact inv.store_split storing hit pub claimed
  storing := by
    intro u b lo' hi' rest' storing'
    by_cases same : u = t
    · rw [same, store_status_self] at storing'
      rcases Status.after_cases a lo hi rest with ⟨_, idle⟩ | more
      · cases idle.symm.trans storing'
      · cases more.symm.trans storing'
        exact inv.store_mine storing
    · rw [store_status_other same] at storing'
      exact inv.store_others storing hit same storing'
  targets := fun u b target => inv.targets u b (inv.store_targets storing target)
  apart := fun u u' b target target' =>
    inv.apart u u' b (inv.store_targets storing target) (inv.store_targets storing target')

end Store

/-! Doubling: every entry is written twice, which keeps the blocks, and then the block of
the claimed segment is overwritten. -/

/-- The directory of twice the size in which a segment of full level gave way to its halves. -/
def double (d : Dir S T) (t : T) (a lo hi : S) : Dir S T :=
  { d with
    depth := d.depth + 1
    entry := doubled d.entry (d.pre a) lo hi
    pub := fun s => (s = lo ∨ s = hi) ∨ d.pub s
    status := update d.status t .idle }

theorem Inv.double (inv : d.Inv) {t : T} {a lo hi : S} (claimed : d.status t = .claim a)
    (full : d.level a = d.depth) (quiet : ∀ t, (d.status t).isStoring = false)
    (halves : Halves d.level d.pre a lo hi) :
    (d.double t a lo hi).Inv := by
  obtain ⟨bound, here⟩ := inv.entry_of_claim claimed full quiet
  have block : ∀ j, d.stretch.InBlock a j ↔ j / 2 = d.pre a := by
    intro j
    rw [inBlock_stretch full.le, InBlock, full, Nat.sub_self, pow_zero, Nat.div_one]
    exact and_iff_right_of_imp fun eq => eq ▸ bound
  have even : 2 * d.pre a / 2 = d.pre a := by omega
  have odd : (2 * d.pre a + 1) / 2 = d.pre a := by omega
  have begun := (inv.stretch quiet).begin [(2 * d.pre a, lo), (2 * d.pre a + 1, hi)] claimed
    (full ▸ Nat.lt_succ_self _) halves (by simp) (fun j v mem => ?_) fun j mem => ?_
  · have first := begun.store (update_self ..) (by
      show d.entry (2 * d.pre a / 2) = a
      rw [even, here])
    have second := first.store (update_self ..) (by
      show update (fun j => d.entry (j / 2)) (2 * d.pre a) lo (2 * d.pre a + 1) = a
      rw [update_of_ne (by omega), odd, here])
    have entries : update (update (fun j => d.entry (j / 2)) (2 * d.pre a) lo)
        (2 * d.pre a + 1) hi = doubled d.entry (d.pre a) lo hi := by
      funext j
      simp only [update_apply, doubled]
      split_ifs <;> first | rfl | omega
    have statuses : ∀ st st' : Status S, update
      (update (update d.status t st) t st') t .idle =
        update d.status t .idle := by
      intro st st'
      rw [update_idem, update_idem]
    rw [Dir.double, ← entries, ← statuses]
    exact second
  · have width : d.depth + 1 - d.level a - 1 = 0 := by omega
    rw [block, child, show d.stretch.depth - d.stretch.level a - 1 = 0 from width,
      pow_zero, Nat.div_one]
    rcases List.mem_pair.mp mem with eq | eq <;> cases eq
    · exact ⟨even, by rw [if_pos (by omega)]⟩
    · exact ⟨odd, by rw [if_neg (by omega)]⟩
  · rw [block] at mem
    simp only [List.map_cons, List.map_nil, List.mem_cons, List.not_mem_nil, or_false]
    omega

end Dir

end SplitDirectory
