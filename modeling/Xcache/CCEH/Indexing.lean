import Xcache.CCEH.Invariant

/-! The shift counts and directory indices of `Insert`, `Get` and `Split`, for the depth that the
constructor computes from the server's buffer size. -/

namespace Xcache.CCEH

/-- `BUFFER_SIZE` for the argument of `-S`, in 64 bits; 0 is refused. -/
def bufferSize (mbytes : Nat) : Nat := 2 ^ 20 * mbytes % 2 ^ 64

def initCap (bufferSize : Nat) : Nat := bufferSize / 4096

/-- The depth that the constructor computes. `log2` of 0 is minus infinity, which no `size_t`
holds. -/
def initDepth (initCap : Nat) : Option Nat :=
  if initCap / kNumSlot = 0 then none else some (Nat.log2 (initCap / kNumSlot))

/-- The count `a - b` is a shift count of a 64-bit word. -/
def Count (a b : Nat) : Prop := b ≤ a ∧ a - b ≤ 63

namespace Table

/-- The entries that the split of the key's segment writes, and their number. -/
def passStores (h : Key → BitVec 64) (t : Table) (key : Key) : List (Nat × Nat) × Nat :=
  let x := index t.cur.depth (h key)
  let localDepth := (t.segs (t.target h key)).localDepth
  if localDepth = t.cur.depth then (doublingStores t.cur x t.nseg (t.nseg + 1),
    2 ^ (t.cur.depth + 1))
  else (stores x (t.cur.depth - localDepth) t.nseg (t.nseg + 1), t.cur.capacity)

/-- What `Get` computes for a key is defined and in the directory. -/
structure GetDefined (h : Key → BitVec 64) (t : Table) (key : Key) : Prop where
  shift : Count 64 t.cur.depth
  inside : index t.cur.depth (h key) < t.cur.capacity

/-- So is what a pass of `Insert` computes, with the split it may make. -/
structure InsertDefined (h : Key → BitVec 64) (t : Table) (key : Key) :
    Prop extends GetDefined h t key where
  segmentShift : Count 64 (t.segs (t.target h key)).localDepth
  patternShift : Count t.cur.depth (t.segs (t.target h key)).localDepth
  splitShift : Count 63 (t.segs (t.target h key)).localDepth
  writes : ∀ p ∈ (t.passStores h key).1, p.1 < (t.passStores h key).2

/-- The states of calls one after another that insert distinct keys: between two calls, or at the
beginning of a pass for a key. -/
inductive Sequential (h : Key → BitVec 64) (t₀ : Table) : List Key → Option Key → Table → Prop
  | start : Sequential h t₀ [] none t₀
  | call {keys : List Key} {t : Table} {key : Key} : Sequential h t₀ keys none t → key ∉ keys →
    Sequential h t₀ keys (some key) t
  | retry {keys : List Key} {t t' : Table} {key : Key} {value : Value} :
    Sequential h t₀ keys (some key) t →
      t.attempt h key value = .retry t' → Sequential h t₀ keys (some key) t'
  | stored {keys : List Key} {t t' : Table} {key : Key} {value : Value} :
    Sequential h t₀ keys (some key) t →
      t.attempt h key value = .stored t' → Sequential h t₀ (key :: keys) none t'

/-- The constructor's depth is defined, and so is every shift and index of the calls after it. -/
def IndexingDefined (h : Key → BitVec 64) (bufferSize : Nat) : Prop :=
  ∃ depth, initDepth (initCap bufferSize) = some depth ∧ ∀ t₀, construct depth = some t₀ →
    (∀ keys key t, Sequential h t₀ keys none t → GetDefined h t key) ∧
    ∀ keys key t, Sequential h t₀ keys (some key) t → InsertDefined h t key

section
variable {h : Key → BitVec 64} {t t₀ : Table}

theorem Sequential.passes {keys : List Key} {now : Option Key} (seq : Sequential h t₀ keys now t) :
    Relation.ReflTransGen (Pass h) t₀ t := by
  induction seq with
  | start => exact .refl
  | call _ _ ih => exact ih
  | retry _ eq ih => exact ih.tail ⟨_, _, Or.inr eq⟩
  | stored _ eq ih => exact ih.tail ⟨_, _, Or.inl eq⟩

theorem Inv.getDefined (inv : Inv h t) (key : Key) : GetDefined h t key := by
  have := inv.depth_pos
  have := inv.depth_le
  refine ⟨⟨by omega, by omega⟩, ?_⟩
  rw [inv.capacity]
  exact inv.index_lt key

theorem Inv.writes (inv : Inv h t) (key : Key) :
    ∀ p ∈ (t.passStores h key).1, p.1 < (t.passStores h key).2 := by
  have le := inv.local_le key
  intro p mem
  unfold passStores at mem ⊢
  dsimp only at mem ⊢
  split at mem
  · rename_i full
    rw [if_pos full]
    obtain ⟨i, lt, here⟩ := List.mem_flatMap.mp mem
    rw [List.mem_range, inv.capacity] at lt
    rw [pow_succ]
    split at here <;> rcases List.mem_pair.mp here with rfl | rfl <;> dsimp only <;> omega
  · rename_i below
    rw [if_neg below, inv.capacity]
    obtain ⟨pos, narrow⟩ := stores_bounds mem
    have block := ((stores_spec pos narrow).1 p mem).1
    generalize (t.segs (t.target h key)).localDepth = l at le below block pos narrow
    have split : 2 ^ t.cur.depth = 2 ^ l * 2 ^ (t.cur.depth - l) := by
      rw [← pow_add, Nat.add_sub_cancel' le]
    have here := inv.index_lt key
    rw [split, ← Nat.div_lt_iff_lt_mul (Nat.two_pow_pos _)] at here ⊢
    rwa [block]

theorem Inv.insertDefined (inv : Inv h t) (key : Key) : InsertDefined h t key := by
  have := inv.depth_le
  have := inv.local_le key
  have := inv.target_pos key
  exact ⟨inv.getDefined key, ⟨by omega, by omega⟩, ⟨by omega, by omega⟩, ⟨by omega, by omega⟩,
    inv.writes key⟩

end

theorem initDepth_eq (bufferSize : Nat) : initDepth (initCap bufferSize) =
    if bufferSize / 2 ^ 22 = 0 then none else some (Nat.log2 (bufferSize / 2 ^ 22)) := by
  rw [initDepth, initCap, Nat.div_div_eq_div_mul]
  rfl

/-- Everything is defined exactly from 8 MBytes on. -/
theorem indexingDefined_iff_eight (h : Key → BitVec 64) (mbytes : Nat) :
    IndexingDefined h (bufferSize mbytes) ↔ 8 * 2 ^ 20 ≤ bufferSize mbytes := by
  generalize bufferSize mbytes = size
  unfold IndexingDefined
  rw [initDepth_eq]
  constructor
  · rintro ⟨depth, eq, defined⟩
    by_contra small
    split at eq
    · cases eq
    · -- the quotient is 1 and the depth 0
      have one : size / 2 ^ 22 = 1 := by omega
      rw [one] at eq
      cases eq
      obtain ⟨t₀, made⟩ : ∃ t₀, construct (Nat.log2 1) = some t₀ := ⟨_, rfl⟩
      have shift := ((defined t₀ made).1 [] 0 t₀ .start).shift
      rw [(construct_spec made).2.2.2.2.1] at shift
      exact absurd shift.2 (by decide)
  · intro large
    rw [if_neg (by omega)]
    refine ⟨_, rfl, fun t₀ made => ?_⟩
    have pos : 1 ≤ Nat.log2 (size / 2 ^ 22) := (Nat.le_log2 (by omega)).mpr (by omega)
    have inv : ∀ {keys now t}, Sequential h t₀ keys now t → Inv h t :=
      fun seq => (inv_construct pos made).passes seq.passes
    exact ⟨fun keys key t seq => (inv seq).getDefined key, fun keys key t seq =>
      (inv seq).insertDefined key⟩

/-- One MByte gives no depth, and four give depth 0, for which a `Get` of key 0 shifts by 64. -/
theorem small_buffer_undefined :
    initDepth (initCap (bufferSize 1)) = none ∧ initDepth (initCap (bufferSize 4)) = some 0 ∧
    ∃ t₀, construct 0 = some t₀ ∧ ¬ GetDefined id t₀ 0 := by
  refine ⟨by decide, by decide, _, rfl, fun defined => absurd defined.shift.2 (by decide)⟩

end Table

end Xcache.CCEH
