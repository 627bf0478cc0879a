import Xcache.Pair
import Xcache.Lib.Displace

/-! The pairs in the first cells of an array of pairs. -/

namespace Xcache

def entries (cells : Nat → Pair) (n : Nat) : Multiset Pair :=
  ((Multiset.range n).map cells).filter Pair.Live

def pairOf (op : Key × Value) : Pair := ⟨op.1, some op.2⟩

section
variable {cells : Nat → Pair} {n i j : Nat} {p : Pair} {ops : List (Key × Value)}

theorem mem_entries : p ∈ entries cells n ↔ ∃ i < n, cells i = p ∧ p.Live := by
  unfold entries
  rw [Multiset.mem_filter, Multiset.mem_map]
  constructor
  · rintro ⟨⟨i, inside, eq⟩, live⟩
    exact ⟨i, Multiset.mem_range.mp inside, eq, live⟩
  · rintro ⟨i, lt, eq, live⟩
    exact ⟨⟨i, Multiset.mem_range.mpr lt, eq⟩, live⟩

theorem entries_of_free (free : ∀ i < n, ¬ (cells i).Live) : entries cells n = 0 := by
  refine Multiset.eq_zero_of_forall_notMem fun p mem => ?_
  obtain ⟨i, lt, rfl, live⟩ := mem_entries.mp mem
  exact free i lt live

theorem entries_succ_live (live : (cells n).Live) :
    entries cells (n + 1) = cells n ::ₘ entries cells n := by
  unfold entries
  rw [Multiset.range_succ, Multiset.map_cons, Multiset.filter_cons_of_pos _ live]

theorem entries_succ_free (free : ¬ (cells n).Live) : entries cells (n + 1) = entries cells n := by
  unfold entries
  rw [Multiset.range_succ, Multiset.map_cons, Multiset.filter_cons_of_neg _ free]

/-- Carrying a pair along cells of the array to a free one adds it. -/
theorem entries_carry {l : List Nat} (inside : ∀ i ∈ l, i < n) (live : p.Live)
    (free : ¬ (carry l cells p).2.Live) :
    entries (carry l cells p).1 n = p ::ₘ entries cells n := by
  have moved := congrArg (Multiset.filter Pair.Live)
    (map_carry (f := cells) (v := p) (Multiset.nodup_range n) fun i mem =>
      Multiset.mem_range.mpr (inside i mem))
  rwa [Multiset.filter_cons_of_pos _ live, Multiset.filter_cons_of_neg _ free] at moved

theorem entries_update (lt : i < n) (live : p.Live) (free : ¬ (cells i).Live) :
    entries (Function.update cells i p) n = p ::ₘ entries cells n :=
  entries_carry (l := [i]) (fun _ mem => List.mem_singleton.mp mem ▸ lt) live free

theorem card_entries_le (cells : Nat → Pair) (n : Nat) : (entries cells n).card ≤ n := by
  refine (Multiset.card_le_card (Multiset.filter_le _ _)).trans ?_
  rw [Multiset.card_map, Multiset.card_range]

theorem card_entries_of_live (live : ∀ i < n, (cells i).Live) : (entries cells n).card = n := by
  have all : entries cells n = (Multiset.range n).map cells := by
    refine Multiset.filter_eq_self.mpr fun p mem => ?_
    obtain ⟨i, inside, rfl⟩ := Multiset.mem_map.mp mem
    exact live i (Multiset.mem_range.mp inside)
  rw [all, Multiset.card_map, Multiset.card_range]

theorem eq_of_key_eq (nodup : ((entries cells n).map Pair.key).Nodup) (lt : i < n) (lt' : j < n)
    (live : (cells i).Live) (same : (cells i).key = (cells j).key) : i = j := by
  have live' : (cells j).Live := fun eq => live (same.trans eq)
  have eq : (entries cells n).map Pair.key = ((Multiset.range n).filter fun i => (cells i).Live).map
      fun i => (cells i).key := by
    unfold entries
    rw [Multiset.filter_map, Multiset.map_map]
    rfl
  rw [eq] at nodup
  exact Multiset.inj_on_of_nodup_map nodup i (Multiset.mem_filter.mpr
    ⟨Multiset.mem_range.mpr lt, live⟩) j
    (Multiset.mem_filter.mpr ⟨Multiset.mem_range.mpr lt', live'⟩) same

theorem map_key_pairOf : (ops.map pairOf).map Pair.key = ops.map Prod.fst := by
  rw [List.map_map]
  rfl

section
variable (stored : entries cells n = ↑(ops.map pairOf))
include stored

theorem exists_cell {op : Key × Value} (mem : op ∈ ops) : ∃ i < n, cells i = pairOf op := by
  have inside : pairOf op ∈ entries cells n := by
    rw [stored, Multiset.mem_coe]
    exact List.mem_map_of_mem mem
  obtain ⟨i, lt, eq, _⟩ := mem_entries.mp inside
  exact ⟨i, lt, eq⟩

theorem cell_mem (lt : i < n) (live : (cells i).Live) : (cells i).key ∈ ops.map Prod.fst := by
  have inside : cells i ∈ (ops.map pairOf : Multiset Pair) :=
    stored ▸ mem_entries.mpr ⟨i, lt, rfl, live⟩
  rw [← map_key_pairOf]
  exact List.mem_map_of_mem (Multiset.mem_coe.mp inside)

theorem nodup_keys (distinct : (ops.map Prod.fst).Nodup) :
    ((entries cells n).map Pair.key).Nodup := by
  rw [stored, Multiset.map_coe, map_key_pairOf]
  exact Multiset.coe_nodup.mpr distinct

theorem cell_eq {op : Key × Value} (distinct : (ops.map Prod.fst).Nodup) (mem : op ∈ ops)
    (valid : op.1 ≠ invalidKey) (lt : i < n) (key : (cells i).key = op.1) :
    cells i = pairOf op := by
  obtain ⟨j, lt', eq⟩ := exists_cell stored mem
  have same : (cells i).key = (cells j).key := by rw [key, eq]; rfl
  rw [eq_of_key_eq (nodup_keys stored distinct) lt lt' (fun eq => valid (key ▸ eq)) same, eq]

/-- Each inserted key is in exactly one cell. -/
theorem existsUnique_cell {op : Key × Value} (distinct : (ops.map Prod.fst).Nodup) (mem : op ∈ ops)
    (valid : op.1 ≠ invalidKey) :
    ∃! i, i < n ∧ (cells i).key = op.1 := by
  obtain ⟨i, lt, eq⟩ := exists_cell stored mem
  have key : (cells i).key = op.1 := by rw [eq]; rfl
  refine ⟨i, ⟨lt, key⟩, fun j ⟨lt', key'⟩ => ?_⟩
  exact eq_of_key_eq (nodup_keys stored distinct) lt' lt (fun eq => valid (key' ▸ eq))
    (key'.trans key.symm)

end

end

end Xcache
