import Xcache.Lib.HopCosts
import Xcache.HotRing.Lookup

/-! `do_hotspot_shift` with exact arithmetic. The cost of a node is taken along the positions in the
ring and not around it, so that the head comes to the weighted median. -/

namespace Xcache.HotRing

inductive HotspotShift
  | rehash
  | success
  deriving DecidableEq

def incomeThreshold : ℚ := 5

/-- The loop that reads the counters behind the head and resets them, with room for so many more. -/
def takeCounters (head : Ptr) : Nat → Mem → Ptr → List Nat → Option (Mem × List Nat)
  | 0, _, _, _ => none
  | room + 1, mem, p, counters =>
    if p = head then some (mem, counters)
    else do
      let tmp ← mem.nodes p
      takeCounters head room (mem.set p { tmp with list.counter := 0 }) tmp.list.addr
        (counters ++ [tmp.list.counter.toNat])

/-- The inner loop. The remainder is the one of C, with the sign of the dividend. -/
def income (counters : List Nat) (total : ℚ) (t : Nat) : ℚ :=
  (List.range counters.length).foldl (fun income i =>
    income + (counters.getD i 0 : ℚ) / total * (((i : ℤ) - t).tmod counters.length).natAbs) 0

structure Hottest where
  headIncome : ℚ
  minIncome : ℚ
  nrHottest : Nat

/-- One turn of the outer loop, for the income of node `t`. -/
def Hottest.turn (s : Hottest) (t : Nat) (income : ℚ) : Hottest :=
  let s := if t = 0 then { s with headIncome := income } else s
  if income < s.minIncome then { s with minIncome := income, nrHottest := t } else s

def findHottest (counters : List Nat) (total : ℚ) : Hottest :=
  (List.range counters.length).foldl (fun s t => s.turn t (income counters total t))
    ⟨0, 1000000000, 0⟩

/-- The loop to the hottest node, which is `NULL` when the number does not come up. -/
def walkTo (mem : Mem) (head : Ptr) (nrHottest : Nat) : Nat → Nat → Ptr → Option Ptr
  | 0, _, _ => none
  | fuel + 1, i, p =>
    if p = head then some 0
    else if i = nrHottest then some p
    else do walkTo mem head nrHottest fuel (i + 1) (← mem.next p)

/-- `do_hotspot_shift`. The array has 100000 counters; the assignment to `head->node` clears the
counter of the head as well. -/
def doHotspotShift (mem : Mem) (head : Head) : Option (Mem × Head × HotspotShift) := do
  let headNode ← mem.nodes head.node
  let (mem, counters) ← takeCounters head.node 100000 (mem.set head.node { headNode with
    list.counter := 0 }) headNode.list.addr [headNode.list.counter.toNat]
  let found := findHottest counters head.counter.toNat
  if found.minIncome = found.headIncome then return (mem, { head with counter := 0 }, .success)
  else
    let hottest ← walkTo mem head.node found.nrHottest counters.length 1 headNode.list.addr
    return (mem, ⟨hottest, 0⟩, if incomeThreshold < found.minIncome then .rehash else .success)

open HopCosts

section
variable {mem mem' : Mem} {head prev : Ptr} {rest ring : List Ptr} {counters : List Nat} {total : ℚ}
  {t : Nat}

def Mem.counter (mem : Mem) (p : Ptr) : Nat := (mem.node p).list.counter.toNat

def countAt (counters : List Nat) (i : Nat) : Nat := counters.getD i 0

theorem Mem.Recounts.trans {mem₁ : Mem} (later : mem'.Recounts mem₁)
    (recounts : mem₁.Recounts mem) : mem'.Recounts mem :=
  ⟨fun p => (later.nodes p).trans (recounts.nodes p), later.fresh.trans recounts.fresh⟩

theorem Mem.Recounts.next (recounts : mem'.Recounts mem) : mem'.next = mem.next := by
  funext p
  cases here : mem.nodes p with
  | none =>
    have := recounts.nodes p
    rw [here] at this
    rw [Mem.next, Mem.next, here, Option.map_eq_none_iff.mp this]
  | some node =>
    obtain ⟨_, there⟩ := recounts.node here
    rw [Mem.next, Mem.next, here, there]
    rfl

theorem Mem.Recounts.set {p : Ptr} {node : HashNode} (here : mem.nodes p = some node)
    (counter : BitVec 14) :
    (mem.set p { node with list.counter := counter }).Recounts mem := by
  refine ⟨fun q => ?_, rfl⟩
  by_cases same : q = p
  · subst same
    rw [set_self, here]
    rfl
  · rw [set_of_ne same]

theorem takeCounters_spec (path : Path mem.next prev rest head) (out : head ∉ rest)
    (nodup : rest.Nodup) (nodes : ∀ p ∈ rest, ∃ node, mem.nodes p = some node) (counters : List Nat)
    {room : Nat} (enough : rest.length < room) {p : Ptr} (first : mem.next prev = some p) :
    ∃ mem', takeCounters head room mem p counters = some (mem', counters ++ rest.map mem.counter) ∧
      mem'.Recounts mem := by
  induction rest generalizing mem prev room counters p with
  | nil =>
    obtain ⟨room, rfl⟩ := Nat.exists_eq_add_one_of_ne_zero (show room ≠ 0 by omega)
    cases first.symm.trans path
    refine ⟨mem, ?_, .refl mem⟩
    rw [takeCounters, if_pos rfl, List.map_nil, List.append_nil]
  | cons c rest ih =>
    obtain ⟨room, rfl⟩ := Nat.exists_eq_add_one_of_ne_zero (show room ≠ 0 by omega)
    cases first.symm.trans path.1
    obtain ⟨tmp, here⟩ := nodes c List.mem_cons_self
    obtain ⟨outC, nodup'⟩ := List.nodup_cons.mp nodup
    have ne : c ≠ head := fun eq => out (eq ▸ List.mem_cons_self)
    have recounts : (mem.set c { tmp with list.counter := 0 }).Recounts mem := .set here 0
    have others : ∀ q ∈ rest, (mem.set c { tmp with list.counter := 0 }).nodes q = mem.nodes q := by
      intro q later
      refine Mem.set_of_ne ?_
      rintro rfl
      exact outC later
    have step : (mem.set c { tmp with list.counter := 0 }).next c = some tmp.list.addr := by
      rw [recounts.next, Mem.next, here]
      rfl
    have path' : Path (mem.set c { tmp with list.counter := 0 }).next c rest head := by
      rw [recounts.next]
      exact path.2
    obtain ⟨mem', taken, recounts'⟩ :=
      ih path' (fun later => out (List.mem_cons_of_mem c later)) nodup' (fun q later => by
        rw [others q later]
        exact nodes q (List.mem_cons_of_mem c later)) (counters ++ [tmp.list.counter.toNat])
      (show rest.length < room by rw [List.length_cons] at enough; omega) step
    refine ⟨mem', ?_, recounts'.trans recounts⟩
    have same : rest.map (mem.set c { tmp with list.counter := 0 }).counter =
        rest.map mem.counter :=
      List.map_congr_left fun q later => by
        rw [Mem.counter, Mem.node, others q later, Mem.counter, Mem.node]
    rw [takeCounters, if_neg ne, here]
    dsimp only [bind, Option.bind]
    rw [taken, same, List.append_assoc, List.map_cons, List.singleton_append, Mem.counter,
      Mem.node_eq here]

theorem walkTo_spec (path : Path mem.next prev rest head) (out : head ∉ rest) (nr i : Nat)
    {fuel : Nat} (enough : rest.length < fuel) {p : Ptr} (first : mem.next prev = some p) :
    walkTo mem head nr fuel i p = some (if i ≤ nr then (rest[nr - i]?).getD 0 else 0) := by
  induction rest generalizing prev fuel i p with
  | nil =>
    obtain ⟨fuel, rfl⟩ := Nat.exists_eq_add_one_of_ne_zero (show fuel ≠ 0 by omega)
    cases first.symm.trans path
    rw [walkTo, if_pos rfl]
    simp
  | cons c rest ih =>
    obtain ⟨fuel, rfl⟩ := Nat.exists_eq_add_one_of_ne_zero (show fuel ≠ 0 by omega)
    cases first.symm.trans path.1
    have ne : c ≠ head := fun eq => out (eq ▸ List.mem_cons_self)
    rw [walkTo, if_neg ne]
    by_cases here : i = nr
    · subst here
      simp
    · obtain ⟨q, step⟩ : ∃ q, mem.next c = some q := by
        cases rest with
        | nil => exact ⟨head, path.2⟩
        | cons d rest => exact ⟨d, path.2.1⟩
      rw [if_neg here, step]
      dsimp only [bind, Option.bind]
      rw [ih path.2 (fun later => out (List.mem_cons_of_mem c later)) (i + 1)
        (by rw [List.length_cons] at enough; omega) step]
      by_cases le : i + 1 ≤ nr
      · rw [if_pos le, if_pos (by omega), show nr - i = nr - (i + 1) + 1 by omega,
          List.getElem?_cons_succ]
      · rw [if_neg le, if_neg (by omega)]

theorem foldl_add_eq_sum (f : Nat → ℚ) (n : Nat) :
    (List.range n).foldl (fun a i => a + f i) 0 = ∑ i ∈ Finset.range n, f i := by
  induction n with
  | zero => rfl
  | succ n ih => rw [List.range_succ, List.foldl_append, ih, Finset.sum_range_succ]; rfl

theorem income_eq (counters : List Nat) (total : ℚ) (lt : t < counters.length) :
    income counters total t = along (countAt counters) counters.length t / total := by
  rw [income, foldl_add_eq_sum, along, Nat.cast_sum, Finset.sum_div]
  refine Finset.sum_congr rfl fun i mem_ => ?_
  have index := Finset.mem_range.mp mem_
  have distance : (((i : ℤ) - t).tmod counters.length).natAbs = i - t + (t - i) := by
    rw [Int.natAbs_tmod, Int.natAbs_natCast, Nat.mod_eq_of_lt (by omega)]
    omega
  rw [distance, Nat.cast_mul, countAt]
  ring

/-- What the outer loop has found after `n` turns: the first of the cheapest nodes, if they are
cheap enough. -/
structure Hottest.Of (f : Nat → ℚ) (n : Nat) (s : Hottest) : Prop where
  head : 0 < n → s.headIncome = f 0
  best : (∀ u < n, 1000000000 ≤ f u) ∧ s.minIncome = 1000000000 ∧ s.nrHottest = 0 ∨
    s.nrHottest < n ∧ s.minIncome = f s.nrHottest ∧ f s.nrHottest < 1000000000 ∧
      (∀ u < n, f s.nrHottest ≤ f u) ∧ ∀ u < s.nrHottest, f s.nrHottest < f u

theorem Hottest.Of.turn {f : Nat → ℚ} {n : Nat} {s : Hottest} (of : s.Of f n) :
    (s.turn n (f n)).Of f (n + 1) := by
  have turned : (s.turn n (f n)).headIncome = (if n = 0 then f n else s.headIncome) ∧
      (if f n < s.minIncome then (s.turn n (f n)).minIncome = f n ∧ (s.turn n (f n)).nrHottest = n
        else (s.turn n (f n)).minIncome = s.minIncome ∧
          (s.turn n (f n)).nrHottest = s.nrHottest) := by
    unfold Hottest.turn
    dsimp only
    by_cases zero : n = 0 <;> simp only [zero, if_true, if_false] <;> split_ifs <;>
      exact ⟨rfl, rfl, rfl⟩
  generalize s.turn n (f n) = s' at turned
  obtain ⟨head, best⟩ := turned
  refine ⟨fun _ => ?_, ?_⟩
  · rw [head]
    split_ifs with zero
    · rw [zero]
    · exact of.head (Nat.pos_of_ne_zero zero)
  · split_ifs at best with less
    · obtain ⟨min, nr⟩ := best
      right
      have all : ∀ u < n, f n < f u ∧ f n < 1000000000 := by
        intro u lt
        rcases of.best with ⟨high, eq, _⟩ | ⟨_, eq, low, least, _⟩
        · exact ⟨(eq ▸ less).trans_le (high u lt), eq ▸ less⟩
        · exact ⟨(eq ▸ less).trans_le (least u lt), (eq ▸ less).trans low⟩
      have cheap : f n < 1000000000 := by
        rcases of.best with ⟨_, eq, _⟩ | ⟨_, eq, low, _⟩
        · exact eq ▸ less
        · exact (eq ▸ less).trans low
      rw [nr]
      refine ⟨n.lt_succ_self, min, cheap, fun u lt => ?_, fun u lt => (all u lt).1⟩
      rcases Nat.lt_succ_iff_lt_or_eq.mp lt with before | rfl
      · exact (all u before).1.le
      · exact le_rfl
    · obtain ⟨min, nr⟩ := best
      rw [min, nr]
      refine of.best.imp (fun ⟨high, eq, zero⟩ => ⟨fun u lt => ?_, eq, zero⟩) fun ⟨lt, eq, low,
          least, first⟩ =>
        ⟨lt.trans n.lt_succ_self, eq, low, fun u less' => ?_, first⟩
      · rcases Nat.lt_succ_iff_lt_or_eq.mp lt with before | rfl
        · exact high u before
        · exact eq ▸ not_lt.mp less
      · rcases Nat.lt_succ_iff_lt_or_eq.mp less' with before | rfl
        · exact least u before
        · exact eq ▸ not_lt.mp less

theorem findHottest_spec (counters : List Nat) (total : ℚ) :
    (findHottest counters total).Of (income counters total) counters.length := by
  unfold findHottest
  generalize counters.length = n
  induction n with
  | zero => exact ⟨fun lt => absurd lt (lt_irrefl 0),
    Or.inl ⟨fun u lt => absurd lt (Nat.not_lt_zero u), rfl, rfl⟩⟩
  | succ n ih =>
    rw [List.range_succ, List.foldl_append]
    exact ih.turn

/-- The counters are cheap enough to reach from `t` for the loop to find it. -/
def Found (counters : List Nat) (total : Nat) (t : Nat) : Prop :=
  let cost := along (countAt counters) counters.length t
  cost < 1000000000 * total ∨ t = 0 ∧ cost = 1000000000 * total

/-- The loop finds the median, or nothing. -/
theorem findHottest_eq {total : Nat} (pos : 0 < total)
    (median : Median (countAt counters) counters.length t) :
    let found :=
  findHottest counters total
    (Found counters total t → (found.minIncome = found.headIncome ↔ t = 0) ∧
      (t ≠ 0 → found.nrHottest = t)) ∧
      (¬ Found counters total t → found.minIncome ≠ found.headIncome ∧ found.nrHottest = 0) := by
  have lt := median.1
  have cast : (0 : ℚ) < total := Nat.cast_pos.mpr pos
  have le_iff : ∀ u < counters.length, ∀ v < counters.length, income counters total u ≤
    income counters total v ↔
      along (countAt counters) counters.length u ≤ along (countAt counters) counters.length v := by
    intro u lessU v lessV
    rw [income_eq counters total lessU, income_eq counters total lessV,
      div_le_div_iff_of_pos_right cast, Nat.cast_le]
  have cheap_iff : ∀ u < counters.length, income counters total u < 1000000000 ↔
      along (countAt counters) counters.length u < 1000000000 * total := by
    intro u less
    rw [income_eq counters total less, div_lt_iff₀ cast]
    exact_mod_cast Iff.rfl
  have bound_iff : ∀ u < counters.length, income counters total u = 1000000000 ↔
      along (countAt counters) counters.length u = 1000000000 * total := by
    intro u less
    rw [income_eq counters total less, div_eq_iff cast.ne']
    exact_mod_cast Iff.rfl
  obtain ⟨head, best⟩ := findHottest_spec counters total
  have pos' : 0 < counters.length := Nat.zero_lt_of_lt lt
  have head := head pos'
  generalize findHottest counters total = found at head best
  dsimp only
  rcases best with ⟨high, min, nr⟩ | ⟨less, min, low, least, first⟩
  · have dear : ¬ along (countAt counters) counters.length t < 1000000000 * total :=
      mt (cheap_iff t lt).mpr (not_lt.mpr (high t lt))
    have same : found.minIncome = found.headIncome ↔ along (countAt counters) counters.length 0 =
        1000000000 * total := by
      rw [min, head, eq_comm, bound_iff 0 pos']
    simp only [ne_eq, same]
    refine ⟨fun is => ?_, fun isnt => ⟨fun eq => isnt (Or.inr ?_), nr⟩⟩
    · obtain ⟨rfl, eq⟩ := is.resolve_left dear
      exact ⟨⟨fun _ => rfl, fun _ => eq⟩, fun ne => absurd rfl ne⟩
    · -- the head is as cheap as the bound, which no node is below
      have zero : t = 0 := by
        by_contra ne
        exact dear (eq ▸ median.along_lt (Nat.pos_of_ne_zero ne))
      exact ⟨zero, zero ▸ eq⟩
  · have at_ : found.nrHottest = t := by
      refine median.unique less (fun v lessV => (le_iff _ less v lessV).mp (least v lessV))
        fun v before => ?_
      have := mt (le_iff v (before.trans less) _ less).mpr (not_le.mpr (first v before))
      omega
    rw [at_] at min low first
    rw [min, head]
    refine ⟨fun _ => ⟨⟨fun eq => ?_, fun zero => by rw [zero]⟩, fun _ => at_⟩,
      fun isnt => absurd (Or.inl ((cheap_iff t lt).mp low)) isnt⟩
    by_contra ne
    exact (first 0 (Nat.pos_of_ne_zero ne)).ne eq

theorem doHotspotShift_spec {head : Head} (links : Ring mem.next (head.node :: rest))
    (size : rest.length < 100000) (pos : 0 < head.counter.toNat)
    (median : Median (countAt ((head.node :: rest).map mem.counter)) (rest.length + 1) t) :
    ∃ mem' head' ret, doHotspotShift mem head = some (mem', head', ret) ∧
      (Found ((head.node :: rest).map mem.counter) head.counter.toNat t →
        (head.node :: rest)[t]? = some head'.node) ∧
      (¬ Found ((head.node :: rest).map mem.counter) head.counter.toNat t → head'.node = 0) := by
  have nodes : ∀ p ∈ head.node :: rest, ∃ node, mem.nodes p = some node := by
    intro p here
    obtain ⟨q, link⟩ := links.exists_next here
    obtain ⟨node, at_, _⟩ := Option.map_eq_some_iff.mp link
    exact ⟨node, at_⟩
  obtain ⟨headNode, here⟩ := nodes head.node List.mem_cons_self
  obtain ⟨out, nodup⟩ := List.nodup_cons.mp links.2
  have reset : (mem.set head.node { headNode with list.counter := 0 }).Recounts mem := .set here 0
  have others : ∀ p ∈ rest, (mem.set head.node { headNode with list.counter := 0 }).nodes p =
      mem.nodes p := by
    intro p later
    refine Mem.set_of_ne ?_
    rintro rfl
    exact out later
  have first : (mem.set head.node { headNode with list.counter := 0 }).next head.node =
      some headNode.list.addr := by
    rw [reset.next, Mem.next, here]
    rfl
  have path : Path (mem.set head.node { headNode with list.counter := 0 }).next head.node rest
      head.node := by
    rw [reset.next]
    exact links.1
  obtain ⟨mem', taken, recounts⟩ := takeCounters_spec path out nodup (fun p later => by
    rw [others p later]
    exact nodes p (List.mem_cons_of_mem _ later)) [headNode.list.counter.toNat] size first
  have counters : [headNode.list.counter.toNat] ++
    rest.map (mem.set head.node { headNode with list.counter := 0 }).counter =
      (head.node :: rest).map mem.counter := by
    rw [List.map_cons, List.singleton_append, Mem.counter, Mem.node_eq here]
    exact congrArg _ (List.map_congr_left fun q later => by rw [Mem.counter, Mem.node,
      others q later, Mem.counter, Mem.node])
  rw [counters] at taken
  have length : ((head.node :: rest).map mem.counter).length = rest.length + 1 := by
    rw [List.length_map, List.length_cons]
  rw [← length] at median
  obtain ⟨hit, miss⟩ := findHottest_eq pos median
  have walked : ∀ nr, walkTo mem' head.node nr ((head.node :: rest).map mem.counter).length 1
    headNode.list.addr = some (if 1 ≤ nr then (rest[nr - 1]?).getD 0 else 0) := by
    intro nr
    have next : mem'.next = mem.next := (recounts.trans reset).next
    refine walkTo_spec (by rw [next]; exact links.1) out nr 1 (by rw [length]; omega) ?_
    rw [next, Mem.next, here]
    rfl
  generalize (head.node :: rest).map mem.counter = counters at taken length median hit miss walked
  unfold doHotspotShift
  rw [here]
  dsimp only [bind, Option.bind]
  rw [taken]
  dsimp only
  by_cases is : Found counters head.counter.toNat t
  · obtain ⟨same, nr⟩ := hit is
    by_cases zero : t = 0
    · rw [if_pos (same.mpr zero)]
      exact ⟨_, _, _, rfl, fun _ => by rw [zero]; rfl, fun isnt => absurd is isnt⟩
    · rw [if_neg (mt same.mp zero), walked, nr zero, if_pos (Nat.one_le_iff_ne_zero.mpr zero)]
      refine ⟨_, _, _, rfl, fun _ => ?_, fun isnt => absurd is isnt⟩
      obtain ⟨t, rfl⟩ := Nat.exists_eq_add_one_of_ne_zero zero
      rw [List.getElem?_cons_succ, Nat.add_sub_cancel,
        List.getElem?_eq_getElem (by have := median.1; omega)]
      rfl
  · obtain ⟨ne, nr⟩ := miss is
    rw [if_neg ne, walked, nr, if_neg (by decide)]
    exact ⟨_, _, _, rfl, fun found => absurd found is, fun _ => rfl⟩

/-- The head comes to a node with the fewest steps to the entries, by their counters. -/
def ShiftsToBest (mem : Mem) (head : Head) (ring : List Ptr) : Prop :=
  ∃ mem' head' ret t, doHotspotShift mem head = some (mem', head', ret) ∧
    ring[t]? = some head'.node ∧
    ∀ u < ring.length, around (countAt (ring.map mem.counter)) ring.length t ≤
      around (countAt (ring.map mem.counter)) ring.length u

/-- The head comes to the best node exactly when the median of the counters, which the loops find if
it is cheap enough, is one from which every stretch of the ring has its share of them. -/
theorem shiftsToBest_iff_share (mem : Mem) (head : Head) (rest : List Ptr)
    (links : Ring mem.next (head.node :: rest)) (null : 0 ∉ head.node :: rest)
    (size : (head.node :: rest).length ≤ 100000) (pos : 0 < head.counter.toNat) :
    ShiftsToBest mem head (head.node :: rest) ↔
      ∃ t, Median (countAt ((head.node :: rest).map mem.counter)) (head.node :: rest).length t ∧
      Share (countAt ((head.node :: rest).map mem.counter)) (head.node :: rest).length t ∧
      Found ((head.node :: rest).map mem.counter) head.counter.toNat t := by
  have lt : rest.length < 100000 := size
  constructor
  · rintro ⟨mem', head', ret, t, done, at_, least⟩
    obtain ⟨t', median⟩ :=
      exists_median (countAt ((head.node :: rest).map mem.counter)) (Nat.zero_lt_succ rest.length)
    obtain ⟨_, _, _, done', found, lost⟩ := doHotspotShift_spec links lt pos median
    cases done.symm.trans done'
    have is : Found ((head.node :: rest).map mem.counter) head.counter.toNat t' := by
      by_contra isnt
      rw [lost isnt] at at_
      exact null (List.mem_of_getElem? at_)
    have same : t' = t := (List.getElem?_inj median.1 links.2).mp ((found is).trans at_.symm)
    subst same
    exact ⟨t', median, (share_iff median.1).mpr least, is⟩
  · rintro ⟨t, median, share, is⟩
    obtain ⟨mem', head', ret, done, found, _⟩ := doHotspotShift_spec links lt pos median
    exact ⟨mem', head', ret, t, done, found is, (share_iff median.1).mp share⟩

def threeEntries (a b c : BitVec 14) : Mem where
  nodes p := match p with
    | 1 => some ⟨⟨2, a⟩, 0, 0, 0⟩
    | 2 => some ⟨⟨3, b⟩, 1, 1, 0⟩
    | 3 => some ⟨⟨1, c⟩, 2, 2, 0⟩
    | _ => none
  fresh := 4

/-- The head comes to the second node, which has three of the four accesses. -/
theorem shiftsToBest_iff_share_second : ShiftsToBest (threeEntries 0 3 1) ⟨1, 4⟩ [1, 2, 3] := by
  refine (shiftsToBest_iff_share (threeEntries 0 3 1) ⟨1, 4⟩ [2, 3] ⟨⟨rfl, rfl, rfl⟩, by decide⟩
    (by decide) (by decide) (by decide)).mpr ⟨1, by decide, by decide, ?_⟩
  exact Or.inl (by decide)

/-- With the accesses at the head and at the last node, the head stays, two steps from the last
node, which is one step from the head. -/
theorem head_stays_behind_last : ¬ ShiftsToBest (threeEntries 1 0 1) ⟨1, 2⟩ [1, 2, 3] := by
  rintro ⟨mem', head', ret, t, done, at_, least⟩
  have stays : (doHotspotShift (threeEntries 1 0 1) ⟨1, 2⟩).map (fun r => r.2.1.node) = some 1 := by
    decide +kernel
  rw [done] at stays
  have node : head'.node = 1 := Option.some.inj stays
  rw [node] at at_
  match t with
  | 0 => exact absurd (least 2 (by decide)) (by decide)
  | 1 => cases at_
  | 2 => cases at_
  | _ + 3 => cases at_

end

end Xcache.HotRing
